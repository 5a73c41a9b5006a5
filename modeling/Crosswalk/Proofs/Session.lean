import Crosswalk.Proofs.Batch
import Crosswalk.Proofs.Options

/-!
# Documents by name

A document is asked for by the name of its file or by its own. The name of a file goes before that of
a document, so the document of each file is found by the name of the file; and a document is found by
its own name unless another file of the batch has that name. Registration keeps the names of the files
apart, and those of the documents, but not the ones from the others. With a plain extension that is
enough, except for the files without a name of their own.

What a session remembers is its last batch, as long as that succeeded. Asking for documents changes
nothing.
-/

namespace Crosswalk

namespace Batch

variable {options : Options} {files : List (String × String)} {batch : Batch} {name : String}
  {d e : Document}

/-- No two documents have one name, and no two are those of one file. -/
structure IsProper (batch : Batch) : Prop where
  source : ∀ d ∈ batch.documents, ∀ e ∈ batch.documents, d.source = e.source → d = e
  identifier : ∀ d ∈ batch.documents, ∀ e ∈ batch.documents, d.identifier = e.identifier → d = e

theorem isProper_of_ofFiles (h : ofFiles options files = .ok batch) : batch.IsProper := by
  have hdocuments := (succeeds_of_ofFiles h).documents
  constructor <;> intro d hd e he heq <;> rw [hdocuments] at hd he <;>
    obtain ⟨file, hfile, rfl⟩ := List.mem_map.1 hd <;>
    obtain ⟨other, hother, rfl⟩ := List.mem_map.1 he
  · rw [isProper_catalogOf.ofFilename file hfile other hother heq]
  · rw [isProper_catalogOf.ofIdentifier file hfile other hother heq]

/-- What is found by a name is the document of the file with that name, and if there is none, the
document that has the name itself. -/
theorem document?_eq_ok_iff (h : batch.IsProper) : batch.document? name = .ok d ↔
    d ∈ batch.documents ∧
      (d.source = name ∨ d.identifier = name ∧ ∀ e ∈ batch.documents, e.source ≠ name) := by
  unfold document?
  dsimp only
  cases hs : batch.documents.find? fun d => d.source == name with
  | some e =>
      have he := List.mem_of_find?_eq_some hs
      have hname : e.source = name := by simpa using List.find?_some hs
      rw [Option.some_or]
      constructor
      · intro hd
        obtain rfl := Except.ok.inj hd
        exact ⟨he, .inl hname⟩
      · rintro ⟨hd, hsource | ⟨-, hnone⟩⟩
        · rw [h.source d hd e he (hsource.trans hname.symm)]
        · exact absurd hname (hnone e he)
  | none =>
      have hnone : ∀ e ∈ batch.documents, e.source ≠ name := by
        simpa using List.find?_eq_none.1 hs
      rw [Option.none_or]
      cases hi : batch.documents.find? fun d => d.identifier == name with
      | some e =>
          have he := List.mem_of_find?_eq_some hi
          have hname : e.identifier = name := by simpa using List.find?_some hi
          constructor
          · intro hd
            obtain rfl := Except.ok.inj hd
            exact ⟨he, .inr ⟨hname, hnone⟩⟩
          · rintro ⟨hd, hsource | ⟨hidentifier, -⟩⟩
            · exact absurd hsource (hnone d hd)
            · rw [h.identifier d hd e he (hidentifier.trans hname.symm)]
      | none =>
          have hother : ∀ e ∈ batch.documents, e.identifier ≠ name := by
            simpa using List.find?_eq_none.1 hi
          constructor
          · intro hd
            cases hd
          · rintro ⟨hd, hsource | ⟨hidentifier, -⟩⟩
            · exact absurd hsource (hnone d hd)
            · exact absurd hidentifier (hother d hd)

/-- The document of a file is found by the name of the file. -/
theorem document?_source (h : batch.IsProper) (hd : d ∈ batch.documents) :
    batch.document? d.source = .ok d :=
  (document?_eq_ok_iff h).2 ⟨hd, .inl rfl⟩

/-- A document is found by its own name unless that is the name of another file. -/
theorem document?_identifier_iff (h : batch.IsProper) (hd : d ∈ batch.documents) :
    batch.document? d.identifier = .ok d ↔
      ∀ e ∈ batch.documents, e.source = d.identifier → e = d := by
  rw [document?_eq_ok_iff h]
  constructor
  · rintro ⟨-, hsource | ⟨-, hnone⟩⟩ e he heq
    · exact h.source e he d hd (heq.trans hsource.symm)
    · exact absurd heq (hnone e he)
  · intro hsame
    refine ⟨hd, ?_⟩
    by_cases hown : d.source = d.identifier
    · exact .inl hown
    · refine .inr ⟨rfl, fun e he heq => hown ?_⟩
      rw [← hsame e he heq, heq, hsame e he heq]

/-- The document of a file has the name that the options give it. -/
theorem identifier_of_mem_documents (h : ofFiles options files = .ok batch)
    (hd : d ∈ batch.documents) : d.identifier = options.identifierOf d.source := by
  rw [(succeeds_of_ofFiles h).documents] at hd
  obtain ⟨file, hfile, rfl⟩ := List.mem_map.1 hd
  exact (Registry.IsProper.collect options files).identifier hfile

/-- With a plain extension, no other file has the name of a document, if its own file has a name. -/
theorem eq_of_source_eq_identifier (h : ofFiles options files = .ok batch)
    (hplain : Options.IsPlain options.outputExtension) (hd : d ∈ batch.documents)
    (hname : Options.baseName d.source.toList ≠ []) (he : e ∈ batch.documents)
    (heq : e.source = d.identifier) : e = d := by
  refine (isProper_of_ofFiles h).identifier e he d hd ?_
  rw [identifier_of_mem_documents h he, heq, identifier_of_mem_documents h hd,
    Options.identifierOf_identifierOf hplain hname]

end Batch

namespace Session

/-- What is asked of a session. -/
inductive Operation where
  /-- To run a batch. -/
  | process (files : List (String × String))
  /-- To give a document of the last one. -/
  | get (name : String)

/-- The files of an operation that runs a batch. -/
def Operation.files? : Operation → Option (List (String × String))
  | .process files => some files
  | .get _ => none

/-- The session after an operation. -/
def perform (session : Session) : Operation → Session
  | .process files => (session.process files).1
  | .get _ => session

/-- The session after some operations. -/
def run (session : Session) (operations : List Operation) : Session :=
  operations.foldl perform session

/-- The files of the last batch that was run. -/
def lastFiles? (operations : List Operation) : Option (List (String × String)) :=
  (operations.filterMap Operation.files?).getLast?

variable {session : Session} {options : Options} {name : String} {d : Document}

theorem run_append (operations : List Operation) (operation : Operation) :
    session.run (operations ++ [operation]) = (session.run operations).perform operation := by
  rw [run, List.foldl_append]
  rfl

theorem lastFiles?_append (operations : List Operation) (operation : Operation) :
    lastFiles? (operations ++ [operation]) = operation.files?.or (lastFiles? operations) := by
  unfold lastFiles?
  rw [List.filterMap_append, List.getLast?_append]
  cases operation <;> rfl

theorem perform_options (operation : Operation) : (session.perform operation).options =
    session.options := by
  cases operation <;> rfl

/-- An operation that runs a batch leaves behind what comes of it, and nothing else is changed. -/
theorem perform_last (operation : Operation) : (session.perform operation).last =
    match operation.files? with
    | some files => (Batch.ofFiles session.options files).toOption
    | none => session.last := by
  cases operation <;> rfl

theorem run_options (operations : List Operation) : (session.run operations).options =
    session.options := by
  induction operations using List.reverseRecOn with
  | nil => rfl
  | append_singleton rest operation ih => rw [run_append, perform_options, ih]

theorem ok_of_toOption {ε α : Type} {result : Except ε α} {a : α}
    (h : result.toOption = some a) : result = .ok a := by
  cases result with
  | error e => cases h
  | ok b => exact congrArg Except.ok (Option.some.inj h)

/-- What a new session remembers is what came of the last batch that was run. -/
theorem run_last (operations : List Operation) : ((Session.mk options none).run operations).last =
    (lastFiles? operations).bind fun files => (Batch.ofFiles options files).toOption := by
  induction operations using List.reverseRecOn with
  | nil => rfl
  | append_singleton rest operation ih =>
      rw [run_append, perform_last, run_options, lastFiles?_append, ih]
      cases operation <;> rfl

theorem document?_eq_ok_iff : session.document? name = .ok d ↔
    ∃ batch, session.last = some batch ∧ batch.document? name = .ok d := by
  unfold document?
  cases session.last with
  | some batch => simp
  | none => simp

/-- Documents are found under the names of their files, and under their own unless another file has
that name, which no other file can have if the extension is plain. Whatever was asked of a session
before, it gives a document if and only if the batch that was run last succeeded, and then one of
that batch: that of the file with the name, or if there is none, the one that has the name. -/
theorem documents_found (options : Options) :
    (∀ files batch, Batch.ofFiles options files = .ok batch → ∀ d ∈ batch.documents,
      batch.document? d.source = .ok d ∧
      (batch.document? d.identifier = .ok d ↔
        ∀ e ∈ batch.documents, e.source = d.identifier → e = d) ∧
      (Options.IsPlain options.outputExtension → Options.baseName d.source.toList ≠ [] →
        batch.document? d.identifier = .ok d)) ∧
    ∀ operations name d, ((Session.mk options none).run operations).document? name = .ok d ↔
      ∃ files batch, lastFiles? operations = some files ∧ Batch.ofFiles options files = .ok batch ∧
        d ∈ batch.documents ∧
        (d.source = name ∨ d.identifier = name ∧ ∀ e ∈ batch.documents, e.source ≠ name) := by
  constructor
  · intro files batch h d hd
    have hproper := Batch.isProper_of_ofFiles h
    refine ⟨Batch.document?_source hproper hd, Batch.document?_identifier_iff hproper hd,
      fun hplain hname => (Batch.document?_identifier_iff hproper hd).2 fun e he => ?_⟩
    exact Batch.eq_of_source_eq_identifier h hplain hd hname he
  · intro operations name d
    rw [document?_eq_ok_iff, run_last]
    constructor
    · rintro ⟨batch, hlast, hd⟩
      obtain ⟨files, hfiles, hbatch⟩ := Option.bind_eq_some_iff.1 hlast
      have h := ok_of_toOption hbatch
      exact ⟨files, batch, hfiles, h,
        (Batch.document?_eq_ok_iff (Batch.isProper_of_ofFiles h)).1 hd⟩
    · rintro ⟨files, batch, hfiles, h, hd⟩
      exact ⟨batch, by rw [hfiles, Option.bind_some, h]; rfl,
        (Batch.document?_eq_ok_iff (Batch.isProper_of_ofFiles h)).2 hd⟩

/-- Documents are to end in the extension that the second file below has. -/
def doublyExtended : Options := { outputExtension := "schema.json" }

/-- Two files without declarations, of which the second is named like the document of the first. -/
def namesakes : List (String × String) := [
  ("a.xsd", "<s:schema xmlns:s='http://www.w3.org/2001/XMLSchema'/>"),
  ("a.schema.json", "<s:schema xmlns:s='http://www.w3.org/2001/XMLSchema'/>")]

theorem collect_namesakes : Batch.collect doublyExtended namesakes =
    Batch.collectParts doublyExtended (fun _ => Xml.schemaParts []) namesakes := by
  refine Batch.collect_of_events fun file hfile => ?_
  have htext : file.2 = "<s:schema xmlns:s='http://www.w3.org/2001/XMLSchema'/>" := by
    simp only [namesakes, List.mem_cons, List.not_mem_nil, or_false] at hfile
    obtain rfl | rfl := hfile <;> rfl
  rw [htext, Xml.events?_trimStart String.toList_ofList]
  cbv

theorem isOk_namesakes : (Batch.ofFiles doublyExtended namesakes).isOk = true ∧
    (Batch.catalogOf doublyExtended namesakes).files.map (fun f => (f.filename, f.identifier)) =
      [("a.schema.json", "a.schema.schema.json"), ("a.xsd", "a.schema.json")] := by
  refine And.imp_left Batch.isOk_of_problemsOf ?_
  rw [Batch.problemsOf, Batch.linkageOf, Batch.catalogOf, collect_namesakes]
  decide +kernel

/-- Under the name of its document, the first file is not found. -/
theorem documents_found_namesakes : ∃ batch d e,
    Batch.ofFiles doublyExtended namesakes = .ok batch ∧ d ∈ batch.documents ∧
    e ∈ batch.documents ∧ e.source = d.identifier ∧ batch.document? d.source = .ok d ∧
    batch.document? d.identifier ≠ .ok d ∧
    ((Session.mk doublyExtended none).run [.process namesakes, .get ""]).document? d.source =
      .ok d := by
  obtain ⟨hok, hfiles⟩ := isOk_namesakes
  obtain ⟨batch, h⟩ := Batch.ok_of_isOk hok
  have hnames : batch.documents.map (fun d => (d.source, d.identifier)) =
      [("a.schema.json", "a.schema.schema.json"), ("a.xsd", "a.schema.json")] := by
    rw [(Batch.succeeds_of_ofFiles h).documents, Batch.documentsOf, List.map_map]
    exact hfiles
  obtain ⟨e, rest, hdocuments, hnamed, hrest⟩ := List.map_eq_cons_iff.1 hnames
  obtain ⟨d, rest, rfl, hnamed', -⟩ := List.map_eq_cons_iff.1 hrest
  obtain ⟨hsource, -⟩ := Prod.mk.inj hnamed
  obtain ⟨hsource', hidentifier⟩ := Prod.mk.inj hnamed'
  have hd : d ∈ batch.documents := by simp [hdocuments]
  have he : e ∈ batch.documents := by simp [hdocuments]
  have hsame : e.source = d.identifier := hsource.trans hidentifier.symm
  obtain ⟨found, sessions⟩ := documents_found doublyExtended
  obtain ⟨hfound, hown, -⟩ := found namesakes batch h d hd
  refine ⟨batch, d, e, h, hd, he, hsame, hfound, fun hget => ?_,
    (sessions _ _ _).2 ⟨namesakes, batch, rfl, h, hd, .inl rfl⟩⟩
  have heq : e.source = d.source := congrArg _ (hown.1 hget e he hsame)
  rw [hsource, hsource'] at heq
  exact absurd heq (by decide)

end Session

end Crosswalk

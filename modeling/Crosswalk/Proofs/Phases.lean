import Crosswalk.Proofs.Problem
import Crosswalk.Proofs.Collection
import Crosswalk.Proofs.Schema.Arrangement

/-!
# What a batch reports

The problems of a batch are those of the phases that it goes through, and the first phase with a
fatal problem is the last. The first phase takes the files in and reads them; if it has a fatal
problem, every file is reported that was refused, and of every other file all that was met when it
was read.
-/

namespace Crosswalk

namespace Schema

variable {setting : Setting} {root : Construct}

/-- What is noted when a construct at the top of a document is read. -/
def notesOf (setting : Setting) (root c : Construct) : List Problem :=
  ((topLevel setting (ofRoot setting root) c []).toOption.map (·.2)).getD []

/-- Constructs are read one after the other, and so is noted what is passed over. -/
theorem notes_of_topLevels (root : Construct) {cs : List Construct} {t : Schema}
    {more : List Problem} : ∀ {s : Schema} {notes : List Problem},
    topLevels setting s cs notes = .ok (t, more) →
      more = notes ++ cs.flatMap (notesOf setting root) := by
  induction cs with
  | nil =>
      intro s notes h
      obtain ⟨-, rfl⟩ := Prod.mk.inj (Except.ok.inj h)
      exact (List.append_nil _).symm
  | cons c rest ih =>
      intro s notes h
      have hrun : topLevels setting s (c :: rest) notes = (topLevel setting s c notes >>=
        fun r => topLevels setting r.1 rest r.2) := rfl
      rw [hrun, topLevel_eq root] at h
      cases hc : topLevel setting (ofRoot setting root) c [] with
      | error reason =>
          rw [hc] at h
          cases h
      | ok r =>
          have hnotes : notesOf setting root c = r.2 := by
            rw [notesOf, hc]
            rfl
          rw [hc] at h
          rw [ih h, List.flatMap_cons, hnotes, List.append_assoc]

/-- The notes about a document that is read are those about the constructs at its top, in the order
of the document. -/
theorem notes_of_ofText {filename text : String} {schema : Schema} {notes : List Problem}
    (h : ofText filename text = .ok (schema, notes)) :
    ∃ root, Xml.Element.ofText? (Text.trimStart text) = some root ∧
      notes = (Construct.ofXml root).children.flatMap
        (notesOf (.ofRoot filename (.ofXml root)) (.ofXml root)) := by
  unfold ofText at h
  split at h
  · cases h
  · next root hroot =>
      split at h
      · dsimp only at h
        split at h
        · next result hr =>
            obtain rfl := Except.ok.inj h
            refine ⟨root, hroot, ?_⟩
            rw [notes_of_topLevels (.ofXml root) hr, List.nil_append]
        · cases h
      · cases h

end Schema

namespace Batch

/-! ### Phases -/

section

variable {problems : List Problem} {phases : List (List Problem)}

/-- The phases that are gone through: one that reports something fatal is the last. -/
def executed : List (List Problem) → List (List Problem)
  | [] => []
  | phase :: rest => phase :: if phase.any Problem.isFatal then [] else executed rest

/-- Goes through phases, with the problems that they have in this case. -/
def through : List (List Problem) → List Problem → Except (List Problem) (List Problem)
  | [], problems => .ok problems
  | phase :: rest, problems => do
    checkpoint (problems ++ phase)
    through rest (problems ++ phase)

/-- As long as nothing fatal has been met, phases fail with all problems of those that are gone
through if one of these is fatal, and else go through with them. -/
theorem through_eq : ∀ {problems}, problems.any Problem.isFatal = false →
    through phases problems =
      if (executed phases).any (·.any Problem.isFatal) then
        .error (Problem.sortByFile (problems ++ (executed phases).flatten))
      else .ok (problems ++ (executed phases).flatten) := by
  induction phases with
  | nil => exact fun _ => congrArg Except.ok (List.append_nil _).symm
  | cons phase rest ih =>
      intro problems hfine
      rw [through, checkpoint, List.any_append, hfine, Bool.false_or, executed, List.any_cons,
        List.flatten_cons]
      cases hphase : phase.any Problem.isFatal with
      | true =>
          rw [if_pos rfl, if_pos rfl, if_pos (Bool.true_or _), List.flatten_nil, List.append_nil]
          rfl
      | false =>
          have hnext : (problems ++ phase).any Problem.isFatal = false := by
            rw [List.any_append, hfine, hphase, Bool.false_or]
          rw [if_neg Bool.false_ne_true, if_neg Bool.false_ne_true, Bool.false_or,
            ← List.append_assoc]
          exact ih hnext

/-- Something fatal is met in the phases that are gone through if and only if it is among all their
problems. -/
theorem any_executed_iff : (executed phases).any (·.any Problem.isFatal) = true ↔
    ∃ phase ∈ executed phases, ∃ p ∈ phase, p.isFatal = true := by
  simp only [List.any_eq_true]

end

/-! ### The phases of a batch -/

variable {options : Options} {files : List (String × String)}

/-- What the phases of a batch report, each as if it was gone through: taking in and reading the
files, linking, conversion, and checking links. -/
def phasesOf (options : Options) (files : List (String × String)) : List (List Problem) := [
  (collect options files).2,
  (Linkage.ofCatalog (catalogOf options files) options.resolution).2,
  (catalogOf options files).files.flatMap fun file =>
    (convert options (linkageOf options files) file).2,
  Document.brokenLinks (documentsOf options files)]

theorem ofFiles_eq_through : ofFiles options files =
    (through (phasesOf options files) []).map fun problems =>
      ⟨documentsOf options files, Problem.sortByFile problems⟩ := by
  have map_bind : ∀ {α β γ : Type} (x : Except (List Problem) α) (f : α → Except (List Problem) β)
      (g : β → γ), (x >>= f).map g = x >>= fun a => (f a).map g := fun x _ _ => by cases x <;> rfl
  rw [ofFiles_eq]
  simp only [phasesOf, through, List.nil_append, map_bind]
  rfl

/-- A batch fails if and only if a phase that it goes through reports something fatal. In any case it
reports what all of these phases report. -/
theorem ofFiles_eq_executed : ofFiles options files =
    if (executed (phasesOf options files)).any (·.any Problem.isFatal) then
      .error (Problem.sortByFile (executed (phasesOf options files)).flatten)
    else .ok ⟨documentsOf options files,
      Problem.sortByFile (executed (phasesOf options files)).flatten⟩ := by
  rw [ofFiles_eq_through, through_eq rfl, List.nil_append]
  split <;> rfl

theorem any_flatten_iff {phases : List (List Problem)} :
    (∃ phase ∈ phases, ∃ p ∈ phase, p.isFatal = true) ↔
      ∃ p ∈ Problem.sortByFile phases.flatten, p.isFatal = true := by
  simp only [Problem.mem_sortByFile, List.mem_flatten]
  constructor
  · rintro ⟨phase, hphase, p, hp, hfatal⟩
    exact ⟨p, ⟨phase, hphase, hp⟩, hfatal⟩
  · rintro ⟨p, ⟨phase, hphase, hp⟩, hfatal⟩
    exact ⟨phase, hphase, p, hp, hfatal⟩

/-- What taking in and reading files reports about one of them: once for each submission of this name
that is refused, and then what was met when the one that is registered was read. -/
def takenIn (options : Options) (files : List (String × String)) (filename : String) :
    List Problem :=
  (((refused options files).filter fun file => file.1 = filename).map
      fun file => .duplicateFile file.1) ++
    ((registered options files).filter fun file => file.1 = filename).flatMap readProblems

theorem filter_collect (filename : String) :
    (collect options files).2.filter (fun p => p.filename = filename) =
      takenIn options files filename := by
  have hread : ((Table.ofList (registered options files)).flatMap readProblems).filter
      (fun p => p.filename = filename) =
        ((registered options files).filter fun file => file.1 = filename).flatMap readProblems := by
    rw [flatMap_leftOut _ fun file _ p hp => by rw [filename_of_mem_readProblems hp],
      Table.filter_ofList_key areApart_registered.filenames]
  rw [collect_eq_registered, List.filter_append, hread, List.filter_map]
  rfl

/-- Reading a file either gives its one fault or notes what is passed over, construct by construct. -/
theorem readProblems_cases (file : String × String) :
    (∃ reason, Schema.ofText file.1 file.2 = .error (.malformed file.1 reason) ∧
      readProblems file = [.malformed file.1 reason]) ∨
    ∃ schema root, Schema.ofText file.1 file.2 = .ok (schema, readProblems file) ∧
      Xml.Element.ofText? (Text.trimStart file.2) = some root ∧
      readProblems file = (Construct.ofXml root).children.flatMap
        (Schema.notesOf (.ofRoot file.1 (.ofXml root)) (.ofXml root)) := by
  cases hread : Schema.ofText file.1 file.2 with
  | error problem =>
      obtain ⟨reason, rfl⟩ := Schema.malformed_of_ofText hread
      exact .inl ⟨reason, rfl, readProblems_of_error hread⟩
  | ok result =>
      obtain ⟨schema, notes⟩ := result
      obtain ⟨root, hroot, hnotes⟩ := Schema.notes_of_ofText hread
      rw [readProblems_of_ok hread]
      exact .inr ⟨schema, root, rfl, hroot, hnotes⟩

theorem readProblems_of_events {file : String × String} {events : List Xml.Event}
    {notes : List Problem} (he : Xml.events? (Text.trimStart file.2) = some events)
    (hn : (Schema.ofEvents file.1 events).toOption.map (·.2) = some notes) :
    readProblems file = notes := by
  rw [← Schema.ofText_of_events he] at hn
  cases hread : Schema.ofText file.1 file.2 with
  | error problem =>
      rw [hread] at hn
      cases hn
  | ok result =>
      rw [hread] at hn
      obtain rfl := Option.some.inj hn
      exact readProblems_of_ok hread

theorem any_readProblems_iff {file : String × String} :
    (readProblems file).any Problem.isFatal = true ↔
      ∃ problem, Schema.ofText file.1 file.2 = .error problem := by
  obtain ⟨reason, hread, hproblems⟩ | ⟨schema, root, hread, -⟩ := readProblems_cases file
  · rw [hproblems, hread]
    exact ⟨fun _ => ⟨_, rfl⟩, fun _ => rfl⟩
  · have hfine : (readProblems file).any Problem.isFatal = false :=
      List.any_eq_false.2 fun p hp => Bool.eq_false_iff.1 (Schema.about_of_ofText hread p hp).2
    rw [hfine, hread]
    simp

/-- Something fatal is met when files are taken in and read if and only if one of them is refused,
or is registered and cannot be read. -/
theorem any_collect_iff : (collect options files).2.any Problem.isFatal = true ↔
    refused options files ≠ [] ∨ ∃ file ∈ registered options files, ∃ problem,
      Schema.ofText file.1 file.2 = .error problem := by
  have hrefused : ((refused options files).map fun file => Problem.duplicateFile file.1).any
      Problem.isFatal = true ↔ refused options files ≠ [] := by
    cases refused options files with
    | nil => simp
    | cons file rest => simp [Problem.isFatal]
  have hperm := Table.ofList_perm_self (@areApart_registered options files).filenames
  rw [collect_eq_registered, List.any_append, Bool.or_eq_true, hrefused, List.any_flatMap,
    List.any_eq_true]
  refine or_congr_right (exists_congr fun file => ?_)
  rw [hperm.mem_iff, any_readProblems_iff]

/-- Linking is not reached if something fatal is met before. -/
theorem ofFiles_of_any_collect (h : (collect options files).2.any Problem.isFatal = true) :
    ofFiles options files = .error (Problem.sortByFile (collect options files).2) := by
  rw [ofFiles_eq_executed, phasesOf, executed, if_pos h, List.flatten_singleton, List.any_cons, h,
    if_pos (Bool.true_or _)]

/-- A batch in which a file is refused or cannot be read fails with every problem met until then: one
for each file that is refused, the one fault of each registered file that cannot be read, and the
notes on each one that can be, which come in the order of the constructs at its top. They are in
order of file, and those about one file in the order in which they were met. Any batch fails if and
only if a phase that it goes through reports something fatal; then something fatal is among its
problems, and nothing is among the diagnostics of a batch that succeeds. -/
theorem ofFiles_reports (options : Options) (files : List (String × String)) :
    ((refused options files ≠ [] ∨ ∃ file ∈ registered options files, ∃ problem,
        Schema.ofText file.1 file.2 = .error problem) →
      ∃ problems, ofFiles options files = .error problems ∧ Problem.Ordered problems ∧
        problems.Perm (((refused options files).map fun file => .duplicateFile file.1) ++
          (registered options files).flatMap readProblems) ∧
        ∀ filename, problems.filter (fun p => p.filename = filename) =
          takenIn options files filename) ∧
    (∀ file, (∃ reason, Schema.ofText file.1 file.2 = .error (.malformed file.1 reason) ∧
        readProblems file = [.malformed file.1 reason]) ∨
      ∃ schema root, Schema.ofText file.1 file.2 = .ok (schema, readProblems file) ∧
        Xml.Element.ofText? (Text.trimStart file.2) = some root ∧
        readProblems file = (Construct.ofXml root).children.flatMap
          (Schema.notesOf (.ofRoot file.1 (.ofXml root)) (.ofXml root))) ∧
    ((∃ problems, ofFiles options files = .error problems) ↔
      ∃ phase ∈ executed (phasesOf options files), ∃ p ∈ phase, p.isFatal = true) ∧
    (∀ problems, ofFiles options files = .error problems → ∃ p ∈ problems, p.isFatal = true) ∧
    ∀ batch, ofFiles options files = .ok batch → ∀ p ∈ batch.diagnostics, p.isFatal = false := by
  have heq := @ofFiles_eq_executed options files
  refine ⟨fun hfatal => ?_, readProblems_cases, ?_, ?_, ?_⟩
  · refine ⟨_, ofFiles_of_any_collect (any_collect_iff.2 hfatal), Problem.ordered_sortByFile _, ?_,
      fun filename => ?_⟩
    · refine (Problem.sortByFile_perm _).trans ?_
      rw [collect_eq_registered]
      exact ((Table.ofList_perm_self areApart_registered.filenames).flatMap_right _).append_left _
    · rw [Problem.filter_sortByFile, filter_collect]
  · rw [← any_executed_iff]
    split at heq
    · next hany => exact ⟨fun _ => hany, fun _ => ⟨_, heq⟩⟩
    · next hany =>
        refine ⟨fun herror => ?_, fun h => absurd h hany⟩
        obtain ⟨problems, herror⟩ := herror
        cases heq.symm.trans herror
  · intro problems herror
    split at heq
    · next hany =>
        obtain rfl := Except.error.inj (heq.symm.trans herror)
        exact any_flatten_iff.1 (any_executed_iff.1 hany)
    · cases heq.symm.trans herror
  · intro batch hok p hp
    split at heq
    · cases heq.symm.trans hok
    · next hany =>
        obtain rfl := Except.ok.inj (heq.symm.trans hok)
        exact Bool.eq_false_iff.2 fun hfatal =>
          hany (any_executed_iff.2 (any_flatten_iff.2 ⟨p, hp, hfatal⟩))

/-- A file with something to pass over in the content of a type, and in an attribute behind it. -/
def muddled : String × String := ("a.xsd",
  "<s:schema xmlns:s='http://www.w3.org/2001/XMLSchema'><s:complexType name='t'><s:sequence>" ++
    "<s:foo/>" ++ "</s:sequence><s:attribute name='v'><s:simpleType>" ++ "<s:bar/>" ++
    "<s:restriction base='s:string'/></s:simpleType></s:attribute></s:complexType></s:schema>")

/-- The parts of the file. -/
def muddledParts : List Xml.Event :=
  Xml.schemaParts (Xml.elementParts "complexType" [("name", "t")]
    (Xml.elementParts "sequence" [] (Xml.elementParts "foo" [] []) ++
      Xml.elementParts "attribute" [("name", "v")] (Xml.elementParts "simpleType" []
        (Xml.elementParts "bar" [] [] ++
          Xml.elementParts "restriction" [("base", "s:string")] []))))

theorem events?_muddled : Xml.events? (Text.trimStart muddled.2) = some muddledParts :=
  (Xml.events?_trimStart (Xml.toList_append_of (Xml.toList_append_of (Xml.toList_append_of
    (Xml.toList_append_of String.toList_ofList String.toList_ofList) String.toList_ofList)
      String.toList_ofList) String.toList_ofList)).trans (by cbv)

theorem readProblems_muddled : readProblems muddled = [
    .unsupported "a.xsd" "complexType t/@v" "xs:bar in simpleType",
    .unsupported "a.xsd" "complexType t/sequence" "xs:foo in model group"] :=
  readProblems_of_events events?_muddled (by decide +kernel)

/-- A file that is no XML. -/
def blankFile : String × String := ("b.xsd", "")

theorem readProblems_blankFile : readProblems blankFile = [.malformed "b.xsd" Schema.notXml] := by
  decide +kernel

theorem ofFiles_reports_muddled : ∃ problems,
    ofFiles {} [muddled, blankFile, muddled] = .error problems ∧
    problems.filter (fun p => p.filename = "a.xsd") = [
      .duplicateFile "a.xsd",
      .unsupported "a.xsd" "complexType t/@v" "xs:bar in simpleType",
      .unsupported "a.xsd" "complexType t/sequence" "xs:foo in model group"] ∧
    problems.filter (fun p => p.filename = "b.xsd") = [.malformed "b.xsd" Schema.notXml] := by
  have hrefused : refused {} [muddled, blankFile, muddled] = [muddled] := rfl
  have hregistered : registered {} [muddled, blankFile, muddled] = [muddled, blankFile] := rfl
  have hmuddled : muddled.1 = "a.xsd" := rfl
  have hblank : blankFile.1 = "b.xsd" := rfl
  obtain ⟨problems, h, -, -, hfilter⟩ :=
    (ofFiles_reports {} [muddled, blankFile, muddled]).1 (.inl (by rw [hrefused]; simp))
  unfold takenIn at hfilter
  rw [hrefused, hregistered] at hfilter
  refine ⟨problems, h, (hfilter "a.xsd").trans ?_, (hfilter "b.xsd").trans ?_⟩
  · simp [hmuddled, hblank, readProblems_muddled]
  · simp [hmuddled, hblank, readProblems_blankFile]

/-- Attributes are read before the content of their type, so what is noted about them comes first. -/
theorem notes_out_of_order :
    (∃ start middle rest, muddled.2 = start ++ "<s:foo/>" ++ middle ++ "<s:bar/>" ++ rest) ∧
    ofFiles {} [muddled, muddled] = .error [
      .duplicateFile "a.xsd",
      .unsupported "a.xsd" "complexType t/@v" "xs:bar in simpleType",
      .unsupported "a.xsd" "complexType t/sequence" "xs:foo in model group"] := by
  have hrefused : refused {} [muddled, muddled] = [muddled] := rfl
  have hregistered : registered {} [muddled, muddled] = [muddled] := rfl
  have hsorted : ∀ file : String × String, Table.ofList [file] = [file] := fun _ => rfl
  have hmuddled : muddled.1 = "a.xsd" := rfl
  have hcollect := congrArg Prod.snd (@collect_eq_registered {} [muddled, muddled])
  rw [hrefused, hregistered, hsorted, List.map_singleton, List.flatMap_singleton, hmuddled,
    readProblems_muddled, List.singleton_append] at hcollect
  dsimp only at hcollect
  refine ⟨⟨_, _, _, rfl⟩, ?_⟩
  rw [ofFiles_of_any_collect (by rw [hcollect]; rfl), hcollect,
    @Problem.sortByFile_of_same "a.xsd" _ (by simp [Problem.filename])]

end Batch

end Crosswalk

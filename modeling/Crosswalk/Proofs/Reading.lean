import Crosswalk.Batch
import Crosswalk.Proofs.Table

/-!
# Batches of documents whose parts are known

What becomes of files depends on their texts through the parts of the documents only. If the parts
of each file are given, a batch can be evaluated from them, without reading a character.
-/

namespace Crosswalk

namespace Xml

deriving instance DecidableEq for Event

/-- The parts of a document, from its characters. -/
def eventsIn? (cs : List Char) : Option (List Event) := do
  let cs ← afterDeclaration? (withoutMark cs)
  let cs ← afterMisc? (cs.length + 1) cs
  let (entities, cs) ← documentType? cs
  let cs ← afterMisc? (cs.length + 1) cs
  if !startsWithElement cs then none
  let (events, _, rest) ← content false .element (attributeValue entities false greatestDepth)
    (entityEvents entities greatestDepth) (cs.length + 1) [] 0 0 cs
  let rest ← afterMisc? (rest.length + 1) rest
  if rest.isEmpty then some events else none

/-- The parts of a text are those of its characters. -/
theorem events?_trimStart {text : String} {cs : List Char} (h : text.toList = cs) :
    events? (Text.trimStart text) = eventsIn? (Text.trimStartChars cs) := by
  unfold events? Text.trimStart eventsIn?
  rw [String.toList_ofList, h]

/-- The characters of a text in pieces are those of each piece. -/
theorem toList_append_of {s t : String} {cs ds : List Char} (hs : s.toList = cs)
    (ht : t.toList = ds) : (s ++ t).toList = cs ++ ds := by
  rw [String.toList_append, hs, ht]

end Xml

namespace Xml

/-- The parts of an element of XML Schema, which is bound to the prefix `s`. -/
def elementParts (name : String) (attributes : List (String × String)) (inner : List Event) :
    List Event :=
  .start ⟨"s", name⟩ (attributes.map fun a => (⟨"", a.1⟩, a.2)) :: (inner ++ [.stop ⟨"s", name⟩])

/-- The parts of a schema document that binds the prefix and no other. -/
def schemaParts (inner : List Event) : List Event :=
  .start ⟨"s", "schema"⟩ [(⟨"xmlns", "s"⟩, QName.xsdSpace)] :: (inner ++ [.stop ⟨"s", "schema"⟩])

end Xml

/-- The schema of a document with the given parts, and the problems met. -/
def Schema.ofEvents (filename : String) (events : List Xml.Event) :
    Except Problem (Schema × List Problem) :=
  match Xml.root? [] events with
  | none => .error (.malformed filename notXml)
  | some root =>
    if root.isNamed QName.xsdSpace "schema" then
      let root := Construct.ofXml root
      let setting := Setting.ofRoot filename root
      match topLevels setting (ofRoot setting root) root.children [] with
      | .ok result => .ok result
      | .error reason => .error (.malformed filename reason)
    else
      .error (.malformed filename ("root element must be xs:schema, found '" ++ root.name ++ "'"))

theorem Schema.ofText_of_events {filename text : String} {events : List Xml.Event}
    (h : Xml.events? (Text.trimStart text) = some events) :
    Schema.ofText filename text = Schema.ofEvents filename events := by
  rw [Schema.ofText, Xml.Element.ofText?, h]
  rfl

namespace Batch

variable {options : Options} {files : List (String × String)}
  {events : String → List Xml.Event}

/-- Attaches the schemas of submissions whose parts are given by filename. -/
def readParts (events : String → List Xml.Event) :
    List Submission → Registry → Registry × List Problem
  | [], registry => (registry, [])
  | s :: rest, registry =>
    let (registry, problems) := match Schema.ofEvents s.filename (events s.filename) with
      | .ok (schema, diagnostics) => (registry.attach s.filename schema, diagnostics)
      | .error problem => (registry, [problem])
    let (registry, more) := readParts events rest registry
    (registry, problems ++ more)

/-- The files of a batch and the problems met, with the parts of each file given. -/
def collectParts (options : Options) (events : String → List Xml.Event)
    (files : List (String × String)) : Registry × List Problem :=
  let (registry, refused) := registerAll options files .empty
  let (registry, problems) := readParts events registry.submissions.values registry
  (registry, refused ++ problems)

/-- Every submission is a file that was registered. -/
theorem mem_of_registerAll (rest : List (String × String)) : ∀ {registry : Registry},
    (∀ entry ∈ registry.submissions, (entry.2.filename, entry.2.text) ∈ files) → rest ⊆ files →
    ∀ entry ∈ (registerAll options rest registry).1.submissions,
      (entry.2.filename, entry.2.text) ∈ files := by
  induction rest with
  | nil => exact fun h _ => h
  | cons file rest ih =>
      intro registry h hsub
      have hrest : rest ⊆ files := fun _ hf => hsub (List.mem_cons_of_mem _ hf)
      unfold registerAll
      dsimp only
      split
      · next result hr =>
          refine ih ?_ hrest
          unfold Registry.register at hr
          split at hr
          · exact nomatch hr
          · obtain rfl := Except.ok.inj hr
            exact Table.forall_mem_insert h (hsub List.mem_cons_self)
      · exact ih h hrest

theorem readAll_of_events (submissions : List Submission)
    (h : ∀ s ∈ submissions, Xml.events? (Text.trimStart s.text) = some (events s.filename)) :
    ∀ registry, readAll submissions registry = readParts events submissions registry := by
  induction submissions with
  | nil => exact fun _ => rfl
  | cons s rest ih =>
      intro registry
      rw [List.forall_mem_cons] at h
      rw [readAll, readParts, Schema.ofText_of_events h.1]
      rcases Schema.ofEvents s.filename (events s.filename) with problem | ⟨schema, notes⟩
      · dsimp only
        rw [ih h.2]
      · dsimp only
        rw [ih h.2]

/-- Files with the given parts are collected from these. -/
theorem collect_of_events
    (h : ∀ file ∈ files, Xml.events? (Text.trimStart file.2) = some (events file.1)) :
    collect options files = collectParts options events files := by
  unfold collect collectParts
  rcases hregistered : registerAll options files .empty with ⟨registry, refused⟩
  have hsubmissions : ∀ s ∈ registry.submissions.values,
      Xml.events? (Text.trimStart s.text) = some (events s.filename) := by
    intro s hs
    obtain ⟨entry, he, rfl⟩ := List.mem_map.1 hs
    have he : entry ∈ (registerAll options files .empty).1.submissions := by rwa [hregistered]
    exact h (entry.2.filename, entry.2.text) (mem_of_registerAll files (List.forall_mem_nil _)
      (List.Subset.refl _) entry he)
  dsimp only
  rw [readAll_of_events _ hsubmissions]

/-- A file whose characters make the given parts. -/
theorem collect_of_characters {file : String × String} {cs : List Char} {parts : List Xml.Event}
    (h : file.2.toList = cs) (hp : Xml.eventsIn? (Text.trimStartChars cs) = some parts) :
    collect options [file] = collectParts options (fun _ => parts) [file] :=
  collect_of_events (List.forall_mem_singleton.2 ((Xml.events?_trimStart h).trans hp))

end Batch

end Crosswalk

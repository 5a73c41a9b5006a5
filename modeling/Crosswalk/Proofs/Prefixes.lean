import Crosswalk.Proofs.Batch
import Crosswalk.Proofs.Linkage.Bare

/-!
# Batches that differ in their prefixes

Prefixes are no part of the names that a document mentions. Files that differ in nothing but their
prefixes are read alike; and unless names are written with prefixes, they become the same documents,
with the same problems.
-/

namespace Crosswalk

open Conversion

/-- Two submissions differ in nothing but prefixes, as do the schemas that were read of them. -/
structure Submission.Reprefixes (s t : Submission) : Prop where
  filename : s.filename = t.filename
  identifier : s.identifier = t.identifier
  text : Schema.IsReprefixed s.text t.text
  schema : s.schema.map (Schema.withPrefixes []) = t.schema.map (Schema.withPrefixes [])

/-- Without texts and prefixes, the same files become of such submissions. -/
theorem Submission.Reprefixes.file? {s t : Submission} (h : s.Reprefixes t) :
    s.file?.map File.bare = t.file?.map File.bare := by
  have hfile : ∀ s : Submission, s.file?.map File.bare =
      (s.schema.map (Schema.withPrefixes [])).map fun schema =>
        ⟨s.filename, s.identifier, "", schema⟩ := fun s => by
    rw [Submission.file?, Option.map_map, Option.map_map]
    rfl
  rw [hfile, hfile, h.schema, h.filename, h.identifier]

namespace Registry

/-- The submissions of two registries differ in nothing but prefixes. -/
def Reprefixes (r r' : Registry) : Prop :=
  List.Forall₂ (fun e e' => e.1 = e'.1 ∧ e.2.Reprefixes e'.2) r.submissions r'.submissions

namespace Reprefixes

variable {r r' : Registry}

theorem empty : Registry.empty.Reprefixes .empty := .nil

theorem insert (h : r.Reprefixes r') (filename : String) {s s' : Submission}
    (hs : s.Reprefixes s') :
    (⟨r.submissions.insert filename s⟩ : Registry).Reprefixes
      ⟨r'.submissions.insert filename s'⟩ :=
  Table.forall₂_insert (fun _ _ he => he.1) h ⟨rfl, hs⟩

theorem values (h : r.Reprefixes r') :
    List.Forall₂ Submission.Reprefixes r.submissions.values r'.submissions.values :=
  List.rel_map (fun _ _ he => he.2) h

theorem find? (h : r.Reprefixes r') (filename : String) :
    Option.Rel Submission.Reprefixes (r.submissions.find? filename)
      (r'.submissions.find? filename) := by
  unfold Registry.Reprefixes at h
  generalize r.submissions = submissions, r'.submissions = submissions' at h
  induction h with
  | nil => exact .none
  | @cons e e' _ _ he _ ih =>
      rw [Table.find?_cons, Table.find?_cons, he.1]
      split
      · exact .some he.2
      · exact ih

theorem clashes (h : r.Reprefixes r') (filename identifier : String) :
    r.clashes filename identifier = r'.clashes filename identifier := by
  have hcontains : r.submissions.contains filename = r'.submissions.contains filename := by
    have hfound := h.find? filename
    rw [Table.contains, Table.contains]
    generalize r.submissions.find? filename = s, r'.submissions.find? filename = s' at hfound
    cases hfound <;> rfl
  have hidentifiers : r.submissions.values.map Submission.identifier =
      r'.submissions.values.map Submission.identifier :=
    map_eq_of_forall₂ h.values fun _ _ _ _ hs => hs.identifier
  have hany := congrArg (List.any · (· == identifier)) hidentifiers
  simp only [List.any_map] at hany
  rw [Registry.clashes, Registry.clashes, hcontains]
  exact congrArg (_ || ·) hany

theorem attach (h : r.Reprefixes r') (filename : String) {schema schema' : Schema}
    (hs : schema.withPrefixes [] = schema'.withPrefixes []) :
    (r.attach filename schema).Reprefixes (r'.attach filename schema') := by
  have hfound := h.find? filename
  rw [Registry.attach, Registry.attach]
  generalize r.submissions.find? filename = s, r'.submissions.find? filename = s' at hfound
  cases hfound with
  | none => exact h
  | some hsame =>
      exact h.insert filename ⟨hsame.filename, hsame.identifier, hsame.text, congrArg some hs⟩

theorem close (h : r.Reprefixes r') : r.close.bare = r'.close.bare := by
  rw [Catalog.bare, Catalog.bare, Registry.close, Registry.close, List.map_filterMap,
    List.map_filterMap]
  have hfiles := map_eq_of_forall₂ h.values fun _ _ _ _ hs => hs.file?
  have hsome := congrArg (List.filterMap id) hfiles
  rw [List.filterMap_map, List.filterMap_map] at hsome
  exact congrArg Catalog.mk hsome

end Reprefixes

end Registry

namespace Batch

variable {options : Options} {files files' : List (String × String)}

/-- The same files with other prefixes. -/
def AreReprefixed (files files' : List (String × String)) : Prop :=
  List.Forall₂ (fun file file' => file.1 = file'.1 ∧ Schema.IsReprefixed file.2 file'.2)
    files files'

/-- The files are registered alike, and the same ones are refused. -/
theorem registerAll_reprefixed (h : AreReprefixed files files') : ∀ {r r' : Registry},
    r.Reprefixes r' →
      (registerAll options files r).1.Reprefixes (registerAll options files' r').1 ∧
        (registerAll options files r).2 = (registerAll options files' r').2 := by
  induction h with
  | nil => exact fun hr => ⟨hr, rfl⟩
  | @cons file file' rest rest' hfile _ ih =>
      intro r r' hr
      obtain ⟨filename, text⟩ := file
      obtain ⟨filename', text'⟩ := file'
      obtain ⟨rfl, htext⟩ := hfile
      unfold registerAll Registry.register
      dsimp only
      rw [hr.clashes]
      cases r'.clashes filename (options.identifierOf filename) with
      | true => exact ⟨(ih hr).1, congrArg (_ :: ·) (ih hr).2⟩
      | false => exact ih (hr.insert filename ⟨rfl, rfl, htext, rfl⟩)

/-- The submissions are read alike, with the same problems. -/
theorem readAll_reprefixed {submissions submissions' : List Submission}
    (h : List.Forall₂ Submission.Reprefixes submissions submissions') : ∀ {r r' : Registry},
    r.Reprefixes r' →
      (readAll submissions r).1.Reprefixes (readAll submissions' r').1 ∧
        (readAll submissions r).2 = (readAll submissions' r').2 := by
  induction h with
  | nil => exact fun hr => ⟨hr, rfl⟩
  | @cons s s' rest rest' hs _ ih =>
      intro r r' hr
      have hread := Schema.ofText_reprefixed s.filename hs.text
      unfold Schema.readingOf at hread
      unfold readAll
      rw [← hs.filename]
      generalize Schema.ofText s.filename s.text = read,
        Schema.ofText s.filename s'.text = read' at hread
      rcases read with problem | ⟨schema, notes⟩ <;> rcases read' with problem' | ⟨schema', notes'⟩
      · obtain rfl := Except.error.inj hread
        exact ⟨(ih hr).1, congrArg (_ ++ ·) (ih hr).2⟩
      · cases hread
      · cases hread
      · obtain ⟨hschema, rfl⟩ := Prod.mk.inj (Except.ok.inj hread)
        have hr := hr.attach s.filename hschema
        exact ⟨(ih hr).1, congrArg (_ ++ ·) (ih hr).2⟩

/-- The same catalog, but for texts and prefixes, becomes of the files, with the same problems. -/
theorem collect_reprefixed (h : AreReprefixed files files') :
    (catalogOf options files).bare = (catalogOf options files').bare ∧
      (collect options files).2 = (collect options files').2 := by
  have hregistered : (registerAll options files .empty).1.Reprefixes
      (registerAll options files' .empty).1 ∧ _ := registerAll_reprefixed h .empty
  have hread := readAll_reprefixed hregistered.1.values hregistered.1
  unfold catalogOf collect
  exact ⟨hread.1.close, congrArg₂ (· ++ ·) hregistered.2 hread.2⟩

/-- A file becomes the same document without its text and prefixes, with the same problems. -/
theorem map_convert_bare (hq : options.qualifiedPropertyNames = false) (c : Catalog) :
    c.files.map (convert options (Linkage.ofCatalog c options.resolution).1) =
      c.bare.files.map (convert options (Linkage.ofCatalog c.bare options.resolution).1) := by
  rw [Catalog.bare, List.map_map]
  refine List.map_congr_left fun f hf => ?_
  rw [Function.comp_apply, convert, convert, convertFile_bare c options.resolution hq hf]
  rfl

/-- Files that differ in nothing but prefixes are read alike, except for the prefixes that a schema
remembers of its root; and unless names are written with prefixes, they become the same documents
with the same diagnostics, or fail with the same problems. -/
theorem ofFiles_reprefixed (hq : options.qualifiedPropertyNames = false)
    (h : AreReprefixed files files') :
    List.Forall₂ (fun file file' =>
        Schema.readingOf file.1 file.2 = Schema.readingOf file'.1 file'.2) files files' ∧
      ofFiles options files = ofFiles options files' := by
  refine ⟨h.imp fun file file' hfile => hfile.1 ▸ Schema.ofText_reprefixed file.1 hfile.2, ?_⟩
  have hcatalog : (catalogOf options files).bare = (catalogOf options files').bare :=
    (collect_reprefixed h).1
  have hproblems : (collect options files).2 = (collect options files').2 :=
    (collect_reprefixed h).2
  have hconverted := (map_convert_bare hq (catalogOf options files)).trans
    ((congrArg (fun c : Catalog =>
      c.files.map (convert options (Linkage.ofCatalog c options.resolution).1)) hcatalog).trans
        (map_convert_bare hq (catalogOf options files')).symm)
  have hlinked : (Linkage.ofCatalog (catalogOf options files) options.resolution).2 =
      (Linkage.ofCatalog (catalogOf options files') options.resolution).2 := by
    have hbare := congrArg (fun c => (Linkage.ofCatalog c options.resolution).2) hcatalog
    simpa only [Linkage.ofCatalog_bare] using hbare
  unfold catalogOf at hconverted hlinked
  unfold ofFiles
  dsimp only
  rw [hproblems, hlinked, hconverted]

section

/-- An element, with the prefix that is bound at the root. -/
def prefixedText : String :=
  "<s:schema xmlns:s='http://www.w3.org/2001/XMLSchema'>" ++
    "<s:element name='e' type='s:string'/></s:schema>"

/-- The same element, with the default namespace on its tag and a prefix of its own for its type. -/
def defaultText : String :=
  "<schema xmlns='http://www.w3.org/2001/XMLSchema'>" ++
    "<element xmlns:x='http://www.w3.org/2001/XMLSchema' name='e' type='x:string'/></schema>"

/-- The parts of the second text. -/
def defaultParts : List Xml.Event :=
  [.start ⟨"", "schema"⟩ [(⟨"", "xmlns"⟩, QName.xsdSpace)],
    .start ⟨"", "element"⟩
      [(⟨"xmlns", "x"⟩, QName.xsdSpace), (⟨"", "name"⟩, "e"), (⟨"", "type"⟩, "x:string")],
    .stop ⟨"", "element"⟩, .stop ⟨"", "schema"⟩]

/-- The tree of a schema that declares an element. -/
def elementTree (outer inner : List (String × String)) (type : String) : Xml.Element :=
  ⟨QName.xsdSpace, "schema", [], outer, [.element ⟨QName.xsdSpace, "element",
    [⟨none, "name", "e"⟩, ⟨none, "type", type⟩], inner, []⟩]⟩

theorem ofText?_prefixedText : Xml.Element.ofText? (Text.trimStart prefixedText) =
    some (elementTree [("s", QName.xsdSpace)] [("s", QName.xsdSpace)] "s:string") := by
  have hevents : Xml.events? (Text.trimStart prefixedText) = some (Xml.schemaParts
      (Xml.elementParts "element" [("name", "e"), ("type", "s:string")] [])) :=
    (Xml.events?_trimStart (Xml.toList_append_of String.toList_ofList String.toList_ofList)).trans
      (by cbv)
  rw [Xml.Element.ofText?, hevents]
  rfl

theorem ofText?_defaultText : Xml.Element.ofText? (Text.trimStart defaultText) =
    some (elementTree [("", QName.xsdSpace)] [("x", QName.xsdSpace), ("", QName.xsdSpace)]
      "x:string") := by
  have hevents : Xml.events? (Text.trimStart defaultText) = some defaultParts :=
    (Xml.events?_trimStart (Xml.toList_append_of String.toList_ofList String.toList_ofList)).trans
      (by cbv)
  rw [Xml.Element.ofText?, hevents]
  rfl

theorem areReprefixed_defaultText :
    AreReprefixed [("a", prefixedText)] [("a", defaultText)] := by
  have same : ∀ a : Xml.Attribute, a.name = "name" →
      a.Reprefixes QName.xsdSpace [("s", QName.xsdSpace)]
        [("x", QName.xsdSpace), ("", QName.xsdSpace)] a := fun a ha =>
    ⟨rfl, rfl, fun hholds => absurd (ha ▸ hholds.2.2) (by decide),
      fun hholds => absurd (ha ▸ hholds.2.2) (by decide), fun _ _ => rfl⟩
  have denotes : ∀ (p : String) {bindings : List (String × String)}, p ≠ "" → ':' ∉ p.toList →
      Xml.spaceOf? bindings p = some QName.xsdSpace → ∀ {text : String},
      Text.trim text = p ++ ":" ++ "string" →
        Xml.Denotes bindings (Text.trim text) (QName.xsd "string") :=
    fun _ _ hp hc hs _ htext => htext ▸ .prefixed hp hc hs
  have type : Xml.Attribute.Reprefixes QName.xsdSpace [("s", QName.xsdSpace)]
      [("x", QName.xsdSpace), ("", QName.xsdSpace)] ⟨none, "type", "s:string"⟩
        ⟨none, "type", "x:string"⟩ :=
    ⟨rfl, rfl, fun _ => ⟨QName.xsd "string", denotes "s" (by decide) (by decide) rfl (by decide),
      denotes "x" (by decide) (by decide) rfl (by decide)⟩,
      fun hholds => absurd hholds.2.2 (by decide),
      fun hnot => absurd ⟨rfl, rfl, by decide⟩ hnot⟩
  refine .cons ⟨rfl, .inr ⟨_, _, ofText?_prefixedText, ofText?_defaultText, ?_⟩⟩ .nil
  exact .mk .nil (.cons (.element (.mk (.cons (same _ rfl) (.cons type .nil)) .nil)) .nil)

theorem ofFiles_reprefixed_defaultText : ({} : Options).qualifiedPropertyNames = false ∧
    AreReprefixed [("a", prefixedText)] [("a", defaultText)] ∧
    List.Forall₂ (fun file file' =>
        Schema.readingOf file.1 file.2 = Schema.readingOf file'.1 file'.2)
      [("a", prefixedText)] [("a", defaultText)] ∧
    ofFiles {} [("a", prefixedText)] = ofFiles {} [("a", defaultText)] :=
  ⟨rfl, areReprefixed_defaultText, ofFiles_reprefixed rfl areReprefixed_defaultText⟩

end

end Batch

end Crosswalk

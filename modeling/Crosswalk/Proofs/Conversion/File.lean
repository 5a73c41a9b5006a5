import Crosswalk.Proofs.Conversion.Frame
import Crosswalk.Proofs.Conversion.Links

/-!
# The declarations of a file, converted

A file whose conversion has no fatal problem has left no declaration out: its entries are the
outcomes of the declarations, one for each and in their order.
-/

namespace Crosswalk

namespace Conversion

/-- The entries of a file are the outcomes of its declarations, none of which is left out. -/
structure IsConverted (context : Context) (typeEntries groupEntries : List (String × Json))
    (converted : Converted) : Prop where
  types : List.Forall₂ (fun type entry => outcome (typeDefinition context type) = .ok entry)
    context.file.schema.types typeEntries
  groups : List.Forall₂ (fun group entry => outcome (groupDefinition context group) = .ok entry)
    (reusedGroups context) groupEntries
  elements : List.Forall₂
    (fun element entry => outcome (elementProperty context element) = .ok entry)
    context.file.schema.elements converted.elements
  definitions : converted.definitions = Table.ofList (typeEntries ++ groupEntries)
  names : converted.types = typeEntries.map (·.1)

/-- Errors that are all fatal and not fatal are none. -/
theorem errors_eq_nil {errors : List Problem} (h : ∀ p ∈ errors, p.isFatal = true)
    (hn : ∀ p ∈ errors, p.isFatal = false) : errors = [] :=
  List.eq_nil_iff_forall_not_mem.2 fun p hp =>
    Bool.false_ne_true ((hn p hp).symm.trans (h p hp))

theorem isConverted_convertFile {context : Context}
    (h : ∀ p ∈ (convertFile context).2, p.isFatal = false) :
    ∃ types groups, IsConverted context types groups (convertFile context).1 := by
  obtain ⟨ht, hg, he, -⟩ := isCandid context
  rw [convertFile_snd, List.forall_mem_append, List.forall_mem_append,
    List.forall_mem_append] at h
  obtain ⟨⟨⟨ht', hg'⟩, he'⟩, -⟩ := h
  exact ⟨_, _,
    convertEach_schemas (isClosed_steady.typeDefinition context) _ _ (errors_eq_nil ht ht'),
    convertEach_schemas (isClosed_steady.groupDefinition context) _ _ (errors_eq_nil hg hg'),
    convertEach_schemas (isClosed_steady.elementProperty context) _ _ (errors_eq_nil he he'),
    rfl, rfl⟩

/-- The conversion of a file reports nothing fatal if and only if each of its declarations can be
converted. -/
theorem convertFile_fine_iff (context : Context) :
    (∀ p ∈ (convertFile context).2, p.isFatal = false) ↔
      (∀ type ∈ context.file.schema.types, (outcome (typeDefinition context type)).isOk = true) ∧
      (∀ group ∈ reusedGroups context, (outcome (groupDefinition context group)).isOk = true) ∧
      ∀ element ∈ context.file.schema.elements,
        (outcome (elementProperty context element)).isOk = true := by
  obtain ⟨ht, hg, he, hd⟩ := isCandid context
  have hfine : ∀ {errors : List Problem}, (∀ p ∈ errors, p.isFatal = true) →
      ((∀ p ∈ errors, p.isFatal = false) ↔ errors = []) := fun hfatal =>
    ⟨errors_eq_nil hfatal, fun hnil => hnil ▸ List.forall_mem_nil _⟩
  have htypes : (typeOutcome context).errors = [] ↔ _ :=
    (convertEach_eq (isClosed_steady.typeDefinition context) _ []).2
  have hgroups : (groupOutcome context).errors = [] ↔ _ :=
    (convertEach_eq (isClosed_steady.groupDefinition context) _ _).2
  have helements : (elementOutcome context).errors = [] ↔ _ :=
    (convertEach_eq (isClosed_steady.elementProperty context) _ _).2
  rw [← htypes, ← hgroups, ← helements, ← hfine ht, ← hfine hg, ← hfine he, convertFile_snd]
  simp only [List.forall_mem_append]
  exact ⟨fun ⟨⟨⟨ht, hg⟩, he⟩, _⟩ => ⟨ht, hg, he⟩, fun ⟨ht, hg, he⟩ => ⟨⟨⟨ht, hg⟩, he⟩, hd⟩⟩

/-- What an outcome satisfies if everything that the conversion yields does. -/
theorem Yields.outcome {α : Type} {c : Conversion α} {Q : α → Prop} (h : Yields c Q) {a : α}
    (ha : Conversion.outcome c = .ok a) : Q a :=
  h {} (run c {}).2 a (Prod.ext ha rfl)

/-- What the conversion of every declaration yields is true of every entry. -/
theorem forall_entries {α : Type} {convert : α → Conversion (String × Json)}
    {Q : String × Json → Prop} (hQ : ∀ a, Yields (convert a) Q) {as : List α}
    {entries : List (String × Json)}
    (h : List.Forall₂ (fun a entry => outcome (convert a) = .ok entry) as entries) :
    ∀ entry ∈ entries, Q entry := by
  intro entry he
  obtain ⟨a, _, ha⟩ := exists_entry h.flip he
  exact (hQ a).outcome ha

/-- Entries under the keys of their declarations have the keys of all. -/
theorem keys_eq {α : Type} {convert : α → Conversion (String × Json)} {key : α → String}
    (hk : ∀ a, Yields (convert a) fun entry => entry.1 = key a) {as : List α}
    {entries : List (String × Json)}
    (h : List.Forall₂ (fun a entry => outcome (convert a) = .ok entry) as entries) :
    entries.map (·.1) = as.map key := by
  induction h with
  | nil => rfl
  | cons ha _ ih => rw [List.map_cons, List.map_cons, ih, (hk _).outcome ha]

theorem reaches_true (context : Context) : Reaches context fun _ => True :=
  ⟨fun _ => Json.isSchema_link True.intro, fun _ => Json.isSchema_link True.intro,
    fun _ _ => Json.isSchema_link True.intro⟩

namespace IsConverted

variable {context : Context} {typeEntries groupEntries : List (String × Json)}
  {converted : Converted} (h : IsConverted context typeEntries groupEntries converted)
include h

theorem typeKeys : typeEntries.map (·.1) = context.file.schema.types.map (·.name.name) :=
  keys_eq (fun type => (yields_typeDefinition (reaches_true context) type).mono
    fun _ he => he.1) h.types

theorem groupKeys :
    groupEntries.map (·.1) = (reusedGroups context).map fun g => groupKey g.name.name :=
  keys_eq (fun group => (yields_groupDefinition (reaches_true context) group).mono
    fun _ he => he.1) h.groups

theorem elementKeys :
    converted.elements.map (·.1) = context.file.schema.elements.map (·.name.name) :=
  keys_eq (fun element => (yields_elementProperty (reaches_true context) element).mono
    fun _ he => he.1) h.elements

variable {P : String → Prop} (reaches : Reaches context P)
include reaches

/-- The links in the definitions of a file are those to what the linkage finds. -/
theorem definition_isSchema {entry : String × Json} (he : entry ∈ typeEntries ++ groupEntries) :
    Json.IsSchema P entry.2 := by
  rcases List.mem_append.1 he with he | he
  · exact forall_entries (fun type => (yields_typeDefinition reaches type).mono
      fun _ he => he.2) h.types entry he
  · exact forall_entries (fun group => (yields_groupDefinition reaches group).mono
      fun _ he => he.2) h.groups entry he

theorem element_isSchema {entry : String × Json} (he : entry ∈ converted.elements) :
    Json.IsSchema P entry.2 :=
  forall_entries (fun element => (yields_elementProperty reaches element).mono
    fun _ he => he.2) h.elements entry he

end IsConverted

end Conversion

end Crosswalk

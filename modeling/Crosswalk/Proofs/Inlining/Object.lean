import Crosswalk.Proofs.Content.Objects
import Crosswalk.Proofs.Inlining.Reference
import Mathlib.Data.List.Pairwise

/-!
# Objects with groups referred to or inlined

What the schema of a shape asks of an object is taken apart: of its properties one by one, of what
is there, and of the constraints. Where a shape leaves members to definitions, an object is accepted
by the definitions as well, and so each property is judged by its own slot or by that of a
definition; the shape with the groups inlined has the same slot itself.
-/

namespace Crosswalk

open Json Check Conversion

namespace Shape

/-! ### What the schema of a shape demands -/

/-- The constraints are those of choices, and references. -/
structure IsMade (s : Shape) : Prop where
  nodup : s.names.Nodup
  choices : ∀ choice ∈ s.choices, IsConstraint choice
  groups : ∀ reference ∈ s.groups, ∃ link, reference = Link.schema link

/-- The keywords of the schema of an object. -/
def keywords (s : Shape) (closed : Bool) (textProperty : String) : List (String × Json) :=
  let properties := s.properties textProperty
  let required := s.requiredProperties textProperty
  [("type", .string "object")] ++
    (if properties.isEmpty then [] else [("properties", .object properties)]) ++
    (if required.isEmpty then [] else [("required", .strings required)]) ++
    (if closed && !s.isOpen then [("additionalProperties", .bool false)] else []) ++
    s.constraints

theorem schema_eq (s : Shape) (closed : Bool) (textProperty : String) :
    s.schema closed textProperty = .object (Table.ofList (s.keywords closed textProperty)) := rfl

/-- The schema of the property of a name. A slot hides the character data. -/
def property? (s : Shape) (textProperty name : String) : Option Json :=
  ((s.slot? name).map Slot.schema).or (if name = textProperty then s.text else none)

/-- What the schema of a shape demands of an object. -/
structure Admits {Home : Type} (follow : Follow Home) (home : Home) (closed : Bool)
    (textProperty : String) (s : Shape) (entries : Table String Json) : Prop where
  properties : ∀ name schema inner, s.property? textProperty name = some schema →
    Table.find? entries name = some inner → Accepts follow home inner schema
  required : ∀ name ∈ s.requiredProperties textProperty, Table.contains entries name = true
  declared : closed = true → s.isOpen = false → ∀ name, Table.contains entries name = true →
    (s.property? textProperty name).isSome = true
  constraints : ∀ constraint ∈ s.choices ++ s.groups,
    Accepts follow home (.object entries) constraint

theorem find?_map_snd {α β : Type} (f : α → β) (entries : List (String × α)) (name : String) :
    Table.find? (entries.map fun e => (e.1, f e.2)) name = (Table.find? entries name).map f := by
  induction entries with
  | nil => rfl
  | cons e rest ih =>
      rw [List.map_cons, Table.find?_cons, Table.find?_cons, ih]
      split <;> rfl

theorem find?_properties {s : Shape} (hn : s.names.Nodup) (textProperty name : String) :
    Table.find? (s.properties textProperty) name = s.property? textProperty name := by
  have hslots : Table.find? (Table.ofList (s.slots.map fun e => (e.1, e.2.schema))) name =
      (s.slot? name).map Slot.schema := by
    have hkeys : ((s.slots.map fun e => (e.1, e.2.schema)).map (·.1)).Nodup := by
      rwa [List.map_map]
    rw [slot?, ← find?_map_snd Slot.schema]
    cases hf : Table.find? (s.slots.map fun e => (e.1, e.2.schema)) name with
    | some schema => exact Table.find?_ofList_of_mem hkeys (Table.mem_of_find? hf)
    | none => exact Table.find?_ofList_eq_none (Table.find?_eq_none_iff.1 hf)
  have htext : Table.find? (Table.ofList (s.text.toList.map fun text => (textProperty, text)))
      name = if name = textProperty then s.text else none := by
    cases s.text with
    | none => simp [Table.ofList]
    | some text => simp [Table.ofList, Table.find?_cons]
  rw [properties, Table.find?_ofList_append, hslots, htext]
  rfl

section

variable {s : Shape} (h : s.IsMade)
include h

theorem IsMade.constraints_cases :
    s.choices = [] ∧ s.groups = [] ∧ s.constraints = [] ∨
    (∃ keyword schemas, (keyword = "anyOf" ∨ keyword = "oneOf") ∧
      s.choices = [.object [(keyword, .array schemas)]] ∧ s.groups = [] ∧
      s.constraints = [(keyword, .array schemas)]) ∨
    s.constraints = [("allOf", .array (s.choices ++ s.groups))] := by
  have hchoices := fun choice hc => (h.choices choice hc).1
  match hg : s.groups with
  | [] =>
      rcases Shape.constraints_cases hg hchoices with
        ⟨hs, hc⟩ | ⟨keyword, schemas, hk, hs, hc⟩ | hc
      · exact .inl ⟨hs, rfl, hc⟩
      · exact .inr (.inl ⟨keyword, schemas, hk, hs, rfl, hc⟩)
      · exact .inr (.inr (by rw [hc, List.append_nil]))
  | reference :: rest =>
      refine .inr (.inr ?_)
      unfold constraints
      rw [hg]
      match hs : s.choices with
      | [] =>
          obtain ⟨link, rfl⟩ := h.groups reference (hg ▸ List.mem_cons_self)
          cases rest <;> rfl
      | choice :: more => cases choice <;> cases more <;> rfl

theorem IsMade.keys (closed : Bool) (textProperty : String) :
    ((s.keywords closed textProperty).map (·.1)).Nodup ∧
      ∀ name ∈ "$ref" :: besideKeywords,
        name ∉ (s.keywords closed textProperty).map (·.1) := by
  unfold keywords besideKeywords
  rcases h.constraints_cases with ⟨-, -, hc⟩ | ⟨keyword, schemas, rfl | rfl, -, -, hc⟩ | hc <;>
    (rw [hc]; dsimp only; split_ifs <;> simp)

/-- Other keywords can be put beside the schema. -/
theorem IsMade.isTypeSchema (closed : Bool) (textProperty : String) :
    IsTypeSchema (s.schema closed textProperty) :=
  .fields fun _ hn hbeside =>
    (h.keys closed textProperty).2 _ hbeside (Table.mem_keys_ofList.1 hn)

theorem IsMade.find?_keywords {closed : Bool} {textProperty : String} {member : String × Json}
    (hm : member ∈ s.keywords closed textProperty) :
    Table.find? (Table.ofList (s.keywords closed textProperty)) member.1 = some member.2 :=
  Table.find?_ofList_of_mem (h.keys closed textProperty).1 hm

theorem IsMade.find?_type (closed : Bool) (textProperty : String) :
    Table.find? (Table.ofList (s.keywords closed textProperty)) "type" = some (.string "object") :=
  h.find?_keywords (show ("type", .string "object") ∈ _ by simp [keywords])

theorem IsMade.properties_cases (closed : Bool) (textProperty : String) :
    Table.find? (Table.ofList (s.keywords closed textProperty)) "properties" =
        some (.object (s.properties textProperty)) ∨
      Table.find? (Table.ofList (s.keywords closed textProperty)) "properties" = none ∧
        s.properties textProperty = [] := by
  by_cases he : (s.properties textProperty).isEmpty = true
  · refine .inr ⟨Table.find?_ofList_eq_none ?_, List.isEmpty_iff.1 he⟩
    unfold keywords
    rcases h.constraints_cases with ⟨-, -, hc⟩ | ⟨keyword, schemas, rfl | rfl, -, -, hc⟩ | hc <;>
      (rw [hc]; dsimp only; rw [if_pos he]; split_ifs <;> simp)
  · exact .inl (h.find?_keywords
      (show ("properties", .object (s.properties textProperty)) ∈ _ by simp [keywords, he]))

theorem IsMade.property? (closed : Bool) (textProperty name : String) :
    Check.property? (Table.ofList (s.keywords closed textProperty)) name =
      s.property? textProperty name := by
  rw [← find?_properties h.nodup, Check.property?]
  rcases h.properties_cases closed textProperty with hp | ⟨hp, hnil⟩
  · rw [hp]
    rfl
  · rw [hp, hnil]
    rfl

/-- The members that the schema declares. -/
theorem IsMade.declared (closed : Bool) (textProperty : String) :
    (Check.declared (Table.ofList (s.keywords closed textProperty))).getD [] =
      Table.keys (s.properties textProperty) := by
  rw [Check.declared]
  rcases h.properties_cases closed textProperty with hp | ⟨hp, hnil⟩
  · rw [hp]
    rfl
  · rw [hp, hnil]
    rfl

section

variable {Home : Type} {follow : Follow Home} {home : Home} {entries : Table String Json}
  (hb : IsBlind follow)
include hb

theorem IsMade.passes_constraints_iff (home : Home) (entries whole : Table String Json) :
    (∀ member ∈ s.constraints, Passes follow home (.object entries) whole member) ↔
      ∀ constraint ∈ s.choices ++ s.groups, Accepts follow home (.object entries) constraint := by
  rcases h.constraints_cases with ⟨hs, hg, hc⟩ | ⟨keyword, schemas, hk, hs, hg, hc⟩ | hc
  · simp [hs, hg, hc]
  · rw [hc, hs, hg, List.append_nil, List.forall_mem_singleton, List.forall_mem_singleton,
      accepts_object_iff (reference?_alternatives hk schemas), List.forall_mem_singleton]
    exact ⟨passes_alternatives_congr hk _, passes_alternatives_congr hk _⟩
  · rw [hc, List.forall_mem_singleton, passes_allOf_iff hb]

omit hb in
theorem IsMade.mem_keys_properties_iff (textProperty name : String) :
    name ∈ Table.keys (s.properties textProperty) ↔
      (s.property? textProperty name).isSome = true := by
  rw [← find?_properties h.nodup, ← Table.contains_iff, Table.contains]

/-- If an object passes all keywords, it has what the shape demands. -/
theorem IsMade.admits_of_passes {closed : Bool} {textProperty : String}
    {whole : Table String Json}
    (hdeclared : (Check.declared whole).getD [] = Table.keys (s.properties textProperty))
    (hp : ∀ member ∈ s.keywords closed textProperty,
      Passes follow home (.object entries) whole member) :
    s.Admits follow home closed textProperty entries := by
  refine ⟨fun name schema inner hs hi => ?_, fun name hn => ?_, fun hc ho name hn => ?_, ?_⟩
  · rw [← find?_properties h.nodup] at hs
    have hne : (s.properties textProperty).isEmpty = false := by
      rw [List.isEmpty_eq_false_iff]
      exact List.ne_nil_of_mem (Table.mem_of_find? hs)
    have hpass := hp ("properties", .object (s.properties textProperty))
      (by simp [keywords, hne])
    exact (passes_properties_iff hb).1 hpass _ (Table.mem_of_find? hs) inner hi
  · have hne : (s.requiredProperties textProperty).isEmpty = false := by
      rw [List.isEmpty_eq_false_iff]
      exact List.ne_nil_of_mem hn
    have hpass := hp ("required", .strings (s.requiredProperties textProperty))
      (by simp [keywords, hne])
    exact passes_required_iff.1 hpass name hn
  · have hpass := hp ("additionalProperties", .bool false) (by simp [keywords, hc, ho])
    rw [← h.mem_keys_properties_iff, ← hdeclared]
    exact passes_closed_iff.1 hpass name hn
  · refine (h.passes_constraints_iff hb home entries whole).1 fun member hm => hp member ?_
    exact List.mem_append_right _ hm

/-- And the other way about, one keyword at a time. -/
theorem IsMade.passes_of_admits {closed : Bool} {textProperty : String}
    {whole : Table String Json}
    (hdeclared : (Check.declared whole).getD [] = Table.keys (s.properties textProperty))
    (ha : s.Admits follow home closed textProperty entries) :
    ∀ member ∈ s.keywords closed textProperty,
      Passes follow home (.object entries) whole member := by
  intro member hm
  simp only [keywords, List.mem_append] at hm
  rcases hm with (((hm | hm) | hm) | hm) | hm
  · obtain rfl := List.mem_singleton.1 hm
    exact passes_type
  · split_ifs at hm
    · exact absurd hm List.not_mem_nil
    · obtain rfl := List.mem_singleton.1 hm
      refine (passes_properties_iff hb).2 fun property hp inner hi => ?_
      refine ha.properties property.1 property.2 inner ?_ hi
      rw [← find?_properties h.nodup]
      exact Table.find?_of_mem (Table.sorted_ofList _).nodup hp
  · split_ifs at hm
    · exact absurd hm List.not_mem_nil
    · obtain rfl := List.mem_singleton.1 hm
      exact passes_required ha.required
  · split_ifs at hm with hc
    · obtain rfl := List.mem_singleton.1 hm
      rw [Bool.and_eq_true, Bool.not_eq_true'] at hc
      refine passes_closed fun name hn => ?_
      rw [hdeclared, h.mem_keys_properties_iff]
      exact ha.declared hc.1 hc.2 name hn
    · exact absurd hm List.not_mem_nil
  · exact (h.passes_constraints_iff hb home entries whole).2 ha.constraints member hm

/-- An object is accepted if it has what the shape demands. -/
theorem IsMade.accepts_schema_iff {closed : Bool} {textProperty : String} {value : Json} :
    Accepts follow home value (s.schema closed textProperty) ↔
      ∃ entries, value = .object entries ∧ s.Admits follow home closed textProperty entries := by
  have hkeys := h.keys closed textProperty
  have hlink : reference? (Table.ofList (s.keywords closed textProperty)) = none :=
    reference?_of_notMem fun hn =>
      hkeys.2 "$ref" List.mem_cons_self (Table.mem_keys_ofList.1 hn)
  have hmem : ∀ member, member ∈ Table.ofList (s.keywords closed textProperty) ↔
      member ∈ s.keywords closed textProperty :=
    fun member => ⟨Table.mem_ofList, Table.mem_ofList_of_mem hkeys.1⟩
  rw [schema_eq, accepts_object_iff hlink]
  simp only [hmem]
  have hdeclared := h.declared closed textProperty
  constructor
  · intro hp
    obtain ⟨entries, rfl⟩ := passes_object_iff.1
      (hp ("type", .string "object") (by simp [keywords]))
    exact ⟨entries, rfl, h.admits_of_passes hb hdeclared hp⟩
  · rintro ⟨entries, rfl, ha⟩
    exact h.passes_of_admits hb hdeclared ha

end

/-! ### What is left to definitions -/

/-- The schema refers to the groups that the shape refers to. -/
theorem IsMade.groupLinks (closed : Bool) (textProperty : String) :
    Check.groupLinks (Table.ofList (s.keywords closed textProperty)) = linksOf s.groups := by
  have hchoices : linksOf s.choices = [] := List.filterMap_eq_nil_iff.2 fun choice hc => by
    obtain ⟨branches, obliged, hchoice⟩ := (h.choices choice hc).1
    rw [choice?_eq hchoice]
    exact reference?_alternatives (keyword_alternatives _) _
  have hnone : "allOf" ∉ s.constraints.map (·.1) →
      Table.find? (Table.ofList (s.keywords closed textProperty)) "allOf" = none := fun hc => by
    refine Table.find?_ofList_eq_none ?_
    unfold keywords
    rw [List.map_append, List.mem_append, not_or]
    refine ⟨?_, hc⟩
    split_ifs <;> simp
  have htype : (some (Json.string "object")).bind string? = some "object" := rfl
  rw [Check.groupLinks, h.find?_type, if_pos htype]
  rcases h.constraints_cases with ⟨-, hg, hc⟩ | ⟨keyword, schemas, rfl | rfl, -, hg, hc⟩ | hc
  · rw [hnone (by simp [hc]), hg]
    rfl
  · rw [hnone (by simp [hc]), hg]
    rfl
  · rw [hnone (by simp [hc]), hg]
    rfl
  · have hmem : ("allOf", Json.array (s.choices ++ s.groups)) ∈ s.keywords closed textProperty :=
      List.mem_append_right _ (hc ▸ List.mem_singleton_self _)
    rw [h.find?_keywords hmem]
    change linksOf (s.choices ++ s.groups) = _
    rw [linksOf, List.filterMap_append, ← linksOf, ← linksOf, hchoices, List.nil_append]

theorem IsMade.reference_notMem (closed : Bool) (textProperty : String) :
    "$ref" ∉ Table.keys (Table.ofList (s.keywords closed textProperty)) := fun hn =>
  (h.keys closed textProperty).2 "$ref" List.mem_cons_self (Table.mem_keys_ofList.1 hn)

theorem IsMade.beside_notMem (closed : Bool) (textProperty : String) :
    ∀ name ∈ besideKeywords,
      name ∉ Table.keys (Table.ofList (s.keywords closed textProperty)) := fun name hb hn =>
  (h.keys closed textProperty).2 name (List.mem_cons_of_mem _ hb) (Table.mem_keys_ofList.1 hn)

end

/-- An object without character data declares the names of its slots. -/
theorem keys_properties_perm {s : Shape} (hn : s.names.Nodup) (ht : s.text = none)
    (textProperty : String) : (Table.keys (s.properties textProperty)).Perm s.names := by
  refine (List.perm_ext_iff_of_nodup (Table.sorted_ofList _).nodup hn).2 fun name => ?_
  rw [Table.mem_keys_ofList, ht]
  simp [names]

/-- Documentation beside an object is not looked at. -/
theorem acceptsSame_description {Home : Type} {follow : Follow Home} (hb : IsBlind follow)
    {fields : Table String Json} (hr : reference? fields = none)
    (hn : "description" ∉ Table.keys fields) (home : Home) (text : Json) :
    AcceptsSame follow home home (.object (Table.insert fields "description" text))
      (.object fields) := fun value => by
  rw [hb.accepts_insert_iff hr hn (by simp) (by simp),
    Complains.passes_iff fun _ _ _ _ _ _ => rfl]
  exact and_iff_right rfl

section

variable {Home : Type} {lead : Home → String → Option (Home × Json)} {follow : Follow Home}
  {textProperty : String} {home home' : Home} {s s' : Shape} {reference : Json}
  {d : Definition Home} {definitions : List (Definition Home)}

theorem Describes.isMade (h : Describes lead textProperty home reference d) : d.shape.IsMade :=
  ⟨h.nodup, h.made, by simp [h.plain.groups]⟩

/-- The definition that a reference leads to is the schema of its shape, but for documentation. -/
theorem Describes.exists_target (h : Describes lead textProperty home reference d) :
    ∃ (link : String) (fields : Table String Json), reference = Link.schema link ∧
      lead home link = some (d.home, .object fields) ∧
      (Check.declared fields).getD [] = Table.keys (d.shape.properties textProperty) ∧
      (Apart lead d.home (.object fields) →
        Apart lead d.home (d.shape.schema false textProperty)) ∧
      ∀ {follow : Follow Home}, IsBlind follow → AcceptsSame follow d.home d.home (.object fields)
        (d.shape.schema false textProperty) := by
  obtain ⟨link, documentation, rfl, hlead⟩ := h.leads
  have hm := h.isMade
  have hdeclared := hm.declared false textProperty
  have hlink := hm.reference_notMem false textProperty
  have hbeside := hm.beside_notMem false textProperty
  rw [schema_eq] at hlead ⊢
  generalize Table.ofList (d.shape.keywords false textProperty) = fields at *
  cases documentation with
  | none => exact ⟨link, fields, rfl, hlead, hdeclared, id, fun _ => .refl _ _⟩
  | some text =>
      have hcontains : Table.contains fields "$ref" = false :=
        Bool.eq_false_iff.2 fun hc => hlink (Table.contains_iff.1 hc)
      have heq : withKeywords (.object fields) (descriptionOf (some text)) =
          .object (Table.insert fields "description" (.string text)) := by
        simp [withKeywords, descriptionOf, hcontains]
      have hn : "description" ∉ Table.keys fields := hbeside _ (by simp [besideKeywords])
      rw [heq] at hlead
      refine ⟨link, _, rfl, hlead, ?_, fun ha => ha.of_insert hn (by simp [besideKeywords]),
        fun hb => acceptsSame_description hb (reference?_of_notMem hlink) hn _ _⟩
      rw [Check.declared, Table.find?_insert_of_ne _ _ (by simp), ← Check.declared, hdeclared]

theorem described_perm {groups : List Json}
    (h : List.Forall₂ (Describes lead textProperty home) groups definitions) :
    ((linksOf groups).flatMap fun link =>
      (((lead home link).bind fun target => target.2.fields?).bind Check.declared).getD []).Perm
      (covered definitions) := by
  induction h with
  | nil => exact .nil
  | @cons reference d groups definitions hd _ ih =>
      obtain ⟨link, fields, rfl, hlead, hdeclared, -⟩ := hd.exists_target
      have hcons : linksOf (Link.schema link :: groups) = link :: linksOf groups := rfl
      rw [hcons, List.flatMap_cons, covered, List.flatMap_cons]
      refine .append ?_ ih
      rw [hlead]
      change ((Check.declared fields).getD []).Perm _
      rw [hdeclared]
      exact keys_properties_perm hd.nodup hd.plain.text textProperty

/-- What the schema of a shape refers to describes members that the shape leaves to it. -/
theorem Leaves.of_apart (hm : s.IsMade) (ht : s.text ≠ some (.bool true))
    (hg : List.Forall₂ (Describes lead textProperty home) s.groups definitions) {closed : Bool}
    (ha : Apart lead home (s.schema closed textProperty)) : s.Leaves definitions := by
  rw [schema_eq] at ha
  obtain ⟨hnodup, hleft⟩ := ha.once .whole
  have hperm := described_perm hg
  rw [← hm.groupLinks closed textProperty] at hperm
  refine ⟨hperm.nodup_iff.1 hnodup, fun name hn => ?_⟩
  have hproperty := hleft name (hperm.mem_iff.2 hn)
  rw [hm.property?, property?] at hproperty
  cases hs : s.slot? name with
  | none =>
      rw [hs] at hproperty
      split_ifs at hproperty
      · exact absurd hproperty ht
      · exact nomatch hproperty
  | some slot =>
      rw [hs] at hproperty
      have hschema : slot.schema = .bool true := Option.some.inj hproperty
      refine ⟨slot, rfl, ?_⟩
      cases hr : slot.bounds.most.isRepeated with
      | true =>
          obtain ⟨fields, heq, -⟩ := schema_of_isRepeated hr
          exact nomatch heq.symm.trans hschema
      | false =>
          rw [Slot.schema, if_neg (by simp [hr])] at hschema
          exact ⟨hschema, rfl⟩

/-! ### Objects that are accepted -/

/-- No member is described by two definitions. -/
theorem Leaves.unique (h : s.Leaves definitions) {d d' : Definition Home} (hd : d ∈ definitions)
    (hd' : d' ∈ definitions) {name : String} (hn : name ∈ d.shape.names)
    (hn' : name ∈ d'.shape.names) : d = d' := by
  by_contra hne
  have hsymm : Std.Symm (Function.onFun List.Disjoint fun d : Definition Home => d.shape.names) :=
    ⟨fun _ _ hab _ hn hn' => hab hn' hn⟩
  exact (List.nodup_flatMap.1 h.nodup).2.forall hd hd' hne hn hn'

theorem property?_of_slot (textProperty : String) {name : String} {slot : Slot}
    (hs : s.slot? name = some slot) : s.property? textProperty name = some slot.schema := by
  rw [property?, hs]
  rfl

/-- The slot of a name is apart if the schema is. -/
theorem IsMade.apart_slot (hm : s.IsMade) {closed : Bool}
    (ha : Apart lead home (s.schema closed textProperty)) {name : String} {slot : Slot}
    (hs : s.slot? name = some slot) : Apart lead home slot.item := by
  rw [schema_eq] at ha
  refine Apart.of_slot (ha.inside ?_)
  have hproperty := property?_of_slot textProperty hs
  rw [← find?_properties hm.nodup] at hproperty
  rcases hm.properties_cases closed textProperty with hp | ⟨-, hnil⟩
  · exact .member (Table.mem_of_find? hp) (.member (Table.mem_of_find? hproperty) .whole)
  · rw [hnil] at hproperty
    exact nomatch hproperty

theorem isMade_of_mem {groups : List Json}
    (hg : List.Forall₂ (Describes lead textProperty home) groups definitions)
    (hd : d ∈ definitions) : d.shape.IsPlain ∧ d.shape.IsMade := by
  obtain ⟨reference, -, hdescribes⟩ := exists_entry hg.flip hd
  exact ⟨hdescribes.plain, hdescribes.isMade⟩

/-- An object that the schema refers to groups for is judged by their definitions. -/
theorem accepts_groups_iff (hj : Judges lead follow home)
    {groups : List Json} (hg : List.Forall₂ (Describes lead textProperty home) groups definitions)
    {entries : Table String Json} :
    (∀ reference ∈ groups, Accepts follow home (.object entries) reference) ↔
      ∀ d ∈ definitions, d.shape.Admits follow d.home false textProperty entries := by
  induction hg with
  | nil => simp
  | @cons reference d groups definitions hd _ ih =>
      obtain ⟨link, fields, rfl, hlead, -, -, hsame⟩ := hd.exists_target
      rw [List.forall_mem_cons, List.forall_mem_cons, ih]
      refine and_congr_left' ?_
      rw [hj.leads hlead, hsame hj.blind, hd.isMade.accepts_schema_iff hj.blind]
      simp

/-- The constraint of a choice is judged alike in all documents. -/
theorem IsConstraint.acceptsSame {choice : Json} (h : IsConstraint choice) (home home' : Home) :
    AcceptsSame follow home home' choice choice :=
  acceptsSame_of_links (fun P => (h.2 P).links) home home'

namespace Inlines

variable (h : Inlines lead follow home home' definitions s s')
include h

theorem isSome_property? (textProperty name : String) :
    (s'.property? textProperty name).isSome = (s.property? textProperty name).isSome := by
  have htext : s'.text.isSome = s.text.isSome := by
    have hrel := h.text
    generalize s.text = text, s'.text = text' at hrel
    cases hrel <;> rfl
  rw [property?, property?]
  cases hs : s.slot? name with
  | none =>
      rw [h.slot?_of_none hs]
      split_ifs
      · exact htext
      · rfl
  | some a =>
      obtain ⟨b, hs', -⟩ := h.slot?_of_some hs
      rw [hs']
      rfl

theorem slot?_of_some' {name : String} {b : Slot} (hs : s'.slot? name = some b) :
    ∃ a, s.slot? name = some a ∧
      EntryAgrees lead follow home home' definitions (name, a) (name, b) := by
  obtain ⟨a, ha⟩ := exists_slot (h.names ▸ mem_names_of_slot? hs)
  obtain ⟨b', hb', hentry⟩ := h.slot?_of_some ha
  obtain rfl := Option.some.inj (hs.symm.trans hb')
  exact ⟨a, ha, hentry⟩

/-- The character data is judged alike. -/
theorem text_property (textProperty : String) {name : String} (hs : s.slot? name = none) :
    Option.Rel (AcceptsSame follow home home') (s.property? textProperty name)
      (s'.property? textProperty name) := by
  have hrel := h.text
  rw [property?, property?, h.slot?_of_none hs, hs, Option.map_none, Option.none_or]
  generalize s.text = text, s'.text = text' at hrel
  split_ifs
  · cases hrel with
    | none => exact .none
    | some hsame => exact .some hsame.same
  · exact .none

theorem text_required {name : String} :
    name ∈ s'.text.toList.map (fun _ => textProperty) ↔
      name ∈ s.text.toList.map fun _ => textProperty := by
  have hrel := h.text
  generalize s.text = text, s'.text = text' at hrel
  cases hrel <;> rfl

end Inlines

theorem accepts_placeholder (inner : Json) :
    Accepts follow home inner Slot.placeholder.schema := fun _ => rfl

section

variable {closed : Bool} {entries : Table String Json} (hj : Judges lead follow home)
  (hm : s.IsMade) (hm' : s'.IsMade)
  (hg : List.Forall₂ (Describes lead textProperty home) s.groups definitions)
  (h : Inlines lead follow home home' definitions s s')
  (ha : Apart lead home (s.schema closed textProperty))
  (hd : ∀ d ∈ definitions, Apart lead d.home (d.shape.schema false textProperty))
include hj hm hm' hg h ha hd

/-- What is accepted by the schema with references is accepted by the other one. -/
theorem Inlines.admits (hs : s.Admits follow home closed textProperty entries) :
    s'.Admits follow home' closed textProperty entries := by
  have hdefinitions := (accepts_groups_iff hj hg).1 fun reference hr =>
    hs.constraints reference (List.mem_append_right _ hr)
  have described := fun d (hmem : d ∈ definitions) => (isMade_of_mem hg hmem).2
  refine ⟨fun name schema' inner hp hi => ?_, fun name hn => ?_, fun hc ho name hn => ?_, ?_⟩
  · cases hslot : s.slot? name with
    | none =>
        have hrel := h.text_property textProperty hslot
        rw [hp] at hrel
        generalize hschema : s.property? textProperty name = property at hrel
        cases hrel with
        | some hsame => exact (hsame inner).1 (hs.properties name _ inner hschema hi)
    | some a =>
        obtain ⟨b, hb, hentry⟩ := h.slot?_of_some hslot
        obtain rfl := Option.some.inj ((property?_of_slot _ hb).symm.trans hp)
        cases hentry with
        | own _ hagrees =>
            refine (hagrees.acceptsSame hj.blind (hm.apart_slot ha hslot) inner).1 ?_
            exact hs.properties name _ inner (property?_of_slot _ hslot) hi
        | left hmem hfound _ hagrees =>
            have hsame := hagrees.acceptsSame hj.blind
              ((described _ hmem).apart_slot (hd _ hmem) hfound)
            exact (hsame inner).1
              ((hdefinitions _ hmem).properties name _ inner (property?_of_slot _ hfound) hi)
  · rcases List.mem_append.1 hn with hn | hn
    · exact hs.required name (List.mem_append_left _ (h.text_required.1 hn))
    · obtain ⟨b, hb, hr⟩ := (mem_requiredNames_iff hm'.nodup).1 hn
      obtain ⟨a, hslot, hentry⟩ := h.slot?_of_some' hb
      cases hentry with
      | own _ hagrees =>
          refine hs.required name (List.mem_append_right _ ?_)
          exact (mem_requiredNames_iff hm.nodup).2 ⟨a, hslot, hagrees.required.trans hr⟩
      | left hmem hfound _ hagrees =>
          refine (hdefinitions _ hmem).required name (List.mem_append_right _ ?_)
          exact (mem_requiredNames_iff (described _ hmem).nodup).2
            ⟨_, hfound, hagrees.required.trans hr⟩
  · rw [h.isSome_property?]
    exact hs.declared hc (h.isOpen.trans ho) name hn
  · rw [h.groups, List.append_nil]
    intro choice hc
    refine ((hm'.choices choice hc).acceptsSame home home' _).1 ?_
    rcases (h.choices choice).1 hc with hc | ⟨d, hmem, hc⟩
    · exact hs.constraints choice (List.mem_append_left _ hc)
    · refine (((described d hmem).choices choice hc).acceptsSame d.home home _).1 ?_
      exact (hdefinitions d hmem).constraints choice (List.mem_append_left _ hc)

omit hj hm hm' hg ha hd in
/-- Each slot of a definition stands in the shape with the groups inlined. -/
theorem Inlines.exists_inlined (hl : s.Leaves definitions) (hmem : d ∈ definitions)
    {name : String} {a : Slot} (hfound : d.shape.slot? name = some a) :
    ∃ b, s'.slot? name = some b ∧ a.Agrees lead follow d.home home' b := by
  have hcovered := mem_covered hmem (mem_names_of_slot? hfound)
  obtain ⟨slot, hslot, -⟩ := hl.left name hcovered
  obtain ⟨b, hb, hentry⟩ := h.slot?_of_some hslot
  refine ⟨b, hb, ?_⟩
  cases hentry with
  | own hn _ => exact absurd hcovered hn
  | left hmem' hfound' _ hagrees =>
      obtain rfl := hl.unique hmem hmem' (mem_names_of_slot? hfound) (mem_names_of_slot? hfound')
      obtain rfl := Option.some.inj (hfound.symm.trans hfound')
      exact hagrees

omit hm ha in
/-- What is accepted without references is accepted by each of the definitions, for its members
are described there as well. -/
theorem Inlines.admits_definition (hl : s.Leaves definitions)
    (hs : s'.Admits follow home' closed textProperty entries) (hmem : d ∈ definitions) :
    d.shape.Admits follow d.home false textProperty entries := by
  obtain ⟨plain, made⟩ := isMade_of_mem hg hmem
  refine ⟨fun name schema inner hp hi => ?_, fun name hn => ?_, nofun, ?_⟩
  · rw [property?, plain.text] at hp
    cases hfound : d.shape.slot? name with
    | none => simp [hfound] at hp
    | some a =>
        obtain ⟨b, hb, hagrees⟩ := h.exists_inlined hl hmem hfound
        obtain rfl : a.schema = schema := by simpa [hfound] using hp
        have hsame := hagrees.acceptsSame hj.blind (made.apart_slot (hd _ hmem) hfound)
        exact (hsame inner).2 (hs.properties name _ inner (property?_of_slot _ hb) hi)
  · rw [requiredProperties, plain.text] at hn
    obtain ⟨a, hfound, hr⟩ := (mem_requiredNames_iff made.nodup).1 hn
    obtain ⟨b, hb, hagrees⟩ := h.exists_inlined hl hmem hfound
    refine hs.required name (List.mem_append_right _ ?_)
    exact (mem_requiredNames_iff hm'.nodup).2 ⟨b, hb, hagrees.required.symm.trans hr⟩
  · rw [plain.groups, List.append_nil]
    intro choice hc
    refine ((made.choices choice hc).acceptsSame home' d.home _).1 ?_
    exact hs.constraints choice
      (List.mem_append_left _ ((h.choices choice).2 (.inr ⟨d, hmem, hc⟩)))

/-- And the other way about: the schema with references accepts what the other one does. -/
theorem Inlines.of_admits (hl : s.Leaves definitions)
    (hs : s'.Admits follow home' closed textProperty entries) :
    s.Admits follow home closed textProperty entries := by
  refine ⟨fun name schema inner hp hi => ?_, fun name hn => ?_, fun hc ho name hn => ?_, ?_⟩
  · cases hslot : s.slot? name with
    | none =>
        have hrel := h.text_property textProperty hslot
        rw [hp] at hrel
        generalize hschema : s'.property? textProperty name = property at hrel
        cases hrel with
        | some hsame => exact (hsame inner).2 (hs.properties name _ inner hschema hi)
    | some a =>
        obtain ⟨b, hb, hentry⟩ := h.slot?_of_some hslot
        obtain rfl := Option.some.inj ((property?_of_slot _ hslot).symm.trans hp)
        cases hentry with
        | own _ hagrees =>
            refine (hagrees.acceptsSame hj.blind (hm.apart_slot ha hslot) inner).2 ?_
            exact hs.properties name _ inner (property?_of_slot _ hb) hi
        | left _ _ _ _ => exact accepts_placeholder inner
  · rcases List.mem_append.1 hn with hn | hn
    · exact hs.required name (List.mem_append_left _ (h.text_required.2 hn))
    · obtain ⟨a, hslot, hr⟩ := (mem_requiredNames_iff hm.nodup).1 hn
      obtain ⟨b, hb, hentry⟩ := h.slot?_of_some hslot
      cases hentry with
      | own _ hagrees =>
          refine hs.required name (List.mem_append_right _ ?_)
          exact (mem_requiredNames_iff hm'.nodup).2 ⟨b, hb, hagrees.required.symm.trans hr⟩
      | left _ _ _ _ => exact absurd hr Bool.false_ne_true
  · rw [← h.isSome_property?]
    exact hs.declared hc (h.isOpen.symm.trans ho) name hn
  · refine List.forall_mem_append.2 ⟨fun choice hc => ?_, ?_⟩
    · refine ((hm.choices choice hc).acceptsSame home' home _).1 ?_
      exact hs.constraints choice (List.mem_append_left _ ((h.choices choice).2 (.inl hc)))
    · exact (accepts_groups_iff hj hg).2 fun d hmem =>
        h.admits_definition hj hm' hg hd hl hs hmem

end

/-! ### Schemas of shapes that mirror each other -/

theorem Mirrors.isMade (h : Mirrors lead follow textProperty home home' s s') : s.IsMade := by
  obtain ⟨definitions, hgroups, -⟩ := h.inlines
  refine ⟨h.nodup, h.made, fun reference hr => ?_⟩
  obtain ⟨d, -, hd⟩ := exists_entry hgroups hr
  obtain ⟨link, documentation, heq, -⟩ := hd.leads
  exact ⟨link, heq⟩

theorem Inlines.isMade (h : Inlines lead follow home home' definitions s s') (hm : s.IsMade)
    (hg : List.Forall₂ (Describes lead textProperty home) s.groups definitions) : s'.IsMade := by
  refine ⟨h.names ▸ hm.nodup, fun choice hc => ?_, by simp [h.groups]⟩
  rcases (h.choices choice).1 hc with hc | ⟨d, hd, hc⟩
  · exact hm.choices choice hc
  · exact (isMade_of_mem hg hd).2.choices choice hc

/-- The definitions that a schema refers to are apart if it is. -/
theorem apart_definitions (hm : s.IsMade)
    (hg : List.Forall₂ (Describes lead textProperty home) s.groups definitions) {closed : Bool}
    (ha : Apart lead home (s.schema closed textProperty)) :
    ∀ d ∈ definitions, Apart lead d.home (d.shape.schema false textProperty) := by
  intro d hd
  obtain ⟨reference, hr, hdescribes⟩ := exists_entry hg.flip hd
  obtain ⟨link, fields, rfl, hlead, -, hapart, -⟩ := hdescribes.exists_target
  have own : PartOf (.object (Table.ofList (s.keywords closed textProperty)))
    (s.schema closed textProperty) := .whole
  refine hapart (ha.target own ?_ hlead)
  rw [hm.groupLinks]
  exact List.mem_filterMap.2 ⟨_, hr, rfl⟩

/-- A shape with references and the same one with groups inlined describe the same objects. -/
theorem Mirrors.typeAgrees (hj : Judges lead follow home)
    (h : Mirrors lead follow textProperty home home' s s') (closed : Bool) :
    TypeAgrees lead follow home home' (s.schema closed textProperty)
      (s'.schema closed textProperty) := by
  have hm := h.isMade
  have hdescribed := h.described
  obtain ⟨definitions, hg, hinlines⟩ := h.inlines
  refine .object (hm.reference_notMem closed textProperty) (hm.beside_notMem closed textProperty)
    fun ha => ?_
  have hl := Leaves.of_apart hm hdescribed hg ha
  have hi := hinlines hl
  have hm' := hi.isMade hm hg
  have hd := apart_definitions hm hg ha
  refine ⟨fun value => ?_, ⟨hm.reference_notMem _ _, hm'.reference_notMem _ _⟩, fun name hn =>
    ⟨hm.beside_notMem _ _ name hn, hm'.beside_notMem _ _ name hn⟩⟩
  refine (hm.accepts_schema_iff hj.blind).trans
    (Iff.trans ?_ (hm'.accepts_schema_iff hj.blind).symm)
  exact exists_congr fun entries => and_congr_right fun _ =>
    ⟨hi.admits hj hm hm' hg ha hd, hi.of_admits hj hm hm' hg ha hd hl⟩

end

end Shape

end Crosswalk

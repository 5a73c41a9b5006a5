import Crosswalk.Conversion.Content
import Crosswalk.Proofs.Content.Attributes

/-!
# Words as objects

The object of a word gives each name its occurrences: an array of them if the slot of the name is
one of arrays, and otherwise the only one. A shape takes a word if there is such an object, and if
every such object passes the keywords of the schema that count or combine members. Left open
are `properties` and `items`, by which the occurrences are checked one by one.
-/

namespace Crosswalk

open Check Conversion

namespace Shape

/-- The object gives each element of the shape its occurrences in the word, and has the attributes
that are required. -/
structure Represents (s : Shape) (w : Word) (entries : Table String Json) : Prop where
  complete : ∀ name, 0 < w.count name →
    ∃ slot, s.slot? name = some slot ∧ slot.isAttribute = false
  several : ∀ name slot, s.slot? name = some slot → slot.isAttribute = false →
    slot.bounds.most.isRepeated = true → Table.find? entries name =
      if w.occurrences name = [] then none else some (.array (w.occurrences name))
  single : ∀ name slot, s.slot? name = some slot → slot.isAttribute = false →
    slot.bounds.most.isRepeated = false →
    (Table.find? entries name).toList = w.occurrences name
  attributes : ∀ name slot, s.slot? name = some slot → slot.isAttribute = true →
    slot.required = true → Table.contains entries name = true
  declared : s.isOpen = false → ∀ name, Table.contains entries name = true → name ∈ s.names

/-- The word is represented by an object, and whatever represents it has as many members and
combines them as the schema of the shape demands. -/
structure Takes (context : Context) (s : Shape) (w : Word) : Prop where
  represented : ∃ entries, s.Represents w entries
  whole : ∀ entries, s.Represents w entries → ∀ (Home : Type) (follow : Follow Home) (home : Home),
    AcceptsBut "properties" follow home (.object entries) (objectSchema context s)
  arrays : ∀ entries, s.Represents w entries → ∀ name slot value, s.slot? name = some slot →
    slot.bounds.most.isRepeated = true → Table.find? entries name = some value →
    ∀ (Home : Type) (follow : Follow Home) (home : Home),
      AcceptsBut "items" follow home value slot.schema

/-! ### An object for a word -/

/-- What a slot holds, given the occurrences of its name. An attribute is always there. -/
def held (slot : Slot) (values : List Json) : Option Json :=
  if slot.isAttribute then some .null
  else if slot.bounds.most.isRepeated then if values = [] then none else some (.array values)
  else values.head?

/-- The members of an object for a word, in the order of the slots. -/
def membersFor (s : Shape) (w : Word) : List (String × Json) :=
  s.slots.filterMap fun e => (held e.2 (w.occurrences e.1)).map fun value => (e.1, value)

theorem keys_membersFor (s : Shape) (w : Word) :
    ((s.membersFor w).map (·.1)).Sublist s.names := by
  unfold membersFor names
  induction s.slots with
  | nil => exact List.Sublist.refl _
  | cons e rest ih =>
      rw [List.filterMap_cons]
      cases held e.2 (w.occurrences e.1) with
      | none => exact ih.cons _
      | some value => exact ih.cons_cons _

theorem find?_membersFor {s : Shape} (hn : s.names.Nodup) (w : Word) {name : String} {slot : Slot}
    (h : s.slot? name = some slot) :
    Table.find? (Table.ofList (s.membersFor w)) name = held slot (w.occurrences name) := by
  have hnodup : ((s.membersFor w).map (·.1)).Nodup := (keys_membersFor s w).nodup hn
  cases hheld : held slot (w.occurrences name) with
  | some value =>
      refine Table.find?_ofList_of_mem hnodup (List.mem_filterMap.2 ⟨(name, slot), ?_, ?_⟩)
      · exact Table.mem_of_find? h
      · simp [hheld]
  | none =>
      refine Table.find?_ofList_eq_none fun hkey => ?_
      obtain ⟨member, hmem, rfl⟩ := List.mem_map.1 hkey
      obtain ⟨⟨n, other⟩, hslot, hother⟩ := List.mem_filterMap.1 hmem
      obtain ⟨value, hvalue, rfl⟩ := Option.map_eq_some_iff.1 hother
      obtain rfl := Option.some.inj (h.symm.trans (Table.find?_of_mem hn hslot))
      exact nomatch hheld.symm.trans hvalue

/-- There is an object for a word if each of its names has a slot, and one of arrays if it occurs
several times. -/
theorem exists_represents {s : Shape} (hn : s.names.Nodup) {w : Word}
    (hc : ∀ name, 0 < w.count name → ∃ slot, s.slot? name = some slot ∧ slot.isAttribute = false)
    (h : ∀ name slot, s.slot? name = some slot → slot.isAttribute = false →
      slot.bounds.most.isRepeated = false → w.count name ≤ 1) :
    ∃ entries, s.Represents w entries := by
  refine ⟨Table.ofList (s.membersFor w), ⟨hc, fun name slot hs ha hr => ?_,
    fun name slot hs ha hr => ?_, fun name slot hs ha _ => ?_, fun _ name hc => ?_⟩⟩
  · rw [find?_membersFor hn w hs, held]
    simp [ha, hr]
  · rw [find?_membersFor hn w hs, held]
    have hone : (w.occurrences name).length ≤ 1 := h name slot hs ha hr
    simp only [ha, hr, Bool.false_eq_true, if_false]
    match hw : w.occurrences name with
    | [] => rfl
    | [_] => rfl
    | _ :: _ :: _ => simp [hw] at hone
  · rw [Table.contains, find?_membersFor hn w hs, held]
    simp [ha]
  · exact (keys_membersFor s w).subset (Table.contains_ofList.1 hc)

/-- An element is there if it occurs. -/
theorem Represents.contains {s : Shape} {w : Word} {entries : Table String Json}
    (h : s.Represents w entries) {name : String} {slot : Slot} (hs : s.slot? name = some slot)
    (ha : slot.isAttribute = false) :
    Table.contains entries name = decide (0 < w.count name) := by
  rw [Table.contains, Word.count]
  cases hr : slot.bounds.most.isRepeated with
  | true =>
      rw [h.several name slot hs ha hr]
      cases w.occurrences name <;> simp
  | false =>
      rw [← h.single name slot hs ha hr]
      cases Table.find? entries name <;> simp

/-! ### The constraints of choices -/

/-- What the constraints of a shape are whose constraints are those of choices. -/
theorem constraints_cases {s : Shape} (hg : s.groups = [])
    (hm : ∀ choice ∈ s.choices, IsChoice choice) :
    s.choices = [] ∧ s.constraints = [] ∨
    (∃ keyword schemas, (keyword = "anyOf" ∨ keyword = "oneOf") ∧
      s.choices = [.object [(keyword, .array schemas)]] ∧
      s.constraints = [(keyword, .array schemas)]) ∨
    s.constraints = [("allOf", .array s.choices)] := by
  unfold constraints
  rw [hg, List.append_nil]
  match hs : s.choices with
  | [] => exact .inl ⟨rfl, rfl⟩
  | [choice] =>
      obtain ⟨branches, obliged, hc⟩ := hm choice (hs ▸ List.mem_cons_self)
      obtain rfl := choice?_eq hc
      refine .inr (.inl ⟨_, _, keyword_alternatives _, rfl, ?_⟩)
      cases overlap branches <;> rfl
  | first :: _ :: _ => exact .inr (.inr (by cases first <;> rfl))

section

variable {s : Shape} {entries : Table String Json} {Home : Type} {follow : Follow Home}
  {home : Home} (hg : s.groups = []) (hm : ∀ choice ∈ s.choices, IsChoice choice)
  (whole : Table String Json)
include hg hm

theorem passes_constraints (h : ∀ choice ∈ s.choices, Met entries choice) :
    ∀ member ∈ s.constraints, Passes follow home (.object entries) whole member := by
  rcases constraints_cases hg hm with ⟨-, hc⟩ | ⟨keyword, schemas, hk, hs, hc⟩ | hc
  · simp [hc]
  · rw [hc, List.forall_mem_singleton]
    have hmet := h (.object [(keyword, .array schemas)]) (hs ▸ List.mem_cons_self)
    exact passes_alternatives_congr hk whole
      ((hmet Home follow home).passes (reference?_alternatives hk _) List.mem_cons_self)
  · rw [hc, List.forall_mem_singleton]
    exact passes_allOf fun choice hc => h choice hc Home follow home

theorem not_passes_constraints {choice : Json} (hmem : choice ∈ s.choices)
    (h : Unmet entries choice) :
    ¬ ∀ member ∈ s.constraints, Passes follow home (.object entries) whole member := by
  intro hpass
  rcases constraints_cases hg hm with ⟨hs, -⟩ | ⟨keyword, schemas, hk, hs, hc⟩ | hc
  · rw [hs] at hmem
    exact absurd hmem List.not_mem_nil
  · rw [hc, List.forall_mem_singleton] at hpass
    rw [hs, List.mem_singleton] at hmem
    subst hmem
    refine h Home follow home {} (accepts_object (reference?_alternatives hk _) ?_ {})
    rw [List.forall_mem_singleton]
    exact passes_alternatives_congr hk _ hpass
  · rw [hc, List.forall_mem_singleton] at hpass
    obtain ⟨entry, he, hne⟩ := fails_allOf whole hmem (h Home follow home) {}
    exact hne (hpass {} entry he)

end

/-! ### The keywords of an object -/

/-- The keywords of the schema of an object. -/
def rootFields (context : Context) (s : Shape) : List (String × Json) :=
  let properties := s.properties context.options.textProperty
  let required := s.requiredProperties context.options.textProperty
  [("type", .string "object")] ++
    (if properties.isEmpty then [] else [("properties", .object properties)]) ++
    (if required.isEmpty then [] else [("required", .strings required)]) ++
    (if context.options.isClosed && !s.isOpen then [("additionalProperties", .bool false)]
      else []) ++
    s.constraints

theorem objectSchema_eq (context : Context) (s : Shape) :
    objectSchema context s = .object (Table.ofList (s.rootFields context)) := rfl

section

variable {context : Context} {s : Shape} (hg : s.groups = [])
  (hm : ∀ choice ∈ s.choices, IsChoice choice)
include hg hm

theorem keys_rootFields : ((s.rootFields context).map (·.1)).Nodup ∧
    "$ref" ∉ (s.rootFields context).map (·.1) := by
  unfold rootFields
  rcases constraints_cases hg hm with ⟨-, hc⟩ | ⟨keyword, schemas, rfl | rfl, -, hc⟩ | hc <;>
    (rw [hc]; dsimp only; split_ifs <;> simp)

theorem reference?_rootFields : reference? (Table.ofList (s.rootFields context)) = none := by
  rw [reference?, Table.find?_ofList_eq_none (keys_rootFields hg hm).2]
  rfl

/-- Every slot is a property of the schema. -/
theorem mem_declared {name : String} (hn : name ∈ s.names) :
    name ∈ (declared (Table.ofList (s.rootFields context))).getD [] := by
  have hkey : name ∈ Table.keys (s.properties context.options.textProperty) := by
    refine Table.mem_keys_ofList.2 ?_
    rw [List.map_append, List.mem_append]
    exact .inr (by simpa [names] using hn)
  have hne : (s.properties context.options.textProperty).isEmpty = false := by
    rw [List.isEmpty_eq_false_iff]
    rintro hnil
    simp [hnil, Table.keys] at hkey
  have hmem : ("properties", Json.object (s.properties context.options.textProperty)) ∈
      s.rootFields context := by
    simp [rootFields, hne]
  rw [declared, Table.find?_ofList_of_mem (keys_rootFields hg hm).1 hmem]
  exact hkey

/-- An object is accepted, but for its properties, if nothing required is missing, nothing is there
that is not declared, and the choices are met. -/
theorem acceptsBut_properties (ht : s.text = none) {entries : Table String Json}
    (hr : ∀ name ∈ s.requiredNames, Table.contains entries name = true)
    (hd : s.isOpen = false → ∀ name, Table.contains entries name = true → name ∈ s.names)
    (hmet : ∀ choice ∈ s.choices, Met entries choice) {Home : Type} (follow : Follow Home)
    (home : Home) :
    AcceptsBut "properties" follow home (.object entries) (objectSchema context s) := by
  refine ⟨_, objectSchema_eq context s, reference?_rootFields hg hm, fun member hmem hne => ?_⟩
  have hfield := Table.mem_ofList hmem
  simp only [rootFields, List.mem_append] at hfield
  rcases hfield with (((hf | hf) | hf) | hf) | hf
  · obtain rfl := List.mem_singleton.1 hf
    exact passes_type
  · split_ifs at hf
    · exact absurd hf List.not_mem_nil
    · obtain rfl := List.mem_singleton.1 hf
      exact absurd rfl hne
  · split_ifs at hf
    · exact absurd hf List.not_mem_nil
    · obtain rfl := List.mem_singleton.1 hf
      refine passes_required fun name hname => hr name ?_
      simpa [requiredProperties, ht] using hname
  · split_ifs at hf with hclosed
    · obtain rfl := List.mem_singleton.1 hf
      rw [Bool.and_eq_true, Bool.not_eq_true'] at hclosed
      exact passes_closed fun name hc => mem_declared hg hm (hd hclosed.2 name hc)
    · exact absurd hf List.not_mem_nil
  · exact passes_constraints hg hm _ hmet member hf

/-- An object is not accepted that violates a choice. -/
theorem not_acceptsBut_properties {entries : Table String Json} {choice : Json}
    (hmem : choice ∈ s.choices) (hu : Unmet entries choice) {Home : Type} (follow : Follow Home)
    (home : Home) :
    ¬ AcceptsBut "properties" follow home (.object entries) (objectSchema context s) := by
  rintro ⟨fields, heq, -, hpass⟩
  obtain rfl : Table.ofList (s.rootFields context) = fields := by
    simpa [objectSchema_eq] using heq
  have hconstraints : ∀ member ∈ s.constraints, member ∈ s.rootFields context ∧
      member.1 ≠ "properties" := by
    intro member hm'
    refine ⟨List.mem_append_right _ hm', ?_⟩
    rcases constraints_cases hg hm with ⟨-, hc⟩ | ⟨keyword, schemas, rfl | rfl, -, hc⟩ | hc <;>
      (rw [hc] at hm'; revert hm'; simp +contextual)
  refine not_passes_constraints hg hm (Table.ofList (s.rootFields context)) hmem hu
    fun member hm' => hpass member ?_ (hconstraints member hm').2
  exact Table.mem_ofList_of_mem (keys_rootFields hg hm).1 (hconstraints member hm').1

end

/-- The keywords of the schema of an array. -/
theorem schema_of_isRepeated {slot : Slot} (hr : slot.bounds.most.isRepeated = true) :
    ∃ fields : Table String Json, slot.schema = .object fields ∧ ∀ member ∈ fields,
      member = ("type", .string "array") ∨ member = ("items", slot.item) ∨
      member = ("minItems", .nat slot.bounds.least.toNat) ∨
      ∃ n, slot.bounds.most = .bounded n ∧ member = ("maxItems", .nat n.toNat) := by
  have harray : ∀ member ∈ (if slot.bounds.isRequired then Table.insert
      (Table.ofList [("type", Json.string "array"), ("items", slot.item)]) "minItems"
      (.nat slot.bounds.least.toNat)
      else Table.ofList [("type", Json.string "array"), ("items", slot.item)]),
      member = ("type", .string "array") ∨ member = ("items", slot.item) ∨
      member = ("minItems", .nat slot.bounds.least.toNat) := by
    intro member hm
    have hbase : member ∈ Table.ofList [("type", Json.string "array"), ("items", slot.item)] →
        member = ("type", .string "array") ∨ member = ("items", slot.item) := fun hm => by
      simpa using Table.mem_ofList hm
    split at hm
    · rcases Table.mem_insert hm with rfl | hm
      · exact .inr (.inr rfl)
      · exact (hbase hm).imp_right .inl
    · exact (hbase hm).imp_right .inl
  unfold Slot.schema
  rw [if_pos hr]
  cases hmost : slot.bounds.most with
  | unbounded =>
      refine ⟨_, rfl, fun member hm => ?_⟩
      exact (harray member hm).imp_right (.imp_right .inl)
  | bounded n =>
      refine ⟨_, rfl, fun member hm => ?_⟩
      rcases Table.mem_insert hm with rfl | hm
      · exact .inr (.inr (.inr ⟨n, rfl, rfl⟩))
      · exact (harray member hm).imp_right (.imp_right .inl)

/-- An array of occurrences has as many of them as its slot demands. -/
theorem acceptsBut_items {slot : Slot} (hr : slot.bounds.most.isRepeated = true)
    {items : List Json} (hl : slot.bounds.least.toNat ≤ items.length)
    (hm : slot.bounds.most.Permits items.length) (hg : items.length ≤ Count.greatest)
    {Home : Type} (follow : Follow Home) (home : Home) :
    AcceptsBut "items" follow home (.array items) slot.schema := by
  obtain ⟨fields, heq, hf⟩ := schema_of_isRepeated hr
  refine ⟨fields, heq, ?_, fun member hmem hne => ?_⟩
  · have hnone : Table.find? fields "$ref" = none := by
      refine Table.find?_eq_none_iff.2 fun hkey => ?_
      obtain ⟨member, hmem, hk⟩ := List.mem_map.1 hkey
      rcases hf member hmem with rfl | rfl | rfl | ⟨n, -, rfl⟩ <;> simp at hk
    rw [reference?, hnone]
    rfl
  · rcases hf member hmem with rfl | rfl | rfl | ⟨n, hn, rfl⟩
    · exact passes_array
    · exact absurd rfl hne
    · exact passes_minItems hl
    · rw [hn] at hm
      exact passes_maxItems (hm.elim id fun hm => hm ▸ hg)

/-! ### Words that fit are taken -/

/-- A shape with the attributes of a type takes the words that the shape of its content fits. -/
theorem takes_of_fits {context : Context} {s r : Shape} (hs : s.IsElemental)
    (ho : Overlays s r) (hg : s.groups = []) (ht : s.text = none)
    (hm : ∀ choice ∈ s.choices, IsChoice choice) {free : List String}
    (hfree : ∀ name ∈ free, name ∈ s.names) {w : Word} (hf : s.Fits free w)
    (hl : w.length ≤ Count.greatest) : r.Takes context w := by
  have element : ∀ name slot, r.slot? name = some slot → slot.isAttribute = false →
      slot.Fits (name ∈ free) (w.count name) :=
    fun name slot hslot ha => hf.slots name slot (ho.slot_of_isElement hslot ha)
  have complete : ∀ name, 0 < w.count name →
      ∃ slot, r.slot? name = some slot ∧ slot.isAttribute = false := by
    intro name hpos
    have hn : name ∈ s.names := by
      by_contra hn
      exact hpos.ne' (hf.absent name hn)
    obtain ⟨slot, hslot, -, ha⟩ := ho.isElement hs hn
    exact ⟨slot, hslot, ha⟩
  refine ⟨exists_represents ho.nodup complete fun name slot hslot ha hr =>
      Limit.le_one_of_permits hr (element name slot hslot ha).most,
    fun entries he Home follow home => ?_,
    fun entries he name slot value hslot hr hvalue Home follow home => ?_⟩
  · refine acceptsBut_properties (ho.groups.trans hg) (ho.choices ▸ hm) (ho.text.trans ht)
      (fun name hn => ?_) he.declared (fun choice hc => ?_) follow home
    · obtain ⟨⟨n, slot⟩, hmem, rfl⟩ := List.mem_map.1 hn
      obtain ⟨hmem, hreq⟩ := List.mem_filter.1 hmem
      have hslot : r.slot? n = some slot := Table.find?_of_mem ho.nodup hmem
      cases ha : slot.isAttribute with
      | true => exact he.attributes n slot hslot ha hreq
      | false =>
          rw [he.contains hslot ha]
          exact decide_eq_true ((element n slot hslot ha).required hreq)
    · refine hf.choices choice (ho.choices ▸ hc) entries fun name hn => ?_
      obtain ⟨slot, hslot, -, ha⟩ := ho.isElement hs (hfree name hn)
      exact he.contains hslot ha
  · have ha := ho.isElement_of_isRepeated hs hslot hr
    have hvalues := he.several name slot hslot ha hr
    rw [hvalue] at hvalues
    split at hvalues
    · exact nomatch hvalues
    · next hne =>
        obtain rfl := Option.some.inj hvalues
        have hfits := element name slot hslot ha
        refine acceptsBut_items hr (hfits.least.resolve_right fun hz => ?_) hfits.most
          ((Word.count_le_length w name).trans hl) follow home
        exact hne (List.length_eq_zero_iff.1 hz.2)

end Shape

end Crosswalk

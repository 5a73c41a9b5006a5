import Crosswalk.Proofs.Content.Branches
import Crosswalk.Proofs.Content.Objects
import Crosswalk.Proofs.Content.Uses
import Crosswalk.Proofs.Schema.Bounds

/-!
# Sound shapes

A shape is sound if no name has two slots, if no slot asks for more occurrences than it admits, if
what is required has to occur, if attributes occur once at most, and if the members that choices ask
for are elements of the shape. To the last there is one exception: an element that has the name of
an attribute is dropped, and the choice goes on to ask for it; the attribute may be taken away
later. So soundness is relative to the names that are lost in this way. Every operation on shapes
keeps it, and only choices lose names: those of elements that are dropped.
-/

namespace Crosswalk

/-! ### Bounds in order -/

namespace Bounds

variable {a b : Bounds}

theorem IsOrdered.times (ha : a.IsOrdered) (hb : b.IsOrdered) : (a.times b).IsOrdered :=
  Limit.times_le_times ha hb

theorem IsOrdered.plus (ha : a.IsOrdered) (hb : b.IsOrdered) : (a.plus b).IsOrdered :=
  Limit.plus_le_plus ha hb

/-- The lesser of two counts and the greater of two limits are in order if the first two are. -/
theorem IsOrdered.either (ha : a.IsOrdered) (b : Bounds) : (a.either b).IsOrdered := by
  have hleast : Limit.bounded (a.least.least b.least) ≤ .bounded a.least :=
    Limit.bounded_le_bounded.2 (Slot.toNat_least_le _ _).1
  exact Limit.le_trans hleast (Limit.le_trans ha (Limit.le_greater_left _ _))

theorem isOrdered_of_zero (most : Limit) : IsOrdered ⟨.zero, most⟩ :=
  Limit.le_iff.2 (zero_le (a := most.toENat))

/-- Whatever can occur at all can occur once. -/
theorem isOrdered_of_one {most : Limit} (h : most ≠ .zero) : IsOrdered ⟨.one, most⟩ := by
  cases most with
  | unbounded => exact Limit.le_unbounded _
  | bounded c =>
      refine Limit.bounded_le_bounded.2 (Nat.one_le_iff_ne_zero.2 fun hc => h ?_)
      exact congrArg Limit.bounded (Count.ext_toNat hc)

end Bounds

/-! ### Slots -/

namespace Slot

/-- The bounds are in order, what is required has to occur, and an attribute occurs at most once. -/
structure IsSound (s : Slot) : Prop where
  ordered : s.bounds.IsOrdered
  demanded : s.required = true → s.bounds.isRequired = true
  single : s.isAttribute = true → s.bounds.most = .one

variable {a b : Slot}

theorem isSound_ofElement (item : Json) {bounds : Bounds} (h : bounds.IsOrdered) :
    (ofElement item bounds).IsSound :=
  ⟨h, id, fun ha => absurd ha Bool.false_ne_true⟩

theorem isSound_ofAttribute (item : Json) (required : Bool) :
    (ofAttribute item required).IsSound := by
  cases required with
  | true => exact ⟨Limit.le_refl _, fun _ => rfl, fun _ => rfl⟩
  | false =>
      exact ⟨Bounds.isOrdered_of_zero _, fun h => absurd h Bool.false_ne_true, fun _ => rfl⟩

theorem isSound_placeholder : placeholder.IsSound :=
  ⟨Bounds.isOrdered_of_zero _, fun h => absurd h Bool.false_ne_true,
    fun h => absurd h Bool.false_ne_true⟩

theorem IsSound.optional (h : a.IsSound) : IsSound { a with required := false } :=
  ⟨h.ordered, fun hr => absurd hr Bool.false_ne_true, h.single⟩

theorem isRequired_plus {c d : Bounds} (h : c.isRequired = true ∨ d.isRequired = true) :
    (c.plus d).isRequired = true := by
  have hgreatest : 0 < Count.greatest := by decide
  unfold Bounds.isRequired at h ⊢
  rw [decide_eq_true_eq, decide_eq_true_eq] at h
  rw [decide_eq_true_eq, Bounds.plus, Count.toNat_plus]
  omega

theorem isRequired_either {c d : Bounds} (hc : c.isRequired = true) (hd : d.isRequired = true) :
    (c.either d).isRequired = true := by
  unfold Bounds.isRequired Bounds.either Count.least
  split
  · exact hd
  · exact hc

/-- An element occurs again: what either slot requires has to occur. -/
theorem IsSound.andThen (ha : a.IsSound) (hb : b.IsSound) (he : a.isAttribute = false) :
    (a.andThen b).IsSound where
  ordered := ha.ordered.plus hb.ordered
  demanded h := isRequired_plus ((Bool.or_eq_true_iff.1 h).imp ha.demanded hb.demanded)
  single h := absurd (he.symm.trans h) Bool.false_ne_true

/-- An element occurs instead: what both slots require has to occur. -/
theorem IsSound.orElse (ha : a.IsSound) (hb : b.IsSound) (he : a.isAttribute = false) :
    (a.orElse b).IsSound where
  ordered := ha.ordered.either b.bounds
  demanded h :=
    have hboth := Bool.and_eq_true_iff.1 h
    isRequired_either (ha.demanded hboth.1) (hb.demanded hboth.2)
  single h := absurd (he.symm.trans h) Bool.false_ne_true

/-- The array of occurrences of a sound slot admits as many as it asks for. -/
theorem IsSound.minItems_le_maxItems (h : a.IsSound) (hr : a.bounds.most.isRepeated = true) :
    ∃ fields, a.schema = .object fields ∧ ∀ least most : ℕ, ("minItems", Json.nat least) ∈ fields →
      ("maxItems", Json.nat most) ∈ fields → least ≤ most := by
  obtain ⟨fields, heq, hf⟩ := Shape.schema_of_isRepeated hr
  refine ⟨fields, heq, fun least most hl hm => ?_⟩
  have hleast : least = a.bounds.least.toNat := by simpa [Json.nat] using hf _ hl
  obtain ⟨n, hn, hmost⟩ : ∃ n, a.bounds.most = .bounded n ∧ most = n.toNat := by
    simpa [Json.nat] using hf _ hm
  have hordered : Limit.bounded a.bounds.least ≤ a.bounds.most := h.ordered
  rw [hn] at hordered
  rw [hleast, hmost]
  exact Limit.bounded_le_bounded.1 hordered

end Slot

/-! ### What a choice asks for -/

/-- At whatever depth, a value asks for a member of this name: a list of required members has it. -/
inductive Json.AsksFor (name : String) : Json → Prop
  | required {fields : List (String × Json)} {items : List Json}
    (hm : ("required", .array items) ∈ fields) (hn : .string name ∈ items) :
    AsksFor name (.object fields)
  | member {fields : List (String × Json)} {member : String × Json} (hm : member ∈ fields)
    (h : AsksFor name member.2) : AsksFor name (.object fields)
  | item {items : List Json} {item : Json} (hi : item ∈ items) (h : AsksFor name item) :
    AsksFor name (.array items)

namespace Json

variable {name : String}

theorem mem_strings {names : List String} (h : .string name ∈ names.map Json.string) :
    name ∈ names := by
  obtain ⟨other, ho, heq⟩ := List.mem_map.1 h
  exact Json.string.inj heq ▸ ho

theorem not_asksFor_strings (names : List String) : ¬ (strings names).AsksFor name := by
  intro h
  cases h with
  | item hi h =>
      obtain ⟨other, -, rfl⟩ := List.mem_map.1 hi
      cases h

theorem AsksFor.of_array {items : List Json} (h : (array items).AsksFor name) :
    ∃ item ∈ items, item.AsksFor name := by
  cases h with
  | item hi h => exact ⟨_, hi, h⟩

/-- One of the members of an object asks for what the object does. -/
theorem AsksFor.of_fields {fields : List (String × Json)} (h : (ofFields fields).AsksFor name) :
    ∃ member ∈ fields, (object [member]).AsksFor name := by
  cases h with
  | required hm hn => exact ⟨_, Table.mem_ofList hm, .required (List.mem_singleton_self _) hn⟩
  | member hm h => exact ⟨_, Table.mem_ofList hm, .member (List.mem_singleton_self _) h⟩

/-- What an object with one keyword asks for that does not list required members. -/
theorem AsksFor.of_singleton {keyword : String} {value : Json} (hk : keyword ≠ "required")
    (h : (object [(keyword, value)]).AsksFor name) : value.AsksFor name := by
  cases h with
  | required hm hn => exact absurd (Prod.mk.inj (List.mem_singleton.1 hm)).1.symm hk
  | member hm h =>
      obtain rfl := List.mem_singleton.1 hm
      exact h

theorem AsksFor.of_required {names : List String}
    (h : (object [("required", strings names)]).AsksFor name) : name ∈ names := by
  cases h with
  | required hm hn =>
      have heq := (Prod.mk.inj (List.mem_singleton.1 hm)).2
      exact mem_strings (Json.array.inj heq ▸ hn)
  | member hm h =>
      obtain rfl := List.mem_singleton.1 hm
      exact absurd h (not_asksFor_strings names)

end Json

namespace Shape

open Json

theorem mem_of_asksFor_presence {names : List String} {name : String}
    (h : (array (presence names)).AsksFor name) : name ∈ names := by
  obtain ⟨item, hi, h⟩ := h.of_array
  obtain ⟨other, ho, rfl⟩ := List.mem_map.1 hi
  exact List.mem_singleton.1 h.of_required ▸ ho

theorem mem_of_asksFor_absence {names : List String} {name : String}
    (h : (absence names).AsksFor name) : name ∈ names :=
  mem_of_asksFor_presence (h.of_singleton (by decide))

/-- The alternative of a branch asks for members of the choice, or for what choices in the branch
ask for. -/
theorem asksFor_alternative {branch : Shape} {all : List String} {exclusive : Bool} {name : String}
    (hb : ∀ n ∈ branch.names, n ∈ all) (h : (branch.alternative all exclusive).AsksFor name) :
    name ∈ all ∨ ∃ choice ∈ branch.choices, choice.AsksFor name := by
  obtain ⟨member, hm, h⟩ := h.of_fields
  rw [List.mem_append, List.mem_append] at hm
  rcases hm with (hm | hm) | hm
  · left
    split_ifs at hm
    · obtain rfl := List.mem_singleton.1 hm
      exact hb name (requiredNames_subset h.of_required)
    · obtain rfl := List.mem_singleton.1 hm
      exact hb name (mem_of_asksFor_presence (h.of_singleton (by decide)))
    · exact absurd hm List.not_mem_nil
  · left
    split_ifs at hm
    · obtain rfl := List.mem_singleton.1 hm
      exact (List.mem_filter.1 (mem_of_asksFor_absence (h.of_singleton (by decide)))).1
    · exact absurd hm List.not_mem_nil
  · right
    split_ifs at hm
    · exact absurd hm List.not_mem_nil
    · obtain rfl := List.mem_singleton.1 hm
      exact (h.of_singleton (by decide)).of_array

/-- A choice asks for members of its branches, or for what choices in the branches ask for. -/
theorem asksFor_choice? {branches : List Shape} {obliged : Bool} {choice : Json} {name : String}
    (hc : choice? branches obliged = some choice) (h : choice.AsksFor name) :
    ∃ branch ∈ branches, name ∈ branch.names ∨ ∃ inner ∈ branch.choices, inner.AsksFor name := by
  have member : name ∈ branches.flatMap names →
      ∃ branch ∈ branches, name ∈ branch.names ∨ ∃ inner ∈ branch.choices, inner.AsksFor name :=
    fun hn => (List.mem_flatMap.1 hn).imp fun branch hb => hb.imp_right .inl
  rw [choice?_eq hc] at h
  have hkeyword : (if !overlap branches then "oneOf" else "anyOf") ≠ "required" := by
    split <;> decide
  obtain ⟨item, hi, h⟩ := (h.of_singleton hkeyword).of_array
  rcases List.mem_append.1 hi with hi | hi
  · obtain ⟨branch, hb, rfl⟩ := List.mem_map.1 hi
    have hb := (mem_inhabited.1 hb).1
    have hall : ∀ n ∈ branch.names, n ∈ branches.flatMap names := fun n hn =>
      List.mem_flatMap.2 ⟨branch, hb, hn⟩
    exact (asksFor_alternative hall h).elim member fun hinner => ⟨branch, hb, .inr hinner⟩
  · split_ifs at hi
    · obtain rfl := List.mem_singleton.1 hi
      exact member (mem_of_asksFor_absence (h.of_singleton (by decide)))
    · exact absurd hi List.not_mem_nil

/-! ### Elements and attributes -/

/-- The name has the slot of an attribute. -/
def HasAttribute (s : Shape) (name : String) : Prop := name ∈ s.attributes.map (·.1)

section

variable {s r t : Shape} {name : String}

theorem not_hasAttribute_empty (name : String) : ¬ HasAttribute {} name := List.not_mem_nil

theorem hasAttribute_iff : s.HasAttribute name ↔ (name, true) ∈ s.roster := by
  simp only [HasAttribute, attributes, roster, List.mem_map, List.mem_filter, Prod.mk.injEq]
  constructor
  · rintro ⟨e, ⟨he, ha⟩, hn⟩
    exact ⟨e, he, hn, ha⟩
  · rintro ⟨e, he, hn, ha⟩
    exact ⟨e, ⟨he, ha⟩, hn⟩

theorem HasElement.mem_names (h : s.HasElement name) : name ∈ s.names := by
  rw [names_eq_roster]
  exact List.mem_map_of_mem h

theorem hasElement_or_hasAttribute (h : name ∈ s.names) :
    s.HasElement name ∨ s.HasAttribute name := by
  rw [names_eq_roster] at h
  obtain ⟨⟨_, isAttribute⟩, he, rfl⟩ := List.mem_map.1 h
  cases isAttribute with
  | false => exact .inl he
  | true => exact .inr (hasAttribute_iff.2 he)

/-- No name belongs to an element and an attribute together. -/
theorem HasAttribute.not_hasElement (h : s.HasAttribute name) (hd : s.names.Nodup) :
    ¬ s.HasElement name := by
  intro he
  rw [names_eq_roster] at hd
  have heq := List.inj_on_of_nodup_map hd he (hasAttribute_iff.1 h) rfl
  exact Bool.false_ne_true (Prod.mk.inj heq).2

theorem hasAttribute_of_slot? {slot : Slot} (h : s.slot? name = some slot)
    (ha : slot.isAttribute = true) : s.HasAttribute name :=
  hasAttribute_iff.2 (List.mem_map.2 ⟨(name, slot), Table.mem_of_find? h, by rw [ha]⟩)

/-- An element is dropped exactly if an attribute has its name. -/
theorem addElement_eq_dropped_iff (hd : s.names.Nodup) (join : Slot → Slot → Slot) (slot : Slot) :
    (s.addElement join name slot).2 = .dropped ↔ s.HasAttribute name := by
  unfold addElement
  split
  · next hs =>
      refine iff_of_false nofun fun ha => ?_
      have hn := hasAttribute_iff.1 ha
      exact slot?_eq_none_iff.1 hs (names_eq_roster s ▸ List.mem_map_of_mem hn)
  · next found hs =>
      split
      · next hf => exact iff_of_true rfl (hasAttribute_of_slot? hs hf)
      · next hf =>
          refine iff_of_false nofun fun ha => ha.not_hasElement hd (hasElement_of_slot? hs ?_)
          exact Bool.eq_false_iff.2 hf

end

/-- The second shape has come of the first by elements, among them ones of these names. An element
is missing only if an attribute has its name. -/
structure Covers (covered : String → Prop) (s r : Shape) : Prop where
  attributes : r.attributes = s.attributes
  kept : ∀ name, s.HasElement name → r.HasElement name
  covered : ∀ name, covered name → r.HasElement name ∨ s.HasAttribute name

section

variable {covered : String → Prop} {s r : Shape} {join : Slot → Slot → Slot} {slot : Slot}

theorem covers_addElement (hj : Slot.IsJoin join) (s : Shape) (name : String)
    (ha : slot.isAttribute = false) :
    Covers (· = name) s (s.addElement join name slot).1 where
  attributes := attributes_addElement hj ha
  kept _ := hasElement_addElement_of_hasElement hj name slot
  covered := by
    rintro name rfl
    by_cases hn : name ∈ s.names
    · exact (hasElement_or_hasAttribute hn).imp_left
        (hasElement_addElement_of_hasElement hj name slot)
    · left
      rw [names_eq_roster] at hn
      rw [HasElement, roster_addElement s hj, enlist, if_neg hn, ha]
      exact List.mem_append_right _ (List.mem_singleton_self _)

/-- Elements are added one after the other. -/
theorem covers_foldl {α : Type} {f : Shape → α → Shape} {of : α → String → Prop} {as : List α}
    (h : ∀ a ∈ as, ∀ s, Covers (of a) s (f s a)) :
    ∀ s, Covers (fun name => ∃ a ∈ as, of a name) s (as.foldl f s) := by
  induction as with
  | nil => exact fun s => ⟨rfl, fun _ => id, fun name ⟨a, ha, _⟩ => absurd ha List.not_mem_nil⟩
  | cons a rest ih =>
      intro s
      rw [List.forall_mem_cons] at h
      have first := h.1 s
      have others := ih h.2 (f s a)
      refine ⟨others.attributes.trans first.attributes,
        fun name hn => others.kept name (first.kept name hn), ?_⟩
      rintro name ⟨b, hb, hn⟩
      rcases List.mem_cons.1 hb with rfl | hb
      · exact (first.covered name hn).imp_left (others.kept name)
      · refine (others.covered name ⟨b, hb, hn⟩).imp_right fun ha => ?_
        rw [HasAttribute, ← first.attributes]
        exact ha

theorem covers_joinMember (outside : List String) (s : Shape) {member : String × Slot}
    (ha : member.2.isAttribute = false) :
    Covers (· = member.1) s (s.joinMember outside member) := by
  unfold joinMember
  split
  · exact covers_addElement Slot.isJoin_andThen s _ rfl
  · exact covers_addElement Slot.isJoin_orElse s _ ha

/-- A branch without attributes is joined. -/
theorem covers_joinBranch (outside : List String) (s : Shape) {branch : Shape}
    (h : branch.attributes = []) : Covers branch.HasElement s (s.joinBranch outside branch) := by
  have members : Covers (fun name => ∃ member ∈ branch.slots, name = member.1)
      { s with isOpen := s.isOpen || branch.isOpen } (s.joinBranch outside branch) :=
    covers_foldl (fun member hm s =>
      covers_joinMember outside s (hasElement_of_attributes_nil h hm).1) _
  refine ⟨members.attributes, members.kept, fun name hn => members.covered name ?_⟩
  obtain ⟨entry, he, heq⟩ := List.mem_map.1 hn
  exact ⟨entry, he, (Prod.mk.inj heq).1.symm⟩

end

/-! ### Soundness -/

/-- No name has two slots, the slots are sound, and what choices ask for are elements, but for some
names that are lost. -/
structure IsSound (lost : String → Prop) (s : Shape) : Prop where
  distinct : s.names.Nodup
  slots : ∀ entry ∈ s.slots, entry.2.IsSound
  asked : ∀ choice ∈ s.choices, ∀ name, choice.AsksFor name → s.HasElement name ∨ lost name

theorem isSound_empty (lost : String → Prop) : IsSound lost {} :=
  ⟨List.nodup_nil, List.forall_mem_nil _, List.forall_mem_nil _⟩

namespace IsSound

variable {lost lost' : String → Prop} {s r : Shape} (h : s.IsSound lost)
include h

theorem mono (hl : ∀ name, lost name → lost' name) : s.IsSound lost' :=
  ⟨h.distinct, h.slots, fun choice hc name ha => (h.asked choice hc name ha).imp_right (hl name)⟩

/-- What choices ask for has a slot, if it is not lost. -/
theorem mem_names {choice : Json} (hc : choice ∈ s.choices) {name : String}
    (ha : choice.AsksFor name) : name ∈ s.names ∨ lost name :=
  (h.asked choice hc name ha).imp_left HasElement.mem_names

/-- Text, links to groups and wildcards do not matter. -/
theorem congr (hs : r.slots = s.slots) (hc : r.choices = s.choices) : r.IsSound lost := by
  obtain ⟨slots, choices, groups, text, isOpen⟩ := r
  obtain rfl : slots = s.slots := hs
  obtain rfl : choices = s.choices := hc
  exact ⟨h.distinct, h.slots, h.asked⟩

/-- A slot is placed where it is a sound one that is changed, if there is any. -/
theorem slots_place {change : Slot → Slot} {name : String} {slot : Slot} (hs : slot.IsSound)
    (hc : ∀ old, s.slot? name = some old → (change old).IsSound) :
    ∀ entry ∈ place change name slot s.slots, entry.2.IsSound := by
  intro entry he
  rcases mem_place he with he | rfl | ⟨old, ho, rfl⟩
  · exact h.slots entry he
  · exact hs
  · exact hc old (Table.find?_of_mem h.distinct ho)

theorem slot {name : String} {slot : Slot} (hs : s.slot? name = some slot) : slot.IsSound :=
  h.slots _ (Table.mem_of_find? hs)

/-- An element is added, in either way to join it to the slot that it has already. -/
theorem addElement {join : Slot → Slot → Slot} (hj : Slot.IsJoin join)
    (hsound : ∀ {a b : Slot}, a.IsSound → b.IsSound → a.isAttribute = false → (join a b).IsSound)
    (name : String) {slot : Slot} (hs : slot.IsSound) :
    (s.addElement join name slot).1.IsSound lost := by
  refine ⟨nodup_addElement h.distinct join name slot, ?_, fun choice hc other ha => ?_⟩
  · unfold Shape.addElement
    split
    · next hnone => exact h.slots_place hs fun old ho => nomatch hnone.symm.trans ho
    · next found hfound =>
        split
        · exact h.slots
        · next hf =>
            refine h.slots_place hs fun old ho => ?_
            obtain rfl := Option.some.inj (hfound.symm.trans ho)
            exact hsound (h.slot hfound) hs (Bool.eq_false_iff.2 hf)
  · rw [(slotsOnly_addElement s join name slot).choices] at hc
    exact (h.asked choice hc other ha).imp_left (hasElement_addElement_of_hasElement hj name slot)

/-- An element occurs again. -/
theorem andThen (name : String) {slot : Slot} (hs : slot.IsSound) :
    (s.addElement Slot.andThen name slot).1.IsSound lost :=
  h.addElement Slot.isJoin_andThen Slot.IsSound.andThen name hs

/-- An element occurs instead. -/
theorem orElse (name : String) {slot : Slot} (hs : slot.IsSound) :
    (s.addElement Slot.orElse name slot).1.IsSound lost :=
  h.addElement Slot.isJoin_orElse Slot.IsSound.orElse name hs

/-- An attribute is added or replaced, unless an element has its name. -/
theorem addAttribute (name : String) (item : Json) (required : Bool) :
    ((s.addAttribute? name (.ofAttribute item required)).getD s).IsSound lost := by
  have hs := Slot.isSound_ofAttribute item required
  have hattribute : (Slot.ofAttribute item required).isAttribute = true := rfl
  refine ⟨?_, ?_, fun choice hc other ha => ?_⟩
  · unfold addAttribute?
    split
    · exact h.distinct
    · exact nodup_keys_place h.distinct
  · unfold addAttribute?
    split
    · exact h.slots
    · exact h.slots_place hs fun _ _ => hs
  · have hchoices : ((s.addAttribute? name (.ofAttribute item required)).getD s).choices =
        s.choices := by
      unfold addAttribute?
      split <;> rfl
    rw [hchoices] at hc
    refine (h.asked choice hc other ha).imp_left fun hn => ?_
    rw [HasElement, roster_addAttribute? s name hattribute]
    exact mem_enlist_of_mem hn _ _

/-- An attribute is taken away. Elements stay, and so does whatever choices ask for. -/
theorem removeAttribute (name : String) : (s.removeAttribute name).IsSound lost := by
  refine ⟨h.distinct.sublist (List.filter_sublist.map _),
    fun entry he => h.slots entry (List.mem_filter.1 he).1, fun choice hc other ha => ?_⟩
  refine (h.asked choice hc other ha).imp_left fun hn => ?_
  rw [HasElement, roster_removeAttribute]
  exact List.mem_filter.2 ⟨hn, rfl⟩

/-- A group is referred to. -/
theorem addReference (members : Shape) (reference : Json) :
    (s.addReference members reference).IsSound lost := by
  have joined : (members.names.foldl (fun s name =>
      (s.addElement Slot.andThen name .placeholder).1) s).IsSound lost :=
    List.foldlRecOn members.names _ (motive := IsSound lost) h
      fun _ ht name _ => ht.andThen name Slot.isSound_placeholder
  exact joined.congr rfl rfl

theorem joinBranch (outside : List String) {branch : Shape}
    (hb : ∀ entry ∈ branch.slots, entry.2.IsSound) :
    (s.joinBranch outside branch).IsSound lost := by
  have opened : { s with isOpen := s.isOpen || branch.isOpen }.IsSound lost := h.congr rfl rfl
  refine List.foldlRecOn branch.slots _ (motive := IsSound lost) opened fun t ht member hm => ?_
  unfold joinMember
  split
  · exact ht.andThen _ (Slot.isSound_ofElement _ (Bounds.isOrdered_of_zero _))
  · exact ht.orElse _ (hb member hm).optional

/-- A choice is added whose branches are sound and have no attributes. What it asks for is there,
unless it is dropped for an attribute. -/
theorem withChoice {branches : List Shape}
    (hb : ∀ branch ∈ branches, branch.IsSound fun _ => False)
    (ha : ∀ branch ∈ branches, branch.attributes = [])
    (hl : ∀ branch ∈ branches, ∀ name, branch.HasElement name → s.HasAttribute name → lost name)
    (obliged : Bool) : (s.withChoice branches obliged).IsSound lost := by
  have joined : (branches.foldl (Shape.joinBranch s.names) s).IsSound lost :=
    List.foldlRecOn branches _ (motive := IsSound lost) h
      fun _ ht branch hm => ht.joinBranch s.names (hb branch hm).slots
  have covers := covers_foldl (fun branch hm t => covers_joinBranch s.names t (ha branch hm)) s
  refine ⟨joined.distinct, joined.slots, fun choice hc name hasked => ?_⟩
  rcases List.mem_append.1 hc with hc | hc
  · exact joined.asked choice hc name hasked
  · obtain ⟨branch, hm, hn⟩ := asksFor_choice? (Option.mem_toList.1 hc) hasked
    have helement : branch.HasElement name := by
      rcases hn with hn | ⟨inner, hi, hn⟩
      · refine (hasElement_or_hasAttribute hn).resolve_right fun hattribute => ?_
        rw [HasAttribute, ha branch hm] at hattribute
        exact absurd hattribute List.not_mem_nil
      · exact ((hb branch hm).asked inner hi name hn).resolve_right id
    exact (covers.covered name ⟨branch, hm, helement⟩).imp_right (hl branch hm name helement)

end IsSound

end Shape

end Crosswalk

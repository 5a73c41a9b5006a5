import Crosswalk.Proofs.Content.Slots
import Crosswalk.Proofs.Inlining.Apart

/-!
# Shapes with groups referred to or inlined

The same content is collected twice: into a shape that refers to model groups, and into one that has
their members itself. As long as the first one leaves what the definitions describe to them, slot by
slot the two agree: an element or attribute of its own has a slot in both, and a placeholder stands
for a slot that is like the one in a definition. Each way in which a shape is changed is considered
once: it keeps the relation, and what it leaves to definitions, the shape has left to them before.
-/

namespace Crosswalk

open Json Check

variable {Home : Type}

/-- The definition of a model group: where it stands, and the shape of its content. -/
structure Definition (Home : Type) where
  home : Home
  shape : Shape

namespace Slot

/-- Slots of one element or attribute: the item of the first is written with references to model
groups, that of the second without. -/
structure Agrees (lead : Home → String → Option (Home × Json)) (follow : Follow Home)
    (home home' : Home) (a b : Slot) : Prop where
  item : ItemAgrees lead follow home home' a.item b.item
  bounds : a.bounds = b.bounds
  required : a.required = b.required
  isAttribute : a.isAttribute = b.isAttribute

/-- A way to join two slots of elements: either item, and bounds that depend on bounds only. -/
def IsJoin (join : Slot → Slot → Slot) : Prop :=
  ∃ (bounds : Bounds → Bounds → Bounds) (required : Bool → Bool → Bool), ∀ a b,
    join a b = ⟨a.eitherItem b, bounds a.bounds b.bounds, required a.required b.required,
      a.isAttribute⟩

theorem isJoin_andThen : IsJoin andThen := ⟨Bounds.plus, (· || ·), fun _ _ => rfl⟩

theorem isJoin_orElse : IsJoin orElse := ⟨Bounds.either, (· && ·), fun _ _ => rfl⟩

/-- What is joined with the schema of an item is not the schema of anything at all. -/
theorem eitherItem_ne {a b : Slot} (h : b.item ≠ .bool true) : a.eitherItem b ≠ .bool true := by
  unfold eitherItem
  split
  · next halike => exact fun ha => h ((eq_true_of_alike halike).1 ha)
  · exact Json.noConfusion

variable {lead : Home → String → Option (Home × Json)} {follow : Follow Home} {home home' : Home}

theorem Agrees.join (hb : IsBlind follow) {join : Slot → Slot → Slot} (hj : IsJoin join)
    {a b a' b' : Slot} (h : a.Agrees lead follow home home' a')
    (h' : b.Agrees lead follow home home' b') :
    (join a b).Agrees lead follow home home' (join a' b') := by
  obtain ⟨bounds, required, hj⟩ := hj
  rw [hj, hj, h.bounds, h'.bounds, h.required, h'.required, h.isAttribute]
  exact ⟨h.item.eitherItem hb h'.item, rfl, rfl, rfl⟩

theorem Agrees.acceptsSame (hb : IsBlind follow) {a b : Slot}
    (h : a.Agrees lead follow home home' b) (ha : Apart lead home a.item) :
    AcceptsSame follow home home' a.schema b.schema :=
  Slot.acceptsSame_schema hb (h.item.same ha) h.bounds

theorem Agrees.ofElement {a b : Json} (h : ItemAgrees lead follow home home' a b)
    (bounds : Bounds) :
    (Slot.ofElement a bounds).Agrees lead follow home home' (.ofElement b bounds) :=
  ⟨h, rfl, rfl, rfl⟩

end Slot

namespace Shape

/-! ### Entries that agree one by one -/

section

variable {R : String × Slot → String × Slot → Prop} (hkey : ∀ e e', R e e' → e.1 = e'.1)
  {slots slots' : List (String × Slot)}
include hkey

theorem forall₂_place (h : List.Forall₂ R slots slots') {change change' : Slot → Slot}
    {name : String} {slot slot' : Slot}
    (hchange : ∀ old old', R (name, old) (name, old') → R (name, change old) (name, change' old'))
    (hnew : R (name, slot) (name, slot')) :
    List.Forall₂ R (place change name slot slots) (place change' name slot' slots') := by
  induction h with
  | nil => exact .cons hnew .nil
  | @cons e e' rest rest' he hrest ih =>
      obtain ⟨n, old⟩ := e
      obtain ⟨n', old'⟩ := e'
      obtain rfl : n = n' := hkey _ _ he
      rw [place, place]
      split
      · next hn =>
          subst hn
          exact .cons (hchange old old' he) hrest
      · exact .cons he ih

theorem rel_find? (h : List.Forall₂ R slots slots') (name : String) :
    Option.Rel (fun old old' => R (name, old) (name, old')) (Table.find? slots name)
      (Table.find? slots' name) := by
  induction h with
  | nil => exact .none
  | @cons e e' rest rest' he _ ih =>
      obtain ⟨n, old⟩ := e
      obtain ⟨n', old'⟩ := e'
      obtain rfl : n = n' := hkey _ _ he
      rw [Table.find?_cons, Table.find?_cons]
      split
      · next hn => exact .some (hn ▸ he)
      · exact ih

theorem keys_eq (h : List.Forall₂ R slots slots') : slots.map (·.1) = slots'.map (·.1) := by
  induction h with
  | nil => rfl
  | cons he _ ih => rw [List.map_cons, List.map_cons, hkey _ _ he, ih]

end

/-! ### What a shape leaves to definitions -/

/-- The names of the members of definitions. -/
def covered (definitions : List (Definition Home)) : List String :=
  definitions.flatMap fun d => d.shape.names

/-- Each member of the definitions is described by one of them and by nothing else: it has a slot
for anything at all. -/
structure Leaves (s : Shape) (definitions : List (Definition Home)) : Prop where
  nodup : (covered definitions).Nodup
  left : ∀ name ∈ covered definitions, ∃ slot, s.slot? name = some slot ∧
    slot.item = .bool true ∧ slot.bounds.most.isRepeated = false

/-- The slots for anything at all were there before. -/
def Keeps (s t : Shape) : Prop :=
  ∀ name slot, t.slot? name = some slot → slot.item = .bool true → s.slot? name = some slot

theorem Keeps.refl (s : Shape) : Keeps s s := fun _ _ h _ => h

theorem Keeps.trans {s t r : Shape} (h : Keeps s t) (h' : Keeps t r) : Keeps s r :=
  fun name slot hs hi => h name slot (h' name slot hs hi) hi

theorem Leaves.of_keeps {s t : Shape} {definitions : List (Definition Home)}
    (h : t.Leaves definitions) (hk : Keeps s t) : s.Leaves definitions := by
  refine ⟨h.nodup, fun name hn => ?_⟩
  obtain ⟨slot, hslot, hitem, hr⟩ := h.left name hn
  exact ⟨slot, hk name slot hslot hitem, hitem, hr⟩

/-- A slot for something in particular is not left to definitions. -/
theorem Leaves.notMem {s : Shape} {definitions : List (Definition Home)} (h : s.Leaves definitions)
    {name : String} {slot : Slot} (hs : s.slot? name = some slot) (hi : slot.item ≠ .bool true) :
    name ∉ covered definitions := by
  intro hn
  obtain ⟨found, hfound, hitem, -⟩ := h.left name hn
  obtain rfl := Option.some.inj (hs.symm.trans hfound)
  exact hi hitem

/-! ### Changes of a shape -/

theorem addElement_of_none {s : Shape} {name : String} (hs : s.slot? name = none)
    (join : Slot → Slot → Slot) (slot : Slot) :
    (s.addElement join name slot).1 = { s with slots := place id name slot s.slots } := by
  simp only [addElement, hs]

theorem addElement_of_element {s : Shape} {name : String} {old : Slot}
    (hs : s.slot? name = some old) (he : old.isAttribute = false) (join : Slot → Slot → Slot)
    (slot : Slot) : (s.addElement join name slot).1 =
      { s with slots := place (fun old => join old slot) name slot s.slots } := by
  simp [addElement, hs, he]

theorem addElement_of_attribute {s : Shape} {name : String} {old : Slot}
    (hs : s.slot? name = some old) (ha : old.isAttribute = true) (join : Slot → Slot → Slot)
    (slot : Slot) : (s.addElement join name slot).1 = s := by
  simp [addElement, hs, ha]

theorem slot?_addElement_of_ne (s : Shape) (join : Slot → Slot → Slot) (slot : Slot)
    {name other : String} (h : other ≠ name) :
    (s.addElement join name slot).1.slot? other = s.slot? other := by
  unfold addElement
  split
  · exact (find?_place id name slot s.slots other).trans (if_neg h)
  · split
    · rfl
    · exact (find?_place _ name slot s.slots other).trans (if_neg h)

/-- What becomes of the slot of an element that is added. -/
theorem slot?_addElement_self (s : Shape) (join : Slot → Slot → Slot) (name : String)
    (slot : Slot) : (∃ old, s.slot? name = some old ∧ old.isAttribute = true ∧
        (s.addElement join name slot).1 = s) ∨
      (∀ old, s.slot? name = some old → old.isAttribute = false) ∧
        (s.addElement join name slot).1.slot? name =
          some ((s.slot? name).elim slot fun old => join old slot) := by
  cases hs : s.slot? name with
  | none =>
      refine .inr ⟨fun _ h => (nomatch h), ?_⟩
      rw [addElement_of_none hs]
      exact (find?_place id name slot s.slots name).trans (by rw [if_pos rfl, ← slot?, hs]; rfl)
  | some old =>
      cases ha : old.isAttribute with
      | true => exact .inl ⟨old, rfl, ha, addElement_of_attribute hs ha join slot⟩
      | false =>
          refine .inr ⟨fun _ h => Option.some.inj h ▸ ha, ?_⟩
          rw [addElement_of_element hs ha]
          exact (find?_place _ name slot s.slots name).trans (by rw [if_pos rfl, ← slot?, hs])

/-- The second shape may have other slots, and other members may be admitted beside them. -/
structure SlotsOnly (s t : Shape) : Prop where
  choices : t.choices = s.choices
  groups : t.groups = s.groups
  text : t.text = s.text

theorem SlotsOnly.refl (s : Shape) : SlotsOnly s s := ⟨rfl, rfl, rfl⟩

theorem SlotsOnly.trans {s t r : Shape} (h : SlotsOnly s t) (h' : SlotsOnly t r) :
    SlotsOnly s r :=
  ⟨h'.choices.trans h.choices, h'.groups.trans h.groups, h'.text.trans h.text⟩

theorem slotsOnly_addElement (s : Shape) (join : Slot → Slot → Slot) (name : String)
    (slot : Slot) : SlotsOnly s (s.addElement join name slot).1 := by
  unfold addElement
  split
  · exact ⟨rfl, rfl, rfl⟩
  · split <;> exact ⟨rfl, rfl, rfl⟩

theorem nodup_addElement {s : Shape} (h : s.names.Nodup) (join : Slot → Slot → Slot)
    (name : String) (slot : Slot) : (s.addElement join name slot).1.names.Nodup := by
  unfold addElement
  split
  · exact nodup_keys_place h
  · split
    · exact h
    · exact nodup_keys_place h

/-- An added element does not bring a slot for anything at all. -/
theorem keeps_addElement (s : Shape) {join : Slot → Slot → Slot} (hj : Slot.IsJoin join)
    (name : String) {slot : Slot} (hi : slot.item ≠ .bool true) :
    Keeps s (s.addElement join name slot).1 := by
  intro other found hf hitem
  by_cases ho : other = name
  · subst ho
    rcases slot?_addElement_self s join other slot with ⟨old, -, -, heq⟩ | ⟨-, hself⟩
    · rwa [heq] at hf
    · obtain rfl := Option.some.inj (hself.symm.trans hf)
      obtain ⟨bounds, required, hj⟩ := hj
      cases hs : s.slot? other with
      | none => exact absurd (by simpa [hs] using hitem) hi
      | some old => exact absurd (by simpa [hs, hj] using hitem) (Slot.eitherItem_ne hi)
  · rwa [slot?_addElement_of_ne s join slot ho] at hf

theorem keeps_removeAttribute {s : Shape} (hn : s.names.Nodup) (name : String) :
    Keeps s (s.removeAttribute name) := fun _ _ hslot _ =>
  Table.find?_of_mem hn (List.mem_filter.1 (Table.mem_of_find? hslot)).1

theorem keeps_addAttribute? {s t : Shape} {name : String} {slot : Slot}
    (hi : slot.item ≠ .bool true) (ht : s.addAttribute? name slot = some t) : Keeps s t := by
  unfold addAttribute? at ht
  split at ht
  · exact nomatch ht
  · obtain rfl := Option.some.inj ht
    intro other found hf hitem
    have hslot := find?_place (fun _ => slot) name slot s.slots other
    rw [slot?, hslot] at hf
    split at hf
    · obtain rfl : slot = found := by
        cases hold : Table.find? s.slots name <;> simpa [hold] using hf
      exact absurd hitem hi
    · exact hf

/-! ### Shapes that agree -/

section

variable (lead : Home → String → Option (Home × Json)) (follow : Follow Home) (home home' : Home)

/-- A slot of the shape itself agrees with one there, and a placeholder stands for one that agrees
with that of a definition. -/
inductive EntryAgrees (definitions : List (Definition Home)) :
    String × Slot → String × Slot → Prop where
  | own {name : String} {a b : Slot} (hn : name ∉ covered definitions)
    (h : a.Agrees lead follow home home' b) : EntryAgrees definitions (name, a) (name, b)
  | left {name : String} {a b : Slot} {d : Definition Home} (hd : d ∈ definitions)
    (hs : d.shape.slot? name = some a) (he : a.isAttribute = false)
    (h : a.Agrees lead follow d.home home' b) :
    EntryAgrees definitions (name, .placeholder) (name, b)

/-- The second shape is the first one with the members of the definitions in their places. -/
structure Inlines (definitions : List (Definition Home)) (s s' : Shape) : Prop where
  entries : List.Forall₂ (EntryAgrees lead follow home home' definitions) s.slots s'.slots
  choices : ∀ choice, choice ∈ s'.choices ↔
    choice ∈ s.choices ∨ ∃ d ∈ definitions, choice ∈ d.shape.choices
  same : definitions = [] → s'.choices = s.choices
  groups : s'.groups = []
  text : Option.Rel (SameItem follow home home') s.text s'.text
  isOpen : s.isOpen = s'.isOpen

end

section

variable {lead : Home → String → Option (Home × Json)} {follow : Follow Home} {home home' : Home}
  {definitions : List (Definition Home)} {s s' : Shape}

theorem EntryAgrees.key {e e' : String × Slot}
    (h : EntryAgrees lead follow home home' definitions e e') : e.1 = e'.1 := by
  cases h <;> rfl

theorem mem_covered {d : Definition Home} (hd : d ∈ definitions) {name : String}
    (hn : name ∈ d.shape.names) : name ∈ covered definitions := List.mem_flatMap.2 ⟨d, hd, hn⟩

theorem EntryAgrees.isAttribute {name : String} {a b : Slot}
    (h : EntryAgrees lead follow home home' definitions (name, a) (name, b)) :
    a.isAttribute = b.isAttribute := by
  cases h with
  | own hn h => exact h.isAttribute
  | left hd hs he h => exact he.symm.trans h.isAttribute

theorem EntryAgrees.agrees {name : String} {a b : Slot}
    (h : EntryAgrees lead follow home home' definitions (name, a) (name, b))
    (hn : name ∉ covered definitions) : a.Agrees lead follow home home' b := by
  cases h with
  | own _ h => exact h
  | left hd hs _ _ => exact absurd (mem_covered hd (mem_names_of_slot? hs)) hn

namespace Inlines

variable (h : Inlines lead follow home home' definitions s s')
include h

theorem names : s.names = s'.names := keys_eq (fun _ _ => EntryAgrees.key) h.entries

theorem slot?_of_none {name : String} (hs : s.slot? name = none) : s'.slot? name = none := by
  rwa [slot?_eq_none_iff, ← h.names, ← slot?_eq_none_iff]

theorem slot?_of_some {name : String} {a : Slot} (hs : s.slot? name = some a) :
    ∃ b, s'.slot? name = some b ∧
      EntryAgrees lead follow home home' definitions (name, a) (name, b) := by
  have hrel := rel_find? (fun _ _ => EntryAgrees.key) h.entries name
  rw [← slot?, ← slot?, hs] at hrel
  generalize s'.slot? name = found at hrel
  cases hrel with
  | some hab => exact ⟨_, rfl, hab⟩

theorem placed {change change' : Slot → Slot} {name : String} {slot slot' : Slot}
    (hn : name ∉ covered definitions)
    (hchange : ∀ old old', old.Agrees lead follow home home' old' →
      (change old).Agrees lead follow home home' (change' old'))
    (hnew : slot.Agrees lead follow home home' slot') :
    Inlines lead follow home home' definitions
      { s with slots := place change name slot s.slots }
      { s' with slots := place change' name slot' s'.slots } :=
  ⟨forall₂_place (fun _ _ => EntryAgrees.key) h.entries
      (fun old old' hold => .own hn (hchange old old' (hold.agrees hn))) (.own hn hnew),
    h.choices, h.same, h.groups, h.text, h.isOpen⟩

theorem addElement (hb : IsBlind follow) {join : Slot → Slot → Slot} (hj : Slot.IsJoin join)
    {name : String} {slot slot' : Slot} (hslot : slot.Agrees lead follow home home' slot')
    (hl : (s.addElement join name slot).1.Leaves definitions) :
    Inlines lead follow home home' definitions (s.addElement join name slot).1
      (s'.addElement join name slot').1 := by
  rcases slot?_addElement_self s join name slot with ⟨old, hs, ha, heq⟩ | ⟨he, hself⟩
  · obtain ⟨old', hs', hold⟩ := h.slot?_of_some hs
    rw [heq, addElement_of_attribute hs' (hold.isAttribute ▸ ha)]
    exact h
  · have hn : name ∉ covered definitions := by
      refine hl.notMem hself ?_
      obtain ⟨bounds, required, hj⟩ := hj
      cases s.slot? name with
      | none => exact hslot.item.described
      | some old => simpa [hj] using Slot.eitherItem_ne hslot.item.described
    cases hs : s.slot? name with
    | none =>
        rw [addElement_of_none hs, addElement_of_none (h.slot?_of_none hs)]
        exact h.placed hn (fun _ _ => id) hslot
    | some old =>
        obtain ⟨old', hs', hold⟩ := h.slot?_of_some hs
        rw [addElement_of_element hs (he old hs),
          addElement_of_element hs' (hold.isAttribute ▸ he old hs)]
        exact h.placed hn (fun _ _ hold => hold.join hb hj hslot) hslot

/-- An attribute is added to both shapes or to none of them. -/
theorem addAttribute? (name : String) {slot slot' : Slot}
    (hslot : slot.Agrees lead follow home home' slot') :
    Option.Rel (fun t t' => t.Leaves definitions →
        Inlines lead follow home home' definitions t t')
      (s.addAttribute? name slot) (s'.addAttribute? name slot') := by
  have hsame : ((s.slot? name).any fun found => !found.isAttribute) =
      ((s'.slot? name).any fun found => !found.isAttribute) := by
    cases hs : s.slot? name with
    | none => rw [h.slot?_of_none hs]
    | some old =>
        obtain ⟨old', hs', hold⟩ := h.slot?_of_some hs
        rw [hs', Option.any_some, Option.any_some, hold.isAttribute]
  unfold Shape.addAttribute?
  rw [← hsame]
  split
  · exact .none
  · refine .some fun hl => h.placed (hl.notMem ?_ hslot.item.described) (fun _ _ _ => hslot) hslot
    refine (find?_place (fun _ => slot) name slot s.slots name).trans ?_
    rw [if_pos rfl]
    cases Table.find? s.slots name <;> rfl

theorem removeAttribute (name : String) : Inlines lead follow home home' definitions
    (s.removeAttribute name) (s'.removeAttribute name) := by
  refine ⟨List.rel_filter ?_ h.entries, h.choices, h.same, h.groups, h.text, h.isOpen⟩
  intro e e' he
  obtain ⟨n, a⟩ := e
  obtain ⟨n', b⟩ := e'
  obtain rfl : n = n' := he.key
  simp only [he.isAttribute]

theorem opened {isOpen isOpen' : Bool} (ho : isOpen = isOpen') :
    Inlines lead follow home home' definitions { s with isOpen } { s' with isOpen := isOpen' } :=
  ⟨h.entries, h.choices, h.same, h.groups, h.text, ho⟩

theorem withText {text text' : Option Json}
    (ht : Option.Rel (SameItem follow home home') text text') :
    Inlines lead follow home home' definitions { s with text } { s' with text := text' } :=
  ⟨h.entries, h.choices, h.same, h.groups, ht, h.isOpen⟩

/-- The same constraints of choices are added. -/
theorem addChoices (choices : List Json) : Inlines lead follow home home' definitions
    { s with choices := s.choices ++ choices } { s' with choices := s'.choices ++ choices } := by
  refine ⟨h.entries, fun choice => ?_, fun hnil => ?_, h.groups, h.text, h.isOpen⟩
  · rw [List.mem_append, List.mem_append, h.choices]
    exact or_right_comm
  · exact congrArg (· ++ choices) (h.same hnil)

end Inlines

end

end Shape

end Crosswalk

import Crosswalk.Proofs.Content.Slots

/-!
# Attributes beside elements

The attributes of a type are added to the shape of its content. They leave its elements and its
constraints alone: an attribute with the name of an element is dropped, and only attributes are
replaced or taken away. `Overlays` says what then is true of the shape, whatever attribute uses and
groups of them are taken.
-/

namespace Crosswalk

namespace Shape

/-- The second shape is the first one with attributes added. -/
structure Overlays (s r : Shape) : Prop where
  nodup : r.names.Nodup
  kept : ∀ name ∈ s.names, r.slot? name = s.slot? name
  added : ∀ name slot, name ∉ s.names → r.slot? name = some slot →
    slot.isAttribute = true ∧ slot.bounds.most.isRepeated = false
  choices : r.choices = s.choices
  groups : r.groups = s.groups
  text : r.text = s.text

namespace Overlays

variable {s r : Shape}

theorem refl (hs : s.IsElemental) : Overlays s s :=
  ⟨hs.nodup, fun _ _ => rfl, fun _ _ hn h => absurd (mem_names_of_slot? h) hn, rfl, rfl, rfl⟩

theorem opened (h : Overlays s r) (isOpen : Bool) : Overlays s { r with isOpen } :=
  ⟨h.nodup, h.kept, h.added, h.choices, h.groups, h.text⟩

/-- The names of elements are still there. -/
theorem isElement (h : Overlays s r) (hs : s.IsElemental) {name : String} (hn : name ∈ s.names) :
    ∃ slot, r.slot? name = some slot ∧ s.slot? name = some slot ∧ slot.isAttribute = false := by
  obtain ⟨slot, hslot⟩ := exists_slot hn
  exact ⟨slot, (h.kept name hn).trans hslot, hslot, hs.element name slot hslot⟩

/-- A slot that is not for an attribute is that of the content. -/
theorem slot_of_isElement (h : Overlays s r) {name : String} {slot : Slot}
    (hslot : r.slot? name = some slot) (ha : slot.isAttribute = false) :
    s.slot? name = some slot := by
  have hn : name ∈ s.names := by
    by_contra hn
    exact Bool.false_ne_true (ha.symm.trans (h.added name slot hn hslot).1)
  exact (h.kept name hn).symm.trans hslot

/-- What may occur several times is not an attribute. -/
theorem isElement_of_isRepeated (h : Overlays s r) (hs : s.IsElemental) {name : String}
    {slot : Slot} (hslot : r.slot? name = some slot)
    (hr : slot.bounds.most.isRepeated = true) : slot.isAttribute = false := by
  have hn : name ∈ s.names := by
    by_contra hn
    exact Bool.false_ne_true ((h.added name slot hn hslot).2.symm.trans hr)
  exact hs.element name slot ((h.kept name hn).symm.trans hslot)

theorem removeAttribute (h : Overlays s r) (hs : s.IsElemental) (name : String) :
    Overlays s (r.removeAttribute name) := by
  have hsub : (r.removeAttribute name).slots.Sublist r.slots := List.filter_sublist
  have hnodup : (r.removeAttribute name).names.Nodup := (hsub.map Prod.fst).nodup h.nodup
  refine ⟨hnodup, fun other hn => ?_, fun other slot hn hslot => ?_, h.choices, h.groups, h.text⟩
  · obtain ⟨slot, hr, hslot, ha⟩ := h.isElement hs hn
    rw [hslot]
    refine Table.find?_of_mem hnodup (List.mem_filter.2 ⟨Table.mem_of_find? hr, ?_⟩)
    simp [ha]
  · have hmem := (List.mem_filter.1 (Table.mem_of_find? hslot)).1
    exact h.added other slot hn (Table.find?_of_mem h.nodup hmem)

theorem addAttribute (h : Overlays s r) (hs : s.IsElemental) {name : String} {slot : Slot}
    (ha : slot.isAttribute = true) (hm : slot.bounds.most.isRepeated = false) {r' : Shape}
    (hr : r.addAttribute? name slot = some r') : Overlays s r' := by
  unfold addAttribute? at hr
  split at hr
  · exact nomatch hr
  · next hfree =>
      obtain rfl := Option.some.inj hr
      have hslot := fun other => find?_place (fun _ => slot) name slot r.slots other
      have hnew : name ∉ s.names := by
        intro hn
        obtain ⟨old, hold, -, hel⟩ := h.isElement hs hn
        simp [hold, hel] at hfree
      refine ⟨nodup_keys_place h.nodup, fun other hn => ?_, fun other found hn hf => ?_, h.choices,
        h.groups, h.text⟩
      · have hne : other ≠ name := fun heq => hnew (heq ▸ hn)
        exact (hslot other).trans ((if_neg hne).trans (h.kept other hn))
      · rw [slot?, hslot] at hf
        split at hf
        · obtain rfl : slot = found := by
            cases hold : Table.find? r.slots name <;> simpa [hold] using hf
          exact ⟨ha, hm⟩
        · exact h.added other found hn hf

end Overlays

end Shape

namespace Conversion

open Shape

variable (context : Context) {s : Shape}

theorem isRepeated_ofAttribute (item : Json) (required : Bool) :
    (Slot.ofAttribute item required).bounds.most.isRepeated = false := by
  cases required <;> rfl

theorem yields_addAttribute_overlays (hs : s.IsElemental) (site : Site) (name : String)
    (item : Json) (required : Bool) {r : Shape} (h : Overlays s r) :
    Yields (addAttribute context site name (.ofAttribute item required) r) (Overlays s) := by
  unfold addAttribute
  split
  · next r' hr =>
      exact Yields.pure (h.addAttribute hs rfl (isRepeated_ofAttribute item required) hr)
  · exact Yields.bind_any fun _ => Yields.pure h

section

variable {expand : AttributeExpansion}
  (he : ∀ site located r, Overlays s r → Yields (expand site located r) (Overlays s))
include he

theorem yields_collectUse_overlays (hs : s.IsElemental) (site : Site) (use : AttributeUse)
    {r : Shape} (h : Overlays s r) :
    Yields (collectUse context expand site r use) (Overlays s) := by
  cases use with
  | declared declaration use =>
      exact Yields.ite (Yields.pure (h.removeAttribute hs _)) (Yields.bind_any fun item =>
        yields_addAttribute_overlays context hs site _ item _ h)
  | reference reference use default fixed =>
      exact Yields.bind_any fun located => Yields.ite (Yields.pure (h.removeAttribute hs _))
        (Yields.bind_any fun item => yields_addAttribute_overlays context hs site _ item _ h)
  | group reference =>
      refine Yields.bind_any fun located => (he _ located r h).visiting.bind fun r' h' => ?_
      split
      · exact Yields.pure (h'.opened true)
      · exact Yields.pure h'

theorem yields_collectUses_overlays (hs : s.IsElemental) (site : Site) {r : Shape}
    (h : Overlays s r) (uses : List AttributeUse) :
    Yields (collectUses context expand site r uses) (Overlays s) := by
  induction uses generalizing r with
  | nil => exact Yields.pure h
  | cons use rest ih =>
      exact (yields_collectUse_overlays context he hs site use h).bind fun _ h' => ih h'

end

theorem yields_expandAttributes_overlays (hs : s.IsElemental) (depth : Nat) :
    ∀ site located r, Overlays s r →
      Yields (expandAttributes context depth site located r) (Overlays s) := by
  induction depth with
  | zero => exact fun _ _ _ _ => Yields.throw
  | succ depth ih =>
      exact fun site located r h => yields_collectUses_overlays context ih hs site h _

/-- The attribute uses of a type leave its content alone. -/
theorem yields_collectAttributes_overlays (hs : s.IsElemental) (site : Site)
    (uses : List AttributeUse) : Yields (collectAttributes context site uses s) (Overlays s) :=
  yields_collectUses_overlays context (yields_expandAttributes_overlays context hs _) hs site
    (.refl hs) uses

end Conversion

end Crosswalk

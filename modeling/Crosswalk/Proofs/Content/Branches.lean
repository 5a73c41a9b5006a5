import Crosswalk.Proofs.Content.Slots

/-!
# Branches joined to a shape

The members of a choice are added branch by branch. A name that only the choice has gets a slot that
is at least as wide as that of each branch, and that is not required. So the slot admits whatever
the branch that is chosen admits, and also that another branch is.
-/

namespace Crosswalk

/-- The slot admits whatever the other one does, and demands nothing that the other does not. -/
structure Slot.IsWider (a b : Slot) : Prop where
  least : a.bounds.least.toNat ≤ b.bounds.least.toNat
  most : b.bounds.most ≤ a.bounds.most
  required : b.required = false → a.required = false

namespace Slot

theorem IsWider.refl (a : Slot) : a.IsWider a := ⟨Nat.le_refl _, Limit.le_refl _, id⟩

theorem IsWider.trans {a b c : Slot} (h : a.IsWider b) (h' : b.IsWider c) : a.IsWider c :=
  ⟨h.least.trans h'.least, Limit.le_trans h'.most h.most, fun hc => h.required (h'.required hc)⟩

theorem toNat_least_le (a b : Count) :
    (a.least b).toNat ≤ a.toNat ∧ (a.least b).toNat ≤ b.toNat := by
  unfold Count.least
  split <;> omega

theorem isWider_orElse_left (a b : Slot) : (a.orElse b).IsWider a :=
  ⟨(toNat_least_le _ _).1, Limit.le_greater_left _ _, fun h => by simp [orElse, h]⟩

theorem isWider_orElse_right (a b : Slot) : (a.orElse b).IsWider b :=
  ⟨(toNat_least_le _ _).2, Limit.le_greater_right _ _, fun h => by simp [orElse, h]⟩

theorem fits_zero {a : Slot} (h : a.required = false) : a.Fits True 0 :=
  ⟨Limit.permits_zero _, fun ha => absurd (h.symm.trans ha) Bool.false_ne_true,
    .inr ⟨True.intro, rfl⟩⟩

/-- The slot of a branch admits no more than the slot that it is joined to. -/
theorem IsWider.fits {a b : Slot} (h : a.IsWider { b with required := false }) {free : Prop}
    {n : Nat} (hb : b.Fits free n) : a.Fits True n where
  most := Limit.permits_of_le h.most hb.most
  required := fun ha => absurd ((h.required rfl).symm.trans ha) Bool.false_ne_true
  least := by
    rcases hb.least with hl | ⟨-, hz⟩
    · exact .inl (h.least.trans hl)
    · exact .inr ⟨True.intro, hz⟩

end Slot

namespace Shape

/-- What becomes of a shape to which members of branches are joined; the names `outside` are those
that it had before the choice. -/
structure Joins (outside : List String) (members : List (String × Slot)) (s r : Shape) : Prop where
  elemental : r.IsElemental
  names : ∀ name, name ∈ r.names ↔ name ∈ s.names ∨ name ∈ members.map (·.1)
  choices : r.choices = s.choices
  groups : r.groups = s.groups
  text : r.text = s.text
  others : ∀ name, name ∉ members.map (·.1) → r.slot? name = s.slot? name
  wider : ∀ name, name ∉ outside → ∀ slot, s.slot? name = some slot →
    ∃ slot', r.slot? name = some slot' ∧ slot'.IsWider slot
  joined : ∀ member ∈ members, member.1 ∉ outside →
    ∃ slot', r.slot? member.1 = some slot' ∧ slot'.IsWider { member.2 with required := false }

namespace Joins

variable {outside : List String} {s t r : Shape}

theorem refl (hs : s.IsElemental) : Joins outside [] s s :=
  ⟨hs, by simp, rfl, rfl, rfl, fun _ _ => rfl,
    fun _ _ slot h => ⟨slot, h, .refl slot⟩, fun _ h => absurd h List.not_mem_nil⟩

theorem trans {first rest : List (String × Slot)} (h : Joins outside first s t)
    (h' : Joins outside rest t r) : Joins outside (first ++ rest) s r := by
  refine ⟨h'.elemental, fun name => ?_, h'.choices.trans h.choices, h'.groups.trans h.groups,
    h'.text.trans h.text, fun name hn => ?_, fun name hn slot hs => ?_, fun member hm hn => ?_⟩
  · rw [h'.names, h.names, List.map_append, List.mem_append, or_assoc]
  · rw [List.map_append, List.mem_append, not_or] at hn
    rw [h'.others name hn.2, h.others name hn.1]
  · obtain ⟨slot', ht, hw⟩ := h.wider name hn slot hs
    obtain ⟨slot'', hr, hw'⟩ := h'.wider name hn slot' ht
    exact ⟨slot'', hr, hw'.trans hw⟩
  · rcases List.mem_append.1 hm with hm | hm
    · obtain ⟨slot', ht, hw⟩ := h.joined member hm hn
      obtain ⟨slot'', hr, hw'⟩ := h'.wider member.1 hn slot' ht
      exact ⟨slot'', hr, hw'.trans hw⟩
    · exact h'.joined member hm hn

end Joins

/-- A member that the shape had before the choice. -/
theorem joins_outside {outside : List String} {s : Shape} (hs : s.IsElemental) {name : String}
    (slot : Slot) {added : Slot} (ha : added.isAttribute = false) (hn : name ∈ outside) :
    Joins outside [(name, slot)] s (s.addElement Slot.andThen name added).1 := by
  have heq := addElement_eq hs Slot.andThen name added
  have hslot := fun other => slot?_addElement hs Slot.andThen name added other
  refine ⟨hs.addElement Slot.andThen (fun _ _ => rfl) name ha,
    fun other => by simpa using mem_names_addElement, by rw [heq], by rw [heq], by rw [heq],
    fun other ho => ?_, fun other ho old hold => ?_, fun member hm ho => ?_⟩
  · rw [hslot, if_neg (by simpa using ho)]
  · have hne : other ≠ name := fun h => ho (h ▸ hn)
    exact ⟨old, by rw [hslot, if_neg hne, hold], .refl old⟩
  · obtain rfl := List.mem_singleton.1 hm
    exact absurd hn ho

/-- A member that only the choice has. -/
theorem joins_inside (outside : List String) {s : Shape} (hs : s.IsElemental) (name : String)
    {slot : Slot} (ha : slot.isAttribute = false) :
    Joins outside [(name, slot)] s
      (s.addElement Slot.orElse name { slot with required := false }).1 := by
  have heq := addElement_eq hs Slot.orElse name { slot with required := false }
  have hslot := fun other =>
    slot?_addElement hs Slot.orElse name { slot with required := false } other
  refine ⟨hs.addElement Slot.orElse (fun _ _ => rfl) name ha,
    fun other => by simpa using mem_names_addElement, by rw [heq], by rw [heq], by rw [heq],
    fun other ho => ?_, fun other ho old hold => ?_, fun member hm ho => ?_⟩
  · rw [hslot, if_neg (by simpa using ho)]
  · by_cases hother : other = name
    · subst hother
      exact ⟨old.orElse { slot with required := false },
        by rw [hslot, if_pos rfl, hold]; rfl, Slot.isWider_orElse_left _ _⟩
    · exact ⟨old, by rw [hslot, if_neg hother, hold], .refl old⟩
  · obtain rfl := List.mem_singleton.1 hm
    rw [hslot, if_pos rfl]
    refine ⟨_, rfl, ?_⟩
    cases s.slot? name with
    | none => exact .refl _
    | some old => exact Slot.isWider_orElse_right _ _

end Shape

namespace Conversion

open Shape

variable (context : Context)

theorem yields_addElement_eq (site : Site) (name : String) (slot : Slot) (shape : Shape) :
    Yields (addElement context site name slot shape)
      (· = (shape.addElement Slot.andThen name slot).1) := by
  unfold addElement
  rcases shape.addElement Slot.andThen name slot with ⟨result, joined⟩
  cases joined with
  | added => exact Yields.pure rfl
  | merged => exact Yields.bind_any fun _ => Yields.pure rfl
  | dropped => exact Yields.bind_any fun _ => Yields.pure rfl

theorem yields_joinMembers_joins (site : Site) (outside : List String) : ∀ {shape : Shape},
    shape.IsElemental → ∀ members : List (String × Slot),
      (∀ member ∈ members, member.2.isAttribute = false) →
      Yields (joinMembers context site outside shape members) (Joins outside members shape)
  | _, hs, [], _ => Yields.pure (.refl hs)
  | shape, hs, (name, slot) :: rest, hm => by
      rw [List.forall_mem_cons] at hm
      unfold joinMembers
      split
      · next hn =>
          have step : Joins outside [(name, slot)] shape (shape.addElement Slot.andThen name
              (.ofElement slot.item slot.bounds.orNone)).1 :=
            joins_outside hs slot rfl (List.contains_iff_mem.1 hn)
          exact (yields_addElement_eq context site name _ shape).bind fun _ ht => ht ▸
            (yields_joinMembers_joins site outside step.elemental rest hm.2).mono
              fun _ hr => step.trans hr
      · have step := joins_inside outside hs name hm.1
        exact (Yields.pure (P := (· = _)) rfl).bind fun _ ht => ht ▸
          (yields_joinMembers_joins site outside step.elemental rest hm.2).mono
            fun _ hr => step.trans hr

/-- Whether undeclared members are admitted does not matter for the joining of members. -/
theorem joins_opened (outside : List String) {shape : Shape} (hs : shape.IsElemental)
    (isOpen : Bool) : Joins outside [] shape { shape with isOpen } :=
  ⟨⟨hs.nodup, hs.element⟩, fun _ => by simp [Shape.names], rfl, rfl, rfl, fun _ _ => rfl,
    fun _ _ slot h => ⟨slot, h, .refl slot⟩, fun _ h => absurd h List.not_mem_nil⟩

theorem yields_joinBranches_joins (site : Site) (outside : List String) : ∀ {shape : Shape},
    shape.IsElemental → ∀ branches : List Shape, (∀ branch ∈ branches, branch.IsElemental) →
      Yields (joinBranches context site outside shape branches)
        (Joins outside (branches.flatMap Shape.slots) shape)
  | _, hs, [], _ => Yields.pure (.refl hs)
  | shape, hs, branch :: rest, hb => by
      rw [List.forall_mem_cons] at hb
      have opened := joins_opened outside hs (shape.isOpen || branch.isOpen)
      have element : ∀ member ∈ branch.slots, member.2.isAttribute = false := fun member hm =>
        hb.1.element member.1 member.2 (Table.find?_of_mem hb.1.nodup hm)
      unfold joinBranches
      have members := yields_joinMembers_joins context site outside opened.elemental branch.slots
        element
      exact members.bind fun _ ht =>
        (yields_joinBranches_joins site outside ht.elemental rest hb.2).mono
          fun _ hr => (opened.trans ht).trans hr

end Conversion

end Crosswalk

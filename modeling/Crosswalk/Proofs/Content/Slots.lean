import Crosswalk.Proofs.Content.Choice
import Crosswalk.Proofs.Content.Separate
import Crosswalk.Proofs.Conversion.Run

/-!
# Slots and words

`Shape.Fits` relates a shape to the word that an object was made of: no slot demands more or admits
less than the word has, what has no slot does not occur, and the choices are met by every object
that has the same members of choices as the word. `Grows` is the step by which content is added
to a shape: the shape goes on fitting if words of the content are added to its word.
-/

namespace Crosswalk

namespace Shape

/-! ### The slots of a shape -/

theorem slot?_eq_none_iff {s : Shape} {name : String} : s.slot? name = none ↔ name ∉ s.names :=
  Table.find?_eq_none_iff

theorem mem_names_of_slot? {s : Shape} {name : String} {slot : Slot}
    (h : s.slot? name = some slot) : name ∈ s.names := by
  by_contra hn
  rw [slot?_eq_none_iff.2 hn] at h
  exact nomatch h

theorem exists_slot {s : Shape} {name : String} (h : name ∈ s.names) :
    ∃ slot, s.slot? name = some slot := by
  cases hs : s.slot? name with
  | some slot => exact ⟨slot, rfl⟩
  | none => exact absurd h (slot?_eq_none_iff.1 hs)

theorem find?_place (change : Slot → Slot) (name : String) (slot : Slot)
    (slots : List (String × Slot)) (other : String) :
    Table.find? (place change name slot slots) other =
      if other = name then some ((Table.find? slots name).elim slot change)
      else Table.find? slots other := by
  induction slots with
  | nil =>
      rw [place, Table.find?_cons]
      rfl
  | cons e rest ih =>
      obtain ⟨n, s⟩ := e
      rw [place]
      by_cases hn : n = name
      · subst hn
        by_cases ho : other = n <;> simp [Table.find?_cons, ho]
      · have hname : name ≠ n := Ne.symm hn
        rw [if_neg hn, Table.find?_cons, ih]
        by_cases ho : other = name
        · subst ho
          simp [Table.find?_cons, hname]
        · simp [Table.find?_cons, ho]

theorem keys_place (change : Slot → Slot) (name : String) (slot : Slot)
    (slots : List (String × Slot)) :
    (place change name slot slots).map (·.1) =
      if name ∈ slots.map (·.1) then slots.map (·.1) else slots.map (·.1) ++ [name] := by
  induction slots with
  | nil => rfl
  | cons e rest ih =>
      obtain ⟨n, s⟩ := e
      rw [place]
      by_cases hn : n = name
      · simp [hn]
      · have hname : name ≠ n := Ne.symm hn
        rw [if_neg hn, List.map_cons, ih]
        simp only [List.map_cons, List.mem_cons, hname, false_or]
        split <;> rfl

/-- What has no slot yet gets one behind the others. -/
theorem place_eq_append {change : Slot → Slot} {name : String} {slot : Slot}
    {slots : List (String × Slot)} (h : name ∉ slots.map (·.1)) :
    place change name slot slots = slots ++ [(name, slot)] := by
  induction slots with
  | nil => rfl
  | cons e rest ih =>
      obtain ⟨n, t⟩ := e
      rw [List.map_cons, List.mem_cons, not_or] at h
      rw [place, if_neg (Ne.symm h.1), ih h.2, List.cons_append]

theorem mem_keys_place {change : Slot → Slot} {name : String} {slot : Slot}
    {slots : List (String × Slot)} {other : String} :
    other ∈ (place change name slot slots).map (·.1) ↔
      other ∈ slots.map (·.1) ∨ other = name := by
  rw [keys_place]
  split
  · next h => exact ⟨.inl, fun ho => ho.elim id fun ho => ho ▸ h⟩
  · simp

theorem nodup_keys_place {change : Slot → Slot} {name : String} {slot : Slot}
    {slots : List (String × Slot)} (h : (slots.map (·.1)).Nodup) :
    ((place change name slot slots).map (·.1)).Nodup := by
  rw [keys_place]
  split
  · exact h
  · next hn =>
      refine List.nodup_append.2 ⟨h, List.nodup_singleton name, fun a ha b hb => ?_⟩
      rintro rfl
      exact hn (List.mem_singleton.1 hb ▸ ha)

/-- No name has two slots, and none is that of an attribute. -/
structure IsElemental (s : Shape) : Prop where
  nodup : s.names.Nodup
  element : ∀ name slot, s.slot? name = some slot → slot.isAttribute = false

theorem mem_requiredNames_iff {s : Shape} (h : s.names.Nodup) {name : String} :
    name ∈ s.requiredNames ↔ ∃ slot, s.slot? name = some slot ∧ slot.required = true := by
  constructor
  · intro hn
    obtain ⟨entry, he, rfl⟩ := List.mem_map.1 hn
    obtain ⟨hm, hr⟩ := List.mem_filter.1 he
    exact ⟨entry.2, Table.find?_of_mem h hm, hr⟩
  · rintro ⟨slot, hs, hr⟩
    exact List.mem_map.2 ⟨(name, slot), List.mem_filter.2 ⟨Table.mem_of_find? hs, hr⟩, rfl⟩

theorem exists_slot_of_mem_requiredNames {s : Shape} (h : s.IsElemental) {name : String}
    (hn : name ∈ s.requiredNames) : ∃ slot, s.slot? name = some slot ∧ slot.required = true :=
  (mem_requiredNames_iff h.nodup).1 hn

theorem isElemental_empty : IsElemental {} := ⟨List.nodup_nil, fun _ _ h => nomatch h⟩

/-- Where there are no attributes, an element is added to the slot that its name has. -/
theorem addElement_eq {s : Shape} (h : s.IsElemental) (join : Slot → Slot → Slot) (name : String)
    (slot : Slot) : (s.addElement join name slot).1 =
      { s with slots := place (fun old => join old slot) name slot s.slots } := by
  unfold addElement
  cases hs : s.slot? name with
  | none =>
      have hn := slot?_eq_none_iff.1 hs
      simp only [place_eq_append hn]
  | some found =>
      have ha := h.element name found hs
      simp [ha]

theorem slot?_addElement {s : Shape} (h : s.IsElemental) (join : Slot → Slot → Slot)
    (name : String) (slot : Slot) (other : String) :
    (s.addElement join name slot).1.slot? other =
      if other = name then some ((s.slot? name).elim slot fun old => join old slot)
      else s.slot? other := by
  rw [addElement_eq h]
  exact find?_place _ name slot s.slots other

theorem mem_names_addElement {s : Shape} {join : Slot → Slot → Slot} {name : String}
    {slot : Slot} {other : String} :
    other ∈ (s.addElement join name slot).1.names ↔ other ∈ s.names ∨ other = name := by
  unfold addElement
  split
  · exact mem_keys_place
  · next found hs =>
      split
      · exact ⟨.inl, fun ho => ho.elim id fun ho => ho ▸ mem_names_of_slot? hs⟩
      · exact mem_keys_place

theorem IsElemental.addElement {s : Shape} (h : s.IsElemental) (join : Slot → Slot → Slot)
    (hj : ∀ a b, (join a b).isAttribute = a.isAttribute) (name : String) {slot : Slot}
    (hs : slot.isAttribute = false) : (s.addElement join name slot).1.IsElemental := by
  constructor
  · rw [addElement_eq h]
    exact nodup_keys_place h.nodup
  · intro other found hf
    rw [slot?_addElement h] at hf
    split at hf
    · obtain rfl := Option.some.inj hf
      cases hname : s.slot? name with
      | none => exact hs
      | some old => exact (hj old slot).trans (h.element name old hname)
    · exact h.element other found hf

/-! ### Words that fit -/

end Shape

/-- The slot admits so many occurrences. A name that is free may also not occur at all. -/
structure Slot.Fits (slot : Slot) (free : Prop) (n : Nat) : Prop where
  most : slot.bounds.most.Permits n
  required : slot.required = true → 0 < n
  least : slot.bounds.least.toNat ≤ n ∨ free ∧ n = 0

theorem Slot.Fits.mono {slot : Slot} {free free' : Prop} {n : Nat} (h : slot.Fits free n)
    (hf : free → free') : slot.Fits free' n :=
  ⟨h.most, h.required, h.least.imp_right fun hl => ⟨hf hl.1, hl.2⟩⟩

namespace Shape

/-- The shape admits the children of a word; `free` are the names of choices. -/
structure Fits (s : Shape) (free : List String) (w : Word) : Prop where
  slots : ∀ name slot, s.slot? name = some slot → slot.Fits (name ∈ free) (w.count name)
  absent : ∀ name, name ∉ s.names → w.count name = 0
  choices : ∀ choice ∈ s.choices, ∀ entries : Table String Json,
    (∀ name ∈ free, Table.contains entries name = decide (0 < w.count name)) → Met entries choice

theorem fits_empty : Fits {} [] [] :=
  ⟨fun _ _ h => absurd h (by simp [slot?]), fun _ _ => rfl, fun _ h => absurd h List.not_mem_nil⟩

theorem Fits.congr {s : Shape} {free free' : List String} {w w' : Word} (h : s.Fits free w)
    (hf : ∀ name, name ∈ free ↔ name ∈ free') (hw : ∀ name, w.count name = w'.count name) :
    s.Fits free' w' := by
  refine ⟨fun name slot hs => ?_, fun name hn => ?_, fun choice hc entries he => ?_⟩
  · rw [← hw]
    exact (h.slots name slot hs).mono (hf name).1
  · rw [← hw]
    exact h.absent name hn
  · refine h.choices choice hc entries fun name hn => ?_
    rw [hw]
    exact he name ((hf name).1 hn)

/-- Content with these names, added to a shape, leaves everything else as it was. -/
structure Enlarges (members : List String) (s r : Shape) : Prop where
  elemental : r.IsElemental
  names : ∀ name, name ∈ r.names ↔ name ∈ s.names ∨ name ∈ members
  kept : ∀ choice ∈ s.choices, choice ∈ r.choices
  made : ∀ choice ∈ r.choices, choice ∈ s.choices ∨ IsChoice choice
  groups : r.groups = s.groups
  text : r.text = s.text

theorem Enlarges.refl {s : Shape} (hs : s.IsElemental) : Enlarges [] s s :=
  ⟨hs, by simp, fun _ => id, fun _ => .inl, rfl, rfl⟩

theorem Enlarges.trans {m m' : List String} {s t r : Shape} (h : Enlarges m s t)
    (h' : Enlarges m' t r) : Enlarges (m ++ m') s r := by
  refine ⟨h'.elemental, fun name => ?_, fun choice hc => h'.kept choice (h.kept choice hc),
    fun choice hc => (h'.made choice hc).elim (h.made choice) .inr, h'.groups.trans h.groups,
    h'.text.trans h.text⟩
  rw [h'.names, h.names, List.mem_append, or_assoc]

theorem enlarges_element {s : Shape} (hs : s.IsElemental) (name : String) (item : Json)
    (bounds : Bounds) :
    Enlarges [name] s (s.addElement Slot.andThen name (.ofElement item bounds)).1 := by
  have heq := addElement_eq hs Slot.andThen name (.ofElement item bounds)
  refine ⟨hs.addElement Slot.andThen (fun _ _ => rfl) name rfl, fun other => ?_,
    fun choice hc => ?_, fun choice hc => .inl ?_, by rw [heq], by rw [heq]⟩
  · rw [mem_names_addElement, List.mem_singleton]
  · rwa [heq]
  · rwa [heq] at hc

/-- What is true of a shape to which content is added. The words of the content are described by
`A`, and `chosen` are the names of its choices. -/
structure Grows (members chosen : List String) (A : Word → Prop) (s r : Shape) : Prop
    extends Enlarges members s r where
  fits : ∀ free w u, (∀ name ∈ chosen, name ∉ s.names) →
    (∀ name ∈ members, name ∉ free) → s.Fits free w → A u → r.Fits (free ++ chosen) (w ++ u)

/-- What adds nothing has no children. -/
theorem Grows.refl {A : Word → Prop} (h : ∀ u, A u → u = []) {s : Shape} (hs : s.IsElemental) :
    Grows [] [] A s s :=
  ⟨.refl hs, fun free w u _ _ hf hu => by simpa [h u hu] using hf⟩

theorem Grows.mono {members chosen : List String} {A B : Word → Prop} {s r : Shape}
    (h : Grows members chosen A s r) (hB : ∀ u, B u → A u) : Grows members chosen B s r :=
  { h with fits := fun free w u hc hm hf hu => h.fits free w u hc hm hf (hB u hu) }

/-- Content after other content, where no name of a choice in one occurs in the other. -/
theorem Grows.trans {m m' c c' : List String} {A A' B : Word → Prop} {s t r : Shape}
    (h : Grows m c A s t) (h' : Grows m' c' A' t r) (hc : ∀ name ∈ c, name ∉ m')
    (hm : ∀ name ∈ m, name ∉ c')
    (hB : ∀ w, B w → ∃ u v, A u ∧ A' v ∧ w.Perm (u ++ v)) : Grows (m ++ m') (c ++ c') B s r := by
  refine ⟨h.toEnlarges.trans h'.toEnlarges, fun free w x hchosen hmembers hf hx => ?_⟩
  obtain ⟨u, v, hu, hv, hp⟩ := hB x hx
  rw [List.forall_mem_append] at hchosen hmembers
  have hfirst : t.Fits (free ++ c) (w ++ u) := h.fits free w u hchosen.1 hmembers.1 hf hu
  have hnew : ∀ name ∈ c', name ∉ t.names := by
    intro name hn ht
    rcases (h.names name).1 ht with ht | ht
    · exact hchosen.2 name hn ht
    · exact hm name ht hn
  have hfree : ∀ name ∈ m', name ∉ free ++ c := by
    intro name hn hfc
    rcases List.mem_append.1 hfc with hfc | hfc
    · exact hmembers.2 name hn hfc
    · exact hc name hfc hn
  have hboth := h'.fits (free ++ c) (w ++ u) v hnew hfree hfirst hv
  refine hboth.congr (fun name => by simp) fun name => ?_
  rw [Word.count_append w x, Word.count_perm hp]
  simp only [Word.count_append]
  omega

/-- An element, as often as its bounds allow. -/
theorem grows_element {item : Json} {bounds : Bounds} {name : String} {A : Word → Prop}
    (hA : ∀ u, A u → ∃ n, bounds.Allows n ∧
      ∀ other, Word.count u other = if name = other then n else 0) {s : Shape}
    (hs : s.IsElemental) :
    Grows [name] [] A s (s.addElement Slot.andThen name (.ofElement item bounds)).1 := by
  have heq := addElement_eq hs Slot.andThen name (.ofElement item bounds)
  refine ⟨enlarges_element hs name item bounds, fun free w u _ hfree hf hu => ?_⟩
  obtain ⟨n, hn, hcount⟩ := hA u hu
  have hname : name ∉ free := hfree name (List.mem_singleton.2 rfl)
  have hrequired : bounds.isRequired = true → 0 < n := fun hr =>
    (of_decide_eq_true hr : 0 < bounds.least.toNat).trans_le hn.least
  refine ⟨fun other slot hslot => ?_, fun other ho => ?_, fun choice hc entries he => ?_⟩
  · rw [slot?_addElement hs] at hslot
    rw [Word.count_append, hcount]
    split at hslot
    · next heq =>
        subst heq
        obtain rfl := Option.some.inj hslot
        rw [if_pos rfl]
        cases hold : s.slot? other with
        | none =>
            rw [hf.absent other (slot?_eq_none_iff.1 hold), Nat.zero_add]
            exact ⟨hn.most, hrequired, .inl hn.least⟩
        | some old =>
            have hfit := hf.slots other old hold
            have hleast : old.bounds.least.toNat ≤ w.count other :=
              hfit.least.resolve_right fun hx => hname hx.1
            have hplus := Bounds.allows_plus (a := old.bounds) ⟨hleast, hfit.most⟩ hn
            refine ⟨hplus.most, fun hr => ?_, .inl hplus.least⟩
            rcases Bool.or_eq_true_iff.1 hr with hr | hr
            · have := hfit.required hr
              omega
            · have := hrequired hr
              omega
    · next hne =>
        rw [if_neg (Ne.symm hne), Nat.add_zero]
        exact (hf.slots other slot hslot).mono fun h => List.mem_append_left _ h
  · rw [mem_names_addElement, not_or] at ho
    rw [Word.count_append, hcount, if_neg (Ne.symm ho.2), hf.absent other ho.1]
  · rw [heq] at hc
    refine hf.choices choice hc entries fun other ho => ?_
    have hne : name ≠ other := fun heq => hname (heq ▸ ho)
    rw [he other (List.mem_append_left _ ho), Word.count_append, hcount, if_neg hne,
      Nat.add_zero]

end Shape

end Crosswalk

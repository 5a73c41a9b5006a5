import Crosswalk.Proofs.Inlining.Choice

/-!
# The names in a shape

The roster of a shape lists the names of its slots, and says which of them are those of attributes.
Whatever is added to a shape or taken away from it, the new roster depends on the old one and on the
name: what the slots hold besides makes no difference.
-/

namespace Crosswalk

namespace Shape

/-- The names of the slots, and whether they are those of attributes. -/
def roster (s : Shape) : List (String × Bool) := s.slots.map fun e => (e.1, e.2.isAttribute)

/-- The roster with a name, which keeps its place if it has one. -/
def enlist (roster : List (String × Bool)) (name : String) (isAttribute : Bool) :
    List (String × Bool) :=
  if name ∈ roster.map (·.1) then roster else roster ++ [(name, isAttribute)]

/-- The roster with a member of a branch; the names `outside` are those of the shape before the
choice. -/
def enlistMember (outside : List String) (roster : List (String × Bool)) (member : String × Bool) :
    List (String × Bool) :=
  enlist roster member.1 (!outside.contains member.1 && member.2)

theorem names_eq_roster (s : Shape) : s.names = s.roster.map (·.1) := by
  rw [names, roster, List.map_map]
  rfl

theorem enlist_of_slot? {s : Shape} {name : String} {slot : Slot} (h : s.slot? name = some slot)
    (isAttribute : Bool) : enlist s.roster name isAttribute = s.roster := by
  rw [enlist, ← names_eq_roster, if_pos (mem_names_of_slot? h)]

/-- A slot that is changed remains one of an attribute or none. -/
theorem roster_place {change : Slot → Slot} {name : String} (slot : Slot)
    {slots : List (String × Slot)}
    (h : ∀ old, Table.find? slots name = some old → (change old).isAttribute = old.isAttribute) :
    (place change name slot slots).map (fun e => (e.1, e.2.isAttribute)) =
      enlist (slots.map fun e => (e.1, e.2.isAttribute)) name slot.isAttribute := by
  induction slots with
  | nil => rfl
  | cons e rest ih =>
      obtain ⟨n, old⟩ := e
      rw [place, enlist]
      by_cases hn : n = name
      · subst hn
        have hold := h old (by rw [Table.find?_cons, if_pos rfl])
        simp [hold]
      · have hname : name ≠ n := Ne.symm hn
        have hrest := ih fun old ho => h old (by rwa [Table.find?_cons, if_neg hname])
        rw [if_neg hn, List.map_cons, hrest, enlist]
        simp only [List.map_cons, List.mem_cons, hname, false_or]
        split <;> rfl

theorem roster_addElement (s : Shape) {join : Slot → Slot → Slot} (hj : Slot.IsJoin join)
    (name : String) (slot : Slot) :
    (s.addElement join name slot).1.roster = enlist s.roster name slot.isAttribute := by
  obtain ⟨bounds, required, hj⟩ := hj
  unfold addElement
  split
  · exact roster_place slot fun _ _ => rfl
  · next found hf =>
      split
      · exact (enlist_of_slot? hf _).symm
      · exact roster_place slot fun old _ => by rw [hj]

theorem roster_addAttribute? (s : Shape) (name : String) {slot : Slot}
    (ha : slot.isAttribute = true) :
    ((s.addAttribute? name slot).getD s).roster = enlist s.roster name true := by
  unfold addAttribute?
  split
  · next hf =>
      obtain ⟨found, hfound, -⟩ := (Option.any_eq_true _ _).1 hf
      exact (enlist_of_slot? hfound _).symm
  · next hf =>
      have hattribute : ∀ old, s.slot? name = some old → old.isAttribute = true := by
        intro old ho
        rw [ho, Option.any_some, Bool.not_eq_true', Bool.not_eq_false] at hf
        exact hf
      exact ha ▸ roster_place slot fun old ho => ha.trans (hattribute old ho).symm

theorem roster_removeAttribute (s : Shape) (name : String) :
    (s.removeAttribute name).roster = s.roster.filter fun e => !(e.2 && e.1 == name) := by
  rw [roster, roster, List.filter_map]
  rfl

theorem roster_foldl {α : Type} {f : Shape → α → Shape}
    {g : List (String × Bool) → α → List (String × Bool)} (h : ∀ s a, (f s a).roster = g s.roster a)
    (s : Shape) (as : List α) : (as.foldl f s).roster = as.foldl g s.roster :=
  (List.foldl_hom roster fun s a => (h s a).symm).symm

theorem roster_addReference (s members : Shape) (reference : Json) :
    (s.addReference members reference).roster =
      members.names.foldl (fun roster name => enlist roster name false) s.roster :=
  roster_foldl (fun s name => roster_addElement s Slot.isJoin_andThen name .placeholder) s _

theorem roster_joinMember (outside : List String) (s : Shape) (member : String × Slot) :
    (s.joinMember outside member).roster =
      enlistMember outside s.roster (member.1, member.2.isAttribute) := by
  unfold joinMember enlistMember
  split
  · next ho =>
      rw [roster_addElement s Slot.isJoin_andThen, ho]
      rfl
  · next ho =>
      rw [roster_addElement s Slot.isJoin_orElse, Bool.eq_false_iff.2 ho]
      rfl

theorem roster_joinBranch (outside : List String) (s branch : Shape) :
    (s.joinBranch outside branch).roster =
      branch.roster.foldl (enlistMember outside) s.roster := by
  refine (roster_foldl (g := fun roster member =>
    enlistMember outside roster (member.1, member.2.isAttribute)) (roster_joinMember outside)
      _ branch.slots).trans ?_
  exact List.foldl_map.symm

theorem roster_withChoice (s : Shape) (branches : List Shape) (obliged : Bool) :
    (s.withChoice branches obliged).roster = (branches.map roster).foldl
      (fun roster branch => branch.foldl (enlistMember s.names) roster) s.roster := by
  rw [List.foldl_map]
  exact roster_foldl (roster_joinBranch s.names) s branches

/-- The shapes have the same names, and the same ones of them are those of attributes. -/
def SameRoster (s t : Shape) : Prop := s.roster = t.roster

namespace SameRoster

variable {s t : Shape} (h : s.SameRoster t)
include h

theorem names : s.names = t.names := by
  rw [names_eq_roster, names_eq_roster, h]

theorem removeAttribute (name : String) : (s.removeAttribute name).SameRoster
    (t.removeAttribute name) := by
  rw [SameRoster, roster_removeAttribute, roster_removeAttribute, h]

theorem addReference {members members' : Shape} (hm : members.SameRoster members')
    (reference reference' : Json) :
    (s.addReference members reference).SameRoster (t.addReference members' reference') := by
  rw [SameRoster, roster_addReference, roster_addReference, h, hm.names]

theorem withChoice {branches branches' : List Shape}
    (hb : branches.map roster = branches'.map roster) (obliged obliged' : Bool) :
    (s.withChoice branches obliged).SameRoster (t.withChoice branches' obliged') := by
  rw [SameRoster, roster_withChoice, roster_withChoice, h, h.names, hb]

end SameRoster

end Shape

end Crosswalk

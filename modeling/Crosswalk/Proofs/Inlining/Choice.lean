import Crosswalk.Proofs.Conversion.Links
import Crosswalk.Proofs.Conversion.Agree
import Crosswalk.Proofs.Inlining.Shape

/-!
# Choices with groups referred to or inlined

A choice adds the members of its branches and a constraint on their names. Within its branches no
group is referred to, so that the branches have the same names either way, and the constraint is the
very same.
-/

namespace Crosswalk

open Json Check Conversion

namespace Shape

/-! ### Choices as changes of a shape -/

/-- Adds a member of a branch; the names `outside` are those that the shape had before the
choice. -/
def joinMember (outside : List String) (s : Shape) (member : String × Slot) : Shape :=
  if outside.contains member.1 then
    (s.addElement Slot.andThen member.1 (.ofElement member.2.item member.2.bounds.orNone)).1
  else (s.addElement Slot.orElse member.1 { member.2 with required := false }).1

/-- Adds the members of a branch. -/
def joinBranch (outside : List String) (s branch : Shape) : Shape :=
  branch.slots.foldl (joinMember outside) { s with isOpen := s.isOpen || branch.isOpen }

/-- Adds a choice of these branches, which has to be made if `obliged`. -/
def withChoice (s : Shape) (branches : List Shape) (obliged : Bool) : Shape :=
  let joined := branches.foldl (joinBranch s.names) s
  { joined with choices := joined.choices ++ (choice? branches obliged).toList }

end Shape

namespace Conversion

theorem does_addElement (context : Context) (site : Site) (name : String) (slot : Slot)
    (shape : Shape) : Does (addElement context site name slot shape)
      (shape.addElement Slot.andThen name slot).1 := by
  unfold addElement
  rcases shape.addElement Slot.andThen name slot with ⟨result, joined⟩
  cases joined with
  | added => exact does_pure result
  | merged => exact (does_diagnose _ _ _ _).bind (does_pure result)
  | dropped => exact (does_diagnose _ _ _ _).bind (does_pure result)

theorem does_joinMembers (context : Context) (site : Site) (outside : List String) :
    ∀ (shape : Shape) (members : List (String × Slot)),
      Does (joinMembers context site outside shape members)
        (members.foldl (Shape.joinMember outside) shape)
  | shape, [] => does_pure shape
  | shape, (name, slot) :: rest => by
      rw [List.foldl_cons, Shape.joinMember]
      unfold joinMembers
      dsimp only
      by_cases hn : outside.contains name = true
      · rw [if_pos hn, if_pos hn]
        exact (does_addElement context site name _ shape).bind
          (does_joinMembers context site outside _ rest)
      · rw [if_neg hn, if_neg hn]
        exact (does_pure _).bind (does_joinMembers context site outside _ rest)

theorem does_joinBranches (context : Context) (site : Site) (outside : List String) :
    ∀ (shape : Shape) (branches : List Shape),
      Does (joinBranches context site outside shape branches)
        (branches.foldl (Shape.joinBranch outside) shape)
  | shape, [] => does_pure shape
  | _, branch :: rest =>
    (does_joinMembers context site outside _ branch.slots).bind
      (does_joinBranches context site outside _ rest)

theorem does_addChoice (context : Context) (site : Site) (obliged : Bool) (branches : List Shape)
    (shape : Shape) : Does (addChoice context site obliged branches shape)
      (shape.withChoice branches obliged) := by
  have joined := (does_joinBranches context site shape.names shape branches).bind
    (f := fun s => pure { s with choices := s.choices ++
      (Shape.choice? branches obliged).toList }) (does_pure (shape.withChoice branches obliged))
  unfold addChoice
  split
  · exact (does_diagnose _ _ _ _).bind joined
  · exact joined

end Conversion

namespace Shape

/-- Each member of a branch has a schema of its own. -/
def AreDescribed (branches : List Shape) : Prop :=
  ∀ branch ∈ branches, ∀ member ∈ branch.slots, member.2.item ≠ .bool true

section

variable (outside : List String)

theorem keeps_joinMember (s : Shape) {member : String × Slot} (hm : member.2.item ≠ .bool true) :
    Keeps s (s.joinMember outside member) := by
  unfold joinMember
  split
  · exact keeps_addElement s Slot.isJoin_andThen _ hm
  · exact keeps_addElement s Slot.isJoin_orElse _ hm

theorem keeps_joinMembers {members : List (String × Slot)}
    (hm : ∀ member ∈ members, member.2.item ≠ .bool true) (s : Shape) :
    Keeps s (members.foldl (joinMember outside) s) :=
  List.foldlRecOn members (joinMember outside) (.refl s) fun t ht member hmember =>
    ht.trans (keeps_joinMember outside t (hm member hmember))

theorem keeps_joinBranches {branches : List Shape} (hb : AreDescribed branches) (s : Shape) :
    Keeps s (branches.foldl (joinBranch outside) s) :=
  List.foldlRecOn branches (joinBranch outside) (.refl s) fun t ht branch hbranch =>
    ht.trans (keeps_joinMembers outside (hb branch hbranch)
      { t with isOpen := t.isOpen || branch.isOpen })

theorem nodup_joinMembers (members : List (String × Slot)) {s : Shape} (h : s.names.Nodup) :
    (members.foldl (joinMember outside) s).names.Nodup := by
  refine List.foldlRecOn members (joinMember outside) (motive := fun t => t.names.Nodup) h
    fun t ht member _ => ?_
  unfold joinMember
  split
  · exact nodup_addElement ht _ _ _
  · exact nodup_addElement ht _ _ _

theorem nodup_joinBranches (branches : List Shape) {s : Shape} (h : s.names.Nodup) :
    (branches.foldl (joinBranch outside) s).names.Nodup :=
  List.foldlRecOn branches (joinBranch outside) (motive := fun t => t.names.Nodup) h
    fun t ht branch _ => nodup_joinMembers outside branch.slots
      (s := { t with isOpen := t.isOpen || branch.isOpen }) ht

theorem slotsOnly_joinMembers (members : List (String × Slot)) (s : Shape) :
    SlotsOnly s (members.foldl (joinMember outside) s) := by
  refine List.foldlRecOn members (joinMember outside) (.refl s) fun t ht member _ => ht.trans ?_
  unfold joinMember
  split
  · exact slotsOnly_addElement t _ _ _
  · exact slotsOnly_addElement t _ _ _

theorem slotsOnly_joinBranches (branches : List Shape) (s : Shape) :
    SlotsOnly s (branches.foldl (joinBranch outside) s) :=
  List.foldlRecOn branches (joinBranch outside) (.refl s) fun t ht branch _ =>
    have opened : SlotsOnly t { t with isOpen := t.isOpen || branch.isOpen } := ⟨rfl, rfl, rfl⟩
    (ht.trans opened).trans (slotsOnly_joinMembers outside branch.slots _)

end

theorem nodup_withChoice {s : Shape} (h : s.names.Nodup) (branches : List Shape)
    (obliged : Bool) : (s.withChoice branches obliged).names.Nodup :=
  nodup_joinBranches s.names branches h

theorem keeps_withChoice {branches : List Shape} (hb : AreDescribed branches) (s : Shape)
    (obliged : Bool) : Keeps s (s.withChoice branches obliged) :=
  keeps_joinBranches s.names hb s

/-! ### The constraint of a choice -/

/-- The shapes have the same names, require the same of them, and have the same constraints. -/
structure SameFrame (b b' : Shape) : Prop where
  names : b.names = b'.names
  required : b.requiredNames = b'.requiredNames
  choices : b.choices = b'.choices

theorem map_eq_of_forall₂ {α β γ : Type} {R : α → β → Prop} {as : List α} {bs : List β}
    (h : List.Forall₂ R as bs) {f : α → γ} {g : β → γ} (hf : ∀ a b, R a b → f a = g b) :
    as.map f = bs.map g := by
  induction h with
  | nil => rfl
  | cons hab _ ih => rw [List.map_cons, List.map_cons, hf _ _ hab, ih]

variable {branches branches' : List Shape}

theorem any_eq_of_forall₂ {α β : Type} {R : α → β → Prop} {as : List α} {bs : List β}
    (h : List.Forall₂ R as bs) {p : α → Bool} {q : β → Bool} (hp : ∀ a b, R a b → p a = q b) :
    as.any p = bs.any q := by
  induction h with
  | nil => rfl
  | cons hab _ ih => rw [List.any_cons, List.any_cons, hp _ _ hab, ih]

theorem overlap_congr (h : List.Forall₂ SameFrame branches branches') :
    overlap branches = overlap branches' := by
  induction h with
  | nil => rfl
  | cons hb hrest ih =>
      have hany : ∀ name, _ = _ := fun name => any_eq_of_forall₂ hrest
        (p := fun other => other.names.contains name)
        (q := fun other => other.names.contains name) fun _ _ ho => by rw [ho.names]
      simp only [overlap, hb.names, hany, ih]

/-- The constraint of a choice depends on the names of the branches and on what they demand. -/
theorem choice?_congr (h : List.Forall₂ SameFrame branches branches') (obliged : Bool) :
    choice? branches obliged = choice? branches' obliged := by
  have hall : branches.flatMap names = branches'.flatMap names := by
    rw [List.flatMap_def, List.flatMap_def, map_eq_of_forall₂ h fun _ _ hb => hb.names]
  have hinhabited : List.Forall₂ SameFrame (branches.filter fun b => !b.names.isEmpty)
      (branches'.filter fun b => !b.names.isEmpty) :=
    List.rel_filter (fun b b' (hb : SameFrame b b') => by simp only [hb.names]) h
  have halternatives : ∀ all exclusive,
      (branches.filter fun b => !b.names.isEmpty).map (fun b => b.alternative all exclusive) =
        (branches'.filter fun b => !b.names.isEmpty).map fun b => b.alternative all exclusive :=
    fun all exclusive => map_eq_of_forall₂ hinhabited fun b b' hb => by
      simp only [alternative, hb.names, hb.required, hb.choices]
  have hempty : (branches.any fun b => b.requiredNames.isEmpty) =
      branches'.any fun b => b.requiredNames.isEmpty :=
    any_eq_of_forall₂ h fun b b' hb => by rw [hb.required]
  simp only [choice?, hall, overlap_congr h, halternatives, hempty]

/-! ### Choices in shapes that agree -/

section

variable {Home : Type} {lead : Home → String → Option (Home × Json)} {follow : Follow Home}
  {home home' : Home} {definitions : List (Definition Home)} {s s' : Shape}

theorem Inlines.agrees (h : Inlines lead follow home home' [] s s') :
    List.Forall₂ (fun e e' => e.1 = e'.1 ∧ e.2.Agrees lead follow home home' e'.2) s.slots
      s'.slots := by
  refine h.entries.imp fun e e' he => ⟨he.key, ?_⟩
  obtain ⟨n, a⟩ := e
  obtain ⟨n', b⟩ := e'
  obtain rfl : n = n' := he.key
  exact he.agrees List.not_mem_nil

theorem Inlines.sameFrame (h : Inlines lead follow home home' [] s s') : SameFrame s s' := by
  refine ⟨h.names, ?_, (h.same rfl).symm⟩
  have hrequired := List.rel_filter (p := fun e : String × Slot => e.2.required)
    (q := fun e : String × Slot => e.2.required)
    (fun e e' (he : e.1 = e'.1 ∧ e.2.Agrees lead follow home home' e'.2) => by
      simp only [he.2.required]) h.agrees
  exact map_eq_of_forall₂ hrequired fun _ _ he => he.1

theorem Inlines.joinMember (hb : IsBlind follow) (outside : List String)
    (h : Inlines lead follow home home' definitions s s') {member member' : String × Slot}
    (hm : member.1 = member'.1 ∧ member.2.Agrees lead follow home home' member'.2)
    (hl : (s.joinMember outside member).Leaves definitions) :
    Inlines lead follow home home' definitions (s.joinMember outside member)
      (s'.joinMember outside member') := by
  unfold Shape.joinMember at hl ⊢
  rw [← hm.1, ← hm.2.bounds]
  split
  · next hn =>
      rw [if_pos hn] at hl
      exact h.addElement hb Slot.isJoin_andThen (.ofElement hm.2.item _) hl
  · next hn =>
      rw [if_neg hn] at hl
      exact h.addElement hb Slot.isJoin_orElse ⟨hm.2.item, hm.2.bounds, rfl, hm.2.isAttribute⟩ hl

theorem Inlines.joinMembers (hb : IsBlind follow) (outside : List String)
    {members members' : List (String × Slot)}
    (hm : List.Forall₂ (fun e e' => e.1 = e'.1 ∧ e.2.Agrees lead follow home home' e'.2)
      members members')
    (h : Inlines lead follow home home' definitions s s')
    (hl : (members.foldl (Shape.joinMember outside) s).Leaves definitions) :
    Inlines lead follow home home' definitions (members.foldl (Shape.joinMember outside) s)
      (members'.foldl (Shape.joinMember outside) s') := by
  induction hm generalizing s s' with
  | nil => exact h
  | @cons member member' rest rest' hmember hrest ih =>
      have hdescribed : ∀ e ∈ rest, e.2.item ≠ .bool true := fun e he => by
        obtain ⟨e', -, -, hagrees⟩ := exists_entry hrest he
        exact hagrees.item.described
      exact ih (h.joinMember hb outside hmember (hl.of_keeps (keeps_joinMembers outside hdescribed
        _))) hl

theorem areDescribed (h : List.Forall₂ (Inlines lead follow home home' []) branches branches') :
    AreDescribed branches := by
  intro branch hbranch member hm
  obtain ⟨branch', -, hinlines⟩ := exists_entry h hbranch
  obtain ⟨member', -, -, hagrees⟩ := exists_entry hinlines.agrees hm
  exact hagrees.item.described

theorem Inlines.joinBranches (hb : IsBlind follow) (outside : List String)
    (hbranches : List.Forall₂ (Inlines lead follow home home' []) branches branches')
    (h : Inlines lead follow home home' definitions s s')
    (hl : (branches.foldl (joinBranch outside) s).Leaves definitions) :
    Inlines lead follow home home' definitions (branches.foldl (joinBranch outside) s)
      (branches'.foldl (joinBranch outside) s') := by
  induction hbranches generalizing s s' with
  | nil => exact h
  | @cons branch branch' rest rest' hbranch hrest ih =>
      have hopen : (s.isOpen || branch.isOpen) = (s'.isOpen || branch'.isOpen) := by
        rw [h.isOpen, hbranch.isOpen]
      refine ih ((h.opened hopen).joinMembers hb outside hbranch.agrees ?_) hl
      exact hl.of_keeps (keeps_joinBranches outside (areDescribed hrest) _)

/-- A choice is added to both shapes, if its branches agree. -/
theorem Inlines.withChoice (hb : IsBlind follow)
    (hbranches : List.Forall₂ (Inlines lead follow home home' []) branches branches')
    (h : Inlines lead follow home home' definitions s s') {obliged : Bool}
    (hl : (s.withChoice branches obliged).Leaves definitions) :
    Inlines lead follow home home' definitions (s.withChoice branches obliged)
      (s'.withChoice branches' obliged) := by
  have hjoined := h.joinBranches hb s.names hbranches ⟨hl.nodup, hl.left⟩
  unfold Shape.withChoice
  rw [← h.names, ← choice?_congr (hbranches.imp fun _ _ hi => hi.sameFrame) obliged]
  exact hjoined.addChoices _

end

end Shape

end Crosswalk

import Crosswalk.Proofs.Inlining.Choice

/-!
# References to model groups

A reference gives a shape placeholders for the members of a group, and the place where it stands
gives the other shape the members themselves: that is as if the group were collected on its own and
then put behind what is there, as long as no name is there already. So two shapes that agree go on
doing so when one refers to a group and the other one takes it in.
-/

namespace Crosswalk

open Json Check Conversion

namespace Shape

/-! ### Content without references -/

/-- The content is made of elements and choices; no group is referred to. -/
structure IsPlain (s : Shape) : Prop where
  groups : s.groups = []
  text : s.text = none
  elements : ∀ entry ∈ s.slots, entry.2.isAttribute = false

theorem isPlain_empty : IsPlain {} := ⟨rfl, rfl, fun _ h => absurd h List.not_mem_nil⟩

theorem mem_place {change : Slot → Slot} {name : String} {slot : Slot}
    {slots : List (String × Slot)} {e : String × Slot} (h : e ∈ place change name slot slots) :
    e ∈ slots ∨ e = (name, slot) ∨ ∃ old, (name, old) ∈ slots ∧ e = (name, change old) := by
  induction slots with
  | nil => exact .inr (.inl (List.mem_singleton.1 h))
  | cons first rest ih =>
      obtain ⟨n, old⟩ := first
      rw [place] at h
      split at h
      · next hn =>
          subst hn
          rcases List.mem_cons.1 h with rfl | h
          · exact .inr (.inr ⟨old, List.mem_cons_self, rfl⟩)
          · exact .inl (List.mem_cons_of_mem _ h)
      · rcases List.mem_cons.1 h with rfl | h
        · exact .inl List.mem_cons_self
        · rcases ih h with h | h | ⟨old, hold, rfl⟩
          · exact .inl (List.mem_cons_of_mem _ h)
          · exact .inr (.inl h)
          · exact .inr (.inr ⟨old, List.mem_cons_of_mem _ hold, rfl⟩)

namespace IsPlain

variable {s : Shape} (h : s.IsPlain)
include h

theorem placed {change : Slot → Slot} {name : String} {slot : Slot}
    (hs : slot.isAttribute = false) (hc : ∀ old, (change old).isAttribute = old.isAttribute) :
    IsPlain { s with slots := place change name slot s.slots } := by
  refine ⟨h.groups, h.text, fun entry he => ?_⟩
  rcases mem_place he with he | rfl | ⟨old, hold, rfl⟩
  · exact h.elements entry he
  · exact hs
  · exact (hc old).trans (h.elements _ hold)

theorem addElement {join : Slot → Slot → Slot} (hj : Slot.IsJoin join) (name : String)
    {slot : Slot} (hs : slot.isAttribute = false) : (s.addElement join name slot).1.IsPlain := by
  obtain ⟨bounds, required, hj⟩ := hj
  unfold Shape.addElement
  split
  · exact h.placed hs fun _ => rfl
  · split
    · exact h
    · exact h.placed hs fun old => by rw [hj]

theorem opened (isOpen : Bool) : IsPlain { s with isOpen } := ⟨h.groups, h.text, h.elements⟩

theorem joinMembers (outside : List String) {members : List (String × Slot)}
    (hm : ∀ member ∈ members, member.2.isAttribute = false) :
    (members.foldl (joinMember outside) s).IsPlain := by
  refine List.foldlRecOn members (joinMember outside) h fun t ht member hmember => ?_
  unfold joinMember
  split
  · exact ht.addElement Slot.isJoin_andThen _ rfl
  · exact ht.addElement Slot.isJoin_orElse _ (hm member hmember)

theorem withChoice {branches : List Shape} (hb : ∀ branch ∈ branches, branch.IsPlain)
    (obliged : Bool) : (s.withChoice branches obliged).IsPlain := by
  have joined : (branches.foldl (joinBranch s.names) s).IsPlain :=
    List.foldlRecOn branches (joinBranch s.names) h fun _ ht branch hbranch =>
      (ht.opened _).joinMembers s.names (hb branch hbranch).elements
  exact ⟨joined.groups, joined.text, joined.elements⟩

end IsPlain

/-! ### Content behind other content -/

/-- The content of the second shape behind that of the first one. -/
def append (s m : Shape) : Shape where
  slots := s.slots ++ m.slots
  choices := s.choices ++ m.choices
  groups := s.groups ++ m.groups
  text := s.text
  isOpen := s.isOpen || m.isOpen

/-- If the content has no name of the frame, it stands behind it as it would stand on its own. -/
def Framed (frame m a : Shape) : Prop :=
  (∀ name ∈ m.names, name ∉ frame.names) → a = frame.append m

theorem names_append_shape (s m : Shape) : (s.append m).names = s.names ++ m.names :=
  List.map_append

theorem find?_append_of_notMem {first : List (String × Slot)} {name : String}
    (h : name ∉ first.map (·.1)) (rest : List (String × Slot)) :
    Table.find? (first ++ rest) name = Table.find? rest name := by
  induction first with
  | nil => rfl
  | cons e first ih =>
      rw [List.map_cons, List.mem_cons, not_or] at h
      rw [List.cons_append, Table.find?_cons, if_neg h.1, ih h.2]

theorem place_append_of_notMem {first : List (String × Slot)} {name : String}
    (h : name ∉ first.map (·.1)) (change : Slot → Slot) (slot : Slot)
    (rest : List (String × Slot)) :
    place change name slot (first ++ rest) = first ++ place change name slot rest := by
  induction first with
  | nil => rfl
  | cons e first ih =>
      rw [List.map_cons, List.mem_cons, not_or] at h
      rw [List.cons_append, place, if_neg (Ne.symm h.1), ih h.2, List.cons_append]

section

variable {frame m : Shape}

theorem addElement_append {name : String} (hn : name ∉ frame.names) (join : Slot → Slot → Slot)
    (slot : Slot) : ((frame.append m).addElement join name slot).1 =
      frame.append (m.addElement join name slot).1 := by
  have hslot : (frame.append m).slot? name = m.slot? name := find?_append_of_notMem hn m.slots
  have hplace := fun change => place_append_of_notMem hn change slot m.slots
  cases hm : m.slot? name with
  | none =>
      rw [addElement_of_none hm, addElement_of_none (hslot.trans hm)]
      simp only [append, hplace]
  | some old =>
      cases ha : old.isAttribute with
      | true => rw [addElement_of_attribute hm ha, addElement_of_attribute (hslot.trans hm) ha]
      | false =>
          rw [addElement_of_element hm ha, addElement_of_element (hslot.trans hm) ha]
          simp only [append, hplace]

theorem mem_names_joinMember {outside : List String} {s : Shape} {member : String × Slot}
    {name : String} :
    name ∈ (s.joinMember outside member).names ↔ name ∈ s.names ∨ name = member.1 := by
  unfold joinMember
  split
  · exact mem_names_addElement
  · exact mem_names_addElement

theorem subset_joinMembers (outside : List String) (members : List (String × Slot)) (s : Shape) :
    s.names ⊆ (members.foldl (joinMember outside) s).names :=
  List.foldlRecOn members (joinMember outside) (motive := fun t => s.names ⊆ t.names)
    (List.Subset.refl _) fun _ ht _ _ _ hn => mem_names_joinMember.2 (.inl (ht hn))

theorem subset_joinBranches (outside : List String) (branches : List Shape) (s : Shape) :
    s.names ⊆ (branches.foldl (joinBranch outside) s).names :=
  List.foldlRecOn branches (joinBranch outside) (motive := fun t => s.names ⊆ t.names)
    (List.Subset.refl _) fun t ht branch _ _ hn =>
      subset_joinMembers outside branch.slots { t with isOpen := t.isOpen || branch.isOpen } (ht hn)

/-- Names outside of the frame were in one shape before the choice if they were in the other. -/
def SameOutside (frame : Shape) (outside outside' : List String) : Prop :=
  ∀ name ∉ frame.names, outside'.contains name = outside.contains name

theorem joinMembers_append {outside outside' : List String}
    (ho : SameOutside frame outside outside') {members : List (String × Slot)}
    (hn : ∀ name ∈ (members.foldl (joinMember outside) m).names, name ∉ frame.names) :
    members.foldl (joinMember outside') (frame.append m) =
      frame.append (members.foldl (joinMember outside) m) := by
  induction members generalizing m with
  | nil => rfl
  | cons member rest ih =>
      have hname : member.1 ∉ frame.names :=
        hn _ (subset_joinMembers outside rest _ (mem_names_joinMember.2 (.inr rfl)))
      have hfirst : (frame.append m).joinMember outside' member =
          frame.append (m.joinMember outside member) := by
        rw [joinMember, joinMember, ho _ hname]
        split
        · exact addElement_append hname _ _
        · exact addElement_append hname _ _
      rw [List.foldl_cons, List.foldl_cons, hfirst]
      exact ih hn

theorem joinBranches_append {outside outside' : List String}
    (ho : SameOutside frame outside outside') {branches : List Shape}
    (hn : ∀ name ∈ (branches.foldl (joinBranch outside) m).names, name ∉ frame.names) :
    branches.foldl (joinBranch outside') (frame.append m) =
      frame.append (branches.foldl (joinBranch outside) m) := by
  induction branches generalizing m with
  | nil => rfl
  | cons branch rest ih =>
      have hopen : { frame.append m with isOpen := (frame.append m).isOpen || branch.isOpen } =
          frame.append { m with isOpen := m.isOpen || branch.isOpen } := by
        simp only [append, Bool.or_assoc]
      have hfirst : (frame.append m).joinBranch outside' branch =
          frame.append (m.joinBranch outside branch) := by
        rw [joinBranch, joinBranch, hopen]
        exact joinMembers_append ho fun name hname =>
          hn name (subset_joinBranches outside rest _ hname)
      rw [List.foldl_cons, List.foldl_cons, hfirst]
      exact ih hn

end

namespace Framed

variable {frame m a : Shape} (h : Framed frame m a)
include h

theorem addElement (join : Slot → Slot → Slot) (name : String) (slot : Slot) :
    Framed frame (m.addElement join name slot).1 (a.addElement join name slot).1 := by
  intro hn
  rw [h fun other ho => hn other (mem_names_addElement.2 (.inl ho))]
  exact addElement_append (hn name (mem_names_addElement.2 (.inr rfl))) join slot

theorem opened : Framed frame { m with isOpen := true } { a with isOpen := true } := by
  intro hn
  rw [h hn]
  simp [append]

theorem withChoice (branches : List Shape) (obliged : Bool) :
    Framed frame (m.withChoice branches obliged) (a.withChoice branches obliged) := by
  intro hn
  have ha : a = frame.append m :=
    h fun name hname => hn name (subset_joinBranches m.names branches m hname)
  have ho : SameOutside frame m.names (frame.append m).names := by
    intro name hname
    simp [names_append_shape, hname]
  have hjoined : branches.foldl (joinBranch (frame.append m).names) (frame.append m) =
      frame.append (branches.foldl (joinBranch m.names) m) :=
    joinBranches_append ho fun name hname => hn name hname
  rw [ha, Shape.withChoice, Shape.withChoice, hjoined]
  simp only [append, List.append_assoc]

end Framed

/-! ### Shapes that mirror each other -/

variable {Home : Type}

/-- The constraint is that of a choice, and has no links. -/
def IsConstraint (choice : Json) : Prop := IsChoice choice ∧ ∀ P, IsSchema P choice

section

variable (lead : Home → String → Option (Home × Json)) (follow : Follow Home)
  (textProperty : String) (home home' : Home)

/-- The reference leads to the definition of a model group. -/
structure Describes (reference : Json) (d : Definition Home) : Prop where
  leads : ∃ link documentation, reference = Link.schema link ∧ lead home link = some
    (d.home, withKeywords (d.shape.schema false textProperty) (descriptionOf documentation))
  plain : d.shape.IsPlain
  nodup : d.shape.names.Nodup
  made : ∀ choice ∈ d.shape.choices, IsConstraint choice

/-- The second shape is the first one with groups inlined, if what the definitions of the groups
describe is left to them. -/
structure Mirrors (s s' : Shape) : Prop where
  nodup : s.names.Nodup
  described : s.text ≠ some (.bool true)
  made : ∀ choice ∈ s.choices, IsConstraint choice
  inlines : ∃ definitions,
    List.Forall₂ (Describes lead textProperty home) s.groups definitions ∧
      (s.Leaves definitions → Inlines lead follow home home' definitions s s')

end

variable {lead : Home → String → Option (Home × Json)} {follow : Follow Home}
  {textProperty : String} {home home' : Home} {s s' t t' : Shape}

theorem leaves_nil (s : Shape) : s.Leaves ([] : List (Definition Home)) :=
  ⟨List.nodup_nil, fun _ h => absurd h List.not_mem_nil⟩

theorem mirrors_empty : Mirrors lead follow textProperty home home' {} {} :=
  ⟨List.nodup_nil, nofun, fun _ h => absurd h List.not_mem_nil, [], .nil,
    fun _ => ⟨.nil, fun _ => by simp, fun _ => rfl, rfl, .none, rfl⟩⟩

namespace Mirrors

variable (h : Mirrors lead follow textProperty home home' s s')
include h

/-- Without references there is nothing to inline. -/
theorem of_plain (hp : s.IsPlain) : Inlines lead follow home home' [] s s' := by
  obtain ⟨definitions, hgroups, hinlines⟩ := h.inlines
  rw [hp.groups] at hgroups
  cases hgroups
  exact hinlines (leaves_nil s)

/-- A change of slots. -/
theorem change (hn : t.names.Nodup) (hs : SlotsOnly s t) (hk : Keeps s t)
    (hi : ∀ definitions, t.Leaves definitions →
      Inlines lead follow home home' definitions s s' →
      Inlines lead follow home home' definitions t t') :
    Mirrors lead follow textProperty home home' t t' := by
  obtain ⟨definitions, hgroups, hinlines⟩ := h.inlines
  exact ⟨hn, hs.text ▸ h.described, hs.choices ▸ h.made, definitions, hs.groups ▸ hgroups,
    fun hl => hi definitions hl (hinlines (hl.of_keeps hk))⟩

theorem opened {isOpen isOpen' : Bool} (ho : s.isOpen = s'.isOpen → isOpen = isOpen') :
    Mirrors lead follow textProperty home home' { s with isOpen } { s' with isOpen := isOpen' } :=
  h.change h.nodup ⟨rfl, rfl, rfl⟩ (.refl s) fun _ _ hi => hi.opened (ho hi.isOpen)

theorem addElement (hb : IsBlind follow) {join : Slot → Slot → Slot} (hj : Slot.IsJoin join)
    (name : String) {slot slot' : Slot} (hslot : slot.Agrees lead follow home home' slot') :
    Mirrors lead follow textProperty home home' (s.addElement join name slot).1
      (s'.addElement join name slot').1 :=
  h.change (nodup_addElement h.nodup _ _ _) (slotsOnly_addElement s join name slot)
    (keeps_addElement s hj name hslot.item.described) fun _ hl hi => hi.addElement hb hj hslot hl

/-- An attribute is added unless an element has its name. -/
theorem addAttribute (name : String) {slot slot' : Slot}
    (hslot : slot.Agrees lead follow home home' slot') :
    Mirrors lead follow textProperty home home' ((s.addAttribute? name slot).getD s)
      ((s'.addAttribute? name slot').getD s') := by
  have hi := fun definitions (hi : Inlines lead follow home home' definitions s s') =>
    hi.addAttribute? name hslot
  cases ht : s.addAttribute? name slot with
  | none =>
      refine h.change h.nodup ⟨rfl, rfl, rfl⟩ (.refl s) fun definitions _ hi' => ?_
      have hrel := hi definitions hi'
      rw [ht] at hrel
      generalize s'.addAttribute? name slot' = found at hrel ⊢
      cases hrel
      exact hi'
  | some t =>
      have hkeeps : Keeps s t := keeps_addAttribute? hslot.item.described ht
      have heq : t = { s with slots := place (fun _ => slot) name slot s.slots } := by
        unfold addAttribute? at ht
        split at ht
        · exact nomatch ht
        · exact (Option.some.inj ht).symm
      refine h.change ?_ ?_ hkeeps fun definitions hl hi' => ?_
      · rw [Option.getD_some, heq]
        exact nodup_keys_place h.nodup
      · rw [Option.getD_some, heq]
        exact ⟨rfl, rfl, rfl⟩
      · have hrel := hi definitions hi'
        rw [ht] at hrel
        generalize s'.addAttribute? name slot' = found at hrel ⊢
        cases hrel with
        | some hadded => exact hadded hl

theorem removeAttribute (name : String) : Mirrors lead follow textProperty home home'
    (s.removeAttribute name) (s'.removeAttribute name) :=
  h.change ((List.filter_sublist.map Prod.fst).nodup h.nodup) ⟨rfl, rfl, rfl⟩
    (keeps_removeAttribute h.nodup name) fun _ _ hi => hi.removeAttribute name

/-- The text is replaced by another one, which may be made from it. -/
theorem withText {text text' : Option Json} (hd : text ≠ some (.bool true))
    (ht : Option.Rel (SameItem follow home home') s.text s'.text →
      Option.Rel (SameItem follow home home') text text') :
    Mirrors lead follow textProperty home home' { s with text } { s' with text := text' } := by
  obtain ⟨definitions, hgroups, hinlines⟩ := h.inlines
  refine ⟨h.nodup, hd, h.made, definitions, hgroups, fun hl => ?_⟩
  have i := hinlines ⟨hl.nodup, hl.left⟩
  exact i.withText (ht i.text)

theorem withChoice (hb : IsBlind follow) {branches branches' : List Shape}
    (hbranches : List.Forall₂
      (fun b b' => Mirrors lead follow textProperty home home' b b' ∧ b.IsPlain) branches branches')
    (obliged : Bool) :
    Mirrors lead follow textProperty home home' (s.withChoice branches obliged)
      (s'.withChoice branches' obliged) := by
  have hinlined := hbranches.imp fun _ _ hb => hb.1.of_plain hb.2
  obtain ⟨definitions, hgroups, hinlines⟩ := h.inlines
  have hs := slotsOnly_joinBranches s.names branches s
  refine ⟨nodup_withChoice h.nodup branches obliged, ?_, ?_, definitions, ?_, fun hl => ?_⟩
  · exact hs.text ▸ h.described
  · refine List.forall_mem_append.2 ⟨hs.choices ▸ h.made, fun choice hc => ?_⟩
    have hchoice := Option.mem_toList.1 hc
    refine ⟨⟨branches, obliged, hchoice⟩, fun P => isSchema_choice? ?_ hchoice⟩
    intro branch hbranch inner hinner
    obtain ⟨branch', -, hb, -⟩ := exists_entry hbranches hbranch
    exact (hb.made inner hinner).2 P
  · exact hs.groups ▸ hgroups
  · exact (hinlines (hl.of_keeps (keeps_withChoice (areDescribed hinlined) s obliged))).withChoice
      hb hinlined hl

end Mirrors

/-! ### Placeholders -/

/-- The shape with a placeholder for each of the names. -/
def withPlaceholders (s : Shape) (names : List String) : Shape :=
  names.foldl (fun t name => (t.addElement Slot.andThen name .placeholder).1) s

theorem withPlaceholders_cons (s : Shape) (name : String) (rest : List String) :
    s.withPlaceholders (name :: rest) =
      (s.addElement Slot.andThen name .placeholder).1.withPlaceholders rest := rfl

theorem addReference_eq (s members : Shape) (reference : Json) :
    s.addReference members reference =
      { s.withPlaceholders members.names with
        isOpen := (s.withPlaceholders members.names).isOpen || members.isOpen
        groups := (s.withPlaceholders members.names).groups ++ [reference] } := rfl

theorem slot?_withPlaceholders {names : List String} {name : String} (h : name ∉ names)
    (s : Shape) : (s.withPlaceholders names).slot? name = s.slot? name := by
  induction names generalizing s with
  | nil => rfl
  | cons first rest ih =>
      rw [List.mem_cons, not_or] at h
      rw [withPlaceholders_cons, ih h.2, slot?_addElement_of_ne s _ _ h.1]

/-- A slot for something in particular does not become one for anything at all. -/
theorem exists_slot_withPlaceholders (names : List String) {name : String} {s : Shape}
    (h : ∃ slot, s.slot? name = some slot ∧ slot.item ≠ .bool true) :
    ∃ slot, (s.withPlaceholders names).slot? name = some slot ∧ slot.item ≠ .bool true := by
  refine List.foldlRecOn names _
    (motive := fun t : Shape => ∃ slot, t.slot? name = some slot ∧ slot.item ≠ .bool true) h
    fun t ⟨slot, hs, hi⟩ first _ => ?_
  by_cases hname : name = first
  · subst hname
    rcases slot?_addElement_self t Slot.andThen name .placeholder with ⟨_, -, -, heq⟩ | ⟨-, hself⟩
    · exact ⟨slot, (congrArg (fun s : Shape => s.slot? name) heq).trans hs, hi⟩
    · refine ⟨_, hself, ?_⟩
      rw [hs]
      change slot.eitherItem .placeholder ≠ .bool true
      unfold Slot.eitherItem
      split
      · exact hi
      · exact Json.noConfusion
  · exact ⟨slot, (slot?_addElement_of_ne t _ _ hname).trans hs, hi⟩

theorem nodup_withPlaceholders (names : List String) {s : Shape} (h : s.names.Nodup) :
    (s.withPlaceholders names).names.Nodup :=
  List.foldlRecOn names _ (motive := fun t : Shape => t.names.Nodup) h
    fun _ ht _ _ => nodup_addElement ht _ _ _

theorem slotsOnly_withPlaceholders (names : List String) (s : Shape) :
    SlotsOnly s (s.withPlaceholders names) :=
  List.foldlRecOn names _ (motive := fun t => SlotsOnly s t) (.refl s)
    fun t ht _ _ => ht.trans (slotsOnly_addElement t _ _ _)

/-- New names get placeholders behind the other slots. -/
theorem withPlaceholders_eq {names : List String} (hn : names.Nodup) {s : Shape}
    (h : ∀ name ∈ names, name ∉ s.names) : s.withPlaceholders names =
      { s with slots := s.slots ++ names.map fun name => (name, .placeholder) } := by
  induction names generalizing s with
  | nil => simp [withPlaceholders]
  | cons first rest ih =>
      rw [List.nodup_cons] at hn
      rw [List.forall_mem_cons] at h
      have hfirst : (s.addElement Slot.andThen first .placeholder).1 =
          { s with slots := s.slots ++ [(first, .placeholder)] } := by
        rw [addElement_of_none (slot?_eq_none_iff.2 h.1), place_eq_append h.1]
      rw [withPlaceholders_cons, hfirst, ih hn.2]
      · simp
      · intro name hname
        simp only [names, List.map_append, List.map_cons, List.map_nil, List.mem_append,
          List.mem_singleton, not_or]
        exact ⟨h.2 name hname, fun heq => hn.1 (heq ▸ hname)⟩

/-! ### A reference against the group itself -/

theorem covered_append (definitions : List (Definition Home)) (d : Definition Home) :
    covered (definitions ++ [d]) = covered definitions ++ d.shape.names := by
  simp [covered]

/-- What a shape leaves to definitions behind a reference, it has left to them before, and it had
none of the names of the group. -/
theorem Leaves.of_addReference {definitions : List (Definition Home)} {d : Definition Home}
    {members : Shape} (hm : members.names = d.shape.names) {reference : Json}
    (hl : (s.addReference members reference).Leaves (definitions ++ [d])) :
    s.Leaves definitions ∧ (Inlines lead follow home home' definitions s s' →
      ∀ name ∈ d.shape.names, name ∉ s.names) := by
  obtain ⟨hnodup, hleft⟩ := hl
  rw [covered_append, List.nodup_append] at hnodup
  rw [covered_append] at hleft
  have hslot : ∀ {name}, (s.addReference members reference).slot? name =
      (s.withPlaceholders members.names).slot? name := rfl
  refine ⟨⟨hnodup.1, fun name hn => ?_⟩, fun hi name hn hs => ?_⟩
  · have hnew : name ∉ members.names := hm ▸ fun hd => hnodup.2.2 name hn name hd rfl
    obtain ⟨slot, hfound, hrest⟩ := hleft name (List.mem_append_left _ hn)
    rw [hslot, slot?_withPlaceholders hnew] at hfound
    exact ⟨slot, hfound, hrest⟩
  · obtain ⟨old, hold⟩ := exists_slot hs
    obtain ⟨old', -, hagrees⟩ := hi.slot?_of_some hold
    have hnot : name ∉ covered definitions := fun hc => hnodup.2.2 name hc name hn rfl
    obtain ⟨slot, hfound, hne⟩ := exists_slot_withPlaceholders members.names
      ⟨old, hold, (hagrees.agrees hnot).item.described⟩
    obtain ⟨left, hl, hitem, -⟩ := hleft name (List.mem_append_right _ hn)
    rw [hslot, hfound] at hl
    obtain rfl := Option.some.inj hl
    exact hne hitem

/-- The slots stay as they are if a definition joins that has none of their names. -/
theorem Inlines.entries_append {definitions : List (Definition Home)} {d : Definition Home}
    (h : Inlines lead follow home home' definitions s s')
    (hnew : ∀ name ∈ d.shape.names, name ∉ s.names) :
    List.Forall₂ (EntryAgrees lead follow home home' (definitions ++ [d])) s.slots s'.slots := by
  refine ((List.forall₂_and_left _ _).2 ⟨fun e he => he, h.entries⟩).imp fun e e' he => ?_
  obtain ⟨hmem, hentry⟩ := he
  cases hentry with
  | @own name a b hn hagrees =>
      refine .own ?_ hagrees
      rw [covered_append, List.mem_append, not_or]
      exact ⟨hn, fun hd => hnew name hd (List.mem_map.2 ⟨_, hmem, rfl⟩)⟩
  | left hd hs he hagrees => exact .left (List.mem_append_left _ hd) hs he hagrees

/-- Placeholders for the members of a group stand for what its definition has of them. -/
theorem Inlines.entries_placeholders {definitions : List (Definition Home)} {d : Definition Home}
    {own : Shape} (h : Inlines lead follow d.home home' [] d.shape own) {reference : Json}
    (hd : Describes lead textProperty home reference d) (hmem : d ∈ definitions) :
    List.Forall₂ (EntryAgrees lead follow home home' definitions)
      (d.shape.names.map fun name => (name, .placeholder)) own.slots := by
  rw [Shape.names, List.map_map, List.forall₂_map_left_iff]
  refine ((List.forall₂_and_left _ _).2 ⟨fun e he => he, h.agrees⟩).imp fun e e' he => ?_
  obtain ⟨n, a⟩ := e
  obtain ⟨n', b⟩ := e'
  obtain ⟨hslot, rfl, hagrees⟩ := he
  exact .left hmem (Table.find?_of_mem hd.nodup hslot) (hd.plain.elements _ hslot) hagrees

/-- One shape refers to a group, and the other one takes its members in. The members that the
reference is made with, those in the definition of the group, and those taken in are collected
apart from each other. -/
theorem Mirrors.addReference (h : Mirrors lead follow textProperty home home' s s')
    {members own : Shape} (hm : Mirrors lead follow textProperty home home' members own)
    (hp : members.IsPlain) {d : Definition Home} {reference : Json}
    (hd : Describes lead textProperty home reference d)
    (ho : Mirrors lead follow textProperty d.home home' d.shape own)
    (hf : Framed s' own t') :
    Mirrors lead follow textProperty home home' (s.addReference members reference) t' := by
  have im := hm.of_plain hp
  have io := ho.of_plain hd.plain
  have hnames : members.names = d.shape.names := im.names.trans io.names.symm
  obtain ⟨definitions, hgroups, hinlines⟩ := h.inlines
  have hs := slotsOnly_withPlaceholders members.names s
  refine ⟨nodup_withPlaceholders members.names h.nodup, ?_, ?_, definitions ++ [d], ?_,
    fun hl => ?_⟩
  · exact hs.text ▸ h.described
  · exact hs.choices ▸ h.made
  · rw [addReference_eq, hs.groups]
    exact List.rel_append hgroups (.cons hd .nil)
  obtain ⟨hleaves, hdisjoint⟩ : s.Leaves definitions ∧
    (Inlines lead follow home home' definitions s s' → _) := hl.of_addReference hnames
  have i := hinlines hleaves
  have hnew : ∀ name ∈ members.names, name ∉ s.names := hnames ▸ hdisjoint i
  obtain rfl : t' = s'.append own := hf (by rwa [← im.names, ← i.names])
  have hshape : s.addReference members reference =
      { s with
        slots := s.slots ++ members.names.map fun name => (name, .placeholder)
        groups := s.groups ++ [reference]
        isOpen := s.isOpen || members.isOpen } := by
    rw [addReference_eq, withPlaceholders_eq hm.nodup hnew]
  rw [hshape]
  refine ⟨List.rel_append ?_ ?_, fun choice => ?_, fun hnil => ?_, ?_, i.text, ?_⟩
  · exact i.entries_append (hdisjoint i)
  · rw [hnames]
    exact io.entries_placeholders hd (List.mem_append_right _ List.mem_cons_self)
  · simp only [append, List.mem_append, i.choices, io.same rfl, List.mem_singleton, or_assoc,
      or_and_right, exists_or, exists_eq_left]
  · exact absurd hnil (by simp)
  · simp only [append, i.groups, io.groups, List.append_nil]
  · simp only [append, i.isOpen, im.isOpen]

end Shape

end Crosswalk

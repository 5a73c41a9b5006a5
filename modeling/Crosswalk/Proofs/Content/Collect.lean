import Crosswalk.Proofs.Content.Branches
import Mathlib.Data.List.Forall2

/-!
# Collecting content

Where the choices of a content model are apart from their surroundings, the shape that it is
collected into fits all of its words. The induction is over the content model; what it carries along
is that a shape which fits some word fits the longer one as well.
-/

namespace Crosswalk

open Shape Word

section

variable {key : Element → String} {limit : Limit}

mutual

/-- The names of choices are names of members. -/
theorem Particle.choiceNames_subset {limit : Limit} : ∀ p : Particle,
    ∀ name ∈ p.choiceNames key limit, name ∈ p.memberNames key limit
  | ⟨_, most, term⟩, name, hn => by
      rw [Particle.choiceNames] at hn
      rw [Particle.memberNames]
      split at hn
      · exact absurd hn List.not_mem_nil
      · next hz =>
          rw [if_neg hz]
          exact Term.choiceNames_subset term name hn

theorem Term.choiceNames_subset {limit : Limit} : ∀ term : Term,
    ∀ name ∈ term.choiceNames key limit, name ∈ term.memberNames key limit
  | .group group, name, hn => ModelGroup.choiceNames_subset group name hn
  | .element _, _, hn => absurd hn List.not_mem_nil
  | .elementRef _, _, hn => absurd hn List.not_mem_nil
  | .groupRef _, _, hn => absurd hn List.not_mem_nil
  | .any, _, hn => absurd hn List.not_mem_nil

theorem ModelGroup.choiceNames_subset {limit : Limit} : ∀ group : ModelGroup,
    ∀ name ∈ group.choiceNames key limit, name ∈ group.memberNames key limit
  | ⟨.choice, particles⟩, name, hn => by
      rw [ModelGroup.choiceNames] at hn
      split at hn
      · exact absurd hn List.not_mem_nil
      · exact hn
  | ⟨.sequence, particles⟩, name, hn => choiceNamesOf_subset particles name hn
  | ⟨.all, particles⟩, name, hn => choiceNamesOf_subset particles name hn

theorem choiceNamesOf_subset {limit : Limit} : ∀ particles : List Particle,
    ∀ name ∈ choiceNamesOf key limit particles, name ∈ memberNamesOf key limit particles
  | [], _, hn => absurd hn List.not_mem_nil
  | p :: rest, name, hn => by
      rw [memberNamesOf, List.mem_append]
      rcases List.mem_append.1 hn with hn | hn
      · exact .inl (Particle.choiceNames_subset p name hn)
      · exact .inr (choiceNamesOf_subset rest name hn)

end

/-- The shape of a branch of a choice, collected on its own. -/
def IsBranch (key : Element → String) (limit : Limit) (p : Particle) (branch : Shape) : Prop :=
  Grows (p.memberNames key limit) (p.choiceNames key limit) (p.Admits key) {} branch

theorem IsBranch.names {p : Particle} {branch : Shape} (h : IsBranch key limit p branch)
    (name : String) : name ∈ branch.names ↔ name ∈ p.memberNames key limit := by
  rw [(Grows.toEnlarges h).names]
  exact ⟨fun hn => hn.resolve_left List.not_mem_nil, .inr⟩

theorem IsBranch.fits {p : Particle} {branch : Shape} (h : IsBranch key limit p branch) {w : Word}
    (hw : p.Admits key w) : branch.Fits (p.choiceNames key limit) w :=
  Grows.fits h [] [] w (fun _ _ => List.not_mem_nil) (fun _ _ => List.not_mem_nil) fits_empty hw

/-- The names of the branches of a choice are those of its members. -/
theorem mem_memberNamesOf_iff {particles : List Particle} {branches : List Shape}
    (h : List.Forall₂ (fun p branch => ∀ name, name ∈ Shape.names branch ↔
      name ∈ Particle.memberNames key limit p) particles branches) (name : String) :
    name ∈ memberNamesOf key limit particles ↔ name ∈ branches.flatMap Shape.names := by
  induction h with
  | nil => rfl
  | cons hb _ ih => rw [memberNamesOf, List.flatMap_cons, List.mem_append, List.mem_append, ih, hb]

theorem isElemental_branches {particles : List Particle} {branches : List Shape}
    (h : List.Forall₂ (IsBranch key limit) particles branches) :
    ∀ branch ∈ branches, branch.IsElemental := by
  intro branch hmem
  obtain ⟨p, -, hp⟩ := Conversion.exists_entry h.flip hmem
  exact (Grows.toEnlarges hp).elemental

/-- What a word of a choice is to its branches: a word of one of them, or nothing. -/
inductive ChoiceWord (branches : List Shape) (obliged : Bool) (members : List String)
    (u : Word) : Prop where
  | chosen (branch : Shape) (free : List String) : branch ∈ branches →
      (∀ name ∈ free, name ∈ members) → branch.Fits free u → ChoiceWord branches obliged members u
  | none : u = [] → obliged = false → ChoiceWord branches obliged members u

theorem choiceWord_of_admits {particles : List Particle} {branches : List Shape}
    (h : List.Forall₂ (IsBranch key limit) particles branches) {obliged : Bool} {u v : Word}
    {p : Particle} (hp : p ∈ particles) (hv : p.Admits key v) (hu : u.Perm v) :
    ChoiceWord branches obliged (memberNamesOf key limit particles) u := by
  obtain ⟨branch, hm, hbr⟩ := Conversion.exists_entry h hp
  refine .chosen branch (p.choiceNames key limit) hm (fun name hn =>
    mem_memberNamesOf.2 ⟨p, hp, Particle.choiceNames_subset p name hn⟩) ?_
  exact (hbr.fits hv).congr (fun _ => Iff.rfl) fun name => (count_perm hu name).symm

section Choice

variable {branches : List Shape} {obliged : Bool} {members : List String} {u : Word}

theorem ChoiceWord.count_eq_zero (h : ChoiceWord branches obliged members u)
    (hm : ∀ name, name ∈ members ↔ name ∈ branches.flatMap Shape.names) {name : String}
    (hn : name ∉ members) : u.count name = 0 := by
  cases h with
  | chosen branch free hb _ hf =>
      refine hf.absent name fun hname => hn ((hm name).2 ?_)
      exact List.mem_flatMap.2 ⟨branch, hb, hname⟩
  | none hu _ => rw [hu, count_nil]

/-- The slot of a member fits the word of the choice. -/
theorem ChoiceWord.fits_slot (h : ChoiceWord branches obliged members u)
    {outside : List String} {s t : Shape} (hj : Joins outside (branches.flatMap Shape.slots) s t)
    {name : String} (ho : name ∉ outside) (hn : name ∈ branches.flatMap Shape.names) {slot : Slot}
    (hs : t.slot? name = some slot) : slot.Fits True (u.count name) := by
  have joined : ∀ branch ∈ branches, ∀ old, branch.slot? name = some old →
      slot.IsWider { old with required := false } := by
    intro branch hb old hold
    obtain ⟨slot', hs', hw⟩ := hj.joined (name, old)
      (List.mem_flatMap.2 ⟨branch, hb, Table.mem_of_find? hold⟩) ho
    rwa [Option.some.inj (hs.symm.trans hs')]
  have hzero : slot.Fits True 0 := by
    obtain ⟨branch, hb, hname⟩ := List.mem_flatMap.1 hn
    obtain ⟨old, hold⟩ := exists_slot hname
    exact Slot.fits_zero ((joined branch hb old hold).required rfl)
  cases h with
  | none hu _ => rwa [hu]
  | chosen branch free hb _ hf =>
      by_cases hname : name ∈ branch.names
      · obtain ⟨old, hold⟩ := exists_slot hname
        exact (joined branch hb old hold).fits (hf.slots name old hold)
      · rwa [hf.absent name hname]

/-- The constraint of the choice is met where its members are those of a word. -/
theorem ChoiceWord.met (h : ChoiceWord branches obliged members u)
    (he : ∀ branch ∈ branches, branch.IsElemental)
    (hm : ∀ name, name ∈ members ↔ name ∈ branches.flatMap Shape.names) {choice : Json}
    (hc : choice? branches obliged = some choice) {entries : Table String Json}
    (hw : ∀ name ∈ members, Table.contains entries name = decide (0 < u.count name)) :
    Met entries choice := by
  have hcount : ∀ name ∈ branches.flatMap Shape.names,
      Table.contains entries name = true ↔ 0 < u.count name := fun name hn => by
    rw [hw name ((hm name).2 hn), decide_eq_true_iff]
  by_cases hp : Present entries (branches.flatMap Shape.names)
  · obtain ⟨name, hname, hpresent⟩ := hp
    have hpos := (hcount name hname).1 hpresent
    cases h with
    | none hu _ => simp [hu] at hpos
    | chosen branch free hb hfree hf =>
        have hbranch : ∀ n, 0 < u.count n → n ∈ branch.names := fun n hn => by
          by_contra habsent
          have := hf.absent n habsent
          omega
        have hall : ∀ n ∈ branch.names, n ∈ branches.flatMap Shape.names := fun n hn =>
          List.mem_flatMap.2 ⟨branch, hb, hn⟩
        refine met_choice_of_chosen hc hb ⟨fun n hn => ?_, ⟨name, hbranch name hpos, hpresent⟩,
          fun _ n hn hc => hbranch n ((hcount n hn).1 hc), fun inner hi => ?_⟩
        · obtain ⟨slot, hslot, hr⟩ := exists_slot_of_mem_requiredNames (he branch hb) hn
          exact (hcount n (hall n (mem_names_of_slot? hslot))).2
            ((hf.slots n slot hslot).required hr)
        · exact hf.choices inner hi entries fun n hn => hw n (hfree n hn)
  · refine met_choice_of_none hc ?_ hp
    cases h with
    | none _ ho => simp [emptiable, ho]
    | chosen branch free hb _ hf =>
        have hempty : branch.requiredNames = [] := by
          refine List.eq_nil_iff_forall_not_mem.2 fun n hn => ?_
          obtain ⟨slot, hslot, hr⟩ := exists_slot_of_mem_requiredNames (he branch hb) hn
          have hall : n ∈ branches.flatMap Shape.names :=
            List.mem_flatMap.2 ⟨branch, hb, mem_names_of_slot? hslot⟩
          exact hp ⟨n, hall, (hcount n hall).2 ((hf.slots n slot hslot).required hr)⟩
        have hany : branches.any (fun b => b.requiredNames.isEmpty) = true :=
          List.any_eq_true.2 ⟨branch, hb, by simp [hempty]⟩
        simp [emptiable, hany]

end Choice

/-- The constraint of a choice and its members, added to a shape. -/
theorem enlarges_choice {particles : List Particle} {branches : List Shape}
    (hm : ∀ name, name ∈ memberNamesOf key limit particles ↔
      name ∈ branches.flatMap Shape.names) {s t : Shape}
    (hj : Joins s.names (branches.flatMap Shape.slots) s t) (obliged : Bool) :
    Enlarges (memberNamesOf key limit particles) s
      { t with choices := t.choices ++ (choice? branches obliged).toList } := by
  have hkeys : (branches.flatMap Shape.slots).map (·.1) = branches.flatMap Shape.names :=
    List.map_flatMap
  refine ⟨⟨hj.elemental.nodup, hj.elemental.element⟩, fun name => ?_, fun choice hc => ?_,
    fun choice hc => ?_, hj.groups, hj.text⟩
  · rw [hm, ← hkeys]
    exact hj.names name
  · exact List.mem_append_left _ (hj.choices ▸ hc)
  · rw [List.mem_append, hj.choices] at hc
    exact hc.imp_right fun hc => ⟨branches, obliged, Option.mem_toList.1 hc⟩

/-- A choice whose branches were collected on their own. -/
theorem grows_choice {particles : List Particle} {branches : List Shape}
    (hb : List.Forall₂ (IsBranch key limit) particles branches) {s t : Shape}
    (hj : Joins s.names (branches.flatMap Shape.slots) s t) (obliged : Bool) {A : Word → Prop}
    (hA : ∀ u, A u → ChoiceWord branches obliged (memberNamesOf key limit particles) u) :
    Grows (memberNamesOf key limit particles) (memberNamesOf key limit particles) A s
      { t with choices := t.choices ++ (choice? branches obliged).toList } := by
  have hm := mem_memberNamesOf_iff (hb.imp fun _ _ h => h.names)
  have hkeys : (branches.flatMap Shape.slots).map (·.1) = branches.flatMap Shape.names :=
    List.map_flatMap
  refine ⟨enlarges_choice hm hj obliged, fun free w u hnew hfree hf hu => ?_⟩
  have hword := hA u hu
  have hw : ∀ name ∈ memberNamesOf key limit particles, w.count name = 0 := fun name hn =>
    hf.absent name (hnew name hn)
  refine ⟨fun name slot hs => ?_, fun name hn => ?_, fun choice hc entries hentries => ?_⟩
  · rw [count_append]
    by_cases hname : name ∈ memberNamesOf key limit particles
    · rw [hw name hname, Nat.zero_add]
      exact (hword.fits_slot hj (hnew name hname) ((hm name).1 hname) hs).mono
        fun _ => List.mem_append_right _ hname
    · have hold : s.slot? name = some slot := by
        rw [← hj.others name (by rwa [hkeys, ← hm])]
        exact hs
      rw [hword.count_eq_zero hm hname, Nat.add_zero]
      exact (hf.slots name slot hold).mono fun h => List.mem_append_left _ h
  · have hn' : name ∉ t.names := hn
    rw [hj.names, hkeys, ← hm, not_or] at hn'
    rw [count_append, hf.absent name hn'.1, hword.count_eq_zero hm hn'.2]
  · rw [List.mem_append, hj.choices] at hc
    rcases hc with hc | hc
    · refine hf.choices choice hc entries fun name hname => ?_
      have hout : name ∉ memberNamesOf key limit particles := fun h => hfree name h hname
      rw [hentries name (List.mem_append_left _ hname), count_append,
        hword.count_eq_zero hm hout, Nat.add_zero]
    · refine hword.met (isElemental_branches hb) hm (Option.mem_toList.1 hc) fun name hname => ?_
      rw [hentries name (List.mem_append_right _ hname), count_append, hw name hname,
        Nat.zero_add]

/-- The words of something that occurs within these bounds. -/
def Within (bounds : Bounds) (A : Word → Prop) (u : Word) : Prop :=
  ∃ n, bounds.Allows n ∧ Repeats A n u

theorem within_once {bounds : Bounds} {A : Word → Prop} {u : Word} (hz : bounds.most ≠ .zero)
    (hu : A u) : Within { bounds with least := .one } A u :=
  ⟨1, ⟨Nat.le_refl 1, Limit.permits_one hz⟩, repeats_one hu⟩

/-- The words of a choice that occurs at most once. -/
theorem choiceWord_of_within {particles : List Particle} {branches : List Shape} {bounds : Bounds}
    (hb : List.Forall₂ (IsBranch key bounds.most) particles branches)
    (hr : bounds.most.isRepeated = false) {u : Word}
    (hu : Within bounds (AdmitsOne key particles) u) :
    ChoiceWord branches bounds.isRequired (memberNamesOf key bounds.most particles) u := by
  obtain ⟨n, hn, hu⟩ := hu
  rcases Nat.le_one_iff_eq_zero_or_eq_one.1 (Limit.le_one_of_permits hr hn.most) with rfl | rfl
  · exact .none hu.eq_nil (decide_eq_false (Nat.not_lt.2 hn.least))
  · obtain ⟨v, hv, hp⟩ := hu.of_one
    obtain ⟨p, hmem, hv⟩ := admitsOne_iff.1 hv
    exact choiceWord_of_admits hb hmem hv hp

end

namespace Conversion

open Shape Word

/-- The name of the property of a local element. -/
def elementKey (context : Context) (scope : File) (declaration : Element) : String :=
  propertyName context scope declaration.name declaration.qualified

variable {context : Context} {expand : Expansions}

theorem yields_addChoice_grows {site : Site} {key : Element → String} {bounds : Bounds}
    {particles : List Particle} {branches : List Shape}
    (hb : List.Forall₂ (IsBranch key bounds.most) particles branches)
    (hr : bounds.most.isRepeated = false) {shape : Shape} (hs : shape.IsElemental) :
    Yields (addChoice context site bounds.isRequired branches shape)
      (Grows (memberNamesOf key bounds.most particles) (memberNamesOf key bounds.most particles)
        (Within bounds (AdmitsOne key particles)) shape) := by
  have joined := (yields_joinBranches_joins context site shape.names hs branches
    (isElemental_branches hb)).bind fun t hj => Yields.pure (grows_choice hb hj bounds.isRequired
      fun u hu => choiceWord_of_within hb hr hu)
  unfold addChoice
  exact Yields.ite (Yields.bind_any fun _ => joined) joined

section

variable {key : Element → String}

mutual

/-- A particle whose choices are apart from their surroundings adds what fits all of its words. -/
theorem yields_collectParticle_grows {site : Site} (hk : elementKey context site.scope = key)
    (outer : Bounds) (nested : Bool) {shape : Shape} (hs : shape.IsElemental) :
    ∀ p : Particle, p.IsPlain → p.IsSeparate key outer.most →
      Yields (collectParticle context expand site outer nested shape p)
        (Grows (p.memberNames key outer.most) (p.choiceNames key outer.most)
          (Within outer (p.Admits key)) shape)
  | ⟨least, most, term⟩, hp, hsep => by
      have hwords : ∀ u, Within outer (Particle.Admits key ⟨least, most, term⟩) u →
          Within (Bounds.times ⟨least, most⟩ outer) (term.Admits key) u :=
        fun u ⟨n, hn, hu⟩ => Particle.repeats hn hu
      have hmost : (Bounds.times ⟨least, most⟩ outer).most = most.times outer.most := rfl
      rw [Particle.memberNames, Particle.choiceNames, collectParticle, hmost]
      by_cases hz : most.times outer.most = .zero
      · rw [if_pos hz, if_pos hz, if_pos hz]
        refine Yields.pure (Grows.refl (fun u hu => ?_) hs)
        obtain ⟨n, hn, hr⟩ := hwords u hu
        have hzero : n = 0 := Limit.eq_zero_of_permits (hz ▸ hn.most)
        exact (hzero ▸ hr).eq_nil
      · rw [if_neg hz, if_neg hz, if_neg hz]
        exact (yields_collectTerm_grows hk (.times ⟨least, most⟩ outer) hz nested hs term hp
          (hsep.resolve_left hz)).mono fun _ h => h.mono hwords

theorem yields_collectTerm_grows {site : Site} (hk : elementKey context site.scope = key)
    (bounds : Bounds) (hz : bounds.most ≠ .zero) (nested : Bool) {shape : Shape}
    (hs : shape.IsElemental) :
    ∀ term : Term, term.IsPlain → term.IsSeparate key bounds.most →
      Yields (collectTerm context expand site bounds nested shape term)
        (Grows (term.memberNames key bounds.most) (term.choiceNames key bounds.most)
          (Within bounds (term.Admits key)) shape)
  | .element declaration, _, _ => by
      unfold collectTerm
      refine Yields.bind_any fun item => (yields_addElement_eq context site _ _ shape).mono ?_
      rintro _ rfl
      subst hk
      exact grows_element (fun u ⟨n, hn, hu⟩ => ⟨n, hn, Term.count_of_repeats hu⟩) hs
  | .group group, hp, hsep => yields_collectGroup_grows hk bounds hz nested hs group hp hsep
  | .elementRef _, hp, _ => hp.elim
  | .groupRef _, hp, _ => hp.elim
  | .any, hp, _ => hp.elim

theorem yields_collectGroup_grows {site : Site} (hk : elementKey context site.scope = key)
    (bounds : Bounds) (hz : bounds.most ≠ .zero) (nested : Bool) {shape : Shape}
    (hs : shape.IsElemental) :
    ∀ group : ModelGroup, group.IsPlain → group.IsSeparate key bounds.most →
      Yields (collectGroup context expand site bounds nested shape group)
        (Grows (group.memberNames key bounds.most) (group.choiceNames key bounds.most)
          (Within bounds (group.Admits key)) shape)
  | ⟨.choice, particles⟩, hp, hsep => by
      unfold collectGroup
      rw [ModelGroup.choiceNames]
      by_cases hr : bounds.most.isRepeated = true
      · rw [if_pos hr, if_pos hr]
        refine Yields.bind_any fun _ => ?_
        exact (yields_collectParticles_repeated hk bounds.orNone hr rfl nested hs particles hp).mono
          fun _ h => h.mono fun u ⟨n, hn, hu⟩ => ⟨n, ⟨Nat.zero_le n, hn.most⟩, hu⟩
      · rw [if_neg hr, if_neg hr]
        exact (yields_collectBranches_grows hk bounds hz particles hp (hsep.resolve_left hr)).bind
          fun branches hb => yields_addChoice_grows hb (Bool.eq_false_iff.2 hr) hs
  | ⟨.sequence, particles⟩, hp, hsep =>
      yields_collectParticles_grows hk bounds nested hs particles hp hsep
  | ⟨.all, particles⟩, hp, hsep =>
      (yields_collectParticles_grows hk bounds nested hs particles hp hsep).mono fun _ h =>
        h.mono fun _ ⟨n, hn, hu⟩ => ⟨n, hn, hu.mono fun _ hx => hx⟩

/-- Particles that make up content together. -/
theorem yields_collectParticles_grows {site : Site} (hk : elementKey context site.scope = key)
    (outer : Bounds) (nested : Bool) {shape : Shape} (hs : shape.IsElemental) :
    ∀ particles : List Particle, ArePlain particles → AreApart key outer.most particles →
      Yields (collectParticles context expand site outer nested shape particles)
        (Grows (memberNamesOf key outer.most particles) (choiceNamesOf key outer.most particles)
          (Within outer (AdmitsAll key particles)) shape)
  | [], _, _ => Yields.pure (Grows.refl (fun _ ⟨_, _, hu⟩ => AdmitsAll.repeats_nil hu) hs)
  | p :: rest, hp, hsep => by
      obtain ⟨hfirst, hrest, hc, hm⟩ := hsep
      unfold collectParticles
      refine (yields_collectParticle_grows hk outer nested hs p hp.1 hfirst).bind fun t ht => ?_
      refine (yields_collectParticles_grows hk outer nested ht.elemental rest hp.2 hrest).mono
        fun r hr => ht.trans hr hc hm fun w hw => ?_
      obtain ⟨n, hn, hw⟩ := hw
      obtain ⟨u, v, hu, hv, hperm⟩ := AdmitsAll.repeats_cons hw
      exact ⟨u, v, ⟨n, hn, hu⟩, ⟨n, hn, hv⟩, hperm⟩

/-- The particles of a choice that can occur several times. -/
theorem yields_collectParticles_repeated {site : Site} (hk : elementKey context site.scope = key)
    (outer : Bounds) (hr : outer.most.isRepeated = true) (hl : outer.least = .zero)
    (nested : Bool) {shape : Shape} (hs : shape.IsElemental) :
    ∀ particles : List Particle, ArePlain particles →
      Yields (collectParticles context expand site outer nested shape particles)
        (Grows (memberNamesOf key outer.most particles) []
          (Within outer (AdmitsOne key particles)) shape)
  | [], _ => Yields.pure (Grows.refl (fun _ ⟨_, _, hu⟩ => AdmitsOne.repeats_nil hu) hs)
  | p :: rest, hp => by
      unfold collectParticles
      refine (yields_collectParticle_grows hk outer nested hs p hp.1
        (Particle.isSeparate_of_isRepeated hr p)).bind fun t ht => ?_
      rw [Particle.choiceNames_of_isRepeated hr] at ht
      refine (yields_collectParticles_repeated hk outer hr hl nested ht.elemental rest hp.2).mono
        fun r hrest => ht.trans hrest (fun _ h => absurd h List.not_mem_nil)
          (fun _ _ => List.not_mem_nil) fun w hw => ?_
      obtain ⟨n, hn, hw⟩ := hw
      obtain ⟨i, j, u, v, rfl, hu, hv, hperm⟩ := AdmitsOne.repeats_cons hw
      have hleast : outer.least.toNat = 0 := congrArg Count.toNat hl
      exact ⟨u, v, ⟨i, ⟨by omega, hn.most.mono (by omega)⟩, hu⟩,
        ⟨j, ⟨by omega, hn.most.mono (by omega)⟩, hv⟩, hperm⟩

/-- The branches of a choice that occurs at most once. -/
theorem yields_collectBranches_grows {site : Site} (hk : elementKey context site.scope = key)
    (bounds : Bounds) (hz : bounds.most ≠ .zero) :
    ∀ particles : List Particle, ArePlain particles → AreSeparate key bounds.most particles →
      Yields (collectBranches context expand site { bounds with least := .one } particles)
        (List.Forall₂ (IsBranch key bounds.most) particles)
  | [], _, _ => Yields.pure .nil
  | p :: rest, hp, hsep => by
      unfold collectBranches
      refine (yields_collectParticle_grows hk { bounds with least := .one } true
        isElemental_empty p hp.1 hsep.1).bind fun branch hbranch => ?_
      refine (yields_collectBranches_grows hk bounds hz rest hp.2 hsep.2).bind
        fun branches hbranches => Yields.pure (.cons ?_ hbranches)
      exact hbranch.mono fun u hu => within_once hz hu

end

end

end Conversion

end Crosswalk

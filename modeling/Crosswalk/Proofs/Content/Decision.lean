import Crosswalk.Proofs.Content.Collect
import Crosswalk.Proofs.Content.Single

/-!
# Deciding by members

Where nothing repeats, an object is described by its members alone. Names that are required decide
together with constraints which members it may have: an object that has those of a word satisfies
all of them, and any other one violates some. Content after content decides as both parts do, for
they have no name in common. The constraint of a choice decides as its branches do, but for an
object without any of its members: that is content of the choice if it need not be made, or if there
is a branch that requires no name of its own.
-/

namespace Crosswalk

open Word Shape

/-- Of these names, the object has those of a word. -/
def HasMembers (A : Word → Prop) (names : List String) (entries : Table String Json) : Prop :=
  ∃ w, A w ∧ ∀ name ∈ names, Table.contains entries name = decide (0 < w.count name)

/-- Required names and constraints tell the objects that are as described from all others. -/
structure Decides (required : List String) (constraints : List Json)
    (P : Table String Json → Prop) : Prop where
  met : ∀ entries, P entries → (∀ name ∈ required, Table.contains entries name = true) ∧
    ∀ constraint ∈ constraints, Met entries constraint
  unmet : ∀ entries, ¬ P entries → (∃ name ∈ required, Table.contains entries name = false) ∨
    ∃ constraint ∈ constraints, Unmet entries constraint

/-- What content with these members adds to a shape. -/
structure Renders (members required : List String) (A : Word → Prop) (s r : Shape) : Prop where
  names : r.names = s.names ++ members
  requiredNames : r.requiredNames = s.requiredNames ++ required
  choices : ∃ added, r.choices = s.choices ++ added ∧
    Decides required added (HasMembers A members)

namespace Decides

variable {required required' : List String} {constraints constraints' : List Json}
  {P Q : Table String Json → Prop}

theorem nil (h : ∀ entries, P entries) : Decides [] [] P :=
  ⟨fun _ _ => ⟨by simp, by simp⟩, fun entries hn => absurd (h entries) hn⟩

theorem congr (h : Decides required constraints P) (hPQ : ∀ entries, P entries ↔ Q entries) :
    Decides required constraints Q :=
  ⟨fun entries hQ => h.met entries ((hPQ entries).2 hQ),
    fun entries hQ => h.unmet entries fun hP => hQ ((hPQ entries).1 hP)⟩

theorem append (h : Decides required constraints P) (h' : Decides required' constraints' Q) :
    Decides (required ++ required') (constraints ++ constraints')
      fun entries => P entries ∧ Q entries where
  met entries hPQ := by
    obtain ⟨hn, hc⟩ := h.met entries hPQ.1
    obtain ⟨hn', hc'⟩ := h'.met entries hPQ.2
    exact ⟨List.forall_mem_append.2 ⟨hn, hn'⟩, List.forall_mem_append.2 ⟨hc, hc'⟩⟩
  unmet entries hPQ := by
    rcases not_and_or.1 hPQ with hP | hQ
    · exact (h.unmet entries hP).imp
        (fun ⟨name, hn, ha⟩ => ⟨name, List.mem_append_left _ hn, ha⟩)
        fun ⟨c, hc, hu⟩ => ⟨c, List.mem_append_left _ hc, hu⟩
    · exact (h'.unmet entries hQ).imp
        (fun ⟨name, hn, ha⟩ => ⟨name, List.mem_append_right _ hn, ha⟩)
        fun ⟨c, hc, hu⟩ => ⟨c, List.mem_append_right _ hc, hu⟩

end Decides

namespace HasMembers

variable {A B : Word → Prop} {names more : List String} {entries : Table String Json}

/-- Only how often each name occurs in the words matters. -/
theorem congr (hAB : ∀ w, A w → ∃ v, B v ∧ ∀ name, w.count name = v.count name)
    (h : HasMembers A names entries) : HasMembers B names entries := by
  obtain ⟨w, hw, hm⟩ := h
  obtain ⟨v, hv, hc⟩ := hAB w hw
  exact ⟨v, hv, fun name hn => hc name ▸ hm name hn⟩

theorem nil_iff : HasMembers (· = []) [] entries ↔ True :=
  ⟨fun _ => True.intro, fun _ => ⟨[], rfl, by simp⟩⟩

/-- The members of content after content with other names. -/
theorem append_iff (hA : ∀ u, A u → ∀ name ∉ names, u.count name = 0)
    (hB : ∀ v, B v → ∀ name ∉ more, v.count name = 0) (hd : names.Disjoint more) :
    HasMembers (fun w => ∃ u v, A u ∧ B v ∧ w = u ++ v) (names ++ more) entries ↔
      HasMembers A names entries ∧ HasMembers B more entries := by
  constructor
  · rintro ⟨_, ⟨u, v, hu, hv, rfl⟩, hm⟩
    refine ⟨⟨u, hu, fun name hn => ?_⟩, ⟨v, hv, fun name hn => ?_⟩⟩
    · rw [hm name (List.mem_append_left _ hn), count_append, hB v hv name (hd hn), Nat.add_zero]
    · rw [hm name (List.mem_append_right _ hn), count_append,
        hA u hu name fun h => hd h hn, Nat.zero_add]
  · rintro ⟨⟨u, hu, hmu⟩, ⟨v, hv, hmv⟩⟩
    refine ⟨u ++ v, ⟨u, v, hu, hv, rfl⟩, fun name hn => ?_⟩
    rw [count_append]
    rcases List.mem_append.1 hn with hn | hn
    · rw [hmu name hn, hB v hv name (hd hn), Nat.add_zero]
    · rw [hmv name hn, hA u hu name fun h => hd h hn, Nat.zero_add]

end HasMembers

namespace Renders

variable {members members' required required' : List String} {A B : Word → Prop} {s t r : Shape}

theorem congr (h : Renders members required A s r)
    (hAB : ∀ w, A w → ∃ v, B v ∧ ∀ name, w.count name = v.count name)
    (hBA : ∀ w, B w → ∃ v, A v ∧ ∀ name, w.count name = v.count name) :
    Renders members required B s r := by
  obtain ⟨added, hc, hd⟩ := h.choices
  exact ⟨h.names, h.requiredNames, added, hc,
    hd.congr fun _ => ⟨HasMembers.congr hAB, HasMembers.congr hBA⟩⟩

theorem of_iff (h : Renders members required A s r) (hAB : ∀ w, A w ↔ B w) :
    Renders members required B s r :=
  h.congr (fun w hw => ⟨w, (hAB w).1 hw, fun _ => rfl⟩)
    fun w hw => ⟨w, (hAB w).2 hw, fun _ => rfl⟩

theorem refl (s : Shape) : Renders [] [] (· = []) s s :=
  ⟨by simp, by simp, [], by simp, .nil fun _ => HasMembers.nil_iff.2 True.intro⟩

theorem trans (h : Renders members required A s t) (h' : Renders members' required' B t r)
    (hA : ∀ u, A u → ∀ name ∉ members, u.count name = 0)
    (hB : ∀ v, B v → ∀ name ∉ members', v.count name = 0) (hd : members.Disjoint members') :
    Renders (members ++ members') (required ++ required')
      (fun w => ∃ u v, A u ∧ B v ∧ w = u ++ v) s r := by
  obtain ⟨added, hc, hdec⟩ := h.choices
  obtain ⟨added', hc', hdec'⟩ := h'.choices
  refine ⟨by rw [h'.names, h.names, List.append_assoc],
    by rw [h'.requiredNames, h.requiredNames, List.append_assoc],
    added ++ added', by rw [hc', hc, List.append_assoc], ?_⟩
  exact (hdec.append hdec').congr fun _ => (HasMembers.append_iff hA hB hd).symm

end Renders

namespace Shape

/-- What a shape has no slot for yet gets one behind the others. -/
theorem addElement_eq_append {s : Shape} (join : Slot → Slot → Slot) {name : String} (slot : Slot)
    (hn : name ∉ s.names) :
    (s.addElement join name slot).1 = { s with slots := s.slots ++ [(name, slot)] } := by
  unfold addElement
  rw [slot?_eq_none_iff.2 hn]
  simp only [place_eq_append hn]

theorem names_append (s : Shape) (slots : List (String × Slot)) :
    names { s with slots := s.slots ++ slots } = s.names ++ slots.map (·.1) :=
  List.map_append

theorem requiredNames_append (s : Shape) (slots : List (String × Slot)) :
    requiredNames { s with slots := s.slots ++ slots } =
      s.requiredNames ++ (slots.filter fun e => e.2.required).map (·.1) := by
  simp [requiredNames]

end Shape

/-! ### Elements -/

section

variable {key : Element → String} {least : Count}

/-- An element that occurs at most once shows in its name. -/
theorem decides_element (hl : least.toNat ≤ 1) (declaration : Element) :
    Decides (Term.requiredNames key least (.element declaration)) []
      (HasMembers (Particle.Admits key ⟨least, .one, .element declaration⟩) [key declaration]) := by
  have hword : ∀ {w : Word}, Term.Admits key (.element declaration) w →
      w.count (key declaration) = 1 := by
    rintro _ ⟨value, rfl⟩
    rw [count_singleton, if_pos rfl]
  have hthere : ∀ {entries : Table String Json},
      Table.contains entries (key declaration) = true →
      HasMembers (Particle.Admits key ⟨least, .one, .element declaration⟩) [key declaration]
        entries := fun {entries} h => by
    refine ⟨[(key declaration, .null)], (Particle.admits_single_iff hl).2 (.inr ⟨.null, rfl⟩),
      List.forall_mem_singleton.2 ?_⟩
    rw [h, hword ⟨.null, rfl⟩]
    rfl
  rw [Term.requiredNames]
  by_cases hpos : 0 < least.toNat
  · rw [if_pos hpos]
    refine ⟨fun entries ⟨w, hw, hm⟩ => ⟨List.forall_mem_singleton.2 ?_, by simp⟩,
      fun entries hn => .inl ⟨_, List.mem_singleton_self _, ?_⟩⟩
    · rcases (Particle.admits_single_iff hl).1 hw with ⟨rfl, -⟩ | hw
      · exact absurd hpos (by decide)
      · rw [hm _ (List.mem_singleton_self _), hword hw]
        rfl
    · exact Bool.eq_false_iff.2 fun hc => hn (hthere hc)
  · rw [if_neg hpos]
    refine .nil fun entries => ?_
    cases hc : Table.contains entries (key declaration) with
    | true => exact hthere hc
    | false =>
        have hzero : least = .zero := Count.ext_toNat (Nat.eq_zero_of_not_pos hpos)
        exact ⟨[], (Particle.admits_single_iff hl).2 (.inl ⟨hzero, rfl⟩),
          List.forall_mem_singleton.2 (by rw [hc]; rfl)⟩

/-! ### Choices -/

/-- The shape of a branch of a choice in which nothing repeats. -/
def IsSingleBranch (key : Element → String) (p : Particle) (branch : Shape) : Prop :=
  Renders (p.memberNames key .one) (p.requiredNames key) ((p.loosened key).Admits key) {} branch

variable {particles : List Particle} {branches : List Shape} {entries : Table String Json}

theorem flatMap_names_branches (hb : List.Forall₂ (IsSingleBranch key) particles branches) :
    branches.flatMap Shape.names = memberNamesOf key .one particles := by
  induction hb with
  | nil => rfl
  | cons h _ ih => rw [List.flatMap_cons, ih, memberNamesOf, h.names]; rfl

theorem any_isEmpty_branches (hb : List.Forall₂ (IsSingleBranch key) particles branches) :
    branches.any (fun b => b.requiredNames.isEmpty) =
      particles.any fun p => (p.requiredNames key).isEmpty := by
  induction hb with
  | nil => rfl
  | cons h _ ih => rw [List.any_cons, List.any_cons, ih, h.requiredNames]; rfl

/-- Branches without a name in common exclude each other. -/
theorem overlap_branches (hb : List.Forall₂ (IsSingleBranch key) particles branches)
    (hd : (memberNamesOf key .one particles).Nodup) : overlap branches = false := by
  induction hb with
  | nil => rfl
  | cons h hrest ih =>
      rw [memberNamesOf, List.nodup_append'] at hd
      rw [overlap_eq_false, List.pairwise_cons, ← overlap_eq_false]
      refine ⟨fun other ho name hn hother => hd.2.2 (h.names ▸ hn) ?_, ih hd.2.1⟩
      rw [← flatMap_names_branches hrest]
      exact List.mem_flatMap.2 ⟨other, ho, hother⟩

theorem mem_loosenedAll {p : Particle} :
    p ∈ loosenedAll key particles ↔ ∃ q ∈ particles, q.loosened key = p := by
  induction particles with
  | nil => simp [loosenedAll]
  | cons q rest ih => simp [loosenedAll, ih, eq_comm]

/-- The words of a loosened choice. -/
theorem admits_loosened_choice_iff (hl : least.toNat ≤ 1) {w : Word} :
    (Particle.loosened key ⟨least, .one, .group ⟨.choice, particles⟩⟩).Admits key w ↔
      ((least = .zero ∨ ModelGroup.lapses key ⟨.choice, particles⟩ = true) ∧ w = []) ∨
        ∃ p ∈ particles, (p.loosened key).Admits key w := by
  have hword : Term.Admits key (.group ⟨.choice, loosenedAll key particles⟩) w ↔
      ∃ p ∈ particles, (p.loosened key).Admits key w := by
    rw [Term.Admits, ModelGroup.Admits, admitsOne_iff]
    simp only [mem_loosenedAll, exists_exists_and_eq_and]
  rw [Particle.loosened, Term.loosened, ModelGroup.loosened, Term.lapses]
  split
  · next h => rw [Particle.admits_single_iff (Nat.zero_le 1), hword]; simp [h]
  · next h => rw [Particle.admits_single_iff hl, hword]; simp [h]

/-- Whether an object may do without any member of the choice. -/
theorem emptiable_iff (least : Count)
    (hb : List.Forall₂ (IsSingleBranch key) particles branches) (hne : particles ≠ []) :
    emptiable branches (decide (0 < least.toNat)) = true ↔
      least = .zero ∨ ModelGroup.lapses key ⟨.choice, particles⟩ = true := by
  have hzero : least = .zero ↔ ¬ 0 < least.toNat :=
    ⟨fun h => h ▸ Nat.lt_irrefl 0, fun h => Count.ext_toNat (Nat.eq_zero_of_not_pos h)⟩
  rw [emptiable, any_isEmpty_branches hb, ModelGroup.lapses, hzero]
  simp [hne]

/-- The names of a word of a branch are names of the branch. -/
theorem mem_names_of_count (hs : AreSingle particles) {p : Particle} (hp : p ∈ particles) {w : Word}
    (hw : (p.loosened key).Admits key w) {name : String} (hn : 0 < w.count name) :
    name ∈ p.memberNames key .one := by
  by_contra hnot
  rw [← Particle.memberNames_loosened p] at hnot
  have := Particle.count_eq_zero _ (areSingle_iff.1 hs p hp).loosened hw hnot
  omega

/-- An object with members of one branch only has those of its content if it has them at all. -/
theorem hasMembers_of_branch (hs : AreSingle particles) {p : Particle} (hp : p ∈ particles)
    (h : HasMembers ((p.loosened key).Admits key) (p.memberNames key .one) entries)
    (hothers : ∀ name ∈ memberNamesOf key .one particles,
      Table.contains entries name = true → name ∈ p.memberNames key .one) :
    HasMembers ((p.loosened key).Admits key) (memberNamesOf key .one particles) entries := by
  obtain ⟨w, hw, hm⟩ := h
  refine ⟨w, hw, fun name hn => ?_⟩
  by_cases hname : name ∈ p.memberNames key .one
  · exact hm name hname
  · rw [Bool.eq_false_iff.2 fun hc => hname (hothers name hn hc), eq_comm, decide_eq_false_iff_not]
    exact fun hpos => hname (mem_names_of_count hs hp hw hpos)

/-- A branch is chosen by an object with the members of its content. -/
theorem chosen_of_hasMembers (hs : AreSingle particles) {p : Particle} (hp : p ∈ particles)
    {branch : Shape} (hb : IsSingleBranch key p branch) {exclusive : Bool}
    (h : HasMembers ((p.loosened key).Admits key) (memberNamesOf key .one particles) entries)
    (hpresent : Present entries (memberNamesOf key .one particles)) :
    Chosen entries branch (memberNamesOf key .one particles) exclusive := by
  obtain ⟨w, hw, hm⟩ := h
  obtain ⟨added, hadded, hdec⟩ := hb.choices
  have hnames : branch.names = p.memberNames key .one := hb.names
  have hrequired : branch.requiredNames = p.requiredNames key := hb.requiredNames
  have hmem : ∀ name ∈ memberNamesOf key .one particles,
      Table.contains entries name = true → name ∈ branch.names := fun name hn hc => by
    rw [hm name hn, decide_eq_true_iff] at hc
    exact hnames ▸ mem_names_of_count hs hp hw hc
  have hmet := hdec.met entries ⟨w, hw, fun name hn => hm name (mem_memberNamesOf.2 ⟨p, hp, hn⟩)⟩
  obtain ⟨name, hn, hc⟩ := hpresent
  exact ⟨hrequired ▸ hmet.1, ⟨name, hmem name hn hc, hc⟩, fun _ => hmem,
    fun choice hc => hmet.2 choice (by rwa [hadded] at hc)⟩

/-- A branch is refused to an object without the members of its content. -/
theorem unmet_alternative_of_not_hasMembers (hs : AreSingle particles) {p : Particle}
    (hp : p ∈ particles) {branch : Shape} (hb : IsSingleBranch key p branch)
    (h : ¬ HasMembers ((p.loosened key).Admits key) (memberNamesOf key .one particles) entries) :
    Unmet entries (branch.alternative (memberNamesOf key .one particles) true) := by
  obtain ⟨added, hadded, hdec⟩ := hb.choices
  have hnames : branch.names = p.memberNames key .one := hb.names
  have hrequired : branch.requiredNames = p.requiredNames key := hb.requiredNames
  by_cases hothers : ∀ name ∈ memberNamesOf key .one particles,
      Table.contains entries name = true → name ∈ p.memberNames key .one
  · rcases hdec.unmet entries fun hmem => h (hasMembers_of_branch hs hp hmem hothers) with
      ⟨name, hn, hc⟩ | ⟨choice, hc, hu⟩
    · exact unmet_alternative_of_required (hrequired ▸ hn) hc
    · exact unmet_alternative_of_choice (by rwa [hadded]) hu
  · push Not at hothers
    obtain ⟨name, hn, hc, hname⟩ := hothers
    exact unmet_alternative_of_other hn (hnames ▸ hname) hc

/-- A choice without alternatives can be empty. -/
theorem lapses_of_choice?_eq_none (hs : AreSingle particles)
    (hb : List.Forall₂ (IsSingleBranch key) particles branches) {obliged : Bool}
    (hc : choice? branches obliged = none) :
    memberNamesOf key .one particles = [] ∧
      ModelGroup.lapses key ⟨.choice, particles⟩ = true := by
  have hnames : ∀ p ∈ particles, p.memberNames key .one = [] := fun p hp => by
    obtain ⟨branch, hbm, hpb⟩ := Conversion.exists_entry hb hp
    by_contra hne
    have hsome := choice?_isSome obliged (mem_inhabited.2 ⟨hbm, by rwa [hpb.names]⟩)
    rw [hc] at hsome
    exact Bool.false_ne_true hsome
  constructor
  · refine List.eq_nil_iff_forall_not_mem.2 fun name hn => ?_
    obtain ⟨p, hp, hn⟩ := mem_memberNamesOf.1 hn
    exact List.not_mem_nil (hnames p hp ▸ hn)
  · cases particles with
    | nil => rfl
    | cons p rest =>
        have hr : p.requiredNames key = [] := List.eq_nil_iff_forall_not_mem.2 fun name hn =>
          List.not_mem_nil
            (hnames p List.mem_cons_self ▸ Particle.requiredNames_subset p hs.1 name hn)
        simp [ModelGroup.lapses, hr]

/-- A choice lapses if an object without any of its members has those of a branch. -/
theorem lapses_of_not_present {p : Particle} (hp : p ∈ particles) {branch : Shape}
    (hb : IsSingleBranch key p branch)
    (h : HasMembers ((p.loosened key).Admits key) (p.memberNames key .one) entries)
    (hnone : ¬ Present entries (memberNamesOf key .one particles)) :
    ModelGroup.lapses key ⟨.choice, particles⟩ = true := by
  obtain ⟨added, -, hdec⟩ := hb.choices
  have hr : p.requiredNames key = [] := List.eq_nil_iff_forall_not_mem.2 fun name hn => by
    have hname : name ∈ branch.requiredNames := hb.requiredNames ▸ hn
    have hnames := requiredNames_subset hname
    rw [hb.names] at hnames
    exact hnone ⟨name, mem_memberNamesOf.2 ⟨p, hp, hnames⟩, (hdec.met entries h).1 name hn⟩
  have hany : particles.any (fun p => (p.requiredNames key).isEmpty) = true :=
    List.any_eq_true.2 ⟨p, hp, by rw [hr]; rfl⟩
  rw [ModelGroup.lapses, hany, Bool.or_true]

/-- Without any of its members an object has those of a choice that can be empty. -/
theorem hasMembers_of_not_present (hl : least.toNat ≤ 1)
    (he : least = .zero ∨ ModelGroup.lapses key ⟨.choice, particles⟩ = true)
    (hp : ¬ Present entries (memberNamesOf key .one particles)) :
    HasMembers ((Particle.loosened key ⟨least, .one, .group ⟨.choice, particles⟩⟩).Admits key)
      (memberNamesOf key .one particles) entries :=
  ⟨[], (admits_loosened_choice_iff hl).2 (.inl ⟨he, rfl⟩), fun name hn =>
    Bool.eq_false_iff.2 fun hc => hp ⟨name, hn, hc⟩⟩

section

variable (hs : AreSingle particles) (hl : least.toNat ≤ 1)
  (hb : List.Forall₂ (IsSingleBranch key) particles branches) (hne : particles ≠ [])
  {choice : Json} (hc : choice? branches (decide (0 < least.toNat)) = some choice)
include hs hl hb hne hc

/-- The constraint of a choice is met by the members of the loosened choice. -/
theorem met_choice_of_hasMembers (h : HasMembers
      ((Particle.loosened key ⟨least, .one, .group ⟨.choice, particles⟩⟩).Admits key)
      (memberNamesOf key .one particles) entries) : Met entries choice := by
  have hall := flatMap_names_branches hb
  obtain ⟨w, hw, hm⟩ := h
  by_cases hp : Present entries (memberNamesOf key .one particles)
  · rcases (admits_loosened_choice_iff hl).1 hw with ⟨-, rfl⟩ | ⟨p, hmem, hw⟩
    · obtain ⟨name, hn, hc⟩ := hp
      rw [hm name hn] at hc
      exact absurd hc (by simp)
    · obtain ⟨branch, hbm, hpb⟩ := Conversion.exists_entry hb hmem
      refine met_choice_of_chosen hc hbm ?_
      rw [hall]
      exact chosen_of_hasMembers hs hmem hpb ⟨w, hw, hm⟩ hp
  · refine met_choice_of_none hc ((emptiable_iff least hb hne).2 ?_) (hall ▸ hp)
    rcases (admits_loosened_choice_iff hl).1 hw with ⟨h, -⟩ | ⟨p, hmem, hw⟩
    · exact h
    · obtain ⟨branch, -, hpb⟩ := Conversion.exists_entry hb hmem
      exact .inr (lapses_of_not_present hmem hpb
        ⟨w, hw, fun name hn => hm name (mem_memberNamesOf.2 ⟨p, hmem, hn⟩)⟩ hp)

/-- The constraint of a choice is violated by other members. -/
theorem unmet_choice_of_not_hasMembers (hd : (memberNamesOf key .one particles).Nodup)
    (h : ¬ HasMembers
      ((Particle.loosened key ⟨least, .one, .group ⟨.choice, particles⟩⟩).Admits key)
      (memberNamesOf key .one particles) entries) : Unmet entries choice := by
  have hall := flatMap_names_branches hb
  refine unmet_choice_of_alternatives hc (overlap_branches hb hd) (fun hempty => ?_)
    fun branch hbm => ?_
  · rw [hall]
    by_contra hp
    exact h (hasMembers_of_not_present hl ((emptiable_iff least hb hne).1 hempty) hp)
  · obtain ⟨p, hp, hpb⟩ := Conversion.exists_entry hb.flip (mem_inhabited.1 hbm).1
    rw [hall]
    refine unmet_alternative_of_not_hasMembers hs hp hpb fun hmembers => h ?_
    obtain ⟨w, hw, hm⟩ := hmembers
    exact ⟨w, (admits_loosened_choice_iff hl).2 (.inr ⟨p, hp, hw⟩), hm⟩

end

/-- The constraint of a choice decides whether the members are those of the loosened choice. -/
theorem decides_choice (hs : AreSingle particles) (hl : least.toNat ≤ 1)
    (hb : List.Forall₂ (IsSingleBranch key) particles branches)
    (hd : (memberNamesOf key .one particles).Nodup) :
    Decides [] (choice? branches (decide (0 < least.toNat))).toList
      (HasMembers ((Particle.loosened key ⟨least, .one, .group ⟨.choice, particles⟩⟩).Admits key)
        (memberNamesOf key .one particles)) := by
  cases hc : choice? branches (decide (0 < least.toNat)) with
  | none =>
      obtain ⟨hnil, hlapses⟩ := lapses_of_choice?_eq_none hs hb hc
      refine .nil fun entries => hasMembers_of_not_present hl (.inr hlapses) fun hp => ?_
      obtain ⟨name, hn, -⟩ := hp
      exact List.not_mem_nil (hnil ▸ hn)
  | some choice =>
      have hne : particles ≠ [] := by
        rintro rfl
        cases hb
        simp [choice?] at hc
      exact ⟨fun entries hmembers => ⟨by simp, List.forall_mem_singleton.2
          (met_choice_of_hasMembers hs hl hb hne hc hmembers)⟩,
        fun entries hn => .inr ⟨choice, List.mem_singleton_self _,
          unmet_choice_of_not_hasMembers hs hl hb hne hc hd hn⟩⟩

end

end Crosswalk

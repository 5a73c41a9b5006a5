import Crosswalk.Proofs.Linkage.Search

/-!
# Cycles of types and groups

Linking reports cycles of base types and of groups, and reports neither too many nor too few. A type
is passed over if its chain is part of the chain of one that was reported, so not every type that
leads into a cycle is reported; but the bases of every type that is reported never end, and every
cycle is led into by one that is. A group is reported if and only if it leads to a group that
contains itself. All this holds for any batch, however names are resolved: also if some stand for
nothing, and if two declarations have one name.
-/

namespace Crosswalk

namespace Linkage

open Declarations Relation

variable {l : Linkage}

/-- The base types of an entry are reported to have a cycle. -/
def ReportsType (l : Linkage) (entry : QName × Located NamedType) : Prop :=
  .cycle entry.2.file.filename entry.1 ∈ l.typeCycles [] l.declarations.types

/-- A group is reported to have a cycle. -/
def ReportsGroup (l : Linkage) (entry : QName × Located NamedGroup) : Prop :=
  .cycle entry.2.file.filename entry.1 ∈ l.groupCycles

/-- The chain of a type up to one that is in it already, if there is such a type. -/
def typeLoop? (l : Linkage) (entry : QName × Located NamedType) : Option (List QName) :=
  l.baseLoop? (l.declarations.types.length + 1) [entry.1] entry.2

/-- Whether a group leads to one that is on the path already. -/
def groupLoop (l : Linkage) (entry : QName × Located NamedGroup) : Bool :=
  l.groupLoops (l.declarations.groups.length + 1) [entry.1] entry.2.file entry.2.declaration.group

theorem typeCycles_cons (known : List QName) (entry : QName × Located NamedType)
    (rest : List (QName × Located NamedType)) :
    l.typeCycles known (entry :: rest) =
      if entry.1 ∈ known then l.typeCycles known rest
      else match l.typeLoop? entry with
        | some chain =>
          .cycle entry.2.file.filename entry.1 :: l.typeCycles (known ++ chain) rest
        | none => l.typeCycles known rest := rfl

/-- A type is reported only if its chain comes back to a type in it. -/
theorem exists_of_mem_typeCycles (entries : List (QName × Located NamedType)) :
    ∀ {known : List QName} {p : Problem}, p ∈ l.typeCycles known entries →
      ∃ entry ∈ entries, p = .cycle entry.2.file.filename entry.1 ∧
        (l.typeLoop? entry).isSome = true := by
  induction entries with
  | nil => exact fun h => absurd h List.not_mem_nil
  | cons entry rest ih =>
      intro known p h
      have hrest : ∀ {known}, p ∈ l.typeCycles known rest →
          ∃ e ∈ entry :: rest, p = .cycle e.2.file.filename e.1 ∧
            (l.typeLoop? e).isSome = true := fun h => by
        obtain ⟨e, he, hp⟩ := ih h
        exact ⟨e, List.mem_cons_of_mem _ he, hp⟩
      rw [typeCycles_cons] at h
      by_cases hk : entry.1 ∈ known
      · exact hrest (if_pos hk ▸ h)
      · rw [if_neg hk] at h
        cases hloop : l.typeLoop? entry with
        | none => exact hrest (hloop ▸ h)
        | some chain =>
            rw [hloop] at h
            rcases List.mem_cons.1 h with rfl | h
            · exact ⟨entry, List.mem_cons_self, rfl, by rw [hloop]; rfl⟩
            · exact hrest h

/-- A type whose chain comes back is on the chain of one that is reported. -/
theorem exists_reported (entries : List (QName × Located NamedType)) :
    ∀ {known : List QName} {entry : QName × Located NamedType} {chain : List QName},
      entry ∈ entries → l.typeLoop? entry = some chain → entry.1 ∈ chain →
      entry.1 ∈ known ∨ ∃ first ∈ entries,
        .cycle first.2.file.filename first.1 ∈ l.typeCycles known entries ∧
          ∃ passed, l.typeLoop? first = some passed ∧ entry.1 ∈ passed := by
  induction entries with
  | nil => exact fun he => absurd he List.not_mem_nil
  | cons head rest ih =>
      intro known entry chain he hloop hself
      rw [typeCycles_cons]
      have hrest : ∀ known', entry ∈ rest → entry.1 ∈ known' ∨ ∃ first ∈ head :: rest,
          .cycle first.2.file.filename first.1 ∈ l.typeCycles known' rest ∧
            ∃ passed, l.typeLoop? first = some passed ∧ entry.1 ∈ passed := fun _ he =>
        (ih he hloop hself).imp_right fun ⟨first, hf, hp⟩ =>
          ⟨first, List.mem_cons_of_mem _ hf, hp⟩
      by_cases hk : head.1 ∈ known
      · rw [if_pos hk]
        rcases List.mem_cons.1 he with rfl | he
        · exact .inl hk
        · exact hrest known he
      · rw [if_neg hk]
        cases hhead : l.typeLoop? head with
        | none =>
            rcases List.mem_cons.1 he with rfl | he
            · exact nomatch hhead.symm.trans hloop
            · exact hrest known he
        | some passed =>
            dsimp only
            rcases List.mem_cons.1 he with rfl | he
            · obtain rfl := Option.some.inj (hhead.symm.trans hloop)
              exact .inr ⟨entry, List.mem_cons_self, List.mem_cons_self, passed, hhead, hself⟩
            · rcases hrest (known ++ passed) he with hknown | ⟨first, hf, hp, hchain⟩
              · rcases List.mem_append.1 hknown with hknown | hpassed
                · exact .inl hknown
                · exact .inr ⟨head, List.mem_cons_self, List.mem_cons_self, passed, hhead,
                    hpassed⟩
              · exact .inr ⟨first, hf, List.mem_cons_of_mem _ hp, hchain⟩

section

variable (ht : l.IsIndexed .types)
include ht

/-- The search from a type ends. -/
theorem baseSearch_typeLoop? {entry : QName × Located NamedType}
    (he : entry ∈ l.declarations.types) :
    l.BaseSearch [entry.1] entry.2 (l.typeLoop? entry) := by
  refine baseSearch_baseLoop? ht _ (List.nodup_singleton _) ?_ ?_
  · exact List.forall_mem_singleton.2 ⟨entry.2, ht.find?_of_mem he⟩
  · rw [List.length_singleton]
    omega

theorem typeLoop?_leads {entry : QName × Located NamedType} (he : entry ∈ l.declarations.types)
    {loop : List QName} (h : l.typeLoop? entry = some loop) :
    (∀ q ∈ loop, ∃ a, l.declarations.types.find? q = some a ∧
      ReflTransGen l.Derives entry.2 a) ∧ [entry.1] ⊆ loop ∧
      ∃ c, ReflTransGen l.Derives entry.2 c ∧ TransGen l.Derives c c :=
  (baseSearch_typeLoop? ht he).leads ht h
    (List.forall_mem_singleton.2 ⟨entry.2, ht.find?_of_mem he, .refl, .refl⟩) .refl

/-- The chain of a type comes back to a type in it if and only if it never ends. -/
theorem typeLoop?_isSome_iff {entry : QName × Located NamedType}
    (he : entry ∈ l.declarations.types) :
    (l.typeLoop? entry).isSome = true ↔ l.IsEndless entry.2 := by
  constructor
  · intro h
    obtain ⟨loop, hloop⟩ := Option.isSome_iff_exists.1 h
    obtain ⟨-, -, c, hc, hcycle⟩ := typeLoop?_leads ht he hloop
    exact isEndless_of_cycle hc hcycle
  · intro h
    cases hloop : l.typeLoop? entry with
    | some loop => rfl
    | none => exact absurd h ((baseSearch_typeLoop? ht he).not_isEndless hloop)

theorem isEndless_of_reportsType {entry : QName × Located NamedType}
    (he : entry ∈ l.declarations.types) (h : l.ReportsType entry) : l.IsEndless entry.2 := by
  obtain ⟨other, ho, heq, hloop⟩ := exists_of_mem_typeCycles _ h
  have hname : entry.1 = other.1 := (Problem.cycle.inj heq).2
  have hfound := ht.find?_of_mem he
  rw [hname, ht.find?_of_mem ho] at hfound
  rw [← Option.some.inj hfound]
  exact (typeLoop?_isSome_iff ht ho).1 hloop

/-- A type whose base types never end is led to from one that is reported. -/
theorem exists_reportsType {entry : QName × Located NamedType} (he : entry ∈ l.declarations.types)
    (h : l.IsEndless entry.2) : ∃ first ∈ l.declarations.types, l.ReportsType first ∧
      ReflTransGen l.Derives first.2 entry.2 := by
  obtain ⟨loop, hloop⟩ := Option.isSome_iff_exists.1 ((typeLoop?_isSome_iff ht he).2 h)
  have hself := (typeLoop?_leads ht he hloop).2.1 List.mem_cons_self
  rcases exists_reported l.declarations.types he hloop hself with
    hnil | ⟨first, hfirst, hreport, passed, hpassed, hmem⟩
  · exact absurd hnil List.not_mem_nil
  · obtain ⟨a, ha, hlead⟩ := (typeLoop?_leads ht hfirst hpassed).1 _ hmem
    obtain rfl := Option.some.inj (ha.symm.trans (ht.find?_of_mem he))
    exact ⟨first, hfirst, hreport, hlead⟩

/-- Every cycle of base types is led into from a type that is reported. -/
theorem exists_reportsType_of_cycle {t : Located NamedType} (h : TransGen l.Derives t t) :
    ∃ first ∈ l.declarations.types, l.ReportsType first ∧ ReflTransGen l.Derives first.2 t := by
  obtain ⟨u, -, hback⟩ := TransGen.tail'_iff.1 h
  have hmem := Table.mem_of_find? (ht.find?_of_derives hback)
  exact exists_reportsType ht hmem (isEndless_of_cycle .refl h)

end

section

variable (hg : l.IsIndexed .groups)
include hg

/-- The search from a group ends. -/
theorem groupSearch_groupLoop {entry : QName × Located NamedGroup}
    (he : entry ∈ l.declarations.groups) :
    l.GroupSearch [entry.1] entry.2.file entry.2.declaration.group.groupRefs
      (l.groupLoop entry) := by
  refine groupSearch_groupLoops hg _ (List.nodup_singleton _) ?_ ?_
  · exact List.forall_mem_singleton.2 ⟨entry.2, hg.find?_of_mem he⟩
  · rw [List.length_singleton]
    omega

theorem groupLoop_iff {entry : QName × Located NamedGroup} (he : entry ∈ l.declarations.groups) :
    l.groupLoop entry = true ↔ l.LeadsToItself entry.2 := by
  have hsearch := groupSearch_groupLoop hg he
  constructor
  · intro h
    exact hsearch.leadsToItself hg h entry.2 rfl (List.Subset.refl _)
      (List.forall_mem_singleton.2 ⟨entry.2, hg.find?_of_mem he, .refl⟩)
  · intro h
    cases hloop : l.groupLoop entry with
    | true => rfl
    | false =>
        obtain ⟨inner, ⟨name, hname, hinner⟩, hleads⟩ := h.exists_nests
        exact absurd hleads (hsearch.not_leadsToItself hloop name
          (ModelGroup.mem_groupRefs_iff.2 hname) inner hinner)

theorem reportsGroup_iff {entry : QName × Located NamedGroup}
    (he : entry ∈ l.declarations.groups) : l.ReportsGroup entry ↔ l.LeadsToItself entry.2 := by
  rw [← groupLoop_iff hg he, ReportsGroup, groupCycles, List.mem_filterMap]
  constructor
  · rintro ⟨other, ho, heq⟩
    dsimp only at heq
    split at heq
    · next hloop =>
        have hname : other.1 = entry.1 := (Problem.cycle.inj (Option.some.inj heq)).2
        have hfound := hg.find?_of_mem he
        rw [← hname, hg.find?_of_mem ho] at hfound
        rw [groupLoop, ← hname, ← Option.some.inj hfound]
        exact hloop
    · exact nomatch heq
  · exact fun hloop => ⟨entry, he, if_pos hloop⟩

end

/-- No type is reported if and only if no type derives from itself. -/
theorem typeCycles_eq_nil_iff_acyclic (ht : l.IsIndexed .types) :
    l.typeCycles [] l.declarations.types = [] ↔ ∀ t, ¬ TransGen l.Derives t t := by
  constructor
  · intro h t hcycle
    obtain ⟨first, -, hreport, -⟩ := exists_reportsType_of_cycle ht hcycle
    rw [ReportsType, h] at hreport
    exact absurd hreport List.not_mem_nil
  · refine fun h => List.eq_nil_iff_forall_not_mem.2 fun p hp => ?_
    obtain ⟨entry, he, -, hloop⟩ := exists_of_mem_typeCycles _ hp
    obtain ⟨loop, hloop⟩ := Option.isSome_iff_exists.1 hloop
    obtain ⟨-, -, c, -, hcycle⟩ := typeLoop?_leads ht he hloop
    exact h c hcycle

/-- No group is reported if and only if no group contains itself. -/
theorem groupCycles_eq_nil_iff_acyclic (hg : l.IsIndexed .groups) :
    l.groupCycles = [] ↔ ∀ g, ¬ TransGen l.Nests g g := by
  rw [groupCycles, List.filterMap_eq_nil_iff]
  constructor
  · intro h g hcycle
    obtain ⟨inner, -, name, -, hback⟩ := TransGen.tail'_iff.1 hcycle
    have hfound : l.declarations.groups.find? g.declaration.name = some g :=
      hg.find?_of_lookup? hback
    have hmem := Table.mem_of_find? hfound
    have hloop := (groupLoop_iff hg hmem).2 ⟨g, .refl, hcycle⟩
    exact nomatch (if_pos hloop).symm.trans (h _ hmem)
  · intro h entry he
    refine if_neg fun hloop => ?_
    obtain ⟨c, -, hcycle⟩ := (groupLoop_iff hg he).1 hloop
    exact h c hcycle

/-- The searches for cycles end, and what they report is exact: some type is reported if and only if
the base types of some type never end; those of every type that is reported never do; every cycle of
base types is led into from a type that is reported; and a group is reported if and only if it leads
to a group that contains itself. -/
theorem cycles_exact (catalog : Catalog) (resolution : Resolution) :
    let l := (ofCatalog catalog resolution).1
    (∃ others, (ofCatalog catalog resolution).2 =
      others ++ (l.typeCycles [] l.declarations.types ++ l.groupCycles)) ∧
    (∀ entry ∈ l.declarations.types, l.BaseSearch [entry.1] entry.2
      (l.baseLoop? (l.declarations.types.length + 1) [entry.1] entry.2)) ∧
    (∀ entry ∈ l.declarations.groups, l.GroupSearch [entry.1] entry.2.file
      entry.2.declaration.group.groupRefs
      (l.groupLoops (l.declarations.groups.length + 1) [entry.1] entry.2.file
        entry.2.declaration.group)) ∧
    ((∃ entry ∈ l.declarations.types, l.ReportsType entry) ↔
      ∃ entry ∈ l.declarations.types, l.IsEndless entry.2) ∧
    (∀ entry ∈ l.declarations.types, l.ReportsType entry → l.IsEndless entry.2) ∧
    (∀ t, TransGen l.Derives t t → ∃ entry ∈ l.declarations.types, l.ReportsType entry ∧
      ReflTransGen l.Derives entry.2 t) ∧
    (∀ entry ∈ l.declarations.groups, l.ReportsGroup entry ↔
      ∃ c, ReflTransGen l.Nests entry.2 c ∧ TransGen l.Nests c c) := by
  intro l
  have ht : l.IsIndexed .types := isIndexed_ofCatalog catalog resolution .types
  have hg : l.IsIndexed .groups := isIndexed_ofCatalog catalog resolution .groups
  refine ⟨⟨_, rfl⟩, fun entry he => baseSearch_typeLoop? ht he,
    fun entry he => groupSearch_groupLoop hg he, ⟨?_, ?_⟩,
    fun entry he => isEndless_of_reportsType ht he,
    fun t hcycle => exists_reportsType_of_cycle ht hcycle, fun entry he => reportsGroup_iff hg he⟩
  · rintro ⟨entry, he, hreport⟩
    exact ⟨entry, he, isEndless_of_reportsType ht he hreport⟩
  · rintro ⟨entry, he, hendless⟩
    obtain ⟨first, hfirst, hreport, -⟩ := exists_reportsType ht he hendless
    exact ⟨first, hfirst, hreport⟩

end Linkage

end Crosswalk

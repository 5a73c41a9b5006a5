import Crosswalk.Proofs.Counterpart.Simple

/-!
# The ends of chains of simple content

A type with simple content may derive from another one with simple content, and so on, to a simple
type. The types on such a chain are all different, for it would not end otherwise. So the end is
reached in as many steps as there are types, or never; and it is the same for twins, however many
types the two batches have.
-/

namespace Crosswalk

namespace Conversion

variable {context context' : Context} {root : File × QName}

/-- A chain of simple content is at its end, or the base of a type is the next on it. -/
theorem textRoot?_cases (context : Context) (f : File) (name : QName) :
    (∃ end?, ∀ k, textRoot? context (k + 1) f name = end?) ∨
    ∃ a type base derivation facets, context.linkage.type? f name = some a ∧
      a.declaration.definition = .complex type ∧ type.content = .simple base derivation facets ∧
      ∀ k, textRoot? context (k + 1) f name = textRoot? context k a.file base := by
  simp only [textRoot?]
  cases name.isBuiltin with
  | true => exact .inl ⟨_, fun _ => rfl⟩
  | false =>
      cases hl : context.linkage.type? f name with
      | none => exact .inl ⟨_, fun _ => rfl⟩
      | some a =>
          rcases htype : a.declaration.definition with _ | ⟨content, attributes, any, mixed⟩
          · exact .inl ⟨some (a.file, a.declaration.name), fun _ => by simp only [htype]; rfl⟩
          · cases content with
            | simple base derivation facets =>
                exact .inr ⟨a, ⟨.simple base derivation facets, attributes, any, mixed⟩, base,
                  derivation, facets, rfl, htype, rfl, fun _ => by simp only [htype]; rfl⟩
            | _ => exact .inl ⟨none, fun _ => by simp only [htype]; rfl⟩

/-- With more steps the end of a chain is still reached. -/
theorem textRoot?_mono : ∀ {k k' : Nat} {f : File} {name : QName}, k ≤ k' →
    textRoot? context k f name = some root → textRoot? context k' f name = some root
  | 0, _, _, _, _, hroot => nomatch hroot
  | k + 1, 0, _, _, hle, _ => absurd hle (by omega)
  | k + 1, k' + 1, f, name, hle, hroot => by
      rcases textRoot?_cases context f name with ⟨_, hend⟩ | ⟨a, _, base, _, _, -, -, -, hnext⟩
      · rwa [hend] at hroot ⊢
      · rw [hnext] at hroot ⊢
        exact textRoot?_mono (by omega) hroot

/-- A type with simple content from whose base the end of its chain is reached in so many steps,
and not in fewer. -/
def IsStepsAway (context : Context) (root : File × QName) (q : QName) (k : Nat) : Prop :=
  ∃ a type base derivation facets, context.linkage.declarations.types.find? q = some a ∧
    a.declaration.definition = .complex type ∧ type.content = .simple base derivation facets ∧
    textRoot? context k a.file base = none ∧ textRoot? context (k + 1) a.file base = some root

theorem IsStepsAway.unique {q : QName} {k k' : Nat} (h : IsStepsAway context root q k)
    (h' : IsStepsAway context root q k') : k = k' := by
  obtain ⟨a, type, base, derivation, facets, ha, ht, hc, hnone, hsome⟩ := h
  obtain ⟨a', type', base', derivation', facets', ha', ht', hc', hnone', hsome'⟩ := h'
  obtain rfl := Option.some.inj (ha.symm.trans ha')
  obtain rfl := TypeDefinition.complex.inj (ht.symm.trans ht')
  obtain ⟨rfl, -, -⟩ := Content.simple.inj (hc.symm.trans hc')
  rcases Nat.lt_trichotomy k k' with hlt | heq | hlt
  · rw [textRoot?_mono hlt hsome] at hnone'
    exact nomatch hnone'
  · exact heq
  · rw [textRoot?_mono hlt hsome'] at hnone
    exact nomatch hnone

/-- A chain of simple content has a type for each step but the last one, and these are all
different. -/
theorem exists_chain : ∀ (steps : Nat) {f : File} {name : QName},
    textRoot? context steps f name = none → textRoot? context (steps + 1) f name = some root →
    ∃ chain : List QName, chain.Nodup ∧ chain.length = steps ∧
      ∀ q ∈ chain, ∃ k < steps, IsStepsAway context root q k
  | 0, _, _, _, _ => ⟨[], .nil, rfl, fun _ hq => absurd hq List.not_mem_nil⟩
  | steps + 1, f, name, hnone, hsome => by
      rcases textRoot?_cases context f name with
        ⟨_, hend⟩ | ⟨a, type, base, derivation, facets, hl, htype, hcontent, hnext⟩
      · rw [hend] at hnone hsome
        exact nomatch hnone.symm.trans hsome
      · rw [hnext] at hnone hsome
        obtain ⟨chain, hnodup, hlength, hsteps⟩ := exists_chain steps hnone hsome
        obtain ⟨r, -, ha⟩ := Option.bind_eq_some_iff.1 hl
        have hr : IsStepsAway context root r.name steps :=
          ⟨a, type, base, derivation, facets, ha, htype, hcontent, hnone, hsome⟩
        refine ⟨r.name :: chain, List.nodup_cons.2 ⟨fun hm => ?_, hnodup⟩,
          congrArg Nat.succ hlength, List.forall_mem_cons.2
            ⟨⟨steps, Nat.lt_succ_self _, hr⟩, fun q hq => ?_⟩⟩
        · obtain ⟨k, hk, hstep⟩ := hsteps _ hm
          exact absurd (hr.unique hstep) (Nat.ne_of_gt hk)
        · obtain ⟨k, hk, hstep⟩ := hsteps q hq
          exact ⟨k, Nat.lt_succ_of_lt hk, hstep⟩

/-- The end of a chain is reached in as many steps as a chain can have, or never. -/
theorem textRoot?_chainLength {k : Nat} (hk : chainLength context ≤ k) (f : File) (name : QName) :
    textRoot? context k f name = textRoot? context (chainLength context) f name := by
  induction hk with
  | refl => rfl
  | @step k hk ih =>
      rw [← ih]
      cases hnone : textRoot? context k f name with
      | some root => exact textRoot?_mono (Nat.le_succ k) hnone
      | none =>
          refine Option.eq_none_iff_forall_ne_some.2 fun root hsome => ?_
          obtain ⟨chain, hnodup, hlength, hsteps⟩ := exists_chain k hnone hsome
          have hsub : chain ⊆ Table.keys context.linkage.declarations.types := fun q hq => by
            obtain ⟨-, -, a, -, -, -, -, ha, -⟩ := hsteps q hq
            exact Table.contains_iff.1 (by rw [Table.contains, ha]; rfl)
          have hle := (List.subperm_of_subset hnodup hsub).length_le
          rw [Table.keys, List.length_map] at hle
          have hk : chainLength context ≤ k := hk
          rw [chainLength] at hk
          omega

/-! ### Twins -/

/-- The ends of two chains: a name that stands for the same, seen from twins. -/
structure RootsAlike (context context' : Context) (x y : File × QName) : Prop where
  twins : context.Twins context' x.1 y.1
  name : x.2 = y.2
  sees : context.linkage.resolve? .type x.1 x.2 = context'.linkage.resolve? .type y.1 x.2

theorem textRoot?_alike (h : context.Corresponds context') : ∀ (k : Nat) {f g : File}
    {name : QName}, context.Twins context' f g →
    context.linkage.resolve? .type f name = context'.linkage.resolve? .type g name →
    Option.Rel (RootsAlike context context') (textRoot? context k f name)
      (textRoot? context' k g name)
  | 0, _, _, _, _, _ => .none
  | k + 1, f, g, name, hf, hr => by
      rw [textRoot?, textRoot?]
      split
      · exact .some ⟨hf, rfl, hr⟩
      · next hb =>
          have hb := Bool.eq_false_iff.2 hb
          have hrel := h.linkage.type? (.singleton hr "") (List.mem_singleton_self _) hb
          generalize ha : context.linkage.type? f name = found,
            context'.linkage.type? g name = found' at hrel
          cases hrel with
          | none => exact .none
          | @some a b hab =>
              have ha : context.linkage.lookup? .types f name = some a := ha
              obtain ⟨-, hd, -⟩ := h.linkage.linked.found ha
              have hs := h.linkage.sees_type hab hd
              dsimp only
              rw [← hab.declaration]
              rcases hdef : a.declaration.definition with _ | ⟨content, _, _, _⟩
              · exact .some ⟨hab.twins, rfl, h.linkage.resolve?_declared
                  (h.linkage.linked.contains (.inl hb) ha)⟩
              · cases content with
                | simple base derivation facets =>
                    rw [hdef] at hs
                    exact textRoot?_alike h k hab.twins
                      (hs ⟨.type, base, _⟩ (List.mem_append_left _ List.mem_cons_self))
                | _ => exact .none

/-- From a type that was found, the ends of chains of simple content are the same for twins. -/
theorem textRoot?_found (h : context.Corresponds context') {f : File} {name : QName}
    (hb : name.isBuiltin = false) {a b : Located NamedType}
    (ha : context.linkage.type? f name = some a)
    (hab : context.linkage.Stands context'.linkage a b) :
    Option.Rel (RootsAlike context context')
      (textRoot? context (chainLength context) a.file a.declaration.name)
      (textRoot? context' (chainLength context') b.file a.declaration.name) := by
  have ha : context.linkage.lookup? .types f name = some a := ha
  have hr := h.linkage.resolve?_declared (f := a.file) (g := b.file)
    (h.linkage.linked.contains (.inl hb) ha)
  rw [← textRoot?_chainLength (Nat.le_max_left _ (chainLength context')),
    ← textRoot?_chainLength (Nat.le_max_right (chainLength context) _)]
  exact textRoot?_alike h _ hab.twins hr

end Conversion

end Crosswalk

import Crosswalk.Proofs.Conversion.Agree

/-!
# Two conversions that result in something

What two conversions result in, wherever each of them starts, is compared only if both result in
something. Most of what tells the two runs apart is then of no account: the documents that they are
for, the diagnostics, and the declarations that they are inside of.
-/

namespace Crosswalk

/-- Simple types in which facets have the same effect. -/
inductive SimpleShape.Resembles : SimpleShape → SimpleShape → Prop
  | atomic (datatype : Datatype) (facets : FacetSet) :
    Resembles (.atomic datatype facets) (.atomic datatype facets)
  | list (item item' : Json) (facets : FacetSet) :
    Resembles (.list item facets) (.list item' facets)
  | union (members members' : List Json) : Resembles (.union members) (.union members')

namespace SimpleShape

variable {a b : SimpleShape}

theorem Resembles.restrict (h : a.Resembles b) (facets : List Facet) :
    (a.restrict facets).1.Resembles (b.restrict facets).1 := by
  cases h with
  | atomic datatype inherited => exact .atomic datatype _
  | list item item' inherited => exact .list item item' _
  | union members members' => exact .union members members'

theorem Resembles.issues (h : a.Resembles b) (facets : List Facet) :
    (a.restrict facets).2 = (b.restrict facets).2 := by
  cases h with
  | atomic datatype inherited => rfl
  | list item item' inherited => rfl
  | union members members' => rfl

end SimpleShape

namespace Conversion

variable {α β γ δ : Type}

/-- If both conversions result in something, the two results are related. -/
def Both (c : Conversion α) (d : Conversion β) (R : α → β → Prop) : Prop :=
  ∀ s t a s' t' b, run c s = (.ok a, t) → run d s' = (.ok b, t') → R a b

namespace Both

variable {c : Conversion α} {d : Conversion β} {R : α → β → Prop} {S : γ → δ → Prop}

theorem pure {a : α} {b : β} (h : R a b) :
    Both (Pure.pure a : Conversion α) (Pure.pure b : Conversion β) R := by
  intro s t a' s' t' b' hc hd
  rw [← run_pure_ok hc, ← run_pure_ok hd]
  exact h

theorem throw {p : Problem} : Both (MonadExcept.throw p : Conversion α) d R :=
  fun _ _ _ _ _ _ hc => nomatch (Prod.ext_iff.1 hc).1

theorem throw_right {p : Problem} : Both c (MonadExcept.throw p : Conversion β) R :=
  fun _ _ _ _ _ _ _ hd => nomatch (Prod.ext_iff.1 hd).1

theorem bind {f : α → Conversion γ} {g : β → Conversion δ} (h : Both c d R)
    (hf : ∀ a b, R a b → Both (f a) (g b) S) : Both (c >>= f) (d >>= g) S := by
  intro s t a s' t' b hc hd
  obtain ⟨x, u, hx, ha⟩ := run_bind_ok hc
  obtain ⟨y, u', hy, hb⟩ := run_bind_ok hd
  exact hf x y (h s u x s' u' y hx hy) u t a u' t' b ha hb

/-- What came before is of no account. -/
theorem after {f : α → Conversion γ} {g : β → Conversion δ} (hf : ∀ a b, Both (f a) (g b) S) :
    Both (c >>= f) (d >>= g) S :=
  bind (R := fun _ _ => True) (fun _ _ _ _ _ _ _ _ => trivial) fun a b _ => hf a b

theorem after_left {f : α → Conversion γ} {d : Conversion δ} (hf : ∀ a, Both (f a) d S) :
    Both (c >>= f) d S := by
  intro s t a s' t' b hc hd
  obtain ⟨x, u, -, ha⟩ := run_bind_ok hc
  exact hf x u t a s' t' b ha hd

theorem after_right {c : Conversion γ} {g : β → Conversion δ} (hg : ∀ b, Both c (g b) S) :
    Both c (d >>= g) S := by
  intro s t a s' t' b hc hd
  obtain ⟨y, u, -, hb⟩ := run_bind_ok hd
  exact hg y s t a u t' b hc hb

theorem mono {R' : α → β → Prop} (h : Both c d R) (hR : ∀ a b, R a b → R' a b) : Both c d R' :=
  fun s t a s' t' b hc hd => hR a b (h s t a s' t' b hc hd)

/-- What is known about each result on its own. -/
theorem of_yields {P : α → Prop} {Q : β → Prop} (hc : Yields c P) (hd : Yields d Q)
    (h : ∀ a b, P a → Q b → R a b) : Both c d R :=
  fun s t a s' t' b ha hb => h a b (hc s t a ha) (hd s' t' b hb)

theorem of_does {a : α} {b : β} (hc : Does c a) (hd : Does d b) (h : R a b) : Both c d R :=
  of_yields hc.yields hd.yields fun _ _ ha hb => ha.symm ▸ hb.symm ▸ h

theorem visiting {kind kind' : Expandable} {scope scope' : File} {name name' : QName}
    (h : Both c d R) :
    Both (visiting kind scope name c) (visiting kind' scope' name' d) R := by
  intro s t a s' t' b hc hd
  obtain ⟨u, hu⟩ := run_visiting_ok hc
  obtain ⟨u', hu'⟩ := run_visiting_ok hd
  exact h _ u a _ u' b hu hu'

/-- The same is found. -/
theorem found {scope scope' : File} {referencing referencing' : String} {name name' : QName}
    {result : Option α} : Both (found scope referencing name result)
      (found scope' referencing' name' result) fun a b => a = b ∧ result = some a := by
  intro s t a s' t' b hc hd
  have ha := run_found_ok hc
  exact ⟨Option.some.inj (ha.symm.trans (run_found_ok hd)), ha⟩

theorem ite {p : Prop} [Decidable p] {c' : Conversion α} {d' : Conversion β} (h : p → Both c d R)
    (h' : ¬ p → Both c' d' R) : Both (if p then c else c') (if p then d else d') R := by
  split
  · next hp => exact h hp
  · next hp => exact h' hp

end Both

/-! ### Simple types -/

variable {context context' : Context}

theorem both_builtinShape (scope scope' : File) (typeName typeName' : String) (name : QName) :
    Both (builtinShape scope typeName name) (builtinShape scope' typeName' name)
      SimpleShape.Resembles :=
  .bind .found fun _ _ h => .pure (h.1 ▸ .atomic _ _)

theorem both_namedBase (hlinkage : context.linkage = context'.linkage)
    {expand expand' : SimpleExpansion}
    (he : ∀ located type, Both (expand located type) (expand' located type) SimpleShape.Resembles)
    (scope : File) (typeName typeName' : String) (name : QName) :
    Both (namedBase context expand scope typeName name)
      (namedBase context' expand' scope typeName' name) SimpleShape.Resembles := by
  unfold namedBase
  rw [hlinkage]
  refine .ite (fun _ => both_builtinShape _ _ _ _ _) fun _ => .bind .found ?_
  rintro located _ ⟨rfl, -⟩
  split
  · exact .visiting (he located _)
  · exact .after fun _ _ => both_builtinShape _ _ _ _ _

mutual

theorem both_shapeWith (hlinkage : context.linkage = context'.linkage)
    {expand expand' : SimpleExpansion}
    (he : ∀ located type, Both (expand located type) (expand' located type) SimpleShape.Resembles)
    (scope : File) (typeName typeName' : String) (report report' : Bool) : ∀ type : SimpleType,
      Both (shapeWith context expand scope typeName report type)
        (shapeWith context' expand' scope typeName' report' type) SimpleShape.Resembles
  | .restriction base facets => by
      unfold shapeWith
      refine .bind (both_baseShape hlinkage he scope typeName typeName' report report' base)
        fun a b hab => ?_
      have restricted : Both (Pure.pure (a.restrict facets).1 : Conversion SimpleShape)
          (Pure.pure (b.restrict facets).1) SimpleShape.Resembles := .pure (hab.restrict facets)
      cases report with
      | true =>
          cases report' with
          | true => exact .after fun _ _ => restricted
          | false => exact .after_left fun _ => restricted
      | false =>
          cases report' with
          | true => exact .after_right fun _ => restricted
          | false => exact restricted
  | .list item => by
      unfold shapeWith
      exact .after fun _ _ => .pure (.list _ _ _)
  | .union members => by
      unfold shapeWith
      exact .after fun _ _ => .pure (.union _ _)

/-- The base of a restriction has the same effect wherever it is flattened. -/
theorem both_baseShape (hlinkage : context.linkage = context'.linkage)
    {expand expand' : SimpleExpansion}
    (he : ∀ located type, Both (expand located type) (expand' located type) SimpleShape.Resembles)
    (scope : File) (typeName typeName' : String) (report report' : Bool) : ∀ base : SimpleBase,
      Both (baseShape context expand scope typeName report base)
        (baseShape context' expand' scope typeName' report' base) SimpleShape.Resembles
  | .inline type => by
      unfold baseShape
      exact both_shapeWith hlinkage he scope typeName typeName' report report' type
  | .named name => by
      unfold baseShape
      exact both_namedBase hlinkage he scope typeName typeName' name

end

theorem both_expandSimple (hlinkage : context.linkage = context'.linkage) :
    ∀ (n n' : Nat) (located : Located NamedType) (type : SimpleType),
      Both (expandSimple context n located type) (expandSimple context' n' located type)
        SimpleShape.Resembles
  | 0, _, _, _ => .throw
  | _ + 1, 0, _, _ => .throw_right
  | n + 1, n' + 1, _, type =>
    both_shapeWith hlinkage (both_expandSimple hlinkage n n') _ _ _ _ _ type

end Conversion

end Crosswalk

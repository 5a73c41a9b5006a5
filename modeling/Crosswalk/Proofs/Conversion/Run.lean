import Crosswalk.Conversion.File
import Mathlib.Data.List.Forall2

/-!
# Runs of conversions

`run c s` is what the conversion `c` does from the state `s`. There is one equation for each of the
ways in which conversions are put together, and a first reading of a run: `Yields c P` says that
whatever `c` results in satisfies `P`. It is kept apart from what a conversion does to the state,
for most facts about schemas and shapes do not depend on it.
-/

namespace Crosswalk

namespace Conversion

variable {α β : Type}

/-- The result of a conversion from a state, and the state behind it. -/
def run (c : Conversion α) (s : ConversionState) : Except Problem α × ConversionState := c s

@[simp] theorem run_pure (a : α) (s : ConversionState) :
    run (pure a) s = (.ok a, s) := rfl

@[simp] theorem run_throw (p : Problem) (s : ConversionState) :
    run (throw p : Conversion α) s = (.error p, s) := rfl

theorem run_bind (c : Conversion α) (f : α → Conversion β) (s : ConversionState) :
    run (c >>= f) s = match run c s with
      | (.ok a, t) => run (f a) t
      | (.error p, t) => (.error p, t) := by
  change (match run c s with | (r, t) => ExceptT.bindCont f r t) = _
  rcases run c s with ⟨r, t⟩
  cases r <;> rfl

theorem run_tryCatch (c : Conversion α) (f : Problem → Conversion α) (s : ConversionState) :
    run (tryCatch c f) s = match run c s with
      | (.ok a, t) => (.ok a, t)
      | (.error p, t) => run (f p) t := by
  simp only [run, tryCatch, tryCatchThe, MonadExceptOf.tryCatch, ExceptT.tryCatch, ExceptT.mk,
    bind, StateT.bind]
  rcases c s with ⟨r, t⟩
  cases r <;> rfl

theorem run_record (p : Problem) (s : ConversionState) :
    run (record p) s = (.ok (), if p ∈ s.diagnostics then s
      else { s with diagnostics := s.diagnostics ++ [p] }) := rfl

/-- The state in which a declaration is expanded. -/
def entering (kind : Expandable) (name : QName) (s : ConversionState) : ConversionState :=
  { s with visited := kind.set s.visited (name :: kind.of s.visited) }

/-- The state in which the expansion of a declaration is left. -/
def leaving (kind : Expandable) (name : QName) (s : ConversionState) : ConversionState :=
  { s with visited := kind.set s.visited ((kind.of s.visited).erase name) }

theorem run_visiting (kind : Expandable) (scope : File) (name : QName) (c : Conversion α)
    (s : ConversionState) :
    run (visiting kind scope name c) s =
      if name ∈ kind.of s.visited then (.error (.cycle scope.filename name), s)
      else ((run c (entering kind name s)).1,
        leaving kind name (run c (entering kind name s)).2) := rfl

/-- A sequence that results in something does so by both of its parts. -/
theorem run_bind_ok {c : Conversion α} {f : α → Conversion β} {s t : ConversionState} {b : β}
    (h : run (c >>= f) s = (.ok b, t)) :
    ∃ a u, run c s = (.ok a, u) ∧ run (f a) u = (.ok b, t) := by
  rw [run_bind] at h
  rcases hc : run c s with ⟨r, u⟩
  rw [hc] at h
  cases r with
  | ok a => exact ⟨a, u, rfl, h⟩
  | error p => simp at h

theorem run_pure_ok {a b : α} {s t : ConversionState}
    (h : run (pure a) s = (.ok b, t)) : a = b := by
  simp only [run_pure, Prod.mk.injEq, Except.ok.injEq] at h
  exact h.1

/-- What `visiting` results in, the conversion inside results in. -/
theorem run_visiting_ok {kind : Expandable} {scope : File} {name : QName} {c : Conversion α}
    {s t : ConversionState} {a : α} (h : run (visiting kind scope name c) s = (.ok a, t)) :
    ∃ u, run c (entering kind name s) = (.ok a, u) := by
  rw [run_visiting] at h
  split at h
  · simp at h
  · exact ⟨(run c (entering kind name s)).2, Prod.ext (Prod.ext_iff.1 h).1 rfl⟩

theorem run_found_ok {scope : File} {referencing : String} {name : QName} {result : Option α}
    {s t : ConversionState} {a : α}
    (h : run (found scope referencing name result) s = (.ok a, t)) : result = some a := by
  unfold found at h
  split at h
  · rw [run_pure_ok h]
  · simp at h

/-! ### What a conversion results in -/

/-- Whatever the conversion results in satisfies a property. -/
def Yields (c : Conversion α) (P : α → Prop) : Prop :=
  ∀ s t a, run c s = (.ok a, t) → P a

namespace Yields

variable {c : Conversion α} {P : α → Prop} {Q : β → Prop}

theorem pure {a : α} (h : P a) : Yields (Pure.pure a : Conversion α) P := by
  intro s t b hb
  exact run_pure_ok hb ▸ h

theorem throw {p : Problem} : Yields (MonadExcept.throw p : Conversion α) P := by
  intro s t a h
  simp at h

theorem bind {f : α → Conversion β} (hc : Yields c P) (hf : ∀ a, P a → Yields (f a) Q) :
    Yields (c >>= f) Q := by
  intro s t b h
  obtain ⟨a, u, ha, hb⟩ := run_bind_ok h
  exact hf a (hc s u a ha) u t b hb

/-- A step of which nothing has to be known. -/
theorem bind_any {f : α → Conversion β} (hf : ∀ a, Yields (f a) Q) : Yields (c >>= f) Q := by
  intro s t b h
  obtain ⟨a, u, _, hb⟩ := run_bind_ok h
  exact hf a u t b hb

theorem visiting {kind : Expandable} {scope : File} {name : QName} (hc : Yields c P) :
    Yields (Conversion.visiting kind scope name c) P := by
  intro s t a h
  obtain ⟨u, h'⟩ := run_visiting_ok h
  exact hc _ u a h'

theorem found {scope : File} {referencing : String} {name : QName} {result : Option α}
    (h : ∀ a, result = some a → P a) :
    Yields (Conversion.found scope referencing name result) P :=
  fun _ _ a ha => h a (run_found_ok ha)

theorem tryCatch {f : Problem → Conversion α} (hc : Yields c P) (hf : ∀ p, Yields (f p) P) :
    Yields (MonadExcept.tryCatch c f) P := by
  intro s t a h
  rw [run_tryCatch] at h
  rcases hr : run c s with ⟨r, u⟩
  rw [hr] at h
  cases r with
  | ok b =>
      have hab : b = a := by simpa using (Prod.ext_iff.1 h).1
      exact hab ▸ hc s u b hr
  | error p => exact hf p u t a h

theorem ite {d : Conversion α} {p : Prop} [Decidable p] (hc : Yields c P) (hd : Yields d P) :
    Yields (if p then c else d) P := by
  split
  · exact hc
  · exact hd

theorem mono {P' : α → Prop} (hc : Yields c P) (h : ∀ a, P a → P' a) : Yields c P' :=
  fun s t a ha => h a (hc s t a ha)

theorem and {P' : α → Prop} (hc : Yields c P) (hc' : Yields c P') :
    Yields c fun a => P a ∧ P' a :=
  fun s t a ha => ⟨hc s t a ha, hc' s t a ha⟩

theorem trivial : Yields c fun _ => True := fun _ _ _ _ => True.intro

end Yields

/-! ### Lists of results -/

/-- Of two lists that agree, each member of one has its counterpart in the other. -/
theorem exists_entry {α β : Type} {R : α → β → Prop} {as : List α} {bs : List β}
    (h : List.Forall₂ R as bs) {a : α} (ha : a ∈ as) : ∃ b ∈ bs, R a b := by
  induction h with
  | nil => exact absurd ha List.not_mem_nil
  | cons hab _ ih =>
      rcases List.mem_cons.1 ha with rfl | ha
      · exact ⟨_, List.mem_cons_self, hab⟩
      · obtain ⟨b, hb, hr⟩ := ih ha
        exact ⟨b, List.mem_cons_of_mem _ hb, hr⟩

/-- Lists that agree are mapped to the same if each member is mapped to what its counterpart is. -/
theorem map_eq_of_forall₂ {α β γ : Type} {R : α → β → Prop} {f : α → γ} {g : β → γ} {as : List α}
    {bs : List β} (h : List.Forall₂ R as bs)
    (hfg : ∀ a ∈ as, ∀ b ∈ bs, R a b → f a = g b) : as.map f = bs.map g := by
  induction h with
  | nil => rfl
  | cons hab _ ih =>
      rw [List.map_cons, List.map_cons, hfg _ List.mem_cons_self _ List.mem_cons_self hab,
        ih fun a ha b hb => hfg a (List.mem_cons_of_mem _ ha) b (List.mem_cons_of_mem _ hb)]

end Conversion

end Crosswalk

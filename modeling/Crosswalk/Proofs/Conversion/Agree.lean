import Crosswalk.Proofs.Conversion.Frame

/-!
# Conversions that agree

The same declaration may be converted for two documents, or with its model groups referred to and
with all of them expanded. `Agree start sure c d R` compares two such conversions: when `c` results
in something, so does `d`, in something related by `R`. That `d` results in anything is either known
or follows from what the two are inside of, if that is `sure`: the simple types are always the same,
but a group may be converted on its own on one side and in the middle of a type on the other.
-/

namespace Crosswalk

namespace Conversion

variable {α β γ δ : Type}

/-- The conversion results in this, and is inside of the same declarations afterwards. -/
def Does (c : Conversion α) (a : α) : Prop :=
  ∀ s, ∃ s', run c s = (.ok a, s') ∧ s'.visited = s.visited

theorem does_pure (a : α) : Does (pure a) a := fun s => ⟨s, rfl, rfl⟩

theorem does_record (p : Problem) : Does (record p) () := by
  intro s
  refine ⟨_, run_record p s, ?_⟩
  split <;> rfl

theorem Does.bind {c : Conversion α} {f : α → Conversion β} {a : α} {b : β} (hc : Does c a)
    (hf : Does (f a) b) : Does (c >>= f) b := by
  intro s
  obtain ⟨u, hu, hv⟩ := hc s
  obtain ⟨t, ht, hw⟩ := hf u
  refine ⟨t, ?_, hw.trans hv⟩
  rw [run_bind, hu]
  exact ht

theorem Does.yields {c : Conversion α} {a : α} (h : Does c a) : Yields c (· = a) := by
  intro s t b hb
  obtain ⟨s', hs', -⟩ := h s
  exact Except.ok.inj (Prod.mk.inj (hb.symm.trans hs')).1

theorem does_diagnose (context : Context) (scope : File) (location construct : String) :
    Does (diagnose context scope location construct) () := by
  unfold diagnose
  split
  · exact does_record _
  · exact does_pure ()

/-! ### Two runs -/

/-- Both are inside of the same simple types. -/
def AlikeSimple (v w : Visited) : Prop := v.simple = w.simple

/-- The second is inside of simple types that the first is inside of. -/
def FewerSimple (v w : Visited) : Prop := w.simple ⊆ v.simple

/-- Neither is inside of a simple type. -/
def Outside (v w : Visited) : Prop := v.simple = [] ∧ w.simple = []

theorem Outside.alikeSimple {v w : Visited} (h : Outside v w) : AlikeSimple v w :=
  h.1.trans h.2.symm

/-- From states that are related by `start`, whatever one conversion results in, the other one
results in something related to it, if that is `sure` or known. -/
def Agree (start sure : Visited → Visited → Prop) (c : Conversion α) (d : Conversion β)
    (R : α → β → Prop) : Prop :=
  ∀ s t a s', start s.visited t.visited → run c s = (.ok a, s') →
    (sure s.visited t.visited ∨ ∃ b t', run d t = (.ok b, t')) →
    ∃ b t', run d t = (.ok b, t') ∧ s'.visited = s.visited ∧ t'.visited = t.visited ∧ R a b

/-- The declarations that a conversion is inside of once it has entered another one. -/
def Expandable.entered (kind : Expandable) (name : QName) (v : Visited) : Visited :=
  kind.set v (name :: kind.of v)

/-- What two conversions are inside of stays related when both enter a declaration of this kind. The
second one can enter whatever the first one can. -/
structure Enters (start sure : Visited → Visited → Prop) (kind : Expandable) : Prop where
  starts : ∀ (name : QName) (v w : Visited), start v w →
    start (kind.entered name v) (kind.entered name w)
  stays : ∀ (name : QName) (v w : Visited), start v w → sure v w →
    kind.of w ⊆ kind.of v ∧ sure (kind.entered name v) (kind.entered name w)

theorem enters_simple : Enters AlikeSimple (fun _ _ => True) .simple where
  starts name _ _ h := congrArg (name :: ·) h
  stays _ _ _ h _ := ⟨fun q hm => (congrArg (q ∈ ·) h).mpr hm, trivial⟩

theorem enters_fewer : Enters FewerSimple (fun _ _ => True) .simple where
  starts name _ _ h := List.cons_subset_cons name h
  stays _ _ _ h _ := ⟨h, trivial⟩

/-- Being inside of the same declarations is kept. -/
theorem enters_eq (p : Prop) {kind : Expandable} (hk : kind ≠ .simple) :
    Enters Outside (fun v w => p ∧ v = w) kind where
  starts name v w h := by
    cases kind with
    | simple => exact absurd rfl hk
    | complex => exact h
    | group => exact h
    | attributeGroup => exact h
  stays name v w _ h := ⟨fun _ hm => h.2 ▸ hm, h.1, by rw [h.2]⟩

namespace Agree

variable {start sure : Visited → Visited → Prop} {c : Conversion α} {d : Conversion β}
  {R : α → β → Prop}

theorem mono {R' : α → β → Prop} (h : Agree start sure c d R) (hR : ∀ a b, R a b → R' a b) :
    Agree start sure c d R' := by
  intro s t a s' hv hc hd
  obtain ⟨b, t', hb, hs, ht, hr⟩ := h s t a s' hv hc hd
  exact ⟨b, t', hb, hs, ht, hR a b hr⟩

/-- What always results in something does so here. -/
theorem of_true (h : Agree start (fun _ _ => True) c d R) : Agree start sure c d R :=
  fun s t a s' hv hc _ => h s t a s' hv hc (.inl trivial)

theorem outside (h : Agree AlikeSimple sure c d R) : Agree Outside sure c d R :=
  fun s t a s' hv => h s t a s' hv.alikeSimple

theorem of_does {a : α} {b : β} (hc : Does c a) (hd : Does d b) (h : R a b) :
    Agree start sure c d R := by
  intro s t a' s' _ ha _
  obtain ⟨u, hu, hus⟩ := hc s
  obtain ⟨v, hv, hvt⟩ := hd t
  rw [hu, Prod.mk.injEq, Except.ok.injEq] at ha
  obtain ⟨rfl, rfl⟩ := ha
  exact ⟨b, v, hv, hus, hvt, h⟩

theorem pure {a : α} {b : β} (h : R a b) : Agree start sure (Pure.pure a) (Pure.pure b) R :=
  of_does (does_pure a) (does_pure b) h

theorem throw {p : Problem} : Agree start sure (MonadExcept.throw p) d R := by
  intro s t a s' _ h
  simp at h

theorem bind {f : α → Conversion γ} {g : β → Conversion δ} {Q : γ → δ → Prop}
    (h : Agree start sure c d R) (hf : ∀ a b, R a b → Agree start sure (f a) (g b) Q) :
    Agree start sure (c >>= f) (d >>= g) Q := by
  intro s t x s' hv hx hd
  obtain ⟨a, u, ha, hfa⟩ := run_bind_ok hx
  have hfirst : sure s.visited t.visited ∨ ∃ b v, run d t = (.ok b, v) :=
    hd.imp_right fun ⟨y, t', hy⟩ => (run_bind_ok hy).imp fun b ⟨v, hb, _⟩ => ⟨v, hb⟩
  obtain ⟨b, v, hb, hsu, htv, hr⟩ := h s t a u hv ha hfirst
  have hsecond : sure u.visited v.visited ∨ ∃ y t', run (g b) v = (.ok y, t') := by
    rw [hsu, htv]
    refine hd.imp_right fun ⟨y, t', hy⟩ => ⟨y, t', ?_⟩
    rw [run_bind, hb] at hy
    exact hy
  obtain ⟨y, t', hy, hs', ht', hq⟩ := hf a b hr u v x s' (by rw [hsu, htv]; exact hv) hfa hsecond
  refine ⟨y, t', ?_, hs'.trans hsu, ht'.trans htv, hq⟩
  rw [run_bind, hb]
  exact hy

/-- What comes behind conversions that always do the same. -/
theorem after {a : α} {b : β} {f : α → Conversion γ} {g : β → Conversion δ} {Q : γ → δ → Prop}
    (hc : Does c a) (hd : Does d b) (h : Agree start sure (f a) (g b) Q) :
    Agree start sure (c >>= f) (d >>= g) Q := by
  refine (of_does (R := fun a' b' => a' = a ∧ b' = b) hc hd ⟨rfl, rfl⟩).bind fun a' b' hab => ?_
  obtain ⟨rfl, rfl⟩ := hab
  exact h

theorem ite {c' : Conversion α} {d' : Conversion β} {p : Prop} [Decidable p]
    (h : Agree start sure c d R) (h' : Agree start sure c' d' R) :
    Agree start sure (if p then c else c') (if p then d else d') R := by
  split
  · exact h
  · exact h'

theorem visiting {kind : Expandable} (hk : Enters start sure kind) {scope scope' : File}
    {name : QName} (h : Agree start sure c d R) :
    Agree start sure (Conversion.visiting kind scope name c)
      (Conversion.visiting kind scope' name d) R := by
  intro s t a s' hv hc hd
  have hmem : name ∉ kind.of t.visited := by
    rcases hd with hd | ⟨b, t', hb⟩
    · intro hmem
      rw [run_visiting, if_pos ((hk.stays name _ _ hv hd).1 hmem)] at hc
      simp at hc
    · intro hmem
      rw [run_visiting, if_pos hmem] at hb
      simp at hb
  rw [run_visiting] at hc
  split at hc
  · simp at hc
  · obtain ⟨hok, hleft⟩ := Prod.mk.inj hc
    have hinside : sure (entering kind name s).visited (entering kind name t).visited ∨
        ∃ b t', run d (entering kind name t) = (.ok b, t') := by
      rcases hd with hd | ⟨b, t', hb⟩
      · exact .inl (hk.stays name _ _ hv hd).2
      · exact .inr ⟨b, run_visiting_ok hb⟩
    obtain ⟨b, v, hb, hs', ht', hr⟩ := h _ _ a _ (hk.starts name _ _ hv) (Prod.ext hok rfl) hinside
    refine ⟨b, leaving kind name v, ?_, ?_, ?_, hr⟩
    · rw [run_visiting, if_neg hmem, hb]
    · rw [← hleft]
      exact visited_leaving_entering kind name hs'
    · exact visited_leaving_entering kind name ht'

theorem found {scope scope' : File} {referencing referencing' : String} {name name' : QName}
    (result : Option α) :
    Agree start sure (Conversion.found scope referencing name result)
      (Conversion.found scope' referencing' name' result) fun a b => a = b ∧ result = some a := by
  cases result with
  | none => exact throw
  | some a => exact pure ⟨rfl, rfl⟩

/-- A problem is caught in one of two conversions if it is in the other. -/
theorem tryCatch_pure {a₀ : α} {b₀ : β} (hc : Steady c) (hd : Steady d)
    (h : Agree AlikeSimple (fun _ _ => True) c d R)
    (h' : Agree AlikeSimple (fun _ _ => True) d c fun b a => R a b) (hr : R a₀ b₀) :
    Agree AlikeSimple sure (MonadExcept.tryCatch c fun _ => Pure.pure a₀)
      (MonadExcept.tryCatch d fun _ => Pure.pure b₀) R := by
  intro s t a s' hv ha _
  rw [run_tryCatch] at ha ⊢
  have hs := (hc s s rfl).2
  have ht := (hd t t rfl).2
  rcases hrc : run c s with ⟨_ | x, u⟩
  · rcases hrd : run d t with ⟨_ | y, v⟩
    · rw [hrc] at ha hs
      rw [hrd] at ht
      obtain ⟨hok, rfl⟩ := Prod.mk.inj ha
      obtain rfl := Except.ok.inj hok
      exact ⟨b₀, v, rfl, hs, ht, hr⟩
    · obtain ⟨b, t', hb, -⟩ := h' t s y v hv.symm hrd (.inl trivial)
      rw [hrc] at hb
      simp at hb
  · obtain ⟨b, t', hb, hs', ht', hxb⟩ := h s t x u hv hrc (.inl trivial)
    rw [hrc] at ha
    obtain ⟨hok, rfl⟩ := Prod.mk.inj ha
    obtain rfl := Except.ok.inj hok
    rw [hb]
    exact ⟨b, t', rfl, hs', ht', hxb⟩

end Agree

end Conversion

end Crosswalk

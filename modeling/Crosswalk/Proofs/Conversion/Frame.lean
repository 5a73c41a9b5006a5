import Crosswalk.Proofs.Conversion.Closure
import Mathlib.Data.List.Forall2

/-!
# What conversions leave alone

A conversion is steady if its result depends on nothing in the state but the declarations that it is
inside of, and if it leaves these as it found them. A conversion is candid if what it throws is
fatal and what it notes is not. Every conversion of a declaration is both: so the schema of a
declaration does not depend on which ones were converted before it, and a declaration that cannot
be converted makes the batch fail.
-/

namespace Crosswalk

namespace Conversion

variable {α : Type}

/-! ### Steadiness -/

/-- The result depends on no more of the declarations that the conversion is inside of than is
compared, and on nothing else in the state, and these declarations stay as they were. -/
def Heeds (alike : Visited → Visited → Prop) (c : Conversion α) : Prop :=
  ∀ s t, alike s.visited t.visited →
    (run c s).1 = (run c t).1 ∧ (run c s).2.visited = s.visited

theorem visited_leaving_entering (kind : Expandable) (name : QName) {s t : ConversionState}
    (h : t.visited = (entering kind name s).visited) :
    (leaving kind name t).visited = s.visited := by
  cases kind <;> simp [leaving, entering, h, Expandable.set, Expandable.of]

section

variable {alike : Visited → Visited → Prop}

theorem heeds_pure (a : α) : Heeds alike (pure a : Conversion α) := fun _ _ _ => ⟨rfl, rfl⟩

theorem heeds_throw (p : Problem) : Heeds alike (throw p : Conversion α) :=
  fun _ _ _ => ⟨rfl, rfl⟩

theorem heeds_record (p : Problem) : Heeds alike (record p) := by
  intro s t _
  rw [run_record, run_record]
  exact ⟨rfl, by split <;> rfl⟩

/-- What follows a step depends on its result only. -/
theorem heeds_after (hr : ∀ v, alike v v) {β : Type} {c : Conversion α} (hc : Heeds alike c)
    {d : Conversion β} {k : Except Problem α → Conversion β}
    (hd : ∀ s, run d s = run (k (run c s).1) (run c s).2) (hk : ∀ r, Heeds alike (k r)) :
    Heeds alike d := by
  intro s t hv
  obtain ⟨h1, h2⟩ := hc s t hv
  obtain ⟨-, h3⟩ := hc t t (hr _)
  have hu : alike (run c s).2.visited (run c t).2.visited := by rwa [h2, h3]
  obtain ⟨h4, h5⟩ := hk (run c s).1 _ _ hu
  rw [hd s, hd t, ← h1]
  exact ⟨h4, h5.trans h2⟩

theorem heeds_bind (hr : ∀ v, alike v v) {β : Type} {c : Conversion α} {f : α → Conversion β}
    (hc : Heeds alike c) (hf : ∀ a, Heeds alike (f a)) : Heeds alike (c >>= f) := by
  refine heeds_after hr (k := fun r => match r with | .ok a => f a | .error p => throw p) hc ?_ ?_
  · intro s
    rw [run_bind]
    rcases run c s with ⟨_ | _, t⟩ <;> rfl
  · rintro (p | a)
    · exact heeds_throw p
    · exact hf a

theorem heeds_tryCatch (hr : ∀ v, alike v v) {c : Conversion α} {f : Problem → Conversion α}
    (hc : Heeds alike c) (hf : ∀ p, Heeds alike (f p)) : Heeds alike (tryCatch c f) := by
  refine heeds_after hr (k := fun r => match r with | .ok a => pure a | .error p => f p) hc ?_ ?_
  · intro s
    rw [run_tryCatch]
    rcases run c s with ⟨_ | _, t⟩ <;> rfl
  · rintro (p | a)
    · exact hf p
    · exact heeds_pure a

/-- A declaration is entered or not depending on the declarations of its kind. -/
theorem heeds_visiting {kind : Expandable}
    (hk : ∀ v w, alike v w → kind.of v = kind.of w ∧
      ∀ name, alike (kind.set v (name :: kind.of v)) (kind.set w (name :: kind.of w)))
    (scope : File) (name : QName) {c : Conversion α} (hc : Heeds alike c) :
    Heeds alike (visiting kind scope name c) := by
  intro s t hv
  obtain ⟨hof, henters⟩ := hk _ _ hv
  obtain ⟨h1, h2⟩ := hc (entering kind name s) (entering kind name t) (henters name)
  rw [run_visiting, run_visiting, hof]
  split
  · exact ⟨rfl, rfl⟩
  · exact ⟨h1, visited_leaving_entering kind name h2⟩

end

/-- The result depends on the declarations that the conversion is inside of, and on nothing else in
the state, and these stay as they were. -/
def Steady (c : Conversion α) : Prop :=
  ∀ s t, s.visited = t.visited →
    (run c s).1 = (run c t).1 ∧ (run c s).2.visited = s.visited

theorem steady_pure (a : α) : Steady (pure a : Conversion α) := heeds_pure a

theorem steady_throw (p : Problem) : Steady (throw p : Conversion α) := heeds_throw p

theorem steady_bind {β : Type} {c : Conversion α} {f : α → Conversion β} (hc : Steady c)
    (hf : ∀ a, Steady (f a)) : Steady (c >>= f) :=
  heeds_bind (fun _ => rfl) hc hf

theorem steady_map {β : Type} {c : Conversion α} (f : α → β) (hc : Steady c) :
    Steady (c >>= fun a => pure (f a)) :=
  steady_bind hc fun a => steady_pure (f a)

theorem steady_found (scope : File) (referencing : String) (name : QName) (result : Option α) :
    Steady (found scope referencing name result) := by
  cases result with
  | none => exact steady_throw _
  | some a => exact steady_pure a

theorem isClosed_steady {context : Context} : IsClosed context @Steady where
  pure := steady_pure
  throw p _ := steady_throw p
  record p _ _ := heeds_record p
  bind := steady_bind
  visiting _ := heeds_visiting fun v w (h : v = w) => h ▸ ⟨rfl, fun _ => rfl⟩
  tryCatch := heeds_tryCatch fun _ => rfl

/-- What a conversion of simple types and attributes results in depends on the simple types that it
is inside of only. -/
theorem isBasic_heeds {context : Context} :
    IsBasic context fun {_} => Heeds fun v w => v.simple = w.simple where
  pure := heeds_pure
  throw p _ := heeds_throw p
  record p _ _ := heeds_record p
  bind := heeds_bind fun v => Eq.refl v.simple
  expanding := heeds_visiting fun _ _ h => ⟨h, fun name => congrArg (name :: ·) h⟩
  tryCatch := heeds_tryCatch fun v => Eq.refl v.simple

/-! ### Candour -/

/-- Nothing that was noted is fatal. -/
def Harmless (s : ConversionState) : Prop := ∀ p ∈ s.diagnostics, p.isFatal = false

/-- What the conversion throws is fatal, and what it notes is not. -/
def Candid (c : Conversion α) : Prop :=
  ∀ s, Harmless s → (∀ p, (run c s).1 = .error p → p.isFatal = true) ∧ Harmless (run c s).2

theorem candid_bind {β : Type} {c : Conversion α} {f : α → Conversion β} (hc : Candid c)
    (hf : ∀ a, Candid (f a)) : Candid (c >>= f) := by
  intro s hs
  obtain ⟨h1, h2⟩ := hc s hs
  rw [run_bind]
  rcases hr : run c s with ⟨res, t⟩
  rw [hr] at h1 h2
  cases res with
  | ok a => exact hf a t h2
  | error p => exact ⟨fun q hq => h1 q (by simpa using hq), h2⟩

theorem candid_tryCatch {c : Conversion α} {f : Problem → Conversion α} (hc : Candid c)
    (hf : ∀ p, Candid (f p)) : Candid (tryCatch c f) := by
  intro s hs
  obtain ⟨h1, h2⟩ := hc s hs
  rw [run_tryCatch]
  rcases hr : run c s with ⟨res, t⟩
  rw [hr] at h1 h2
  cases res with
  | ok a => exact ⟨fun q hq => by simp at hq, h2⟩
  | error p => exact hf p t h2

theorem isClosed_candid {context : Context} : IsClosed context @Candid where
  pure a s hs := ⟨fun p hp => by simp at hp, hs⟩
  throw p hp s hs := ⟨fun q hq => by
    simp only [run_throw, Except.error.injEq] at hq
    exact hq ▸ hp, hs⟩
  record p hp _ s hs := by
    rw [run_record]
    refine ⟨fun q hq => by simp at hq, fun q hq => ?_⟩
    split at hq
    · exact hs q hq
    · rcases List.mem_append.1 hq with hq | hq
      · exact hs q hq
      · exact List.mem_singleton.1 hq ▸ hp
  bind := candid_bind
  visiting kind scope name c hc s hs := by
    rw [run_visiting]
    split
    · refine ⟨fun p hp => ?_, hs⟩
      simp only [Except.error.injEq] at hp
      exact hp ▸ rfl
    · exact hc (entering kind name s) hs
  tryCatch := candid_tryCatch

/-! ### Declarations in turn -/

/-- The result of a conversion from the outside. -/
def outcome (c : Conversion α) : Except Problem α := (run c {}).1

/-- The diagnostics noted before do not change what a steady conversion results in. -/
theorem Steady.outcome_eq {c : Conversion α} (h : Steady c) (diagnostics : List Problem) :
    (run c { diagnostics }).1 = outcome c :=
  (h { diagnostics } {} rfl).1

theorem convertEach_cons (convert : α → Conversion (String × Json)) (a : α) (rest : List α)
    (diagnostics : List Problem) :
    convertEach convert (a :: rest) diagnostics =
      let others := convertEach convert rest (run (convert a) { diagnostics }).2.diagnostics
      match (run (convert a) { diagnostics }).1 with
      | .ok schema => { others with schemas := schema :: others.schemas }
      | .error problem => { others with errors := problem :: others.errors } := rfl

/-- The schemas of declarations that can all be converted are those of each on its own. -/
theorem convertEach_schemas {convert : α → Conversion (String × Json)}
    (hs : ∀ a, Steady (convert a)) (as : List α) (diagnostics : List Problem)
    (he : (convertEach convert as diagnostics).errors = []) :
    List.Forall₂ (fun a entry => outcome (convert a) = .ok entry) as
      (convertEach convert as diagnostics).schemas := by
  induction as generalizing diagnostics with
  | nil => exact .nil
  | cons a rest ih =>
      have ha := (hs a).outcome_eq diagnostics
      rw [convertEach_cons] at he ⊢
      generalize run (convert a) { diagnostics } = r at ha he ⊢
      rcases r with ⟨_ | entry, t⟩
      · simp at he
      · exact .cons ha.symm (ih _ he)

/-- What declarations are converted to in turn is what each of them is converted to on its own,
whatever was noted before and whichever of them cannot be converted. -/
theorem convertEach_eq {convert : α → Conversion (String × Json)} (hs : ∀ a, Steady (convert a))
    (as : List α) (diagnostics : List Problem) :
    (convertEach convert as diagnostics).schemas =
        as.filterMap (fun a => (outcome (convert a)).toOption) ∧
      ((convertEach convert as diagnostics).errors = [] ↔
        ∀ a ∈ as, (outcome (convert a)).isOk = true) := by
  induction as generalizing diagnostics with
  | nil => simp [convertEach]
  | cons a rest ih =>
      have ha := (hs a).outcome_eq diagnostics
      obtain ⟨hschemas, herrors⟩ := ih (run (convert a) { diagnostics }).2.diagnostics
      rw [convertEach_cons, List.forall_mem_cons]
      rcases hr : run (convert a) { diagnostics } with ⟨problem | entry, t⟩
      · rw [hr] at ha hschemas
        rw [List.filterMap_cons_none (by rw [← ha]; rfl), ← ha]
        exact ⟨hschemas, by simp [Except.isOk, Except.toBool]⟩
      · rw [hr] at ha hschemas herrors
        rw [List.filterMap_cons_some (b := entry) (by rw [← ha]; rfl), ← ha]
        exact ⟨congrArg (entry :: ·) hschemas, by simpa [Except.isOk, Except.toBool] using herrors⟩

/-- A declaration that is left out leaves a fatal problem. -/
theorem convertEach_candid {convert : α → Conversion (String × Json)}
    (hc : ∀ a, Candid (convert a)) (as : List α) {diagnostics : List Problem}
    (hd : ∀ p ∈ diagnostics, p.isFatal = false) :
    (∀ p ∈ (convertEach convert as diagnostics).errors, p.isFatal = true) ∧
      ∀ p ∈ (convertEach convert as diagnostics).diagnostics, p.isFatal = false := by
  induction as generalizing diagnostics with
  | nil => exact ⟨fun p hp => by simp [convertEach] at hp, hd⟩
  | cons a rest ih =>
      obtain ⟨h1, h2⟩ := hc a { diagnostics } hd
      rw [convertEach_cons]
      generalize run (convert a) { diagnostics } = r at h1 h2 ⊢
      rcases r with ⟨p | entry, t⟩
      · obtain ⟨i1, i2⟩ := ih h2
        refine ⟨fun q hq => ?_, i2⟩
        rcases List.mem_cons.1 hq with rfl | hq
        · exact h1 _ rfl
        · exact i1 q hq
      · exact ih h2

/-! ### Files -/

/-- The model groups of the file that are written into its document. -/
def reusedGroups (context : Context) : List NamedGroup :=
  context.file.schema.groups.filter fun g => context.linkage.isReused g.name

/-- What becomes of the types of the file. -/
def typeOutcome (context : Context) : Outcome :=
  convertEach (typeDefinition context) context.file.schema.types []

/-- What becomes of the model groups that are written into the document. -/
def groupOutcome (context : Context) : Outcome :=
  convertEach (groupDefinition context) (reusedGroups context) (typeOutcome context).diagnostics

/-- What becomes of the global elements of the file. -/
def elementOutcome (context : Context) : Outcome :=
  convertEach (elementProperty context) context.file.schema.elements
    (groupOutcome context).diagnostics

theorem convertFile_snd (context : Context) : (convertFile context).2 =
    (typeOutcome context).errors ++ (groupOutcome context).errors ++
      (elementOutcome context).errors ++ (elementOutcome context).diagnostics := rfl

/-- The errors of a file are fatal, and its diagnostics are not. -/
structure IsCandid (context : Context) : Prop where
  types : ∀ p ∈ (typeOutcome context).errors, p.isFatal = true
  groups : ∀ p ∈ (groupOutcome context).errors, p.isFatal = true
  elements : ∀ p ∈ (elementOutcome context).errors, p.isFatal = true
  diagnostics : ∀ p ∈ (elementOutcome context).diagnostics, p.isFatal = false

theorem isCandid (context : Context) : IsCandid context := by
  have htypes := convertEach_candid (isClosed_candid.typeDefinition context)
    context.file.schema.types (fun _ h => absurd h List.not_mem_nil)
  have hgroups := convertEach_candid (isClosed_candid.groupDefinition context)
    (reusedGroups context) htypes.2
  have helements := convertEach_candid (isClosed_candid.elementProperty context)
    context.file.schema.elements hgroups.2
  exact ⟨htypes.1, hgroups.1, helements.1, helements.2⟩

end Conversion

end Crosswalk

import Crosswalk.Proofs.Conversion.Frame

/-!
# What conversions note

A conversion takes back nothing that was noted, and what it notes itself is about the file whose
document is made. So the diagnostics of a file are those that its own conversion notes, whichever
other files there are.
-/

namespace Crosswalk

namespace Conversion

variable {α β : Type} {filename : String}

/-- What was noted stays noted, and what is noted is about a file. -/
structure Notes (filename : String) {α : Type} (c : Conversion α) : Prop where
  keeps : ∀ s, s.diagnostics ⊆ (run c s).2.diagnostics
  about : ∀ s, ∀ p ∈ (run c s).2.diagnostics, p ∈ s.diagnostics ∨ p.filename = filename

namespace Notes

/-- Two steps, one after the other, note what each of them notes. -/
theorem trans {s t u : ConversionState} (hkeep : s.diagnostics ⊆ t.diagnostics)
    (habout : ∀ p ∈ t.diagnostics, p ∈ s.diagnostics ∨ p.filename = filename)
    (hkeep' : t.diagnostics ⊆ u.diagnostics)
    (habout' : ∀ p ∈ u.diagnostics, p ∈ t.diagnostics ∨ p.filename = filename) :
    s.diagnostics ⊆ u.diagnostics ∧
      ∀ p ∈ u.diagnostics, p ∈ s.diagnostics ∨ p.filename = filename :=
  ⟨List.Subset.trans hkeep hkeep', fun p hp => (habout' p hp).elim (habout p) .inr⟩

theorem of_forall {c : Conversion α}
    (h : ∀ s, s.diagnostics ⊆ (run c s).2.diagnostics ∧
      ∀ p ∈ (run c s).2.diagnostics, p ∈ s.diagnostics ∨ p.filename = filename) :
    Notes filename c :=
  ⟨fun s => (h s).1, fun s => (h s).2⟩

theorem of_same {c : Conversion α} (h : ∀ s, (run c s).2.diagnostics = s.diagnostics) :
    Notes filename c :=
  ⟨fun s => (h s).symm ▸ List.Subset.refl _, fun s _ hp => .inl (h s ▸ hp)⟩

theorem record {p : Problem} (hp : p.filename = filename) :
    Notes filename (Conversion.record p) := by
  refine .of_forall fun s => ?_
  rw [run_record]
  dsimp only
  split
  · exact ⟨List.Subset.refl _, fun q hq => .inl hq⟩
  · refine ⟨List.subset_append_left _ _, fun q hq => (List.mem_append.1 hq).imp_right fun hq => ?_⟩
    exact List.mem_singleton.1 hq ▸ hp

theorem bind {c : Conversion α} {f : α → Conversion β} (hc : Notes filename c)
    (hf : ∀ a, Notes filename (f a)) : Notes filename (c >>= f) := by
  refine .of_forall fun s => ?_
  have hkeep := hc.keeps s
  have habout := hc.about s
  rw [run_bind]
  rcases hr : run c s with ⟨_ | a, t⟩
  · rw [hr] at hkeep habout
    exact ⟨hkeep, habout⟩
  · rw [hr] at hkeep habout
    exact trans hkeep habout ((hf a).keeps t) ((hf a).about t)

theorem tryCatch {c : Conversion α} {f : Problem → Conversion α} (hc : Notes filename c)
    (hf : ∀ p, Notes filename (f p)) : Notes filename (MonadExcept.tryCatch c f) := by
  refine .of_forall fun s => ?_
  have hkeep := hc.keeps s
  have habout := hc.about s
  rw [run_tryCatch]
  rcases hr : run c s with ⟨p | _, t⟩
  · rw [hr] at hkeep habout
    exact trans hkeep habout ((hf p).keeps t) ((hf p).about t)
  · rw [hr] at hkeep habout
    exact ⟨hkeep, habout⟩

theorem visiting {kind : Expandable} {scope : File} {name : QName} {c : Conversion α}
    (hc : Notes filename c) : Notes filename (Conversion.visiting kind scope name c) := by
  refine .of_forall fun s => ?_
  rw [run_visiting]
  split
  · exact ⟨List.Subset.refl _, fun q hq => .inl hq⟩
  · exact ⟨hc.keeps (entering kind name s), hc.about (entering kind name s)⟩

end Notes

theorem isClosed_notes {context : Context} :
    IsClosed context (@Notes context.file.filename) where
  pure _ := .of_same fun _ => rfl
  throw _ _ := .of_same fun _ => rfl
  record _ _ hp := .record hp
  bind := .bind
  visiting _ _ _ _ := .visiting
  tryCatch := .tryCatch

/-! ### Declarations in turn -/

theorem diagnostics_convertEach_cons (convert : α → Conversion (String × Json)) (a : α)
    (rest : List α) (diagnostics : List Problem) :
    (convertEach convert (a :: rest) diagnostics).diagnostics =
      (convertEach convert rest (run (convert a) { diagnostics }).2.diagnostics).diagnostics := by
  rw [convertEach_cons]
  dsimp only
  split <;> rfl

/-- What declarations note in turn stays noted, and is about the file. -/
theorem notes_convertEach {convert : α → Conversion (String × Json)}
    (h : ∀ a, Notes filename (convert a)) (as : List α) : ∀ diagnostics : List Problem,
    diagnostics ⊆ (convertEach convert as diagnostics).diagnostics ∧
      ∀ p ∈ (convertEach convert as diagnostics).diagnostics,
        p ∈ diagnostics ∨ p.filename = filename := by
  induction as with
  | nil => exact fun diagnostics => ⟨List.Subset.refl _, fun _ hp => .inl hp⟩
  | cons a rest ih =>
      intro diagnostics
      rw [diagnostics_convertEach_cons]
      obtain ⟨hkeep, habout⟩ := ih (run (convert a) { diagnostics }).2.diagnostics
      exact ⟨List.Subset.trans ((h a).keeps { diagnostics }) hkeep,
        fun p hp => (habout p hp).elim ((h a).about { diagnostics } p) .inr⟩

/-- Each of the declarations has its turn, and what it notes stays noted. -/
theorem noted_convertEach {convert : α → Conversion (String × Json)}
    (h : ∀ a, Notes filename (convert a)) {as : List α} {a : α} (ha : a ∈ as) :
    ∀ diagnostics : List Problem, ∃ before,
      (run (convert a) { diagnostics := before }).2.diagnostics ⊆
        (convertEach convert as diagnostics).diagnostics := by
  induction as with
  | nil => exact absurd ha List.not_mem_nil
  | cons first rest ih =>
      intro diagnostics
      rw [diagnostics_convertEach_cons]
      rcases List.mem_cons.1 ha with rfl | ha
      · exact ⟨diagnostics, (notes_convertEach h rest _).1⟩
      · exact ih ha _

/-- What types and groups note stays noted, and what is noted is about the file. -/
structure FileNotes (context : Context) : Prop where
  types : (typeOutcome context).diagnostics ⊆ (elementOutcome context).diagnostics
  groups : (groupOutcome context).diagnostics ⊆ (elementOutcome context).diagnostics
  about : ∀ p ∈ (elementOutcome context).diagnostics, p.filename = context.file.filename

theorem fileNotes (context : Context) : FileNotes context := by
  have htypes := notes_convertEach (isClosed_notes.typeDefinition context)
    context.file.schema.types []
  have hgroups := notes_convertEach (isClosed_notes.groupDefinition context)
    (reusedGroups context) (typeOutcome context).diagnostics
  have helements := notes_convertEach (isClosed_notes.elementProperty context)
    context.file.schema.elements (groupOutcome context).diagnostics
  refine ⟨List.Subset.trans hgroups.1 helements.1, helements.1, fun p hp => ?_⟩
  refine (helements.2 p hp).elim (fun hp => (hgroups.2 p hp).elim (fun hp => ?_) id) id
  exact (htypes.2 p hp).resolve_left List.not_mem_nil

/-- The diagnostics of a file are about the file. -/
theorem filename_of_mem_convertFile {context : Context} {p : Problem}
    (h : p ∈ (convertFile context).2) (hp : p.isFatal = false) :
    p.filename = context.file.filename := by
  obtain ⟨ht, hg, he, -⟩ := isCandid context
  have not_error : ∀ {errors : List Problem}, (∀ q ∈ errors, q.isFatal = true) → p ∉ errors :=
    fun hfatal hm => Bool.false_ne_true (hp.symm.trans (hfatal p hm))
  rw [convertFile_snd, List.mem_append, List.mem_append, List.mem_append] at h
  rcases h with ((h | h) | h) | h
  · exact absurd h (not_error ht)
  · exact absurd h (not_error hg)
  · exact absurd h (not_error he)
  · exact (fileNotes context).about p h

end Conversion

end Crosswalk

import Crosswalk.Proofs.Linkage

/-!
# What names stand for

A name stands for a declaration if and only if there is one to be found: resolving it and looking
the result up never disagree, except for the names of XML Schema itself, which stand for themselves.
If linking reports nothing fatal, every reference of every file stands for something. A reference is
reported once for each file, so that this needs the files to have different names.
-/

namespace Crosswalk

namespace Declarations

variable {α : Type} {kind : DeclarationKind} {name : α → QName}

theorem contains_declareAll {file : File} (declarations : List α)
    {table : Table QName (Located α)} {q : QName}
    (h : table.contains q = true ∨ ∃ d ∈ declarations, name d = q) :
    (declareAll kind file name declarations table).1.contains q = true := by
  induction declarations generalizing table with
  | nil => simpa [declareAll] using h
  | cons d rest ih =>
      rw [declareAll_cons]
      refine ih ?_
      have hd : (declare kind file (name d) d table).1.contains (name d) = true := by
        unfold declare
        split
        · next first hfirst => simp [Table.contains, hfirst]
        · simp [Table.contains_insert]
      have hkeep : table.contains q = true →
          (declare kind file (name d) d table).1.contains q = true := by
        intro hq
        unfold declare
        split
        · exact hq
        · simp [Table.contains_insert, hq]
      rcases h with hq | ⟨e, he, rfl⟩
      · exact .inl (hkeep hq)
      · rcases List.mem_cons.1 he with rfl | he
        · exact .inl hd
        · exact .inr ⟨e, he, rfl⟩

theorem Row.contains_addFiles (row : Row α) (files : List File) {d : Declarations} {q : QName}
    (h : (row.table d).contains q = true ∨
      ∃ file ∈ files, ∃ declaration ∈ row.declared file.schema, row.name declaration = q) :
    (row.table (d.addFiles files).1).contains q = true := by
  induction files generalizing d with
  | nil => simpa [addFiles] using h
  | cons file rest ih =>
      rw [addFiles_cons]
      refine ih ?_
      rw [row.addFile_table]
      rcases h with hq | ⟨other, ho, declaration, hd, hq⟩
      · exact .inl (contains_declareAll _ (.inl hq))
      · rcases List.mem_cons.1 ho with rfl | ho
        · exact .inl (contains_declareAll _ (.inr ⟨declaration, hd, hq⟩))
        · exact .inr ⟨other, ho, declaration, hd, hq⟩

end Declarations

namespace Linkage

open Declarations

variable {α : Type} {l : Linkage} {row : Row α} {file : File} {name : QName}

/-- The declaration that a name stands for. -/
def lookup? (l : Linkage) (row : Row α) (file : File) (name : QName) : Option (Located α) :=
  (l.resolve? row.kind file name).bind fun r => (row.table l.declarations).find? r.name

/-- The declarations of a linkage are those of the files of its catalog, under their names. -/
structure IsLinked (l : Linkage) : Prop where
  located : ∀ {α : Type} (row : Row α) {q : QName} {located : Located α},
    (row.table l.declarations).find? q = some located →
      located.file ∈ l.catalog.files ∧ located.declaration ∈ row.declared located.file.schema ∧
        row.name located.declaration = q
  declared : ∀ {α : Type} (row : Row α) {file : File}, file ∈ l.catalog.files →
    ∀ d ∈ row.declared file.schema, (row.table l.declarations).contains (row.name d) = true

theorem isLinked_ofCatalog (catalog : Catalog) (resolution : Resolution) :
    (ofCatalog catalog resolution).1.IsLinked where
  located row _ _ h := located_of_find? row h
  declared row _ hf d hd :=
    row.contains_addFiles catalog.files (.inr ⟨_, hf, d, hd, rfl⟩)

/-! ### Resolving -/

/-- A candidate is a declared name with the local part that was asked for. -/
theorem mem_candidates {kind : DeclarationKind} {text : String} {q : QName}
    (h : q ∈ l.candidates kind file text) : l.declarations.contains kind q = true :=
  (List.mem_filter.1 h).2

/-- What a name stands for is declared, unless it is a name of XML Schema itself. -/
theorem contains_of_resolve? {kind : DeclarationKind} {r : Resolved}
    (h : l.resolve? kind file name = some r) :
    (name.isBuiltin = true ∧ kind = .type ∧ Datatype.isKnown name.name = true ∧ r.name = name) ∨
      name.isBuiltin = false ∧ l.declarations.contains kind r.name = true := by
  unfold resolve? at h
  split at h
  · next hb =>
      split at h
      · next hk => exact .inl ⟨hb, hk.1, hk.2, Option.some.inj h ▸ rfl⟩
      · exact nomatch h
  · next hb =>
      refine .inr ⟨Bool.eq_false_iff.2 hb, ?_⟩
      split at h
      · next hc => exact Option.some.inj h ▸ hc
      · split at h
        · exact nomatch h
        · split at h
          · next only hcandidates =>
              exact Option.some.inj h ▸ mem_candidates (hcandidates ▸ List.mem_cons_self)
          · exact nomatch h

/-- A declared name stands for itself. -/
theorem resolve?_of_contains {kind : DeclarationKind} (hb : name.isBuiltin = false)
    (hc : l.declarations.contains kind name = true) :
    l.resolve? kind file name = some ⟨name, false⟩ := by
  rw [resolve?, hb, if_neg Bool.false_ne_true, if_pos hc]

/-- In strict resolution a name stands for itself only. -/
theorem resolve?_strict {kind : DeclarationKind} (hs : l.resolution = .strict)
    {r : Resolved} (h : l.resolve? kind file name = some r) : r = ⟨name, false⟩ := by
  unfold resolve? at h
  split at h
  · split at h
    · exact (Option.some.inj h).symm
    · exact nomatch h
  · split at h
    · exact (Option.some.inj h).symm
    · exact nomatch h

theorem name_of_resolve?_strict {kind : DeclarationKind} (hs : l.resolution = .strict)
    {r : Resolved} (h : l.resolve? kind file name = some r) : r.name = name :=
  congrArg Resolved.name (resolve?_strict hs h)

/-- What a name stands for is declared, unless the name may be one of XML Schema itself. -/
theorem contains_of_resolve?_of {r : Resolved} (h : l.resolve? row.kind file name = some r)
    (hb : name.isBuiltin = false ∨ row.kind ≠ .type) :
    l.declarations.contains row.kind r.name = true := by
  rcases contains_of_resolve? h with ⟨hb', hk, -⟩ | ⟨-, hc⟩
  · rcases hb with hb | hb
    · exact absurd (hb'.symm.trans hb) Bool.noConfusion
    · exact absurd hk hb
  · exact hc

/-- Nothing is found only if the name stands for nothing. -/
theorem resolve?_eq_none (h : l.lookup? row file name = none)
    (hb : name.isBuiltin = false ∨ row.kind ≠ .type) : l.resolve? row.kind file name = none := by
  cases hr : l.resolve? row.kind file name with
  | none => rfl
  | some r =>
      have hc := contains_of_resolve?_of hr hb
      rw [row.contains_table, Table.contains, Option.isSome_iff_exists] at hc
      obtain ⟨located, hl⟩ := hc
      rw [lookup?, hr, Option.bind_some, hl] at h
      cases h

/-- What is found is declared under the name that was resolved. -/
theorem IsLinked.found (h : l.IsLinked) {located : Located α}
    (hl : l.lookup? row file name = some located) :
    located.file ∈ l.catalog.files ∧ located.declaration ∈ row.declared located.file.schema ∧
      ∃ r, l.resolve? row.kind file name = some r ∧ r.name = row.name located.declaration := by
  obtain ⟨r, hr, hf⟩ := Option.bind_eq_some_iff.1 hl
  obtain ⟨hfile, hd, hn⟩ := h.located row hf
  exact ⟨hfile, hd, r, hr, hn.symm⟩

theorem IsLinked.contains (h : l.IsLinked) {located : Located α}
    (hb : name.isBuiltin = false ∨ row.kind ≠ .type)
    (hl : l.lookup? row file name = some located) :
    l.declarations.contains row.kind (row.name located.declaration) = true := by
  obtain ⟨-, -, r, hr, hn⟩ := h.found hl
  exact hn ▸ contains_of_resolve?_of hr hb

/-- The names of XML Schema itself stand for its types. -/
theorem resolve?_builtin (hb : name.isBuiltin = true) :
    l.resolve? .type file name =
      if Datatype.isKnown name.name = true then some ⟨name, false⟩ else none := by
  simp [resolve?, hb]

/-! ### Following references -/

/-- References that stand for nothing were reported, with something fatal. -/
def Tally.Covers (l : Linkage) (files : List File) (t : Tally) : Prop :=
  ∀ file ∈ files, ∀ kind name, (file.filename, kind, name) ∈ t.reported →
    l.resolve? kind file name = none → ∃ p ∈ t.problems, p.isFatal = true

theorem isFatal_unresolved (r : Reference) : (l.unresolved file r).isFatal = true := by
  unfold unresolved
  split <;> rfl

theorem Tally.mem_report {t : Tally} {r : Reference} {p q : Problem} (h : q ∈ t.problems) :
    q ∈ (t.report file r p).problems := by
  unfold Tally.report
  dsimp only
  split
  · exact h
  · exact List.mem_append_left _ h

/-- A report keeps up with what it reports. -/
theorem Tally.Covers.report {files : List File} {t : Tally} (h : t.Covers l files)
    (hd : ∀ f ∈ files, f.filename = file.filename → f = file) {r : Reference} {p : Problem}
    (hp : l.resolve? r.kind file r.name = none → p.isFatal = true) :
    (t.report file r p).Covers l files := by
  intro f hf kind name hr hn
  unfold Tally.report at hr ⊢
  dsimp only at hr ⊢
  split at hr
  · next hm =>
      rw [if_pos hm]
      exact h f hf kind name hr hn
  · next hm =>
      rw [if_neg hm]
      rcases List.mem_cons.1 hr with heq | hr
      · simp only [Prod.mk.injEq] at heq
        obtain ⟨hfile, rfl, rfl⟩ := heq
        obtain rfl := hd f hf hfile
        exact ⟨p, List.mem_append_right _ (List.mem_singleton_self p), hp hn⟩
      · obtain ⟨q, hq, hfatal⟩ := h f hf kind name hr hn
        exact ⟨q, List.mem_append_left _ hq, hfatal⟩

theorem Tally.mem_reported_report {t : Tally} {r : Reference} {p : Problem} :
    (file.filename, r.kind, r.name) ∈ (t.report file r p).reported := by
  unfold Tally.report
  dsimp only
  split
  · assumption
  · exact List.mem_cons_self

/-- Following a reference loses no problem, and reports it if it stands for nothing. -/
theorem follow_covers {files : List File} {t : Tally} (h : t.Covers l files)
    (hd : ∀ f ∈ files, f.filename = file.filename → f = file) (hf : file ∈ files)
    (r : Reference) :
    (l.follow t (file, r)).Covers l files ∧
      (∀ q ∈ t.problems, q ∈ (l.follow t (file, r)).problems) ∧
      (l.resolve? r.kind file r.name = none →
        ∃ p ∈ (l.follow t (file, r)).problems, p.isFatal = true) := by
  unfold follow
  dsimp only
  cases hr : l.resolve? r.kind file r.name with
  | none =>
      have hc := h.report hd (r := r) (p := l.unresolved file r) fun _ => isFatal_unresolved r
      exact ⟨hc, fun q hq => Tally.mem_report hq,
        fun _ => hc file hf r.kind r.name Tally.mem_reported_report hr⟩
  | some resolved =>
      have hcount : (if r.kind = .group then t.count resolved.name else t).Covers l files ∧
          (if r.kind = .group then t.count resolved.name else t).problems = t.problems := by
        split
        · exact ⟨h, rfl⟩
        · exact ⟨h, rfl⟩
      dsimp only
      refine ⟨?_, fun q hq => ?_, fun hn => nomatch hn⟩
      · split
        · exact hcount.1.report hd fun hn => nomatch hr.symm.trans hn
        · exact hcount.1
      · rw [← hcount.2] at hq
        split
        · exact Tally.mem_report hq
        · exact hq

theorem resolves_of_foldl {files : List File}
    (hd : ∀ f ∈ files, ∀ g ∈ files, f.filename = g.filename → f = g)
    (uses : List (File × Reference)) (huses : ∀ use ∈ uses, use.1 ∈ files) {t : Tally}
    (h : t.Covers l files) (hfine : ∀ p ∈ (uses.foldl l.follow t).problems, p.isFatal = false) :
    (∀ p ∈ t.problems, p ∈ (uses.foldl l.follow t).problems) ∧
      ∀ use ∈ uses, (l.resolve? use.2.kind use.1 use.2.name).isSome = true := by
  induction uses generalizing t with
  | nil => exact ⟨fun _ hp => hp, fun _ hu => absurd hu List.not_mem_nil⟩
  | cons use rest ih =>
      obtain ⟨file, r⟩ := use
      rw [List.forall_mem_cons] at huses
      obtain ⟨hc, hkeep, hfatal⟩ := follow_covers h (fun f hf => hd f hf file huses.1) huses.1 r
      obtain ⟨hproblems, hrest⟩ := ih huses.2 hc hfine
      refine ⟨fun p hp => hproblems p (hkeep p hp), List.forall_mem_cons.2 ⟨?_, hrest⟩⟩
      cases hr : l.resolve? r.kind file r.name with
      | some resolved => rfl
      | none =>
          obtain ⟨p, hp, hf⟩ := hfatal hr
          exact absurd ((hfine p (hproblems p hp)).symm.trans hf) Bool.noConfusion

/-- If linking reports nothing fatal, every reference of every file stands for something. -/
theorem resolves_of_ofCatalog {catalog : Catalog} {resolution : Resolution}
    (hd : ∀ f ∈ catalog.files, ∀ g ∈ catalog.files, f.filename = g.filename → f = g)
    (h : ∀ p ∈ (ofCatalog catalog resolution).2, p.isFatal = false) {file : File}
    (hf : file ∈ catalog.files) {r : Reference} (hr : r ∈ file.schema.references) :
    ((ofCatalog catalog resolution).1.resolve? r.kind file r.name).isSome = true := by
  have huses : ∀ use ∈ allReferences catalog, use.1 ∈ catalog.files := by
    intro use hu
    obtain ⟨f, hf, hm⟩ := List.mem_flatMap.1 hu
    obtain ⟨_, -, rfl⟩ := List.mem_map.1 hm
    exact hf
  have hcovers : ({} : Tally).Covers
      ⟨catalog, resolution, (({} : Declarations).addFiles catalog.files).1, []⟩ catalog.files :=
    fun _ _ _ _ hm => absurd hm List.not_mem_nil
  refine (resolves_of_foldl hd (allReferences catalog) huses hcovers fun p hp => h p ?_).2
    (file, r) (List.mem_flatMap.2 ⟨file, hf, List.mem_map.2 ⟨r, hr, rfl⟩⟩)
  simp only [ofCatalog, List.mem_append]
  exact .inl (.inr hp)

end Linkage

end Crosswalk

import Crosswalk.Proofs.Content.Word
import Mathlib.Order.Bounds.Basic

/-!
# How often names occur

A content model spells out rows of names: one name for each child, that of its property. Here the
bounds of particles are taken as they are written, so that there is a least and, unless there is no
limit, a greatest number of times that a name occurs in a row. Both are put together as the content
model is: they add up where contents follow each other, and are multiplied where content repeats.
Bounds are these numbers up to the greatest count, and are put together in the same way.
-/

namespace Crosswalk

/-! ### Bounds of numbers -/

/-- The bounds of so many occurrences, as far as they can be counted. -/
def Bounds.capped (least : ℕ) (most : ℕ∞) : Bounds := ⟨.ofNat least, .ofENat most⟩

theorem Bounds.capped_add (a c : ℕ) (b d : ℕ∞) :
    capped (a + c) (b + d) = (capped a b).plus (capped c d) := by
  rw [capped, Count.ofNat_add, Limit.ofENat_add]
  rfl

theorem Bounds.capped_mul (a c : ℕ) (b d : ℕ∞) :
    capped (a * c) (b * d) = (capped a b).times (capped c d) := by
  rw [capped, Count.ofNat_mul, Limit.ofENat_mul]
  rfl

theorem Bounds.isRequired_capped (a : ℕ) (b : ℕ∞) : (capped a b).isRequired = decide (0 < a) := by
  have hg : 0 < Count.greatest := by decide
  rw [isRequired, capped, Count.toNat_ofNat]
  exact decide_eq_decide.2 (by omega)

/-! ### Rows of names -/

/-- Some rows after each other, at least and at most so many. -/
def Repeated (least : ℕ) (most : ℕ∞) (A : List String → Prop) (row : List String) : Prop :=
  ∃ rows : List (List String), least ≤ rows.length ∧ rows.length ≤ most ∧ (∀ u ∈ rows, A u) ∧
    row = rows.flatten

mutual

/-- The rows of a particle, where `name?` is the name of the child that a term other than a model
group stands for. -/
def Particle.Spells (name? : Term → Option String) : Particle → List String → Prop
  | ⟨least, most, term⟩, row => Repeated least.toNat most.toENat (Term.Spells name? term) row

/-- The rows of a term. -/
def Term.Spells (name? : Term → Option String) : Term → List String → Prop
  | .group group, row => ModelGroup.Spells name? group row
  | term, row => ∃ name, name? term = some name ∧ row = [name]

/-- The rows of a model group. -/
def ModelGroup.Spells (name? : Term → Option String) : ModelGroup → List String → Prop
  | ⟨.sequence, particles⟩, row => SpellsAll name? particles row
  | ⟨.all, particles⟩, row => ∃ u, SpellsAll name? particles u ∧ row.Perm u
  | ⟨.choice, particles⟩, row => SpellsOne name? particles row

/-- A row of each of some particles in turn. -/
def SpellsAll (name? : Term → Option String) : List Particle → List String → Prop
  | [], row => row = []
  | p :: rest, row => ∃ u v, Particle.Spells name? p u ∧ SpellsAll name? rest v ∧ row = u ++ v

/-- A row of one of some particles. -/
def SpellsOne (name? : Term → Option String) : List Particle → List String → Prop
  | [], _ => False
  | p :: rest, row => Particle.Spells name? p row ∨ SpellsOne name? rest row

end

mutual

/-- Content made of elements, references to elements, sequences and all-groups, where no least bound
is above the greatest. -/
def Particle.IsSequential : Particle → Prop
  | ⟨least, most, term⟩ => (least.toNat : ℕ∞) ≤ most.toENat ∧ term.IsSequential

def Term.IsSequential : Term → Prop
  | .element _ => True
  | .elementRef _ => True
  | .group group => group.IsSequential
  | .groupRef _ => False
  | .any => False

def ModelGroup.IsSequential : ModelGroup → Prop
  | ⟨compositor, particles⟩ => compositor ≠ .choice ∧ AreSequential particles

def AreSequential : List Particle → Prop
  | [] => True
  | p :: rest => p.IsSequential ∧ AreSequential rest

end

/-! ### Least and greatest numbers -/

/-- The numbers of times that a name occurs in one of the rows. -/
def occurrences (A : List String → Prop) (name : String) : Set ℕ :=
  {n | ∃ row, A row ∧ row.count name = n}

/-- How often a name occurs in the rows: there is a row where it occurs least often, and one where
it occurs at least so often if that is within the limit. -/
structure Ranges (A : List String → Prop) (name : String) (least : ℕ) (most : ℕ∞) : Prop where
  exists_least : ∃ row, A row ∧ row.count name = least
  least_le : ∀ row, A row → least ≤ row.count name
  le_most : ∀ row, A row → row.count name ≤ most
  exists_most : ∀ n : ℕ, n ≤ most → ∃ row, A row ∧ n ≤ row.count name

namespace Ranges

variable {A B : List String → Prop} {name : String} {a c : ℕ} {b d : ℕ∞}

/-- Rows with the same names have the same numbers. -/
theorem congr (h : Ranges A name a b) (hAB : ∀ u, A u → ∃ v, B v ∧ v.count name = u.count name)
    (hBA : ∀ v, B v → ∃ u, A u ∧ u.count name = v.count name) : Ranges B name a b where
  exists_least := by
    obtain ⟨u, hu, rfl⟩ := h.exists_least
    exact hAB u hu
  least_le v hv := by
    obtain ⟨u, hu, heq⟩ := hBA v hv
    exact heq ▸ h.least_le u hu
  le_most v hv := by
    obtain ⟨u, hu, heq⟩ := hBA v hv
    exact heq ▸ h.le_most u hu
  exists_most n hn := by
    obtain ⟨u, hu, hle⟩ := h.exists_most n hn
    obtain ⟨v, hv, heq⟩ := hAB u hu
    exact ⟨v, hv, heq ▸ hle⟩

theorem nil (name : String) : Ranges (· = []) name 0 0 where
  exists_least := ⟨[], rfl, rfl⟩
  least_le _ _ := Nat.zero_le _
  le_most := by
    rintro row rfl
    exact le_rfl
  exists_most n hn := ⟨[], rfl, by simpa using hn⟩

theorem singleton (child name : String) :
    Ranges (· = [child]) name (if name = child then 1 else 0) (if name = child then 1 else 0) := by
  have hcount : [child].count name = if name = child then 1 else 0 := by
    rw [List.count_singleton]
    exact if_congr (by rw [beq_iff_eq, eq_comm]) rfl rfl
  refine ⟨⟨_, rfl, hcount⟩, fun row hrow => ?_, fun row hrow => ?_, fun n hn => ⟨_, rfl, ?_⟩⟩
  · exact hrow ▸ hcount.ge
  · rw [hrow, hcount]
    split <;> simp
  · rw [hcount]
    split at hn
    · next hname => simpa [hname] using hn
    · next hname => simpa [hname] using hn

/-- What is within the limit of contents that follow each other is made of numbers within theirs. -/
theorem exists_add {n : ℕ} (h : n ≤ b + d) : ∃ i j : ℕ, i ≤ b ∧ j ≤ d ∧ n ≤ i + j := by
  induction b with
  | top => exact ⟨n, 0, le_top, zero_le, le_rfl⟩
  | coe b =>
      induction d with
      | top => exact ⟨0, n, zero_le, le_top, (Nat.zero_add n).ge⟩
      | coe d => exact ⟨b, d, le_rfl, le_rfl, by exact_mod_cast h⟩

theorem append (h : Ranges A name a b) (h' : Ranges B name c d) :
    Ranges (fun row => ∃ u v, A u ∧ B v ∧ row = u ++ v) name (a + c) (b + d) where
  exists_least := by
    obtain ⟨u, hu, rfl⟩ := h.exists_least
    obtain ⟨v, hv, rfl⟩ := h'.exists_least
    exact ⟨u ++ v, ⟨u, v, hu, hv, rfl⟩, List.count_append⟩
  least_le := by
    rintro _ ⟨u, v, hu, hv, rfl⟩
    rw [List.count_append]
    exact Nat.add_le_add (h.least_le u hu) (h'.least_le v hv)
  le_most := by
    rintro _ ⟨u, v, hu, hv, rfl⟩
    rw [List.count_append, Nat.cast_add]
    exact add_le_add (h.le_most u hu) (h'.le_most v hv)
  exists_most n hn := by
    obtain ⟨i, j, hi, hj, hij⟩ := exists_add hn
    obtain ⟨u, hu, hiu⟩ := h.exists_most i hi
    obtain ⟨v, hv, hjv⟩ := h'.exists_most j hj
    refine ⟨u ++ v, ⟨u, v, hu, hv, rfl⟩, hij.trans ?_⟩
    rw [List.count_append]
    exact Nat.add_le_add hiu hjv

/-- What is within the limit of repeated content is a number within the limit of one row, as often
as the content can be repeated. -/
theorem exists_mul {n : ℕ} (h : n ≤ b * d) : ∃ i j : ℕ, i ≤ b ∧ j ≤ d ∧ n ≤ i * j := by
  by_cases hzero : b = 0 ∨ d = 0
  · have hn : n = 0 := by
      rw [mul_eq_zero.2 hzero] at h
      exact_mod_cast nonpos_iff_eq_zero.1 h
    exact ⟨0, 0, zero_le, zero_le, hn.le⟩
  · rw [not_or] at hzero
    induction b with
    | top => exact ⟨n, 1, le_top, Order.one_le_iff_pos.2 (pos_iff_ne_zero.2 hzero.2), by simp⟩
    | coe b =>
        induction d with
        | top => exact ⟨1, n, Order.one_le_iff_pos.2 (pos_iff_ne_zero.2 hzero.1), le_top, by simp⟩
        | coe d => exact ⟨b, d, le_rfl, le_rfl, by exact_mod_cast h⟩

theorem count_flatten_replicate (n : ℕ) (u : List String) (name : String) :
    (List.replicate n u).flatten.count name = n * u.count name := by
  rw [List.count_flatten, List.map_replicate, List.sum_replicate, Nat.nsmul_eq_mul]

theorem repeated (h : Ranges A name a b) (hcd : c ≤ d) :
    Ranges (Repeated c d A) name (c * a) (d * b) where
  exists_least := by
    obtain ⟨u, hu, rfl⟩ := h.exists_least
    refine ⟨(List.replicate c u).flatten, ⟨List.replicate c u, ?_, ?_, ?_, rfl⟩,
      count_flatten_replicate c u name⟩
    · exact List.length_replicate.ge
    · rwa [List.length_replicate]
    · exact fun v hv => List.eq_of_mem_replicate hv ▸ hu
  least_le := by
    rintro _ ⟨rows, hc, -, hrows, rfl⟩
    have hsum := List.card_nsmul_le_sum (rows.map (List.count name)) a fun n hn => by
      obtain ⟨u, hu, rfl⟩ := List.mem_map.1 hn
      exact h.least_le u (hrows u hu)
    rw [List.length_map, Nat.nsmul_eq_mul] at hsum
    rw [List.count_flatten]
    exact (Nat.mul_le_mul_right a hc).trans hsum
  le_most := by
    rintro _ ⟨rows, -, hd, hrows, rfl⟩
    rw [List.count_flatten]
    refine le_trans ?_ (mul_le_mul_left hd b)
    clear hd
    induction rows with
    | nil => simp
    | cons u rows ih =>
        rw [List.forall_mem_cons] at hrows
        rw [List.map_cons, List.sum_cons, List.length_cons, Nat.cast_add, Nat.cast_add, add_comm,
          add_mul, Nat.cast_one, one_mul]
        exact add_le_add (ih hrows.2) (h.le_most u hrows.1)
  exists_most n hn := by
    obtain ⟨j, i, hj, hi, hij⟩ := exists_mul hn
    obtain ⟨u, hu, hiu⟩ := h.exists_most i hi
    refine ⟨(List.replicate (max c j) u).flatten, ⟨List.replicate (max c j) u, ?_, ?_, ?_, rfl⟩, ?_⟩
    · rw [List.length_replicate]
      exact le_max_left c j
    · rw [List.length_replicate]
      rcases max_choice c j with hmax | hmax
      · rwa [hmax]
      · rwa [hmax]
    · exact fun v hv => List.eq_of_mem_replicate hv ▸ hu
    · rw [count_flatten_replicate]
      exact hij.trans (Nat.mul_le_mul (le_max_right c j) hiu)

/-- The least number of occurrences is one of them. -/
theorem isLeast (h : Ranges A name a b) : IsLeast (occurrences A name) a := by
  refine ⟨h.exists_least, ?_⟩
  rintro _ ⟨row, hrow, rfl⟩
  exact h.least_le row hrow

/-- The limit is one of them as well, if there is one. -/
theorem isGreatest {n : ℕ} (h : Ranges A name a n) :
    IsGreatest (occurrences A name) n := by
  have hle : ∀ row, A row → row.count name ≤ n := fun row hrow => by
    exact_mod_cast h.le_most row hrow
  refine ⟨?_, ?_⟩
  · obtain ⟨row, hrow, hn⟩ := h.exists_most n le_rfl
    exact ⟨row, hrow, le_antisymm (hle row hrow) hn⟩
  · rintro _ ⟨row, hrow, rfl⟩
    exact hle row hrow

/-- Without limit there is a row for every number. -/
theorem not_bddAbove (h : Ranges A name a ⊤) :
    ¬ BddAbove (occurrences A name) := by
  rintro ⟨n, hn⟩
  obtain ⟨row, hrow, hle⟩ := h.exists_most (n + 1) le_top
  exact absurd (hn ⟨row, hrow, rfl⟩) (by omega)

/-- A name is in every row if and only if its least number is not zero. -/
theorem forall_mem_iff (h : Ranges A name a b) : (∀ row, A row → name ∈ row) ↔ 0 < a := by
  constructor
  · intro hall
    obtain ⟨row, hrow, rfl⟩ := h.exists_least
    exact List.count_pos_iff.2 (hall row hrow)
  · exact fun ha row hrow => List.count_pos_iff.1 (ha.trans_le (h.least_le row hrow))

/-- A name is in some row if and only if its limit is not zero. -/
theorem exists_mem_iff (h : Ranges A name a b) : (∃ row, A row ∧ name ∈ row) ↔ b ≠ 0 := by
  constructor
  · rintro ⟨row, hrow, hmem⟩ rfl
    have hle : row.count name ≤ 0 := by exact_mod_cast h.le_most row hrow
    exact absurd (List.count_pos_iff.2 hmem) (by omega)
  · intro hb
    obtain ⟨row, hrow, hle⟩ := h.exists_most 1 (Order.one_le_iff_pos.2 (pos_iff_ne_zero.2 hb))
    exact ⟨row, hrow, List.count_pos_iff.1 hle⟩

end Ranges

/-- Bounds that are the least and the greatest number of times that a name occurs in one of the
rows, as far as they can be counted; without limit if there is no greatest. -/
structure Bounds.IsExact (bounds : Bounds) (A : List String → Prop) (name : String) : Prop where
  least : ∃ n, IsLeast (occurrences A name) n ∧ bounds.least = .ofNat n
  most : (∃ n, IsGreatest (occurrences A name) n ∧ bounds.most = .bounded (.ofNat n)) ∨
    (¬ BddAbove (occurrences A name) ∧ bounds.most = .unbounded)

theorem Bounds.isExact_capped {A : List String → Prop} {name : String} {a : ℕ} {b : ℕ∞}
    (h : Ranges A name a b) : (capped a b).IsExact A name := by
  refine ⟨⟨a, h.isLeast, rfl⟩, ?_⟩
  induction b with
  | top => exact .inr ⟨h.not_bddAbove, rfl⟩
  | coe n => exact .inl ⟨n, h.isGreatest, rfl⟩

end Crosswalk

import Crosswalk.Problem
import Mathlib.Data.List.Induction
import Mathlib.Data.String.Basic

/-!
# Problems in order of file

Problems are put in order of file one after the other, each behind those that are there. So the order
of what is kept does not depend on what is left out, before or afterwards.
-/

namespace Crosswalk

namespace Problem

/-- The files do not decrease. -/
def Ordered (problems : List Problem) : Prop :=
  problems.Pairwise fun p q => p.filename ≤ q.filename

theorem mem_insertByFile {p q : Problem} {problems : List Problem} :
    q ∈ insertByFile p problems ↔ q = p ∨ q ∈ problems := by
  induction problems with
  | nil => simp [insertByFile]
  | cons first rest ih =>
      unfold insertByFile
      split
      · exact List.mem_cons
      · rw [List.mem_cons, ih, List.mem_cons]
        exact or_left_comm

theorem Ordered.insertByFile {problems : List Problem} (h : Ordered problems) (p : Problem) :
    Ordered (insertByFile p problems) := by
  induction problems with
  | nil => exact List.pairwise_singleton _ p
  | cons first rest ih =>
      obtain ⟨hfirst, hrest⟩ := List.pairwise_cons.1 h
      unfold Problem.insertByFile
      split
      · next hlt =>
          refine List.pairwise_cons.2 ⟨fun q hq => ?_, h⟩
          rcases List.mem_cons.1 hq with rfl | hq
          · exact hlt.le
          · exact hlt.le.trans (hfirst q hq)
      · next hle =>
          refine List.pairwise_cons.2 ⟨fun q hq => ?_, ih hrest⟩
          rcases mem_insertByFile.1 hq with rfl | hq
          · exact not_lt.1 hle
          · exact hfirst q hq

theorem sortByFile_append_singleton (problems : List Problem) (p : Problem) :
    sortByFile (problems ++ [p]) = insertByFile p (sortByFile problems) :=
  List.foldl_append

theorem ordered_sortByFile (problems : List Problem) : Ordered (sortByFile problems) := by
  induction problems using List.reverseRecOn with
  | nil => exact .nil
  | append_singleton rest p ih =>
      rw [sortByFile_append_singleton]
      exact ih.insertByFile p

theorem mem_sortByFile {p : Problem} {problems : List Problem} :
    p ∈ sortByFile problems ↔ p ∈ problems := by
  induction problems using List.reverseRecOn with
  | nil => exact Iff.rfl
  | append_singleton rest q ih =>
      rw [sortByFile_append_singleton, mem_insertByFile, ih, List.mem_append, List.mem_singleton,
        or_comm]

theorem insertByFile_perm (p : Problem) (problems : List Problem) :
    (insertByFile p problems).Perm (p :: problems) := by
  induction problems with
  | nil => exact .refl _
  | cons first rest ih =>
      unfold insertByFile
      split
      · exact .refl _
      · exact (ih.cons first).trans (.swap p first rest)

/-- Putting problems in order leaves none out and repeats none. -/
theorem sortByFile_perm (problems : List Problem) : (sortByFile problems).Perm problems := by
  induction problems using List.reverseRecOn with
  | nil => exact .refl _
  | append_singleton rest p ih =>
      rw [sortByFile_append_singleton]
      exact (insertByFile_perm p _).trans ((ih.cons p).trans (List.perm_append_singleton p rest).symm)

/-- In front of problems of later files there is the place of a problem. -/
theorem insertByFile_of_lt {p : Problem} {problems : List Problem}
    (h : ∀ q ∈ problems, p.filename < q.filename) : insertByFile p problems = p :: problems := by
  cases problems with
  | nil => rfl
  | cons first rest => rw [insertByFile, if_pos (h first List.mem_cons_self)]

theorem filter_insertByFile {problems : List Problem} (h : Ordered problems) (keep : Problem → Bool)
    (p : Problem) : (insertByFile p problems).filter keep =
      if keep p then insertByFile p (problems.filter keep) else problems.filter keep := by
  induction problems with
  | nil => cases hp : keep p <;> simp [insertByFile, hp]
  | cons first rest ih =>
      obtain ⟨hfirst, hrest⟩ := List.pairwise_cons.1 h
      rw [insertByFile]
      split
      · next hlt =>
          have hlater : ∀ q ∈ (first :: rest).filter keep, p.filename < q.filename := fun q hq =>
            (List.mem_cons.1 (List.mem_of_mem_filter hq)).elim (fun heq => heq ▸ hlt)
              fun hq => hlt.trans_le (hfirst q hq)
          rw [List.filter_cons, insertByFile_of_lt hlater]
      · next hle =>
          rw [List.filter_cons, ih hrest, List.filter_cons]
          split <;> split
          · rw [insertByFile, if_neg hle]
          · rfl
          · rfl
          · rfl

/-- Problems may be left out before or after they are put in order. -/
theorem sortByFile_filter (keep : Problem → Bool) (problems : List Problem) :
    sortByFile (problems.filter keep) = (sortByFile problems).filter keep := by
  induction problems using List.reverseRecOn with
  | nil => rfl
  | append_singleton rest p ih =>
      rw [sortByFile_append_singleton, filter_insertByFile (ordered_sortByFile rest), ← ih,
        List.filter_append]
      cases hp : keep p with
      | true =>
          rw [List.filter_cons_of_pos hp, List.filter_nil, if_pos rfl, sortByFile_append_singleton]
      | false =>
          rw [List.filter_cons_of_neg (Bool.eq_false_iff.1 hp), List.filter_nil, List.append_nil,
            if_neg Bool.false_ne_true]

/-- Problems of one file stay in their order. -/
theorem sortByFile_of_same {filename : String} {problems : List Problem}
    (h : ∀ p ∈ problems, p.filename = filename) : sortByFile problems = problems := by
  have hbehind : ∀ (p : Problem) (rest : List Problem), (∀ q ∈ rest, q.filename = p.filename) →
      insertByFile p rest = rest ++ [p] := by
    intro p rest hrest
    induction rest with
    | nil => rfl
    | cons first rest ih =>
        rw [List.forall_mem_cons] at hrest
        rw [insertByFile, if_neg (hrest.1 ▸ lt_irrefl _), ih hrest.2, List.cons_append]
  induction problems using List.reverseRecOn with
  | nil => rfl
  | append_singleton rest p ih =>
      have hp := h p (List.mem_append_right _ (List.mem_singleton_self p))
      have hrest : ∀ q ∈ rest, q.filename = filename := fun q hq => h q (List.mem_append_left _ hq)
      rw [sortByFile_append_singleton, ih hrest]
      exact hbehind p rest fun q hq => (hrest q hq).trans hp.symm

/-- What is said about one file stays in its order. -/
theorem filter_sortByFile (problems : List Problem) (filename : String) :
    (sortByFile problems).filter (fun p => p.filename = filename) =
      problems.filter fun p => p.filename = filename := by
  rw [← sortByFile_filter]
  exact sortByFile_of_same fun p hp => of_decide_eq_true (List.mem_filter.1 hp).2

end Problem

end Crosswalk

import Crosswalk.Linkage.Basic
import Mathlib.Algebra.GroupWithZero.Nat

/-!
# How often model groups are referred to

Linking follows the references of all files one after the other and counts those of model groups. In
the end a group has as many uses as there are references in the files that stand for it, in whatever
order they were followed.
-/

namespace Crosswalk

namespace Linkage

variable {l : Linkage} {q : QName}

/-- Whether a reference of a file is one to a model group. -/
def isUseOf (l : Linkage) (q : QName) (file : File) (r : Reference) : Bool :=
  r.kind = .group && (l.resolve? .group file r.name).any fun resolved => resolved.name = q

/-- How many references of a file are ones to a model group. -/
def usesIn (l : Linkage) (q : QName) (file : File) : Nat :=
  file.schema.references.countP (l.isUseOf q file)

/-- Files whose references stand for the same refer to a group equally often. -/
theorem usesIn_eq {m : Linkage} {file : File}
    (h : ∀ r ∈ file.schema.references,
      l.resolve? r.kind file r.name = m.resolve? r.kind file r.name)
    (q : QName) : l.usesIn q file = m.usesIn q file := by
  refine List.countP_congr fun r hr => ?_
  unfold isUseOf
  by_cases hk : r.kind = .group
  · rw [← hk, h r hr]
  · simp [hk]

theorem usesIn_eq_zero {file : File} (h : ∀ r ∈ file.schema.references, r.kind ≠ .group)
    (q : QName) : l.usesIn q file = 0 :=
  List.countP_eq_zero.2 fun r hr => by simp [isUseOf, h r hr]

/-- How often a model group was referred to so far. -/
def Tally.uses (t : Tally) (q : QName) : Nat := (t.groupUses.find? q).getD 0

@[simp] theorem Tally.uses_report (t : Tally) (file : File) (r : Reference) (p : Problem) :
    (t.report file r p).uses q = t.uses q := by
  unfold Tally.report
  dsimp only
  split <;> rfl

theorem Tally.uses_count (t : Tally) (name : QName) :
    (t.count name).uses q = t.uses q + if name = q then 1 else 0 := by
  unfold Tally.count Tally.uses
  split
  · next heq => rw [heq, Table.find?_insert_self, Option.getD_some]
  · next hne => rw [Table.find?_insert_of_ne _ _ (Ne.symm hne), Nat.add_zero]

/-- Following a reference counts it if it is a use of the group. -/
theorem uses_follow (t : Tally) (file : File) (r : Reference) :
    (l.follow t (file, r)).uses q = t.uses q + if l.isUseOf q file r then 1 else 0 := by
  unfold follow isUseOf
  dsimp only
  by_cases hk : r.kind = .group
  · rw [hk]
    cases l.resolve? .group file r.name with
    | none => simp
    | some resolved =>
        dsimp only
        split <;> simp [Tally.uses_count]
  · cases l.resolve? r.kind file r.name with
    | none => simp [hk]
    | some resolved =>
        dsimp only
        split <;> simp [hk]

theorem uses_foldl (references : List (File × Reference)) (t : Tally) :
    (references.foldl l.follow t).uses q =
      t.uses q + references.countP fun use => l.isUseOf q use.1 use.2 := by
  induction references generalizing t with
  | nil => rfl
  | cons use rest ih =>
      rw [List.foldl_cons, ih, uses_follow, List.countP_cons]
      omega

/-- A group has as many uses as there are references to it in the files of the catalog. -/
theorem groupUseCount_ofCatalog (catalog : Catalog) (resolution : Resolution) (q : QName) :
    (ofCatalog catalog resolution).1.groupUseCount q =
      (catalog.files.map ((ofCatalog catalog resolution).1.usesIn q)).sum := by
  have hcount := uses_foldl (q := q)
    (l := ⟨catalog, resolution, (({} : Declarations).addFiles catalog.files).1, []⟩)
    (allReferences catalog) {}
  have hnone : ({} : Tally).uses q = 0 := rfl
  rw [hnone, Nat.zero_add, allReferences, List.countP_flatMap] at hcount
  refine hcount.trans (congrArg List.sum (List.map_congr_left fun file _ => ?_))
  rw [Function.comp_apply, List.countP_map]
  rfl

end Linkage

end Crosswalk

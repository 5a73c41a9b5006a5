import Crosswalk.Options
import Mathlib.Data.List.TakeWhile

/-!
# Names of documents

The document of a file is named for the file without directories and with another extension. If the
extension has no point and no separator, and the file has a name without its directories, then the
name of a document is one that stands for itself: a file of that name becomes a document of the same
name.
-/

namespace Crosswalk

namespace Options

/-- Whether a character separates directories. -/
def isSeparator (c : Char) : Bool := c == '/' || c == '\\'

/-- An extension is plain if the name it ends is in no directory and has no further extension. -/
def IsPlain (extension : String) : Prop :=
  ∀ c ∈ extension.toList, c ≠ '.' ∧ isSeparator c = false

instance (extension : String) : Decidable (IsPlain extension) :=
  List.decidableBAll _ extension.toList

theorem baseName_of_plain {name : List Char} (h : ∀ c ∈ name, isSeparator c = false) :
    baseName name = name := by
  have htake : name.reverse.takeWhile (fun c => !isSeparator c) = name.reverse :=
    List.takeWhile_eq_self_iff.2 fun c hc => by simp [h c (List.mem_reverse.1 hc)]
  exact (congrArg List.reverse htake).trans (List.reverse_reverse name)

/-- A name without directories has no separator in it. -/
theorem isSeparator_of_mem_baseName {name : List Char} {c : Char} (h : c ∈ baseName name) :
    isSeparator c = false := by
  have hc := List.mem_takeWhile_imp (List.mem_reverse.1 h)
  simpa [isSeparator] using hc

theorem dropWhile_point {before extension : List Char} (h : '.' ∉ extension) :
    (before ++ '.' :: extension).reverse.dropWhile (· != '.') = '.' :: before.reverse := by
  rw [List.reverse_append, List.reverse_cons, List.append_assoc, List.dropWhile_append_of_pos]
  · rfl
  · intro c hc
    rw [bne_iff_ne]
    rintro rfl
    exact h (List.mem_reverse.1 hc)

/-- The last extension is what a stem leaves out. -/
theorem stem_append {before extension : List Char} (hb : before ≠ []) (h : '.' ∉ extension) :
    stem (before ++ '.' :: extension) = before := by
  unfold stem
  rw [dropWhile_point h, List.drop_one, List.tail_cons]
  split
  · next hnil => exact absurd (List.reverse_eq_nil_iff.1 hnil) hb
  · exact List.reverse_reverse before

/-- What a stem consists of is in the name. -/
theorem mem_of_mem_stem {name : List Char} {c : Char} (h : c ∈ stem name) : c ∈ name := by
  unfold stem at h
  split at h
  · exact h
  · exact List.mem_reverse.1 ((List.dropWhile_sublist _).mem
      ((List.drop_sublist 1 _).mem (List.mem_reverse.1 h)))

theorem stem_ne_nil {name : List Char} (h : name ≠ []) : stem name ≠ [] := by
  unfold stem
  split
  · exact h
  · next hne => exact fun hnil => hne (List.reverse_eq_nil_iff.1 hnil)

theorem toList_identifierOf (o : Options) (filename : String) : (o.identifierOf filename).toList =
    stem (baseName filename.toList) ++ '.' :: o.outputExtension.toList := by
  simp [identifierOf]

section

variable {o : Options} (ho : IsPlain o.outputExtension) {filename : String}
include ho

/-- The name of a document has no separator in it. -/
theorem isSeparator_of_mem_identifierOf {c : Char} (h : c ∈ (o.identifierOf filename).toList) :
    isSeparator c = false := by
  rw [toList_identifierOf, List.mem_append, List.mem_cons] at h
  obtain hc | rfl | hc := h
  · exact isSeparator_of_mem_baseName (mem_of_mem_stem hc)
  · rfl
  · exact (ho c hc).2

/-- The name of a document does not end in a point. -/
theorem getLast?_identifierOf (hne : o.outputExtension ≠ "") :
    (o.identifierOf filename).toList.getLast? ≠ some '.' := by
  have hnil : o.outputExtension.toList ≠ [] := fun h => hne (String.toList_eq_nil_iff.1 h)
  rw [toList_identifierOf, List.append_cons, List.getLast?_append,
    List.getLast?_eq_some_getLast hnil, Option.some_or]
  exact fun hlast => (ho '.' (Option.some.inj hlast ▸ List.getLast_mem hnil)).1 rfl

/-- The document of a file that is named like a document has that name itself. -/
theorem identifierOf_identifierOf (hname : baseName filename.toList ≠ []) :
    o.identifierOf (o.identifierOf filename) = o.identifierOf filename := by
  have hpoint : '.' ∉ o.outputExtension.toList := fun hc => (ho _ hc).1 rfl
  calc o.identifierOf (o.identifierOf filename)
      = String.ofList (stem (baseName (o.identifierOf filename).toList)) ++ "." ++
          o.outputExtension := rfl
    _ = o.identifierOf filename := by
        rw [baseName_of_plain fun c => isSeparator_of_mem_identifierOf ho, toList_identifierOf,
          stem_append (stem_ne_nil hname) hpoint]
        rfl

end

end Options

end Crosswalk

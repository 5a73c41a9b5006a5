import Mathlib.Data.List.TakeWhile

/-!
# References against a base

A reference to a resource has up to five parts: a scheme with a colon behind it, an authority with
two slashes before it, a path, a query behind a question mark and a fragment behind a number sign.
Read against a base, it takes from the base the parts that come before its own first one, and a path
that does not begin with a slash stands in the place of the last segment of the path of the base.
Segments that are one dot or two are then taken out. Nothing is decoded or encoded.

A reference that is one segment leads from any document in a directory to that of the same directory
(`Uri.against_segment`).
-/

namespace Crosswalk

namespace Uri

/-- What stands before the first of some marks. -/
def upTo (marks cs : List Char) : List Char := cs.takeWhile fun c => !marks.contains c

/-- The text from the first of some marks on. -/
def startingAt (marks cs : List Char) : List Char := cs.dropWhile fun c => !marks.contains c

/-- The parts of a reference. -/
structure Parts where
  scheme : Option (List Char)
  authority : Option (List Char)
  path : List Char
  query : Option (List Char)
  fragment : Option (List Char)
  deriving DecidableEq, Repr

/-- The marks that end a scheme. -/
def marks : List Char := [':', '/', '?', '#']

/-- A scheme, if there is one, and what is behind it. -/
def splitScheme (cs : List Char) : Option (List Char) × List Char :=
  match upTo marks cs, startingAt marks cs with
  | c :: scheme, ':' :: rest => (some (c :: scheme), rest)
  | _, _ => (none, cs)

/-- An authority, if there is one, and what is behind it. -/
def splitAuthority : List Char → Option (List Char) × List Char
  | '/' :: '/' :: rest => (some (upTo ['/', '?', '#'] rest), startingAt ['/', '?', '#'] rest)
  | cs => (none, cs)

/-- A query, if there is one, and what is behind it. -/
def splitQuery : List Char → Option (List Char) × List Char
  | '?' :: rest => (some (upTo ['#'] rest), startingAt ['#'] rest)
  | cs => (none, cs)

/-- A fragment, if there is one. -/
def fragment? : List Char → Option (List Char)
  | '#' :: rest => some rest
  | _ => none

/-- The path without its last segment and the slash before it. -/
def withoutLast (path : List Char) : List Char :=
  ((path.reverse.dropWhile (· != '/')).drop 1).reverse

/-- Moves a path behind another one, segment by segment. A segment of one dot is left out, and one of
two dots takes the last segment back. -/
def removeDots (moved : List Char) : List Char → List Char
  | [] => moved
  | '.' :: '.' :: '/' :: rest => removeDots moved rest
  | '.' :: '/' :: rest => removeDots moved rest
  | '/' :: '.' :: '/' :: rest => removeDots moved ('/' :: rest)
  | ['/', '.'] => removeDots moved ['/']
  | '/' :: '.' :: '.' :: '/' :: rest => removeDots (withoutLast moved) ('/' :: rest)
  | ['/', '.', '.'] => removeDots (withoutLast moved) ['/']
  | ['.'] => moved
  | ['.', '.'] => moved
  | c :: rest => removeDots (moved ++ c :: upTo ['/'] rest) (startingAt ['/'] rest)
termination_by path => path.length
decreasing_by
  all_goals simp only [List.length_cons, List.length_nil, startingAt]
  all_goals first
    | omega
    | exact Nat.lt_succ_of_le (List.dropWhile_sublist _).length_le

namespace Parts

/-- The parts of a text. -/
def ofText (cs : List Char) : Parts :=
  let (scheme, rest) := splitScheme cs
  let (authority, rest) := splitAuthority rest
  let path := upTo ['?', '#'] rest
  let (query, rest) := splitQuery (startingAt ['?', '#'] rest)
  ⟨scheme, authority, path, query, fragment? rest⟩

/-- The text of the parts. -/
def text (p : Parts) : List Char :=
  p.scheme.elim [] (· ++ [':']) ++ p.authority.elim [] (['/', '/'] ++ ·) ++ p.path ++
    p.query.elim [] ('?' :: ·) ++ p.fragment.elim [] ('#' :: ·)

/-- A path in place of the last segment of the path of a base. -/
def merged (base : Parts) (path : List Char) : List Char :=
  if base.authority.isSome ∧ base.path = [] then '/' :: path
  else (base.path.reverse.dropWhile (· != '/')).reverse ++ path

/-- A reference read against a base. -/
def against (base reference : Parts) : Parts :=
  if reference.scheme.isSome then { reference with path := removeDots [] reference.path }
  else if reference.authority.isSome then
    { reference with scheme := base.scheme, path := removeDots [] reference.path }
  else if reference.path = [] then
    { base with query := reference.query.or base.query, fragment := reference.fragment }
  else
    let path := if reference.path.head? = some '/' then reference.path
      else base.merged reference.path
    { reference with
      scheme := base.scheme, authority := base.authority, path := removeDots [] path }

end Parts

/-- The URI that a reference makes with a base. -/
def resolve (base reference : String) : String :=
  String.ofList ((Parts.ofText base.toList).against (Parts.ofText reference.toList)).text

/-! ### Single segments -/

section

variable {stops cs : List Char} (h : ∀ c ∈ cs, c ∉ stops)
include h

theorem upTo_append {c : Char} (hc : c ∈ stops) (rest : List Char) :
    upTo stops (cs ++ c :: rest) = cs := by
  rw [upTo, List.takeWhile_append_of_pos (by simpa using h)]
  simp [hc]

theorem startingAt_append {c : Char} (hc : c ∈ stops) (rest : List Char) :
    startingAt stops (cs ++ c :: rest) = c :: rest := by
  rw [startingAt, List.dropWhile_append_of_pos (by simpa using h)]
  simp [hc]

theorem upTo_of_forall : upTo stops cs = cs := by
  rw [upTo, List.takeWhile_eq_self_iff]
  simpa using h

theorem startingAt_of_forall : startingAt stops cs = [] := by
  rw [startingAt, List.dropWhile_eq_nil_iff]
  simpa using h

end

/-- A segment that is a reference by itself: it has no mark, and it is not left out. -/
structure IsSegment (cs : List Char) : Prop where
  noMark : ∀ c ∈ cs, c ∉ marks
  nonempty : cs ≠ []
  notDot : cs ≠ ['.']
  notDots : cs ≠ ['.', '.']

theorem forall_not_mem_of_subset {cs more fewer : List Char} (h : ∀ c ∈ cs, c ∉ more)
    (hsub : fewer ⊆ more) : ∀ c ∈ cs, c ∉ fewer := fun c hc hf => h c hc (hsub hf)

namespace IsSegment

variable {segment : List Char} (h : IsSegment segment)
include h

/-- A segment is moved as it is. -/
theorem removeDots_slash : removeDots [] ('/' :: segment) = '/' :: segment := by
  have hslash : ∀ c ∈ segment, c ∉ ['/'] := forall_not_mem_of_subset h.noMark (by decide)
  have hnone : '/' ∉ segment := fun hc => hslash _ hc (List.mem_singleton_self _)
  rw [removeDots]
  case x_3 =>
    rintro rest - rfl
    exact hnone (by simp)
  case x_5 =>
    rintro rest - rfl
    exact hnone (by simp)
  case x_4 => exact fun _ => h.notDot
  case x_6 => exact fun _ => h.notDots
  · rw [upTo_of_forall hslash, startingAt_of_forall hslash, removeDots]
    rfl
  all_goals simp

/-- A segment is a path and nothing else. -/
theorem ofText : Parts.ofText segment = ⟨none, none, segment, none, none⟩ := by
  have hquery : ∀ c ∈ segment, c ∉ ['?', '#'] := forall_not_mem_of_subset h.noMark (by decide)
  have hscheme : splitScheme segment = (none, segment) := by
    rw [splitScheme, upTo_of_forall h.noMark, startingAt_of_forall h.noMark]
    cases segment <;> rfl
  have hauthority : splitAuthority segment = (none, segment) := by
    unfold splitAuthority
    split
    · exact absurd (by decide) (h.noMark '/' (by simp))
    · rfl
  simp only [Parts.ofText, hscheme, hauthority, upTo_of_forall hquery, startingAt_of_forall hquery]
  rfl

end IsSegment

section

variable {scheme authority prior : List Char} (hs : ∀ c ∈ scheme, c ∉ marks) (hne : scheme ≠ [])
  (ha : ∀ c ∈ authority, c ∉ ['/', '?', '#']) (hp : ∀ c ∈ prior, c ∉ marks)
include hs hne ha hp

/-- The parts of a document in a directory without a name. -/
theorem ofText_document :
    Parts.ofText (scheme ++ ':' :: '/' :: '/' :: (authority ++ '/' :: prior)) =
      ⟨some scheme, some authority, '/' :: prior, none, none⟩ := by
  have hpath : ∀ c ∈ '/' :: prior, c ∉ ['?', '#'] := List.forall_mem_cons.2
    ⟨by decide, forall_not_mem_of_subset hp (by decide)⟩
  have hscheme : splitScheme (scheme ++ ':' :: '/' :: '/' :: (authority ++ '/' :: prior)) =
      (some scheme, '/' :: '/' :: (authority ++ '/' :: prior)) := by
    rw [splitScheme, upTo_append hs (by decide), startingAt_append hs (by decide)]
    obtain ⟨c, rest, rfl⟩ := List.exists_cons_of_ne_nil hne
    rfl
  have hauthority : splitAuthority ('/' :: '/' :: (authority ++ '/' :: prior)) =
      (some authority, '/' :: prior) := by
    rw [splitAuthority, upTo_append ha (by decide), startingAt_append ha (by decide)]
  simp only [Parts.ofText, hscheme, hauthority, upTo_of_forall hpath, startingAt_of_forall hpath]
  rfl

/-- A segment leads from one document to the other of the same directory. -/
theorem against_segment {segment : List Char} (h : IsSegment segment) :
    ((Parts.ofText (scheme ++ ':' :: '/' :: '/' :: (authority ++ '/' :: prior))).against
        (Parts.ofText segment)).text =
      scheme ++ ':' :: '/' :: '/' :: (authority ++ '/' :: segment) := by
  have hslash : ∀ c ∈ prior, (c != '/') = true := fun c hc => by
    rw [bne_iff_ne]
    rintro rfl
    exact hp _ hc (by decide)
  have hmerged : Parts.merged ⟨some scheme, some authority, '/' :: prior, none, none⟩ segment =
      '/' :: segment := by
    have hlast : ('/' :: prior).reverse.dropWhile (· != '/') = ['/'] := by
      rw [List.reverse_cons, List.dropWhile_append_of_pos fun c hc =>
        hslash c (List.mem_reverse.1 hc)]
      rfl
    rw [Parts.merged, if_neg (by simp), hlast]
    rfl
  have hagainst : Parts.against ⟨some scheme, some authority, '/' :: prior, none, none⟩
      ⟨none, none, segment, none, none⟩ =
        ⟨some scheme, some authority, '/' :: segment, none, none⟩ := by
    have hhead : segment.head? ≠ some '/' := fun hhead =>
      h.noMark '/' (List.mem_of_head? hhead) (by decide)
    simp [Parts.against, h.nonempty, hhead, hmerged, h.removeDots_slash]
  rw [ofText_document hs hne ha hp, h.ofText, hagainst]
  simp [Parts.text]

example : resolve "json-schema:///a%20b.json" "b%2Fc.json" =
    "json-schema:///b%2Fc.json" := by cbv

end

end Uri

end Crosswalk

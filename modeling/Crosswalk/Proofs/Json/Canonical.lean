import Crosswalk.Proofs.Json.Reader
import Crosswalk.Proofs.Table

/-!
# The canonical form identifies a value

A value whose numbers are integers of 64 bits is read back from its canonical form, with the members
of its objects in order of name. The reader counts the containers it goes down into, so that a value
that nests deeper than `Json.deepestNesting` is written and not read; with the depth as a parameter
the reading back is an equation, which holds at every depth. Two values therefore have the same
canonical form exactly if they are equal up to the order of members.
-/

namespace Crosswalk

namespace Json

/-- How many containers are inside one another in a value, itself included. -/
def nesting : Json → ℕ
  | .array items => nestingItems items + 1
  | .object fields => nestingFields fields + 1
  | _ => 0
where
  nestingItems : List Json → ℕ
    | [] => 0
    | a :: rest => max (nesting a) (nestingItems rest)
  nestingFields : List (String × Json) → ℕ
    | [] => 0
    | (_, a) :: rest => max (nesting a) (nestingFields rest)

theorem nesting_array_le {xs : List Json} {depth : ℕ} :
    (Json.array xs).nesting ≤ depth + 1 ↔ ∀ x ∈ xs, x.nesting ≤ depth := by
  rw [nesting, Nat.add_le_add_iff_right]
  induction xs with
  | nil => simp [nesting.nestingItems]
  | cons x xs ih => rw [nesting.nestingItems, Nat.max_le, ih, List.forall_mem_cons]

theorem nesting_object_le {fs : List (String × Json)} {depth : ℕ} :
    (Json.object fs).nesting ≤ depth + 1 ↔ ∀ e ∈ fs, e.2.nesting ≤ depth := by
  rw [nesting, Nat.add_le_add_iff_right]
  induction fs with
  | nil => simp [nesting.nestingFields]
  | cons e fs ih => rw [nesting.nestingFields, Nat.max_le, ih, List.forall_mem_cons]

/-- The value with the members of its objects in order of name, at every level. -/
def sorted : Json → Json
  | .array items => .array (sortedItems items)
  | .object fields => .ofFields (sortedFields fields)
  | v => v
where
  sortedItems : List Json → List Json
    | [] => []
    | a :: rest => sorted a :: sortedItems rest
  sortedFields : List (String × Json) → List (String × Json)
    | [] => []
    | (k, a) :: rest => (k, sorted a) :: sortedFields rest

theorem sorted_array (xs : List Json) : (Json.array xs).sorted = .array (xs.map sorted) := by
  rw [sorted]
  congr 1
  induction xs with
  | nil => rfl
  | cons x xs ih => rw [sorted.sortedItems, ih, List.map_cons]

theorem sorted_object (fs : List (String × Json)) :
    (Json.object fs).sorted = .ofFields (fs.map fun e => (e.1, e.2.sorted)) := by
  rw [sorted]
  congr 1
  induction fs with
  | nil => rfl
  | cons e fs ih => rw [sorted.sortedFields, ih, List.map_cons]

/-- The members of objects are in order of name, at every level. -/
inductive InOrder : Json → Prop
  | null : InOrder .null
  | bool (b : Bool) : InOrder (.bool b)
  | number (n : Number) : InOrder (.number n)
  | string (s : String) : InOrder (.string s)
  | array {xs : List Json} (h : ∀ x ∈ xs, InOrder x) : InOrder (.array xs)
  | object {fs : List (String × Json)} (hs : Table.Sorted fs) (h : ∀ e ∈ fs, InOrder e.2) :
      InOrder (.object fs)

theorem InOrder.sorted_eq {v : Json} (h : InOrder v) : v.sorted = v := by
  induction h with
  | null | bool | number | string => rfl
  | @array xs _ ih => rw [sorted_array, List.map_congr_left ih, List.map_id']
  | @object fs hs _ ih =>
      have hsame : fs.map (fun e => (e.1, e.2.sorted)) = fs := by
        conv_rhs => rw [← List.map_id fs]
        exact List.map_congr_left fun e he => Prod.ext rfl (ih e he)
      rw [sorted_object, hsame, ofFields,
        (Table.sorted_ofList fs).eq_of_perm hs (Table.ofList_perm_self hs.nodup)]

/-- Numbers are integers of 64 bits, signed or unsigned, and no object has two members of one
name. -/
inductive IsIntegral : Json → Prop
  | null : IsIntegral .null
  | bool (b : Bool) : IsIntegral (.bool b)
  | int {n : ℤ} (h : Number.fits n = true) : IsIntegral (.int n)
  | string (s : String) : IsIntegral (.string s)
  | array {xs : List Json} (h : ∀ x ∈ xs, IsIntegral x) : IsIntegral (.array xs)
  | object {fs : List (String × Json)} (hn : (fs.map (·.1)).Nodup) (h : ∀ e ∈ fs, IsIntegral e.2) :
      IsIntegral (.object fs)

/-! ### Members as written -/

theorem quote_injective : Function.Injective quote := by
  intro s t h
  have hs := Reader.stringBody_append s.toList [] []
  have ht := Reader.stringBody_append t.toList [] []
  have hquote : s.toList.flatMap escapeChar ++ ['"'] = t.toList.flatMap escapeChar ++ ['"'] :=
    (List.cons.inj h).2
  rw [hquote, ht] at hs
  simpa using hs.symm

/-- Members with their names as written. -/
def underQuoted (fs : List (String × Json)) : List (String × (String × Json)) :=
  fs.map fun e => (String.ofList (quote e.1), e)

/-- The members of an object in the order of their names as written. -/
def inWriting (fs : List (String × Json)) : List (String × Json) :=
  (Table.ofList (underQuoted fs)).values

theorem nodup_underQuoted {fs : List (String × Json)} (hn : (fs.map (·.1)).Nodup) :
    ((underQuoted fs).map (·.1)).Nodup := by
  have hmap := hn.map (f := fun k => String.ofList (quote k)) fun a b h =>
      quote_injective (String.ofList_injective h)
  rw [List.map_map] at hmap
  rwa [underQuoted, List.map_map]

theorem inWriting_perm {fs : List (String × Json)} (hn : (fs.map (·.1)).Nodup) :
    (inWriting fs).Perm fs := by
  have hperm := (Table.ofList_perm_self (nodup_underQuoted hn)).map (·.2)
  rwa [underQuoted, List.map_map, show (Prod.snd ∘ fun e : String × Json =>
    (String.ofList (quote e.1), e)) = id from rfl, List.map_id] at hperm

/-- The order in which members are written makes no difference to the object. -/
theorem ofFields_inWriting {fs : List (String × Json)} (hn : (fs.map (·.1)).Nodup) :
    ofFields ((inWriting fs).map fun e => (e.1, e.2.sorted)) = (Json.object fs).sorted := by
  have hperm := inWriting_perm hn
  have hnames : (((inWriting fs).map fun e => (e.1, e.2.sorted)).map (·.1)).Nodup := by
    rw [List.map_map]
    exact (hperm.map _).nodup_iff.2 hn
  rw [sorted_object, ofFields, ofFields, Table.ofList_perm (hperm.map _) hnames]

theorem inWriting_congr {fs gs : List (String × Json)} (h : fs.Perm gs)
    (hn : (fs.map (·.1)).Nodup) : inWriting fs = inWriting gs :=
  congrArg Table.values (Table.ofList_perm (h.map _) (nodup_underQuoted hn))

theorem canonicalChars_array (xs : List Json) :
    (Json.array xs).canonicalChars =
      '[' :: (separated [','] (xs.map canonicalChars) ++ [']']) := by
  rw [canonicalChars]
  congr 3
  induction xs with
  | nil => rfl
  | cons x xs ih => rw [canonicalChars.items, ih, List.map_cons]

theorem members_eq (fs : List (String × Json)) :
    canonicalChars.members fs = fs.map fun e => (quote e.1, e.2.canonicalChars) := by
  induction fs with
  | nil => rfl
  | cons e fs ih => rw [canonicalChars.members, ih, List.map_cons]

theorem canonicalChars_object (fs : List (String × Json)) :
    (Json.object fs).canonicalChars =
      '\x7b' :: (separated [','] ((inWriting fs).map fun e => quote e.1 ++ ':' :: e.2.canonicalChars)
        ++ ['\x7d']) := by
  have hmembers : (fs.map fun e => (quote e.1, e.2.canonicalChars)) =
      (underQuoted fs).map (Prod.map String.toList fun e => e.2.canonicalChars) := by
    rw [underQuoted, List.map_map]
    exact List.map_congr_left fun e _ => by simp
  rw [canonicalChars, members_eq, hmembers,
    Table.ofList_prodMap _ (fun _ _ => String.toList_inj.1) fun _ _ => Iff.rfl, List.map_map,
    inWriting, Table.values, List.map_map]
  congr 3
  refine List.map_congr_left fun d hd => ?_
  obtain ⟨e, -, rfl⟩ := List.mem_map.1 (Table.mem_ofList hd)
  simp

namespace Reader

theorem beginsValue_canonicalChars {v : Json} (h : IsIntegral v) : BeginsValue v.canonicalChars := by
  cases h with
  | null => exact ⟨'n', _, rfl, rfl, by decide, by decide⟩
  | bool b =>
      cases b with
      | true => exact ⟨'t', _, rfl, rfl, by decide, by decide⟩
      | false => exact ⟨'f', _, rfl, rfl, by decide, by decide⟩
  | int => exact beginsValue_intChars _
  | string s => exact ⟨'"', _, rfl, rfl, by decide, by decide⟩
  | array => exact ⟨'[', _, canonicalChars_array _, rfl, by decide, by decide⟩
  | object => exact ⟨'\x7b', _, canonicalChars_object _, rfl, by decide, by decide⟩

/-- Arrays are read one level further down. -/
theorem value_array_canonicalChars {xs : List Json} {depth : ℕ}
    (h : ∀ x ∈ xs, Reads (value depth) canonicalChars (fun v => v.nesting ≤ depth) sorted x)
    (rest : List Char) :
    value (depth + 1) ((Json.array xs).canonicalChars ++ rest) =
      if ∀ x ∈ xs, x.nesting ≤ depth then some (.array (xs.map sorted), rest) else none := by
  rw [canonicalChars_array, List.cons_append, List.append_assoc, List.singleton_append]
  cases xs with
  | nil => rfl
  | cons x xs =>
      have hbegin : ∀ t ∈ (x :: xs).map canonicalChars, BeginsValue t :=
        List.forall_mem_map.2 fun y hy => (h y hy).1
      have hlen := length_lt_separated hbegin rest ']'
      rw [List.length_map] at hlen
      have hfirst := (h x List.mem_cons_self).1.separated (xs.map canonicalChars)
      rw [← List.map_cons] at hfirst hlen
      rw [value_array hfirst, items_separated h hlen]
      split <;> rfl

/-- Objects are read one level further down, in the order in which their members are written. -/
theorem value_object_canonicalChars {fs : List (String × Json)} {depth : ℕ}
    (h : ∀ e ∈ inWriting fs,
      Reads (value depth) canonicalChars (fun v => v.nesting ≤ depth) sorted e.2)
    (rest : List Char) :
    value (depth + 1) ((Json.object fs).canonicalChars ++ rest) =
      if ∀ e ∈ inWriting fs, e.2.nesting ≤ depth then
        some (.ofFields ((inWriting fs).map fun e => (e.1, e.2.sorted)), rest)
      else none := by
  rw [canonicalChars_object, List.cons_append, List.append_assoc, List.singleton_append]
  generalize inWriting fs = es at h
  cases es with
  | nil => rfl
  | cons e es =>
      have hbegin : ∀ t ∈ (e :: es).map fun e => quote e.1 ++ ':' :: e.2.canonicalChars,
          BeginsValue t := List.forall_mem_map.2 fun d _ => beginsValue_quote d.1 _
      have hlen := length_lt_separated hbegin rest '\x7d'
      rw [List.length_map] at hlen
      have hfirst := (beginsValue_quote e.1 (':' :: e.2.canonicalChars)).separated
        (es.map fun e => quote e.1 ++ ':' :: e.2.canonicalChars)
      rw [← List.map_cons (f := fun e : String × Json => quote e.1 ++ ':' :: e.2.canonicalChars)]
        at hfirst hlen
      rw [value_object hfirst, members_separated h hlen]
      split <;> rfl

/-- A value is read back from its canonical form, with the members of objects in order, if the
reader goes down deep enough, and it is refused otherwise. -/
theorem reads_canonicalChars {v : Json} (h : IsIntegral v) (depth : ℕ) :
    Reads (value depth) canonicalChars (fun v => v.nesting ≤ depth) sorted v := by
  refine ⟨beginsValue_canonicalChars h, ?_⟩
  induction h generalizing depth with
  | null =>
      intro rest _
      exact (value_eq_scalar (by decide) (by decide) depth _).trans (if_pos (Nat.zero_le _)).symm
  | bool b =>
      intro rest _
      have hread : value depth ((bool b).canonicalChars ++ rest) = some (.bool b, rest) := by
        cases b with
        | true => exact (value_eq_scalar (by decide) (by decide) depth _).trans rfl
        | false => exact (value_eq_scalar (by decide) (by decide) depth _).trans rfl
      exact hread.trans (if_pos (Nat.zero_le _)).symm
  | @int n hn =>
      intro rest hrest
      exact (value_intChars hn depth hrest).trans (if_pos (Nat.zero_le _)).symm
  | string s =>
      intro rest _
      exact (value_quote s depth rest).trans (if_pos (Nat.zero_le _)).symm
  | @array xs hxs ih =>
      intro rest _
      cases depth with
      | zero =>
          rw [canonicalChars_array, value, if_neg (by simp [nesting])]
          rfl
      | succ depth =>
          have hitems x (hx : x ∈ xs) : Reads (value depth) canonicalChars
              (fun v => v.nesting ≤ depth) sorted x :=
            ⟨beginsValue_canonicalChars (hxs x hx), ih x hx depth⟩
          rw [value_array_canonicalChars hitems, sorted_array]
          simp only [nesting_array_le]
  | @object fs hn hfs ih =>
      intro rest _
      have hperm := inWriting_perm hn
      cases depth with
      | zero =>
          rw [canonicalChars_object, value, if_neg (by simp [nesting])]
          rfl
      | succ depth =>
          have hmembers e (he : e ∈ inWriting fs) : Reads (value depth) canonicalChars
              (fun v => v.nesting ≤ depth) sorted e.2 :=
            ⟨beginsValue_canonicalChars (hfs e (hperm.mem_iff.1 he)),
              ih e (hperm.mem_iff.1 he) depth⟩
          rw [value_object_canonicalChars hmembers, ofFields_inWriting hn]
          simp only [nesting_object_le, hperm.mem_iff]

end Reader

/-- A text that is the canonical form of a value is read as that value, with its members in order, at
every depth that holds its containers. -/
theorem ofChars?_canonical {v : Json} (h : IsIntegral v) (depth : ℕ) :
    ofChars? depth v.canonical.toList = if v.nesting ≤ depth then some v.sorted else none := by
  have hread := Reader.reads_canonicalChars h depth
  have hvalue := hread.2 [] (fun _ hc => nomatch hc)
  have hblank := hread.1.skipBlanks []
  rw [List.append_nil] at hvalue hblank
  rw [ofChars?, canonical, String.toList_ofList, hblank, hvalue]
  by_cases hn : v.nesting ≤ depth
  · simp only [hn, if_true]
    rfl
  · simp only [hn, if_false]

/-! ### Equality up to the order of members -/

/-- One value is the other with the members of some objects in another order. -/
inductive Reorders : Json → Json → Prop
  | refl (v : Json) : Reorders v v
  | trans {u v w : Json} (h : Reorders u v) (h' : Reorders v w) : Reorders u w
  | members {fs gs : List (String × Json)} (h : fs.Perm gs) : Reorders (.object fs) (.object gs)
  | item {u v : Json} (xs ys : List Json) (h : Reorders u v) :
      Reorders (.array (xs ++ u :: ys)) (.array (xs ++ v :: ys))
  | member {u v : Json} (fs gs : List (String × Json)) (k : String) (h : Reorders u v) :
      Reorders (.object (fs ++ (k, u) :: gs)) (.object (fs ++ (k, v) :: gs))

namespace Reorders

theorem symm {u v : Json} (h : Reorders u v) : Reorders v u := by
  induction h with
  | refl v => exact .refl v
  | trans _ _ ih ih' => exact ih'.trans ih
  | members h => exact .members h.symm
  | item xs ys _ ih => exact .item xs ys ih
  | member fs gs k _ ih => exact .member fs gs k ih

theorem array {xs ys : List Json} (h : List.Forall₂ Reorders xs ys) (zs : List Json) :
    Reorders (.array (zs ++ xs)) (.array (zs ++ ys)) := by
  induction h generalizing zs with
  | nil => exact .refl _
  | @cons x y xs ys hxy _ ih =>
      have hrest := ih (zs ++ [y])
      rw [List.append_assoc, List.append_assoc, List.singleton_append, List.singleton_append]
        at hrest
      exact (item zs xs hxy).trans hrest

theorem object {fs gs : List (String × Json)}
    (h : List.Forall₂ (fun d e => d.1 = e.1 ∧ Reorders d.2 e.2) fs gs)
    (hs : List (String × Json)) : Reorders (.object (hs ++ fs)) (.object (hs ++ gs)) := by
  induction h generalizing hs with
  | nil => exact .refl _
  | @cons d e fs gs hde _ ih =>
      obtain ⟨k, u⟩ := d
      obtain ⟨k', v⟩ := e
      obtain ⟨hk, huv⟩ := hde
      obtain rfl : k = k' := hk
      have hrest := ih (hs ++ [(k, v)])
      rw [List.append_assoc, List.append_assoc, List.singleton_append, List.singleton_append]
        at hrest
      exact (member hs fs k huv).trans hrest

/-- Putting the members in order is a matter of order only. -/
theorem sorted {v : Json} (h : IsIntegral v) : Reorders v v.sorted := by
  induction h with
  | null | bool | int | string => exact .refl _
  | @array xs _ ih =>
      rw [sorted_array]
      refine array (List.forall₂_map_right_iff.2 (List.forall₂_same.2 ih)) []
  | @object fs hn _ ih =>
      have hnames : ((fs.map fun e => (e.1, e.2.sorted)).map (·.1)).Nodup := by
        rwa [List.map_map]
      have hvalues : List.Forall₂ (fun d e => d.1 = e.1 ∧ Reorders d.2 e.2) fs
          (fs.map fun e => (e.1, e.2.sorted)) :=
        List.forall₂_map_right_iff.2 (List.forall₂_same.2 fun e he => ⟨rfl, ih e he⟩)
      rw [sorted_object]
      exact (object hvalues []).trans (.members (Table.ofList_perm_self hnames).symm)

/-- Another order of members makes no difference to the numbers and to the canonical form. -/
theorem isIntegral_and_canonicalChars_eq {u v : Json} (h : Reorders u v) (hu : IsIntegral u) :
    IsIntegral v ∧ u.canonicalChars = v.canonicalChars := by
  induction h with
  | refl v => exact ⟨hu, rfl⟩
  | trans _ _ ih ih' =>
      obtain ⟨hv, heq⟩ := ih hu
      obtain ⟨hw, heq'⟩ := ih' hv
      exact ⟨hw, heq.trans heq'⟩
  | @members fs gs h =>
      cases hu with
      | object hn hfs =>
          refine ⟨.object ((h.map _).nodup_iff.1 hn) fun e he => hfs e (h.mem_iff.2 he), ?_⟩
          rw [canonicalChars_object, canonicalChars_object, inWriting_congr h hn]
  | @item u v xs ys _ ih =>
      cases hu with
      | array hxs =>
          rw [List.forall_mem_append, List.forall_mem_cons] at hxs
          obtain ⟨hv, heq⟩ := ih hxs.2.1
          refine ⟨.array ?_, ?_⟩
          · rw [List.forall_mem_append, List.forall_mem_cons]
            exact ⟨hxs.1, hv, hxs.2.2⟩
          · simp only [canonicalChars_array, List.map_append, List.map_cons, heq]
  | @member u v fs gs k _ ih =>
      cases hu with
      | object hn hfs =>
          rw [List.forall_mem_append, List.forall_mem_cons] at hfs
          obtain ⟨hv, heq⟩ := ih hfs.2.1
          refine ⟨.object ?_ ?_, ?_⟩
          · rwa [List.map_append, List.map_cons] at hn ⊢
          · rw [List.forall_mem_append, List.forall_mem_cons]
            exact ⟨hfs.1, hv, hfs.2.2⟩
          · simp only [canonicalChars, members_eq, List.map_append, List.map_cons, heq]

end Reorders

theorem canonical_eq_iff {u v : Json} (hu : IsIntegral u) (hv : IsIntegral v) :
    u.canonical = v.canonical ↔ Reorders u v := by
  constructor
  · intro h
    have hsorted : ofChars? (max u.nesting v.nesting) u.canonical.toList =
        ofChars? (max u.nesting v.nesting) v.canonical.toList := by rw [h]
    rw [ofChars?_canonical hu, ofChars?_canonical hv, if_pos (Nat.le_max_left _ _),
      if_pos (Nat.le_max_right _ _), Option.some.injEq] at hsorted
    exact (Reorders.sorted hu).trans (hsorted ▸ (Reorders.sorted hv).symm)
  · intro h
    rw [canonical, canonical, (h.isIntegral_and_canonicalChars_eq hu).2]

/-- The bytes of the canonical form are the same exactly for values that are equal up to the order
of members, and a value is read back from them if it does not nest too deep. -/
theorem ofText?_canonical_and_toUTF8_canonical_eq_iff {u v : Json} (hu : IsIntegral u)
    (hv : IsIntegral v) :
    ofText? u.canonical = (if u.nesting ≤ deepestNesting then some u.sorted else none) ∧
      Reorders u u.sorted ∧ (InOrder u → u.sorted = u) ∧
      (u.canonical.toUTF8 = v.canonical.toUTF8 ↔ Reorders u v) :=
  ⟨ofChars?_canonical hu _, .sorted hu, InOrder.sorted_eq,
    String.toByteArray_inj.trans (canonical_eq_iff hu hv)⟩

/-- Two members in either order, one of them the largest number there is. -/
theorem canonical_eq_of_members_swapped :
    IsIntegral (.object [("a", .int 18446744073709551615), ("a b", .null)]) ∧
      (Json.object [("a", .int 18446744073709551615), ("a b", .null)]).canonical.toUTF8 =
        (Json.object [("a b", .null), ("a", .int 18446744073709551615)]).canonical.toUTF8 := by
  have hnull : IsIntegral .null := .null
  have hint : IsIntegral (.int 18446744073709551615) := .int (by decide)
  have hu : IsIntegral (.object [("a", .int 18446744073709551615), ("a b", .null)]) :=
    .object (by decide) (by simp [hnull, hint])
  have hv : IsIntegral (.object [("a b", .null), ("a", .int 18446744073709551615)]) :=
    .object (by decide) (by simp [hnull, hint])
  exact ⟨hu, (ofText?_canonical_and_toUTF8_canonical_eq_iff hu hv).2.2.2.2
    (.members (List.Perm.swap _ _ []))⟩

/-- So many arrays inside one another. -/
def nested : ℕ → Json
  | 0 => .null
  | n + 1 => .array [nested n]

theorem nesting_nested (n : ℕ) : (nested n).nesting = n := by
  induction n with
  | zero => rfl
  | succ n ih => simp [nested, nesting, nesting.nestingItems, ih]

theorem isIntegral_nested (n : ℕ) : IsIntegral (nested n) := by
  induction n with
  | zero => exact .null
  | succ n ih => exact .array (by simpa using ih)

/-- One container more than the reader goes down into. -/
theorem not_exists_ofText?_canonical_of_nested :
    IsIntegral (.object [("e", nested 127)]) ∧
      ¬ ∃ w, ofText? (Json.object [("e", nested 127)]).canonical = some w ∧
        Reorders (.object [("e", nested 127)]) w := by
  have h : IsIntegral (.object [("e", nested 127)]) :=
    .object (by decide) (by simpa using isIntegral_nested 127)
  have hdeep : ¬ (Json.object [("e", nested 127)]).nesting ≤ deepestNesting := by
    simp [nesting, nesting.nestingFields, nesting_nested, deepestNesting]
  refine ⟨h, ?_⟩
  rintro ⟨w, hw, -⟩
  rw [ofText?, ofChars?_canonical h, if_neg hdeep] at hw
  exact nomatch hw

end Json

end Crosswalk

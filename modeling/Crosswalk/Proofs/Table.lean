import Crosswalk.Table
import Mathlib.Data.List.Induction
import Mathlib.Data.List.Perm.Basic
import Mathlib.Data.List.Nodup
import Mathlib.Data.List.Forall2

/-!
# Tables

What is in a table after insertions, and what is found in it. A table that was made by insertions is
in strictly increasing order of key, so that no key has two entries, and entries and look-up say the
same. Of a list of entries with different keys, the table holds exactly these.
-/

namespace Crosswalk

namespace Table

section

variable {κ α : Type} [DecidableEq κ]

theorem find?_eq_none_iff {t : Table κ α} {key : κ} : find? t key = none ↔ key ∉ keys t := by
  induction t with
  | nil => simp [keys]
  | cons e rest ih =>
      obtain ⟨k, v⟩ := e
      rw [find?_cons]
      split
      · next h => simp [keys, h]
      · next h => simp [ih, keys, h]

theorem contains_iff {t : Table κ α} {key : κ} : contains t key = true ↔ key ∈ keys t := by
  rw [contains, Option.isSome_iff_ne_none, ne_eq, find?_eq_none_iff, not_not]

theorem mem_of_find? {t : Table κ α} {key : κ} {value : α} (h : find? t key = some value) :
    (key, value) ∈ t := by
  induction t with
  | nil => simp at h
  | cons e rest ih =>
      obtain ⟨k, v⟩ := e
      rw [find?_cons] at h
      split at h
      · next hk =>
          obtain rfl := Option.some.inj h
          exact hk ▸ List.mem_cons_self
      · exact List.mem_cons_of_mem _ (ih h)

theorem find?_of_mem {t : Table κ α} (hn : (keys t).Nodup) {key : κ} {value : α}
    (h : (key, value) ∈ t) : find? t key = some value := by
  induction t with
  | nil => simp at h
  | cons e rest ih =>
      obtain ⟨k, v⟩ := e
      simp only [keys, List.map_cons, List.nodup_cons] at hn
      rcases List.mem_cons.1 h with h | h
      · obtain ⟨rfl, rfl⟩ := Prod.mk.inj h
        simp [find?_cons]
      · have hne : key ≠ k := fun heq =>
          hn.1 (heq ▸ List.mem_map.2 ⟨(key, value), h, rfl⟩)
        rw [find?_cons, if_neg hne]
        exact ih hn.2 h

variable [LT κ] [DecidableLT κ]

theorem mem_insert {t : Table κ α} {key : κ} {value : α} {e : κ × α}
    (h : e ∈ insert t key value) : e = (key, value) ∨ e ∈ t := by
  induction t with
  | nil => simpa using h
  | cons d rest ih =>
      obtain ⟨k, v⟩ := d
      rw [insert_cons] at h
      split at h
      · rcases List.mem_cons.1 h with h | h
        · exact .inl h
        · exact .inr (List.mem_cons_of_mem _ h)
      · split at h
        · exact List.mem_cons.1 h
        · rcases List.mem_cons.1 h with h | h
          · exact .inr (h ▸ List.mem_cons_self)
          · exact (ih h).imp_right (List.mem_cons_of_mem _)

/-- What is true of all entries stays so if it is true of the one that is inserted. -/
theorem forall_mem_insert {P : κ × α → Prop} {t : Table κ α} (h : ∀ e ∈ t, P e) {key : κ}
    {value : α} (hv : P (key, value)) : ∀ e ∈ insert t key value, P e := by
  intro e he
  rcases mem_insert he with rfl | he
  · exact hv
  · exact h e he

/-- A new key is inserted beside the entries that are there. -/
theorem insert_perm {t : Table κ α} {key : κ} (value : α) (h : key ∉ keys t) :
    (insert t key value).Perm ((key, value) :: t) := by
  induction t with
  | nil => exact .refl _
  | cons d rest ih =>
      obtain ⟨k, v⟩ := d
      simp only [keys, List.map_cons, List.mem_cons, not_or] at h
      rw [insert_cons, if_neg h.1]
      split
      · exact .refl _
      · exact ((ih h.2).cons _).trans (.swap _ _ _)

theorem mem_insert_iff {t : Table κ α} {key : κ} {value : α} (h : key ∉ keys t) {e : κ × α} :
    e ∈ insert t key value ↔ e = (key, value) ∨ e ∈ t :=
  (insert_perm value h).mem_iff.trans List.mem_cons

theorem contains_insert (t : Table κ α) (key other : κ) (value : α) :
    contains (insert t key value) other = (decide (other = key) || contains t other) := by
  by_cases h : other = key
  · subst h
    simp [contains]
  · simp [contains, find?_insert_of_ne t value h, h]

theorem keys_insert (t : Table κ α) (key other : κ) (value : α) :
    other ∈ keys (insert t key value) ↔ other = key ∨ other ∈ keys t := by
  simp only [← contains_iff, contains_insert, Bool.or_eq_true, decide_eq_true_eq]

/-- Entries that are inserted under other keys leave the entry of a key alone. -/
theorem find?_foldl_insert_of_notMem {key : κ} {entries : List (κ × α)}
    (h : key ∉ entries.map (·.1)) (t : Table κ α) :
    find? (entries.foldl (fun t e => insert t e.1 e.2) t) key = find? t key := by
  induction entries generalizing t with
  | nil => rfl
  | cons e rest ih =>
      rw [List.map_cons, List.mem_cons, not_or] at h
      rw [List.foldl_cons, ih h.2, find?_insert_of_ne _ _ h.1]

/-- Of entries under different keys all are there once they are inserted. -/
theorem find?_foldl_insert_of_mem {entries : List (κ × α)} (hn : (entries.map (·.1)).Nodup)
    {e : κ × α} (h : e ∈ entries) (t : Table κ α) :
    find? (entries.foldl (fun t e => insert t e.1 e.2) t) e.1 = some e.2 := by
  induction entries generalizing t with
  | nil => exact absurd h List.not_mem_nil
  | cons d rest ih =>
      rw [List.map_cons, List.nodup_cons] at hn
      rw [List.foldl_cons]
      rcases List.mem_cons.1 h with rfl | h
      · rw [find?_foldl_insert_of_notMem hn.1, find?_insert_self]
      · exact ih hn.2 h _

end

section

variable {κ α β : Type}

/-- The table with other values under its keys. -/
def mapValues (f : α → β) (t : Table κ α) : Table κ β := t.map fun e => (e.1, f e.2)

theorem mapValues_cons (f : α → β) (key : κ) (value : α) (t : Table κ α) :
    mapValues f ((key, value) :: t) = (key, f value) :: mapValues f t := rfl

variable [DecidableEq κ]

theorem find?_mapValues (f : α → β) (t : Table κ α) (key : κ) :
    find? (mapValues f t) key = (find? t key).map f := by
  induction t with
  | nil => rfl
  | cons e rest ih =>
      obtain ⟨k, v⟩ := e
      rw [mapValues_cons, find?_cons, find?_cons, ih]
      split <;> rfl

theorem contains_mapValues (f : α → β) (t : Table κ α) (key : κ) :
    contains (mapValues f t) key = contains t key := by
  rw [contains, contains, find?_mapValues, Option.isSome_map]

theorem insert_mapValues [LT κ] [DecidableLT κ] (f : α → β) (t : Table κ α) (key : κ) (value : α) :
    insert (mapValues f t) key (f value) = mapValues f (insert t key value) := by
  induction t with
  | nil => rfl
  | cons e rest ih =>
      obtain ⟨k, v⟩ := e
      rw [mapValues_cons, insert_cons, insert_cons]
      split
      · rfl
      · split
        · rfl
        · rw [ih, mapValues_cons]

end

section

variable {κ κ' α β : Type} [DecidableEq κ] [DecidableEq κ'] [LT κ] [LT κ'] [DecidableLT κ]
  [DecidableLT κ'] {f : κ → κ'}

theorem insert_prodMap (g : α → β) (hf : Function.Injective f) (hlt : ∀ a b, f a < f b ↔ a < b)
    (t : Table κ α) (key : κ) (value : α) :
    insert (t.map (Prod.map f g)) (f key) (g value) = (insert t key value).map (Prod.map f g) := by
  induction t with
  | nil => rfl
  | cons e rest ih =>
      obtain ⟨k, v⟩ := e
      simp only [List.map_cons, Prod.map_apply, insert_cons, hf.eq_iff, hlt]
      split
      · rfl
      · split
        · rfl
        · rw [ih]
          rfl

/-- Keys may be changed before or after they are put in order, if the change keeps the order. -/
theorem ofList_prodMap (g : α → β) (hf : Function.Injective f) (hlt : ∀ a b, f a < f b ↔ a < b)
    (entries : List (κ × α)) :
    ofList (entries.map (Prod.map f g)) = (ofList entries).map (Prod.map f g) := by
  induction entries using List.reverseRecOn with
  | nil => rfl
  | append_singleton entries e ih =>
      simp only [ofList, List.map_append, List.foldl_append, List.map_cons, List.map_nil,
        List.foldl_cons, List.foldl_nil] at ih ⊢
      rw [ih]
      exact insert_prodMap g hf hlt _ _ _

end

/-! ### Tables of text -/

section

variable {α β : Type}

/-- The keys are strictly increasing. -/
def Sorted (t : Table String α) : Prop := t.Pairwise fun a b => a.1 < b.1

theorem sorted_nil : Sorted ([] : Table String α) := .nil

theorem Sorted.nodup {t : Table String α} (h : Sorted t) : (keys t).Nodup :=
  List.pairwise_map.2 (h.imp fun hab => String.ne_of_lt hab)

/-- Tables in order are the same if they have the same entries. -/
theorem Sorted.eq_of_perm {s t : Table String α} (hs : Sorted s) (ht : Sorted t)
    (h : s.Perm t) : s = t :=
  h.eq_of_pairwise (fun _ _ _ _ hab hba => absurd hba (String.lt_asymm hab)) hs ht

theorem Sorted.insert {t : Table String α} (h : Sorted t) (key : String) (value : α) :
    Sorted (insert t key value) := by
  induction t with
  | nil => exact List.pairwise_singleton _ _
  | cons e rest ih =>
      obtain ⟨k, v⟩ := e
      obtain ⟨hk, hrest⟩ := List.pairwise_cons.1 h
      rw [insert_cons]
      split
      · next heq => exact List.pairwise_cons.2 ⟨fun b hb => heq ▸ hk b hb, hrest⟩
      · next hne =>
          split
          · next hlt =>
              refine List.pairwise_cons.2 ⟨fun b hb => ?_, h⟩
              rcases List.mem_cons.1 hb with rfl | hb
              · exact hlt
              · exact String.lt_trans hlt (hk b hb)
          · next hge =>
              have hgt : k < key := by
                rcases String.le_total k key with hle | hle
                · exact Decidable.byContradiction fun hn =>
                    hne (String.le_antisymm (String.not_lt.1 hn) hle)
                · exact Decidable.byContradiction fun hn =>
                    hne (String.le_antisymm hle (String.not_lt.1 hge))
              refine List.pairwise_cons.2 ⟨fun b hb => ?_, ih hrest⟩
              rcases mem_insert hb with rfl | hb
              · exact hgt
              · exact hk b hb

/-- The entry of a key gives way to another one in its place. -/
theorem insert_of_sorted {s t : Table String α} {key : String} {old : α}
    (h : Sorted (s ++ (key, old) :: t)) (value : α) :
    insert (s ++ (key, old) :: t) key value = s ++ (key, value) :: t := by
  induction s with
  | nil => rw [List.nil_append, insert_cons, if_pos rfl, List.nil_append]
  | cons e rest ih =>
      obtain ⟨k, v⟩ := e
      obtain ⟨hk, hrest⟩ := List.pairwise_cons.1 h
      have hlt : k < key := hk (key, old) (List.mem_append_right _ List.mem_cons_self)
      rw [List.cons_append, insert_cons, if_neg (String.ne_of_lt hlt).symm,
        if_neg (String.lt_asymm hlt), ih hrest, List.cons_append]

theorem find?_of_sorted {s t : Table String α} {key : String} {value : α}
    (h : Sorted (s ++ (key, value) :: t)) :
    find? (s ++ (key, value) :: t) key = some value :=
  find?_of_mem h.nodup (List.mem_append_right _ List.mem_cons_self)

theorem sorted_iff {t : Table String α} : Sorted t ↔ (t.map (·.1)).Pairwise (· < ·) :=
  List.pairwise_map.symm

theorem Sorted.map {t : Table String α} (h : Sorted t) {f : String × α → String × β}
    (hf : ∀ e, (f e).1 = e.1) : Sorted (t.map f) :=
  List.pairwise_map.2 (h.imp fun hab => by rwa [hf, hf])

theorem ofList_append_singleton (entries : List (String × α)) (e : String × α) :
    ofList (entries ++ [e]) = insert (ofList entries) e.1 e.2 := by
  simp [ofList]

theorem sorted_ofList (entries : List (String × α)) : Sorted (ofList entries) := by
  induction entries using List.reverseRecOn with
  | nil => exact sorted_nil
  | append_singleton entries e ih => exact ofList_append_singleton entries e ▸ ih.insert _ _

theorem mem_ofList {entries : List (String × α)} {e : String × α} (h : e ∈ ofList entries) :
    e ∈ entries := by
  induction entries using List.reverseRecOn with
  | nil => exact h
  | append_singleton entries d ih =>
      rw [ofList_append_singleton] at h
      rcases mem_insert h with h | h
      · exact List.mem_append_right _ (List.mem_singleton.2 h)
      · exact List.mem_append_left _ (ih h)

theorem mem_keys_ofList {entries : List (String × α)} {key : String} :
    key ∈ keys (ofList entries) ↔ key ∈ entries.map (·.1) := by
  induction entries using List.reverseRecOn with
  | nil => rfl
  | append_singleton entries e ih =>
      rw [ofList_append_singleton, keys_insert, ih, List.map_append, List.mem_append, or_comm]
      simp

theorem contains_ofList {entries : List (String × α)} {key : String} :
    contains (ofList entries) key = true ↔ key ∈ entries.map (·.1) := by
  rw [contains_iff, mem_keys_ofList]

theorem find?_ofList_eq_none {entries : List (String × α)} {key : String}
    (h : key ∉ entries.map (·.1)) : find? (ofList entries) key = none := by
  rwa [find?_eq_none_iff, mem_keys_ofList]

/-- Of two entries under one key the later one is found. -/
theorem find?_ofList_append (first rest : List (String × α)) (key : String) :
    find? (ofList (first ++ rest)) key =
      (find? (ofList rest) key).or (find? (ofList first) key) := by
  induction rest using List.reverseRecOn with
  | nil => simp [ofList]
  | append_singleton rest e ih =>
      rw [← List.append_assoc, ofList_append_singleton, ofList_append_singleton]
      by_cases h : key = e.1
      · subst h
        simp
      · rw [find?_insert_of_ne _ _ h, find?_insert_of_ne _ _ h, ih]

/-- Entries under different keys are all found. -/
theorem find?_ofList_of_mem {entries : List (String × α)} (hn : (entries.map (·.1)).Nodup)
    {key : String} {value : α} (h : (key, value) ∈ entries) :
    find? (ofList entries) key = some value := by
  induction entries using List.reverseRecOn with
  | nil => simp at h
  | append_singleton entries e ih =>
      rw [List.map_append, List.nodup_append] at hn
      rw [ofList_append_singleton]
      rcases List.mem_append.1 h with h | h
      · have hne : key ≠ e.1 := hn.2.2 key (List.mem_map.2 ⟨_, h, rfl⟩) e.1 (by simp)
        rw [find?_insert_of_ne _ _ hne]
        exact ih hn.1 h
      · obtain rfl := List.mem_singleton.1 h
        exact find?_insert_self _ _ _

theorem mem_ofList_of_mem {entries : List (String × α)} (hn : (entries.map (·.1)).Nodup)
    {e : String × α} (h : e ∈ entries) : e ∈ ofList entries :=
  mem_of_find? (find?_ofList_of_mem hn h)

/-- The table of entries under different keys is a permutation of them. -/
theorem ofList_perm_self {entries : List (String × α)} (hn : (entries.map (·.1)).Nodup) :
    (ofList entries).Perm entries :=
  (List.perm_ext_iff_of_nodup ((sorted_ofList entries).nodup.of_map _) (hn.of_map _)).2
    fun _ => ⟨mem_ofList, mem_ofList_of_mem hn⟩

/-- The order in which entries under different keys are given does not matter. -/
theorem ofList_perm {entries entries' : List (String × α)} (h : entries.Perm entries')
    (hn : (entries.map (·.1)).Nodup) : ofList entries = ofList entries' :=
  (sorted_ofList entries).eq_of_perm (sorted_ofList entries') <|
    (ofList_perm_self hn).trans (h.trans (ofList_perm_self ((h.map _).nodup_iff.1 hn)).symm)

/-- Entries may be changed before or after they are put in order. -/
theorem ofList_map {entries : List (String × α)} (hn : (entries.map (·.1)).Nodup)
    {f : String × α → String × β} (hf : ∀ e, (f e).1 = e.1) :
    ofList (entries.map f) = (ofList entries).map f := by
  have hkeys : (entries.map f).map (·.1) = entries.map (·.1) := by
    rw [List.map_map]
    exact List.map_congr_left fun e _ => hf e
  exact (sorted_ofList _).eq_of_perm ((sorted_ofList entries).map hf)
    ((ofList_perm_self (hkeys ▸ hn)).trans ((ofList_perm_self hn).map f).symm)

/-- Entries may be left out before or after they are put in order. -/
theorem ofList_filter {entries : List (String × α)} (hn : (entries.map (·.1)).Nodup)
    (p : String × α → Bool) : ofList (entries.filter p) = (ofList entries).filter p := by
  have hkeys : ((entries.filter p).map (·.1)).Nodup := hn.sublist (List.filter_sublist.map _)
  exact (sorted_ofList _).eq_of_perm (List.Pairwise.filter p (sorted_ofList entries))
    ((ofList_perm_self hkeys).trans ((ofList_perm_self hn).filter p).symm)

/-- There is at most one entry under a key, so that putting entries in order does not move it among
those under its key. -/
theorem filter_ofList_key {entries : List (String × α)} (hn : (entries.map (·.1)).Nodup)
    (key : String) : (ofList entries).filter (fun e => e.1 = key) =
      entries.filter fun e => e.1 = key := by
  have hkeys : ((entries.filter fun e => e.1 = key).map (·.1)).Nodup :=
    hn.sublist (List.filter_sublist.map _)
  have hkey : ∀ e ∈ entries.filter (fun e => e.1 = key), e.1 = key := fun e he =>
    of_decide_eq_true (List.mem_filter.1 he).2
  rw [← ofList_filter hn]
  generalize entries.filter (fun e => e.1 = key) = found at hkeys hkey
  cases found with
  | nil => rfl
  | cons first rest =>
      cases rest with
      | nil => rfl
      | cons second rest =>
          rw [List.forall_mem_cons, List.forall_mem_cons] at hkey
          rw [List.map_cons, List.map_cons, List.nodup_cons] at hkeys
          exact absurd (hkey.1.trans hkey.2.1.symm ▸ List.mem_cons_self) hkeys.1

/-- Tables in order are the same if the same is found in them. -/
theorem Sorted.ext {s t : Table String α} (hs : Sorted s) (ht : Sorted t)
    (h : ∀ key, find? s key = find? t key) : s = t := by
  refine hs.eq_of_perm ht <|
    (List.perm_ext_iff_of_nodup (hs.nodup.of_map _) (ht.nodup.of_map _)).2 fun e => ?_
  have hmem : ∀ {t : Table String α}, Sorted t → (e ∈ t ↔ find? t e.1 = some e.2) := fun ht =>
    ⟨find?_of_mem ht.nodup, mem_of_find?⟩
  rw [hmem hs, hmem ht, h]

/-- The order does not matter in each of two parts with different keys, whichever keys they share. -/
theorem ofList_append_perm {first first' rest rest' : List (String × α)}
    (hf : first.Perm first') (hr : rest.Perm rest') (hn : (first.map (·.1)).Nodup)
    (hn' : (rest.map (·.1)).Nodup) : ofList (first ++ rest) = ofList (first' ++ rest') :=
  (sorted_ofList _).ext (sorted_ofList _) fun key => by
    rw [find?_ofList_append, find?_ofList_append, ofList_perm hf hn, ofList_perm hr hn']

/-- Entries that are related, one by one under the same keys, are put in the same places. -/
theorem forall₂_insert {R : String × α → String × β → Prop} {s : Table String α}
    {t : Table String β} (hkey : ∀ a b, R a b → a.1 = b.1) (h : List.Forall₂ R s t) {key : String}
    {a : α} {b : β} (hab : R (key, a) (key, b)) :
    List.Forall₂ R (insert s key a) (insert t key b) := by
  induction h with
  | nil => exact .cons hab .nil
  | @cons x y rest rest' hxy hrest ih =>
      obtain ⟨k, v⟩ := x
      obtain ⟨k', v'⟩ := y
      obtain rfl : k = k' := hkey _ _ hxy
      rw [insert_cons, insert_cons]
      split
      · exact .cons hab hrest
      · split
        · exact .cons hab (.cons hxy hrest)
        · exact .cons hxy ih

theorem forall₂_ofList {R : String × α → String × β → Prop} (hkey : ∀ a b, R a b → a.1 = b.1)
    {entries : List (String × α)} {entries' : List (String × β)}
    (h : List.Forall₂ R entries entries') : List.Forall₂ R (ofList entries) (ofList entries') := by
  have hfold : ∀ {s : Table String α} {t : Table String β}, List.Forall₂ R s t →
      List.Forall₂ R (entries.foldl (fun t e => insert t e.1 e.2) s)
        (entries'.foldl (fun t e => insert t e.1 e.2) t) := by
    induction h with
    | nil => exact fun hst => hst
    | @cons x y _ _ hxy _ ih =>
        intro s t hst
        obtain ⟨k, v⟩ := x
        obtain ⟨k', v'⟩ := y
        obtain rfl : k = k' := hkey _ _ hxy
        exact ih (forall₂_insert hkey hst hxy)
  exact hfold .nil

/-- The table of entries under different keys holds each of them, and as many keys as entries are
there only if they are different. -/
theorem length_ofList_eq_iff {entries : List (String × α)} :
    (ofList entries).length = entries.length ↔ (entries.map (·.1)).Nodup := by
  have hsub : keys (ofList entries) ⊆ entries.map (·.1) := fun k hk => mem_keys_ofList.1 hk
  have hsup : entries.map (·.1) ⊆ keys (ofList entries) := fun k hk => mem_keys_ofList.2 hk
  have hk : (keys (ofList entries)).Nodup := (sorted_ofList entries).nodup
  constructor
  · intro hlen
    have hperm : (keys (ofList entries)).Perm (entries.map (·.1)) :=
      (List.subperm_of_subset hk hsub).perm_of_length_le (by simp [keys, hlen])
    exact hperm.nodup_iff.1 hk
  · intro hn
    have hperm := (List.perm_ext_iff_of_nodup hk hn).2 fun k => mem_keys_ofList
    simpa [keys] using hperm.length_eq

end

end Table

end Crosswalk

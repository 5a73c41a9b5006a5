/-!
# Tables in order of key

A table is a list of entries kept in increasing order of key, at most one for a key. The order
is what a reader sees: the members of a JSON object, the files of a batch and the names a
document declares are all listed in it. `insert` keeps the order and replaces the entry of a key
that is already there, and `find?` reads the entry of a key.
-/

namespace Crosswalk

/-- Entries in increasing order of key. -/
abbrev Table (κ α : Type) := List (κ × α)

namespace Table

variable {κ α : Type} [DecidableEq κ]

/-- The entry of a key. -/
def find? : Table κ α → κ → Option α
  | [], _ => none
  | (k, v) :: rest, key => if key = k then some v else find? rest key

@[simp] theorem find?_nil (key : κ) : find? ([] : Table κ α) key = none := rfl

theorem find?_cons (k : κ) (v : α) (rest : Table κ α) (key : κ) :
    find? ((k, v) :: rest) key = if key = k then some v else find? rest key := rfl

/-- Whether a key has an entry. -/
def contains (t : Table κ α) (key : κ) : Bool := (find? t key).isSome

/-- The keys in order. -/
def keys (t : Table κ α) : List κ := t.map (·.1)

/-- The entries without their keys, in order of key. -/
def values (t : Table κ α) : List α := t.map (·.2)

section Insert

variable [LT κ] [DecidableLT κ]

/-- Puts an entry in its place; the entry that the key had is replaced. -/
def insert : Table κ α → κ → α → Table κ α
  | [], key, value => [(key, value)]
  | (k, v) :: rest, key, value =>
    if key = k then (key, value) :: rest
    else if key < k then (key, value) :: (k, v) :: rest
    else (k, v) :: insert rest key value

@[simp] theorem insert_nil (key : κ) (value : α) :
    insert ([] : Table κ α) key value = [(key, value)] := rfl

theorem insert_cons (k : κ) (v : α) (rest : Table κ α) (key : κ) (value : α) :
    insert ((k, v) :: rest) key value =
      if key = k then (key, value) :: rest
      else if key < k then (key, value) :: (k, v) :: rest
      else (k, v) :: insert rest key value := rfl

/-- The last of two entries for one key counts. -/
def ofList (entries : List (κ × α)) : Table κ α :=
  entries.foldl (fun t e => insert t e.1 e.2) []

/-- An entry is found under its own key. -/
@[simp] theorem find?_insert_self (t : Table κ α) (key : κ) (value : α) :
    find? (insert t key value) key = some value := by
  induction t with
  | nil => simp [find?_cons]
  | cons e rest ih =>
      obtain ⟨k, v⟩ := e
      rw [insert_cons]
      split
      · simp [find?_cons]
      · split <;> simp_all [find?_cons]

/-- An insertion leaves the other keys alone. -/
theorem find?_insert_of_ne (t : Table κ α) {key other : κ} (value : α) (h : other ≠ key) :
    find? (insert t key value) other = find? t other := by
  induction t with
  | nil => simp [find?_cons, h]
  | cons e rest ih =>
      obtain ⟨k, v⟩ := e
      rw [insert_cons]
      split
      · simp_all [find?_cons]
      · split <;> simp_all [find?_cons]

end Insert

end Table

end Crosswalk

/-!
# Tables

A table keeps one entry for each key, in the order in which the keys came up.  Keys count as one if
they are equal by `==`, and a table keeps the first of them that came up.

* `get?`, `contains`: looking up a key.
* `insert`: sets the entry of a key; a new key goes to the end.
* `erase`: forgets a key.
* `get?_insert`, `get?_erase`: what the two change.
* `keys_insert`: the keys after an entry was set.
* `get?_mapValues`: what becomes of an entry when all are changed.
* `get?_congr`: equal keys have the same entry.
-/

set_option autoImplicit false
namespace Retrace

/-- Entries by key. -/
structure Table (κ α : Type) where
  entries : List (κ × α) := []
deriving Inhabited, Repr, BEq

namespace Table

variable {κ α : Type}

/-- The table without entries. -/
def empty : Table κ α := ⟨[]⟩

/-- The keys that have an entry. -/
def keys (t : Table κ α) : List κ :=
  t.entries.map Prod.fst

/-- Sets every entry to a function of itself. -/
def mapValues {β : Type} (f : α → β) (t : Table κ α) : Table κ β :=
  ⟨t.entries.map fun p => (p.1, f p.2)⟩

/-- The entries in an order of their keys. -/
def sortedBy (less : κ → κ → Bool) (t : Table κ α) : List (κ × α) :=
  t.entries.mergeSort fun p q => !less q.1 p.1

/-! ## Looking up and changing -/

variable [BEq κ]

/-- The entry of a key in a list of entries. -/
def find (key : κ) : List (κ × α) → Option α
  | [] => none
  | (k, a) :: rest => if k == key then some a else find key rest

/-- Sets the entry of a key in a list of entries. -/
def put (key : κ) (a : α) : List (κ × α) → List (κ × α)
  | [] => [(key, a)]
  | (k, b) :: rest => if k == key then (k, a) :: rest else (k, b) :: put key a rest

/-- Removes the entries of a key from a list of entries. -/
def remove (key : κ) (entries : List (κ × α)) : List (κ × α) :=
  entries.filter fun p => !(p.1 == key)

/-- The entry of a key. -/
def get? (t : Table κ α) (key : κ) : Option α :=
  find key t.entries

/-- Has the key an entry? -/
def contains (t : Table κ α) (key : κ) : Bool :=
  (t.get? key).isSome

/-- Sets the entry of a key. -/
def insert (t : Table κ α) (key : κ) (a : α) : Table κ α :=
  ⟨put key a t.entries⟩

/-- Forgets a key. -/
def erase (t : Table κ α) (key : κ) : Table κ α :=
  ⟨remove key t.entries⟩

/-! ## Looking up after a change -/

theorem find_put [EquivBEq κ] (key other : κ) (a : α) (entries : List (κ × α)) :
    find other (put key a entries) = if key == other then some a else find other entries := by
  induction entries with
  | nil => simp [put, find]
  | cons p rest ih =>
    obtain ⟨k, b⟩ := p
    by_cases hk : (k == key) = true
    · have h : (k == other) = (key == other) := BEq.congr_left hk
      simp only [put, find, hk, h, if_true]
      split <;> rfl
    · simp only [put, find, hk]
      by_cases h : (k == other) = true
      · have hko : (key == other) = false := by
          refine Bool.eq_false_iff.2 fun he => hk ?_
          exact BEq.trans h (BEq.symm he)
        simp [find, h, hko]
      · simp [find, h, ih]

theorem find_remove [EquivBEq κ] (key other : κ) (entries : List (κ × α)) :
    find other (remove key entries) = if key == other then none else find other entries := by
  induction entries with
  | nil => simp [remove, find]
  | cons p rest ih =>
    obtain ⟨k, b⟩ := p
    simp only [remove] at ih
    by_cases hk : (k == key) = true
    · have h : (k == other) = (key == other) := BEq.congr_left hk
      simp only [remove, hk, List.filter_cons, Bool.not_true, Bool.false_eq_true, if_false, ih,
        find, h]
      split <;> rfl
    · by_cases h : (k == other) = true
      · have hko : (key == other) = false := by
          refine Bool.eq_false_iff.2 fun he => hk ?_
          exact BEq.trans h (BEq.symm he)
        simp [remove, find, hk, h, hko]
      · simp [remove, find, hk, h, ih]

theorem find_congr [EquivBEq κ] {key other : κ} (h : (key == other) = true)
    (entries : List (κ × α)) : find key entries = find other entries := by
  induction entries with
  | nil => rfl
  | cons p rest ih =>
    obtain ⟨k, a⟩ := p
    have hk : (k == key) = (k == other) := BEq.congr_right h
    simp only [find, hk, ih]

/-- Keys that are equal have the same entry. -/
theorem get?_congr [EquivBEq κ] (t : Table κ α) {key other : κ} (h : (key == other) = true) :
    t.get? key = t.get? other :=
  find_congr h t.entries

/-- After an entry is set, its key has it and the others have what they had. -/
theorem get?_insert [EquivBEq κ] (t : Table κ α) (key other : κ) (a : α) :
    (t.insert key a).get? other = if key == other then some a else t.get? other :=
  find_put key other a t.entries

/-- A key that is forgotten has no entry, and the others have what they had. -/
theorem get?_erase [EquivBEq κ] (t : Table κ α) (key other : κ) :
    (t.erase key).get? other = if key == other then none else t.get? other :=
  find_remove key other t.entries

/-- Setting an entry brings up no key but its own. -/
theorem keys_insert {t : Table κ α} {key k : κ} {a : α} (h : k ∈ (t.insert key a).keys) :
    k = key ∨ k ∈ t.keys := by
  obtain ⟨entries⟩ := t
  change k ∈ (put key a entries).map Prod.fst at h
  show k = key ∨ k ∈ entries.map Prod.fst
  induction entries with
  | nil => exact .inl (by simpa [put] using h)
  | cons p rest ih =>
    obtain ⟨k', b⟩ := p
    rw [put] at h
    split at h
    · exact .inr (by simpa using h)
    · rcases List.mem_cons.1 h with rfl | h
      · exact .inr (List.mem_cons_self ..)
      · exact (ih h).imp_right (List.mem_cons_of_mem _)

/-- After all entries were set to functions of themselves, so is that of any key. -/
theorem get?_mapValues {β : Type} (f : α → β) (t : Table κ α) (key : κ) :
    (t.mapValues f).get? key = (t.get? key).map f := by
  rw [get?, get?, mapValues]
  induction t.entries with
  | nil => rfl
  | cons p rest ih =>
    rw [List.map_cons, find, find, ih]
    split <;> rfl

end Table
end Retrace

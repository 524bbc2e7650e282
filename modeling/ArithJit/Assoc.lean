/-!
# Association lists

Lists of keys with values, in the order in which the keys were first inserted. Inserting a key again
keeps its place and changes its value. The lemmas say what a look-up finds after an insertion.
-/

namespace ArithJit.Assoc

variable {κ ν : Type} [DecidableEq κ]

/-- The value of a key. -/
def find? (key : κ) : List (κ × ν) → Option ν
  | [] => none
  | (k, v) :: rest => if k = key then some v else find? key rest

/-- Gives a key a value. -/
def insert (key : κ) (value : ν) : List (κ × ν) → List (κ × ν)
  | [] => [(key, value)]
  | (k, v) :: rest => if k = key then (key, value) :: rest else (k, v) :: insert key value rest

/-- Removes a key. -/
def erase (key : κ) : List (κ × ν) → List (κ × ν)
  | [] => []
  | (k, v) :: rest => if k = key then rest else (k, v) :: erase key rest

/-- Whether a key has a value. -/
def contains (key : κ) (entries : List (κ × ν)) : Bool :=
  (find? key entries).isSome

@[simp]
theorem find?_nil (key : κ) : find? key ([] : List (κ × ν)) = none := rfl

@[simp]
theorem find?_insert_self (key : κ) (value : ν) (entries : List (κ × ν)) :
    find? key (insert key value entries) = some value := by
  induction entries with
  | nil => simp [insert, find?]
  | cons entry rest ih =>
    obtain ⟨k, v⟩ := entry
    by_cases h : k = key <;> simp [insert, find?, h, ih]

theorem find?_insert_of_ne {key other : κ} (h : other ≠ key) (value : ν) (entries : List (κ × ν)) :
    find? other (insert key value entries) = find? other entries := by
  induction entries with
  | nil => simp [insert, find?, Ne.symm h]
  | cons entry rest ih =>
    obtain ⟨k, v⟩ := entry
    by_cases hk : k = key
    · simp [insert, find?, hk, Ne.symm h]
    · simp [insert, find?, hk, ih]

/-- An insertion changes the value of its key and of no other. -/
theorem find?_insert (key other : κ) (value : ν) (entries : List (κ × ν)) :
    find? other (insert key value entries) = if other = key then some value else find? other entries := by
  by_cases h : other = key
  · simp [h]
  · simp [h, find?_insert_of_ne h]

end ArithJit.Assoc

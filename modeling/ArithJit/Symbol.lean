import ArithJit.Assoc

/-!
# Symbols

The names of a program are replaced by symbols, numbered in the order in which the names are first
seen. A `SymbolTable` holds the names seen so far, once in the order of their symbols and once with the
symbol of each, so that it can be asked in both directions.
-/

namespace ArithJit

/-- A name, by its place in the symbol table. -/
structure Symbol where
  /-- The place, counted from zero. -/
  index : Nat
deriving DecidableEq, Repr

/-- The symbol as text. -/
def Symbol.text (s : Symbol) : String :=
  s!"${s.index}"

/-- Without names there are no symbols. -/
theorem Symbol.inverse_nil (name : String) (x : Symbol) :
    Assoc.find? name ([] : List (String × Symbol)) = some x ↔ ([] : List String)[x.index]? = some name := by
  simp

/-- The names that have symbols, by their symbols and by their texts. -/
structure SymbolTable where
  /-- The names, in the order of their symbols. -/
  names : List String := []
  /-- The symbol of each name. -/
  entries : List (String × Symbol) := []
  /-- The two are inverse to each other. -/
  inverse : ∀ name x, Assoc.find? name entries = some x ↔ names[x.index]? = some name := by
    exact Symbol.inverse_nil

namespace SymbolTable

/-- The table without names. -/
def empty : SymbolTable := {}

/-- The number of symbols. -/
def size (t : SymbolTable) : Nat :=
  t.names.length

/-- The symbol of a name, if it has one. -/
def find? (t : SymbolTable) (name : String) : Option Symbol :=
  Assoc.find? name t.entries

/-- The name of a symbol, if the table has the symbol. -/
def name? (t : SymbolTable) (s : Symbol) : Option String :=
  t.names[s.index]?

theorem find?_eq_some_iff {t : SymbolTable} {name : String} {x : Symbol} :
    t.find? name = some x ↔ t.name? x = some name :=
  t.inverse name x

theorem getElem?_concat_eq_some {names : List String} {name other : String} {i : Nat} :
    (names ++ [name])[i]? = some other ↔ names[i]? = some other ∨ (i = names.length ∧ other = name) := by
  rcases Nat.lt_trichotomy i names.length with hlt | heq | hgt
  · simp [List.getElem?_append_left hlt, Nat.ne_of_lt hlt]
  · simp [heq, eq_comm]
  · simp [List.getElem?_eq_none (Nat.le_of_lt hgt), List.getElem?_append_right (Nat.le_of_lt hgt),
      Nat.ne_of_gt hgt, Nat.sub_ne_zero_of_lt hgt]

/-- Adds a name that has no symbol yet. -/
def push (t : SymbolTable) (name : String) (fresh : t.find? name = none) : SymbolTable where
  names := t.names ++ [name]
  entries := Assoc.insert name ⟨t.size⟩ t.entries
  inverse other x := by
    have hx : x = ⟨t.size⟩ ↔ x.index = t.names.length := by
      cases x
      simp [size]
    rw [Assoc.find?_insert, getElem?_concat_eq_some, ← t.inverse, ← hx]
    by_cases h : other = name
    · -- the name had no symbol, so it has the new one only
      rw [find?] at fresh
      simp [h, fresh, eq_comm]
    · simp [h]

/-- The symbol of a name, and the table that has it. A new symbol is the size of the table so far. It is
meant to fit in 32 bits, and tables of more than `2 ^ 32` names are left out. -/
def intern (t : SymbolTable) (name : String) : Symbol × SymbolTable :=
  match h : t.find? name with
  | some x => (x, t)
  | none => (⟨t.size⟩, t.push name h)

end SymbolTable

end ArithJit

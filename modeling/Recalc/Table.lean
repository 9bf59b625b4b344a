import Std.Data.ExtTreeMap
import Recalc.Value

/-!
# Tables

A table keeps the values of symbols under their names. It counts the functions compiled on it,
so that each of them gets a serial number of its own. `Tables` tells which tables are still
there: the functions compiled on a table that is gone can no longer be called.
-/

namespace Recalc

/-- A name and its value. -/
structure Symbol (H : Type) where
  name : String
  value : Value H

namespace Symbol

variable {H : Type}

/-- A symbol whose value is not known yet. -/
def named (name : String) : Symbol H := ⟨name, .unknown⟩

/-- The symbol with another value. -/
def set (s : Symbol H) (v : Value H) : Symbol H := { s with value := v }

end Symbol

/-- Values under names. -/
structure Table (H : Type) where
  id : TableId
  cells : Std.ExtTreeMap String (Value H)
  /-- How many functions have been compiled on the table. -/
  compiled : Nat

namespace Table

variable {H : Type}

/-- A table without symbols. -/
def empty (id : TableId) : Table H := ⟨id, ∅, 0⟩

def contains (t : Table H) (name : String) : Bool := t.cells.contains name

/-- The value of a symbol. -/
def value? (t : Table H) (name : String) : Option (Value H) := t.cells[name]?

/-- Give a symbol a value, whether it was there or not. -/
def set (t : Table H) (name : String) (v : Value H) : Table H :=
  { t with cells := t.cells.insert name v }

/-- Put a symbol in the place of the one with its name. -/
def insert (t : Table H) (s : Symbol H) : Table H := t.set s.name s.value

/-- Make sure that a symbol is there; if it is, it keeps its value. -/
def ensure (t : Table H) (name : String) : Table H :=
  if t.contains name then t else t.insert (.named name)

/-- A table of the given symbols; of two with one name it keeps the later. -/
def ofSymbols (id : TableId) (symbols : List (Symbol H)) : Table H :=
  symbols.foldl insert (empty id)

/-- The names of the symbols, sorted. -/
def names (t : Table H) : List String := t.cells.keys

/-- The number of symbols. -/
def size (t : Table H) : Nat := t.cells.size

def isEmpty (t : Table H) : Bool := t.cells.isEmpty

/-- The number for the next function, and the table after it was given out. -/
def nextSerial (t : Table H) : Nat × Table H := (t.compiled, { t with compiled := t.compiled + 1 })

@[simp] theorem value?_empty (id : TableId) (x : String) :
    (empty id : Table H).value? x = none := by
  simp [empty, value?]

theorem value?_set (t : Table H) (x y : String) (v : Value H) :
    (t.set x v).value? y = if x = y then some v else t.value? y := by
  simp [set, value?, Std.ExtTreeMap.getElem?_insert]

theorem contains_iff_value? (t : Table H) (x : String) :
    t.contains x = true ↔ ∃ v, t.value? x = some v := by
  simp [contains, value?, ← Option.isSome_iff_exists]

theorem value?_ensure (t : Table H) (x y : String) :
    (t.ensure x).value? y = if x = y then some ((t.value? x).getD .unknown) else t.value? y := by
  by_cases hx : t.contains x = true
  · obtain ⟨v, hv⟩ := (contains_iff_value? t x).1 hx
    by_cases hxy : x = y
    · subst hxy; simp [ensure, hx, hv]
    · simp [ensure, hx, hxy]
  · have hn : t.value? x = none := by
      cases h : t.value? x with
      | none => rfl
      | some v => exact absurd ((contains_iff_value? t x).2 ⟨v, h⟩) hx
    simp [ensure, hx, insert, Symbol.named, value?_set, hn]

end Table

/-- The tables that are there, by identity. -/
def Tables (H : Type) : Type := TableId → Option (Table H)

namespace Tables

variable {H : Type}

/-- No tables. -/
def empty : Tables H := fun _ => none

/-- The tables with `t` in the place of what had its identity. -/
def put (ts : Tables H) (t : Table H) : Tables H := fun id => if id = t.id then some t else ts id

end Tables

end Recalc

import Recalc.Dependency
import Recalc.Evaluation

/-!
# Solvers

A solver owns a table and the formulas that define some of its symbols. Defining a formula or
assigning a value computes nothing: the symbol and all symbols whose formulas depend on it
become stale, and stale symbols are recomputed when they are solved.

A formula is circular if its target depends on itself. A solver refuses such a formula when it
is defined, or accepts it and reports the circle when a solve runs into it.
-/

namespace Recalc

/-- When circular formulas are reported. -/
inductive CircleReport where
  /-- A definition that closes a circle is refused. -/
  | atDefinition
  /-- A solve that meets a circle fails. -/
  | atSolve
  deriving DecidableEq, Repr

/-- The choices a solver is made with. -/
structure Settings where
  circles : CircleReport := .atDefinition
  /-- Whether listeners are told of recomputed symbols. -/
  announces : Bool := true
  deriving DecidableEq, Repr

/-- A table with formulas and the symbols that wait for recomputation. -/
structure Solver (H : Type) where
  settings : Settings
  table : Table H
  formulas : Formulas
  stale : NameSet
  /-- How many listeners are registered. -/
  listeners : Nat

namespace Solver

variable {H : Type}

/-- A solver that knows no symbol, with a table of the given identity. -/
def empty (settings : Settings) (id : TableId) : Solver H :=
  { settings, table := .empty id, formulas := ∅, stale := ∅, listeners := 0 }

/-- Register one more listener. -/
def listen (s : Solver H) : Solver H := { s with listeners := s.listeners + 1 }

/-! ## What a solver knows -/

/-- Whether a name has occurred in a formula or an assignment. -/
def contains (s : Solver H) (x : String) : Bool := s.table.contains x

/-- Whether a symbol waits for recomputation. -/
def isStale (s : Solver H) (x : String) : Bool := s.stale.contains x

/-- The formula that defines a symbol. -/
def formula? (s : Solver H) (x : String) : Option Formula := s.formulas[x]?

/-- The known symbols, sorted. -/
def symbols (s : Solver H) : List String := s.table.names

/-- The known symbols that are stale, sorted. -/
def staleSymbols (s : Solver H) : List String := s.symbols.filter s.isStale

/-- The names that a symbol depends on, directly or not. -/
def dependencies (s : Solver H) (x : String) : NameSet := s.formulas.dependencies x

/-- The symbols whose formulas depend on a name, directly or not, sorted. -/
def dependents (s : Solver H) (x : String) : List String := s.formulas.dependents x

/-! ## Definitions -/

/-- Make a symbol and the symbols that depend on it stale. -/
def markStale (s : Solver H) (x : String) : Solver H :=
  { s with stale := NameSet.insertAll s.stale (x :: s.dependents x) }

/-- What is stale then: the symbol, its dependents, and what was stale before. -/
theorem mem_stale_markStale (s : Solver H) (x y : String) :
    y ∈ (s.markStale x).stale ↔ y = x ∨ y ∈ s.dependents x ∨ y ∈ s.stale := by
  rw [markStale, NameSet.mem_insertAll, List.mem_cons, or_assoc]

/-- The circle that a formula would close. -/
def circle? (s : Solver H) (f : Formula) : Option (List String) :=
  if f.isSelfCalling then some [f.target, f.target] else s.formulas.cycle? f.target f.dependsOn

/-- Put a formula in place. Names not known before become symbols of unknown value. -/
def install (s : Solver H) (f : Formula) : Solver H :=
  let table := (f.target :: f.dependsOn).foldl .ensure s.table
  markStale { s with table, formulas := s.formulas.insert f.target f } f.target

/-- Define a symbol by the text of a formula, in the place of any formula it had. -/
def define (s : Solver H) (text : String) : Except SolverError (Solver H) :=
  match Formula.parse text with
  | .error e => .error (.formula (.parse e))
  | .ok f =>
    match s.settings.circles, s.circle? f with
    | .atDefinition, some path => .error (.circular f.target path)
    | _, _ => .ok (s.install f)

/-- Assign a value to a symbol that no formula defines. -/
def assign (s : Solver H) (x : String) (v : Value H) : Except SolverError (Solver H) :=
  if s.formulas.contains x then .error (.conflicting x)
  else .ok (markStale { s with table := s.table.set x v } x)

end Solver

end Recalc

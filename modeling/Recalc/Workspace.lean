import Recalc.Solver.Solve

/-!
# Workspaces

A workspace holds solvers, handles on tables, and saved values. Several handles may refer to one
table, and a table is there as long as a handle refers to it; then it is gone, and the functions
compiled on it can no longer be called. The table of a solver is there as long as the solver.

A workspace gives every table an identity and every host function a serial number that none
before it had.
-/

namespace Recalc

/-- Solvers, tables and saved values. -/
structure Workspace (H : Type) where
  /-- The solvers made so far, without those dropped. -/
  solvers : Array (Option (Solver H))
  /-- The handles made so far, each with the table it refers to unless it was dropped. -/
  handles : Array (Option TableId)
  /-- The tables that handles refer to. -/
  tables : Std.ExtTreeMap TableId (Table H)
  slots : Std.ExtTreeMap String (Value H)
  nextTable : TableId
  nextHost : Nat

namespace Workspace

variable {H : Type}

/-- A workspace with nothing in it. -/
def empty : Workspace H := ⟨#[], #[], ∅, ∅, 0, 0⟩

/-! ## Saved values and host functions -/

/-- The value in a slot; nothing saved is an unknown value. -/
def slot (w : Workspace H) (name : String) : Value H := w.slots.getD name .unknown

/-- Save a value in a slot. -/
def save (w : Workspace H) (name : String) (v : Value H) : Workspace H :=
  { w with slots := w.slots.insert name v }

/-- Make a host function that is the same as none before it. -/
def makeHost (w : Workspace H) (name : String) (arity? : Option Nat) (code : H) :
    Value H × Workspace H :=
  (.callable (.host ⟨name, arity?, code, w.nextHost⟩), { w with nextHost := w.nextHost + 1 })

/-! ## Solvers -/

/-- A solver that has not been dropped. -/
def solver? (w : Workspace H) (i : Nat) : Option (Solver H) := w.solvers[i]?.join

/-- Put a solver in its place. -/
def putSolver (w : Workspace H) (i : Nat) (s : Solver H) : Workspace H :=
  { w with solvers := w.solvers.setIfInBounds i (some s) }

/-- Make a solver with some listeners; the answer is its index. -/
def newSolver (w : Workspace H) (settings : Settings) (listeners : Nat) :
    Nat × Workspace H :=
  let s := { Solver.empty settings w.nextTable with listeners }
  (w.solvers.size,
    { w with solvers := w.solvers.push (some s), nextTable := w.nextTable + 1 })

/-- Drop a solver, and with it its table; the answer tells whether it was there. -/
def dropSolver (w : Workspace H) (i : Nat) : Bool × Workspace H :=
  ((w.solver? i).isSome, { w with solvers := w.solvers.setIfInBounds i none })

/-! ## Tables -/

/-- The tables that are there: those with handles and those of solvers. -/
def allTables (w : Workspace H) : Tables H := fun id =>
  match w.tables[id]? with
  | some t => some t
  | none => w.solvers.findSome? fun s? =>
    match s? with
    | some s => if s.table.id = id then some s.table else none
    | none => none

/-- The table that a handle refers to. -/
def table? (w : Workspace H) (i : Nat) : Option (Table H) :=
  match w.handles[i]?.join with
  | some id => w.tables[id]?
  | none => none

/-- Put a table in the place of the one with its identity. -/
def putTable (w : Workspace H) (t : Table H) : Workspace H :=
  { w with tables := w.tables.insert t.id t }

/-- Make a table and a handle on it; the answer is the index of the handle. -/
def newTable (w : Workspace H) (symbols : List (Symbol H)) : Nat × Workspace H :=
  let t := Table.ofSymbols w.nextTable symbols
  (w.handles.size,
    { w with
      handles := w.handles.push (some t.id)
      tables := w.tables.insert t.id t
      nextTable := w.nextTable + 1 })

/-- Make one more handle on the same table. A handle made from a dropped one is dropped too. -/
def cloneHandle (w : Workspace H) (i : Nat) : Nat × Workspace H :=
  (w.handles.size, { w with handles := w.handles.push w.handles[i]?.join })

/-- Drop a handle, and the table with its last handle; the answer tells whether it was there. -/
def dropHandle (w : Workspace H) (i : Nat) : Bool × Workspace H :=
  match w.handles[i]?.join with
  | none => (false, w)
  | some id =>
    let handles := w.handles.setIfInBounds i none
    let tables := if handles.contains (some id) then w.tables else w.tables.erase id
    (true, { w with handles, tables })

/-! ## Evaluation -/

variable [HostLibrary H]

/-- Carry out a request to a solver, if it has not been dropped. -/
def perform (w : Workspace H) (depth : Nat) (i : Nat) (r : Solver.Request H) :
    Option (Reply H (Option (Value H)) × Workspace H) := do
  let s ← w.solver? i
  let reply := s.perform w.allTables depth r
  return (reply, w.putSolver i reply.solver)

/-- Solve all symbols that a solver knows, if it has not been dropped. -/
def solveAll (w : Workspace H) (depth : Nat) (i : Nat) :
    Option ((List Event × List (String × Outcome SolverError (Value H))) × Workspace H) := do
  let s ← w.solver? i
  let (s, answers) := s.solveEach w.allTables depth s.symbols
  return (answers, w.putSolver i s)

/-- Read a body and evaluate it over a table, with local names in front. -/
def evalBody (w : Workspace H) (depth : Nat) (t : Table H) (locals : List (String × Value H))
    (text : String) : Outcome EvalError (Value H) := do
  let body ← (Outcome.ofExcept (Expr.parse text.toList)).mapError .parse
  body.eval w.allTables depth ⟨locals, t⟩

/-- Read a formula and run it on a table; the answer is what its target then holds. -/
def runFormula (w : Workspace H) (depth : Nat) (t : Table H) (text : String) :
    Outcome EvalError (Value H × Workspace H) := do
  let f ← (Outcome.ofExcept (Formula.parse text)).mapError .parse
  let t ← f.assignIn w.allTables depth t
  return ((t.value? f.target).getD .unknown, w.putTable t)

/-- Call a callable with arguments. -/
def call (w : Workspace H) (depth : Nat) (c : Callable H) (args : List (Value H)) :
    Outcome EvalError (Value H) :=
  c.invoke w.allTables depth args

end Workspace

end Recalc

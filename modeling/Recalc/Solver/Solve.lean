import Recalc.Solver.Pass

/-!
# Solving

`solve` answers with the value of a symbol, after a pass if the symbol is stale. Each symbol
recomputed on the way is an event for each listener. A `Request` is one of the three calls that
change a solver, so that the life of a solver is a list of requests.
-/

namespace Recalc

/-- The news that a symbol was recomputed, for one of the listeners. -/
structure Event where
  listener : Nat
  symbol : String
  deriving DecidableEq, Repr

/-- A listener and its news. -/
def Event.text (e : Event) : String := toString e.listener ++ ":" ++ e.symbol

/-- A solver after a request, the events sent and the answer. -/
structure Reply (H α : Type) where
  solver : Solver H
  events : List Event
  answer : Outcome SolverError α

namespace Solver

variable {H : Type}

/-- The events for recomputed symbols: each goes to all listeners before the next is sent. -/
def eventsFor (s : Solver H) (recomputed : List String) : List Event :=
  if s.settings.announces then
    recomputed.flatMap fun x => (List.range s.listeners).map fun i => ⟨i, x⟩
  else []

/-- The value of a known symbol; an unknown name has none. -/
def read (s : Solver H) (x : String) : Outcome SolverError (Value H) :=
  match s.table.value? x with
  | some v => .value v
  | none => .error (.unknown x)

variable [HostLibrary H]

/-- The pass that refreshes a symbol. -/
def pass (tables : Tables H) (depth : Nat) (s : Solver H) (x : String) : Pass.Step H :=
  Pass.refresh tables depth s.formulas s.formulas.size [] x (.start s.table s.stale)

/-- The value of a symbol, recomputed if it is stale. -/
def solve (tables : Tables H) (depth : Nat) (s : Solver H) (x : String) : Reply H (Value H) :=
  if s.contains x && s.isStale x then
    let (p, outcome) := s.pass tables depth x
    let after := { s with table := p.table, stale := p.stale }
    ⟨after, s.eventsFor p.recomputed, outcome >>= fun _ => after.read x⟩
  else ⟨s, [], s.read x⟩

/-- Solve symbols in order, whatever comes of each. -/
def solveEach (tables : Tables H) (depth : Nat) (s : Solver H) :
    List String → Solver H × List Event × List (String × Outcome SolverError (Value H))
  | [] => (s, [], [])
  | x :: xs =>
    let reply := s.solve tables depth x
    let (after, events, answers) := solveEach tables depth reply.solver xs
    (after, reply.events ++ events, (x, reply.answer) :: answers)

/-! ## Requests -/

/-- The calls that change a solver. -/
inductive Request (H : Type) where
  | define (text : String)
  | assign (name : String) (value : Value H)
  | solve (name : String)

/-- The reply to a change that was made or refused; a refused one leaves the solver as it was. -/
def replyTo (s : Solver H) : Except SolverError (Solver H) → Reply H (Option (Value H))
  | .ok after => ⟨after, [], .value none⟩
  | .error e => ⟨s, [], .error e⟩

/-- Carry a request out. Only a solve has a value to answer with. -/
def perform (tables : Tables H) (depth : Nat) (s : Solver H) :
    Request H → Reply H (Option (Value H))
  | .define text => s.replyTo (s.define text)
  | .assign x v => s.replyTo (s.assign x v)
  | .solve x =>
    let reply := s.solve tables depth x
    ⟨reply.solver, reply.events, reply.answer.map some⟩

/-- The replies to a list of requests, each made to the solver that the one before left. -/
def replies (tables : Tables H) (depth : Nat) (s : Solver H) :
    List (Request H) → List (Reply H (Option (Value H)))
  | [] => []
  | r :: rs =>
    let reply := s.perform tables depth r
    reply :: replies tables depth reply.solver rs

/-- The solver after a list of requests. -/
def performAll (tables : Tables H) (depth : Nat) (s : Solver H) (rs : List (Request H)) :
    Solver H :=
  rs.foldl (fun s r => (s.perform tables depth r).solver) s

end Solver

end Recalc

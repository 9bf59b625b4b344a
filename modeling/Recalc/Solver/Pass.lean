import Recalc.Solver.Basic

/-!
# Passes

A pass brings a symbol up to date. It first brings up to date what the symbol's formula depends
on, in order, and then recomputes the symbol if it is stale; a symbol without a formula just
stops being stale. The path holds the formulas that the pass has entered and not left: coming
upon one of these again closes a circle. A function that calls itself is a circle that no
dependency shows.

A pass that stops on an error keeps what it has done. What it finished before stays finished,
and the symbols on the path stay stale.
-/

namespace Recalc

/-- What a pass has done so far. -/
structure Pass (H : Type) where
  table : Table H
  stale : NameSet
  /-- The symbols that need no more attention in this pass. -/
  finished : NameSet
  /-- The symbols recomputed, in order. -/
  recomputed : List String

namespace Pass

variable {H : Type}

/-- A pass at its beginning. -/
def start (table : Table H) (stale : NameSet) : Pass H := ⟨table, stale, ∅, []⟩

/-- A pass, and whether it may go on. -/
abbrev Step (H : Type) : Type := Pass H × Outcome SolverError Unit

/-- Finish a symbol that no formula defines. -/
def finishLeaf (p : Pass H) (x : String) : Pass H :=
  { p with stale := p.stale.erase x, finished := p.finished.insert x }

/-- Finish a symbol that has just been given the value of its formula in `table`. -/
def finishRecomputed (p : Pass H) (x : String) (table : Table H) : Pass H where
  table := table
  stale := p.stale.erase x
  finished := p.finished.insert x
  recomputed := p.recomputed ++ [x]

/-- Finish a symbol whose dependencies are finished, running its formula if it is stale. -/
def finishFormula [HostLibrary H] (tables : Tables H) (depth : Nat) (p : Pass H) (x : String)
    (f : Formula) : Step H :=
  if p.stale.contains x then
    match f.assignIn tables depth p.table with
    | .value table => (p.finishRecomputed x table, .value ())
    | .error e => (p, .error (.formula e))
    | .exhausted => (p, .exhausted)
  else ({ p with finished := p.finished.insert x }, .value ())

/-- Refresh symbols in order, given how one symbol is refreshed; stop where that stops. -/
def refreshEach (refreshOne : String → Pass H → Step H) : List String → Pass H → Step H
  | [], p => (p, .value ())
  | x :: xs, p =>
    match refreshOne x p with
    | (p, .value ()) => refreshEach refreshOne xs p
    | stopped => stopped

/--
Refresh a symbol, where `path` holds the formulas entered and not left, outermost first. The
formulas on the path are different ones, so with `n` levels for the formulas not on it the pass
never runs out of levels.
-/
def refresh [HostLibrary H] (tables : Tables H) (depth : Nat) (formulas : Formulas) :
    Nat → List String → String → Pass H → Step H
  | n, path, x, p =>
    if p.finished.contains x then (p, .value ())
    else
      match formulas[x]? with
      | none => (p.finishLeaf x, .value ())
      | some f =>
        if f.isSelfCalling then (p, .error (.circular x [x, x]))
        else if path.contains x then
          (p, .error (.circular x (path.dropWhile (· != x) ++ [x])))
        else
          match n with
          | 0 => (p, .exhausted)
          | n + 1 =>
            match refreshEach (refresh tables depth formulas n (path ++ [x])) f.dependsOn p with
            | (p, .value ()) => p.finishFormula tables depth x f
            | stopped => stopped

end Pass

end Recalc

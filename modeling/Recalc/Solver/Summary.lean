import Recalc.Solver.Basic

/-!
# Summaries

One line on the settings of a solver, and one on the whole solver with the number of symbols,
formulas, stale symbols and listeners.
-/

namespace Recalc

/-- The choice as a summary shows it. -/
def CircleReport.text : CircleReport → String
  | .atDefinition => "OnDefine"
  | .atSolve => "OnSolve"

/-- A record with named fields on one line. -/
def recordText (name : String) (fields : List (String × String)) : String :=
  String.intercalate " "
    [name, String.singleton '{', String.intercalate ", " (fields.map fun f => f.1 ++ ": " ++ f.2),
      String.singleton '}']

/-- Settings on one line. -/
def Settings.text (s : Settings) : String :=
  recordText "SolverOptions"
    [("cycle_check", s.circles.text), ("emit_events", toString s.announces)]

/-- A solver on one line. -/
def Solver.summary {H : Type} (s : Solver H) : String :=
  recordText "Solver"
    [("options", s.settings.text), ("symbols", toString s.table.size),
      ("expressions", toString s.formulas.size), ("stale", toString s.stale.size),
      ("listeners", toString s.listeners)]

end Recalc

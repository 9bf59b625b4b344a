import Recalc.Proofs.Writes
import Recalc.Workspace

/-!
# Operations on a workspace

A history of a workspace is a list of operations: making, cloning and dropping handles and solvers,
editing tables through handles, running formulas on them, and requests to solvers. An operation that
fails changes nothing.

**Whatever an operation does is one of the eight things that `Moves` lists**, and with it comes what
is written to which table. What a workspace keeps has to be shown of these only.
-/

namespace Recalc

namespace Workspace

variable {H : Type}

/-! ## Handles and tables -/

/-- The table that a handle refers to, unless it was dropped. -/
def handle? (w : Workspace H) (i : Nat) : Option TableId := w.handles[i]?.join

/-- Something refers to the table: a handle, or a solver whose table it is. -/
def HasHandle (w : Workspace H) (id : TableId) : Prop :=
  (∃ i, w.handle? i = some id) ∨ ∃ i s, w.solver? i = some s ∧ s.table.id = id

theorem solver?_putSolver {w : Workspace H} {i : Nat} {s : Solver H} (h : w.solver? i = some s)
    (s' : Solver H) (j : Nat) :
    (w.putSolver i s').solver? j = if j = i then some s' else w.solver? j := by
  have hi : i < w.solvers.size := by
    rw [solver?, Option.join_eq_some_iff] at h
    exact (Array.getElem?_eq_some_iff.1 h).1
  rw [solver?, putSolver, Array.getElem?_setIfInBounds, solver?]
  by_cases hj : j = i
  · subst hj
    simp [hi]
  · rw [if_neg (Ne.symm hj), if_neg hj]

theorem solver?_dropSolver (w : Workspace H) (i j : Nat) :
    (w.dropSolver i).2.solver? j = if j = i then none else w.solver? j := by
  rw [solver?, dropSolver, Array.getElem?_setIfInBounds, solver?]
  by_cases hj : j = i
  · subst hj
    rw [if_pos rfl, if_pos rfl]
    split <;> rfl
  · rw [if_neg (Ne.symm hj), if_neg hj]

theorem solver?_newSolver (w : Workspace H) (settings : Settings) (listeners j : Nat) :
    (w.newSolver settings listeners).2.solver? j = if j = w.solvers.size then
      some { Solver.empty settings w.nextTable with listeners } else w.solver? j := by
  rw [solver?, newSolver, Array.getElem?_push, solver?]
  split <;> rfl

theorem handle?_newTable (w : Workspace H) (symbols : List (Symbol H)) (j : Nat) :
    (w.newTable symbols).2.handle? j = if j = w.handles.size then
      some (Table.ofSymbols w.nextTable symbols).id else w.handle? j := by
  rw [handle?, newTable, Array.getElem?_push, handle?]
  split <;> rfl

theorem handle?_cloneHandle (w : Workspace H) (i j : Nat) :
    (w.cloneHandle i).2.handle? j = if j = w.handles.size then w.handle? i else w.handle? j := by
  rw [handle?, cloneHandle, Array.getElem?_push, handle?, handle?]
  split <;> rfl

/-- `w'` is `w` without the handle `i`, and without the table if this was its last handle. -/
structure DropsHandle (w : Workspace H) (i : Nat) (id : TableId) (w' : Workspace H) : Prop where
  handle? : ∀ j, w'.handle? j = if j = i then none else w.handle? j
  tables : w'.tables = w.tables ∧ (∃ j, j ≠ i ∧ w.handle? j = some id) ∨
    w'.tables = w.tables.erase id ∧ ∀ j, j ≠ i → w.handle? j ≠ some id
  solvers : w'.solvers = w.solvers
  nextTable : w'.nextTable = w.nextTable

theorem dropsHandle {w : Workspace H} {i : Nat} {id : TableId} (h : w.handle? i = some id) :
    w.DropsHandle i id (w.dropHandle i).2 := by
  have hi : i < w.handles.size := by
    rw [handle?, Option.join_eq_some_iff] at h
    exact (Array.getElem?_eq_some_iff.1 h).1
  have hdrop : (w.dropHandle i).2 = { w with
      handles := w.handles.setIfInBounds i none
      tables := if (w.handles.setIfInBounds i none).contains (some id) then w.tables
        else w.tables.erase id } := by
    rw [handle?] at h
    rw [dropHandle, h]
  have hhandle : ∀ j, (w.handles.setIfInBounds i none)[j]?.join =
      if j = i then none else w.handle? j := by
    intro j
    rw [Array.getElem?_setIfInBounds, handle?]
    by_cases hj : j = i
    · subst hj
      simp [hi]
    · rw [if_neg (Ne.symm hj), if_neg hj]
  have hcontains : (w.handles.setIfInBounds i none).contains (some id) = true ↔
      ∃ j, j ≠ i ∧ w.handle? j = some id := by
    rw [Array.contains_iff_mem, Array.mem_iff_getElem?]
    constructor
    · rintro ⟨j, hj⟩
      have hjoin := hhandle j
      rw [hj] at hjoin
      split at hjoin
      · cases hjoin
      · next hne => exact ⟨j, hne, hjoin.symm⟩
    · rintro ⟨j, hne, hj⟩
      refine ⟨j, ?_⟩
      rw [← Option.join_eq_some_iff, hhandle, if_neg hne, hj]
  rw [hdrop]
  refine ⟨hhandle, ?tables, rfl, rfl⟩
  case tables =>
    by_cases hc : (w.handles.setIfInBounds i none).contains (some id) = true
    · exact .inl ⟨if_pos hc, hcontains.1 hc⟩
    · exact .inr ⟨if_neg hc, fun j hne hj => hc (hcontains.2 ⟨j, hne, hj⟩)⟩

theorem dropHandle_of_none {w : Workspace H} {i : Nat} (h : w.handle? i = none) :
    (w.dropHandle i).2 = w := by
  rw [handle?] at h
  rw [dropHandle, h]

/-- The table that a handle shows. -/
theorem table?_eq_some {w : Workspace H} {i : Nat} {t : Table H} :
    w.table? i = some t ↔ ∃ id, w.handle? i = some id ∧ w.tables[id]? = some t := by
  rw [table?, handle?]
  cases w.handles[i]?.join with
  | none => simp
  | some id => simp

/-! ## Operations -/

/-- What can be done in a workspace. -/
inductive Operation (H : Type) where
  | makeHost (name : String) (arity? : Option Nat) (code : H)
  | save (slot : String) (v : Value H)
  | newSolver (settings : Settings) (listeners : Nat)
  | dropSolver (i : Nat)
  | listen (i : Nat)
  | request (depth i : Nat) (r : Solver.Request H)
  | solveAll (depth i : Nat)
  | newTable (symbols : List (Symbol H))
  | cloneHandle (i : Nat)
  | dropHandle (i : Nat)
  | edit (i : Nat) (e : Edit H)
  | formula (depth i : Nat) (text : String)

variable [HostLibrary H]

/-- The workspace after a formula was run on a table, or failed. -/
def afterFormula (w : Workspace H) (depth : Nat) (t : Table H) (text : String) : Workspace H :=
  match w.runFormula depth t text with
  | .value (_, w') => w'
  | .error _ | .exhausted => w

/-- What running a formula on a table writes. -/
def formulaWrites (w : Workspace H) (depth : Nat) (t : Table H) (text : String) :
    List (Write H) :=
  match Formula.parse text, w.runFormula depth t text with
  | .ok f, .value (v, _) => [⟨t.id, f.target, v⟩]
  | _, _ => []

/-- The workspace after an operation; one that fails changes nothing. -/
def operate (w : Workspace H) : Operation H → Workspace H
  | .makeHost name arity? code => (w.makeHost name arity? code).2
  | .save slot v => w.save slot v
  | .newSolver settings listeners => (w.newSolver settings listeners).2
  | .dropSolver i => (w.dropSolver i).2
  | .listen i =>
    match w.solver? i with
    | some s => w.putSolver i s.listen
    | none => w
  | .request depth i r =>
    match w.perform depth i r with
    | some (_, w') => w'
    | none => w
  | .solveAll depth i =>
    match w.solveAll depth i with
    | some (_, w') => w'
    | none => w
  | .newTable symbols => (w.newTable symbols).2
  | .cloneHandle i => (w.cloneHandle i).2
  | .dropHandle i => (w.dropHandle i).2
  | .edit i e =>
    match w.table? i with
    | some t => w.putTable (e.apply t)
    | none => w
  | .formula depth i text =>
    match w.table? i with
    | some t => w.afterFormula depth t text
    | none => w

/-- What an operation writes. -/
def writes (w : Workspace H) : Operation H → List (Write H)
  | .request depth i r =>
    match w.solver? i with
    | some s => s.writes w.allTables depth r
    | none => []
  | .solveAll depth i =>
    match w.solver? i with
    | some s => s.writesEach w.allTables depth s.symbols
    | none => []
  | .newTable symbols => Edit.writesAll (.empty w.nextTable) (symbols.map .insert)
  | .edit i e =>
    match w.table? i with
    | some t => e.writes t
    | none => []
  | .formula depth i text =>
    match w.table? i with
    | some t => w.formulaWrites depth t text
    | none => []
  | .makeHost .. | .save .. | .newSolver .. | .dropSolver _ | .listen _ | .cloneHandle _
  | .dropHandle _ => []

/-- The workspace after a history. -/
def operateAll (w : Workspace H) (ops : List (Operation H)) : Workspace H := ops.foldl operate w

/-- What a history writes, in order. -/
def writesAll (w : Workspace H) : List (Operation H) → List (Write H)
  | [] => []
  | op :: ops => w.writes op ++ (w.operate op).writesAll ops

theorem operateAll_append (w : Workspace H) (before after : List (Operation H)) :
    w.operateAll (before ++ after) = (w.operateAll before).operateAll after :=
  List.foldl_append

/-- What an operation can do, and what it writes. -/
inductive Moves (w : Workspace H) : List (Write H) → Workspace H → Prop where
  /-- Neither handles nor tables are concerned. -/
  | aside {w' : Workspace H} (solvers : w'.solvers = w.solvers) (handles : w'.handles = w.handles)
      (tables : w'.tables = w.tables) (nextTable : w'.nextTable = w.nextTable) : Moves w [] w'
  | newSolver (settings : Settings) (listeners : Nat) :
      Moves w [] (w.newSolver settings listeners).2
  | dropSolver (i : Nat) : Moves w [] (w.dropSolver i).2
  /-- A solver goes on, and changes its own table. -/
  | solver {i : Nat} {s s' : Solver H} {ws : List (Write H)} (there : w.solver? i = some s)
      (goes : s.formulas.Tracked → s.table.Written ws s'.table ∧ s'.formulas.Tracked) :
      Moves w ws (w.putSolver i s')
  | newTable (symbols : List (Symbol H)) :
      Moves w (Edit.writesAll (.empty w.nextTable) (symbols.map .insert)) (w.newTable symbols).2
  | cloneHandle (i : Nat) : Moves w [] (w.cloneHandle i).2
  | dropHandle {i : Nat} {id : TableId} {w' : Workspace H} (there : w.handle? i = some id)
      (drops : w.DropsHandle i id w') : Moves w [] w'
  /-- The table that a handle refers to is written to. -/
  | table {i : Nat} {t t' : Table H} {ws : List (Write H)} (there : w.table? i = some t)
      (written : t.Written ws t') : Moves w ws (w.putTable t')

omit [HostLibrary H] in
/-- Nothing is one of these things. -/
theorem Moves.refl (w : Workspace H) : w.Moves [] w := .aside rfl rfl rfl rfl

/-- A formula that is run on a table writes the value of its target, or it fails. -/
theorem formula_moves {w : Workspace H} {i : Nat} {t : Table H} (ht : w.table? i = some t)
    (depth : Nat) (text : String) :
    w.Moves (w.formulaWrites depth t text) (w.afterFormula depth t text) := by
  rw [formulaWrites, afterFormula, runFormula]
  cases hf : Formula.parse text with
  | error e => exact .refl w
  | ok f =>
    simp only [Outcome.ofExcept, Outcome.mapError, Outcome.value_bind]
    cases ha : f.assignIn w.allTables depth t with
    | error e => exact .refl w
    | exhausted => exact .refl w
    | value t' =>
      obtain ⟨v, hv⟩ := Formula.sets_of_assignIn ha
      rw [Outcome.value_bind, hv.value?, if_pos rfl]
      exact .table ht hv.written

/-- **Whatever an operation does is one of these things.** -/
theorem operate_moves (w : Workspace H) (op : Operation H) :
    w.Moves (w.writes op) (w.operate op) := by
  cases op with
  | makeHost name arity? code => exact .aside rfl rfl rfl rfl
  | save slot v => exact .aside rfl rfl rfl rfl
  | newSolver settings listeners => exact .newSolver settings listeners
  | dropSolver i => exact .dropSolver i
  | newTable symbols => exact .newTable symbols
  | cloneHandle i => exact .cloneHandle i
  | dropHandle i =>
    cases hi : w.handle? i with
    | some id => exact .dropHandle hi (dropsHandle hi)
    | none =>
      rw [writes, operate, dropHandle_of_none hi]
      exact .refl w
  | listen i =>
    rw [writes, operate]
    cases hs : w.solver? i with
    | none => exact .refl w
    | some s => exact .solver hs fun ht => ⟨.refl _, ht⟩
  | request depth i r =>
    rw [writes, operate, perform]
    cases hs : w.solver? i with
    | none => exact .refl w
    | some s => exact .solver hs fun ht => ⟨s.written ht r, s.tracked_perform ht r⟩
  | solveAll depth i =>
    rw [writes, operate, solveAll]
    cases hs : w.solver? i with
    | none => exact .refl w
    | some s => exact .solver hs fun ht => Solver.writtenEach s.symbols ht
  | edit i e =>
    rw [writes, operate]
    cases ht : w.table? i with
    | none => exact .refl w
    | some t => exact .table ht (e.written t)
  | formula depth i text =>
    rw [writes, operate]
    cases ht : w.table? i with
    | none => exact .refl w
    | some t => exact formula_moves ht depth text

end Workspace

end Recalc

import Recalc.Proofs.Bookkeeping

/-!
# Who holds which table

Which tables are held is told by the operations alone. Making a table or a solver takes the next
identity, a handle that is cloned holds what the other one does at that time, and what is dropped
holds nothing from then on. No other operation makes, drops or moves a handle, whatever it writes
and whether it fails or not.

* Identities are given once, so **a table that is held no longer will never be held again**.
* **A workspace has just the handles and solvers that its history tells**, so something refers to a
  table in it as long as the table is held.
-/

namespace Recalc

namespace Workspace

/-! ## Rosters -/

/-- The handles and the solvers made so far, each with the identity of the table that it holds
unless it was dropped. -/
structure Roster where
  handles : List (Option TableId)
  solvers : List (Option TableId)
  /-- The identity that the next table gets. -/
  nextTable : TableId

namespace Roster

variable {H : Type}

def empty : Roster := ⟨[], [], 0⟩

/-- What an operation does to handles and solvers. -/
def after (r : Roster) : Operation H → Roster
  | .newSolver _ _ =>
    { r with solvers := r.solvers ++ [some r.nextTable], nextTable := r.nextTable + 1 }
  | .newTable _ =>
    { r with handles := r.handles ++ [some r.nextTable], nextTable := r.nextTable + 1 }
  | .cloneHandle i => { r with handles := r.handles ++ [r.handles[i]?.join] }
  | .dropHandle i => { r with handles := r.handles.set i none }
  | .dropSolver i => { r with solvers := r.solvers.set i none }
  | .makeHost .. | .save .. | .listen _ | .request .. | .solveAll .. | .edit .. | .formula .. => r

def afterAll (r : Roster) (ops : List (Operation H)) : Roster := ops.foldl after r

/-- The handles and solvers after a history that began with none. -/
def ofHistory (ops : List (Operation H)) : Roster := empty.afterAll ops

theorem ofHistory_append (ops later : List (Operation H)) :
    ofHistory (ops ++ later) = (ofHistory ops).afterAll later := List.foldl_append

/-- A handle or a solver holds the table. -/
def Has (r : Roster) (id : TableId) : Prop := some id ∈ r.handles ∨ some id ∈ r.solvers

instance (r : Roster) (id : TableId) : Decidable (r.Has id) :=
  inferInstanceAs (Decidable (_ ∨ _))

/-- No identity is given twice. -/
theorem nextTable_le_after (r : Roster) (op : Operation H) :
    r.nextTable ≤ (r.after op).nextTable := by
  cases op with
  | newSolver | newTable => exact Nat.le_succ _
  | makeHost | save | dropSolver | listen | request | solveAll | cloneHandle | dropHandle | edit
  | formula => exact Nat.le_refl _

theorem nextTable_le_afterAll (r : Roster) (ops : List (Operation H)) :
    r.nextTable ≤ (r.afterAll ops).nextTable := by
  induction ops generalizing r with
  | nil => exact Nat.le_refl _
  | cons op ops ih => exact Nat.le_trans (r.nextTable_le_after op) (ih (r.after op))

/-- What an operation leaves held was held before, or it has the next identity. -/
theorem Has.of_after {r : Roster} {op : Operation H} {id : TableId} (h : (r.after op).Has id) :
    r.Has id ∨ id = r.nextTable ∧ (r.after op).nextTable = r.nextTable + 1 := by
  cases op with
  | newSolver settings listeners =>
    rcases h with hhandle | hsolver
    · exact .inl (.inl hhandle)
    · rcases List.mem_append.mp hsolver with hold | hnew
      · exact .inl (.inr hold)
      · exact .inr ⟨Option.some.inj (List.mem_singleton.mp hnew), rfl⟩
  | newTable symbols =>
    rcases h with hhandle | hsolver
    · rcases List.mem_append.mp hhandle with hold | hnew
      · exact .inl (.inl hold)
      · exact .inr ⟨Option.some.inj (List.mem_singleton.mp hnew), rfl⟩
    · exact .inl (.inr hsolver)
  | cloneHandle i =>
    rcases h with hhandle | hsolver
    · rcases List.mem_append.mp hhandle with hold | hnew
      · exact .inl (.inl hold)
      · -- the clone holds what the other handle does
        have hi := Option.join_eq_some_iff.1 (List.mem_singleton.mp hnew).symm
        exact .inl (.inl (List.mem_of_getElem? hi))
    · exact .inl (.inr hsolver)
  | dropHandle i =>
    rcases h with hhandle | hsolver
    · exact .inl (.inl ((List.mem_or_eq_of_mem_set hhandle).resolve_right (by simp)))
    · exact .inl (.inr hsolver)
  | dropSolver i =>
    rcases h with hhandle | hsolver
    · exact .inl (.inl hhandle)
    · exact .inl (.inr ((List.mem_or_eq_of_mem_set hsolver).resolve_right (by simp)))
  | makeHost | save | listen | request | solveAll | edit | formula => exact .inl h

/-- Whatever is held is older than the tables to come. -/
theorem Has.lt_nextTable {r : Roster} (hr : ∀ id, r.Has id → id < r.nextTable)
    (ops : List (Operation H)) {id : TableId} (h : (r.afterAll ops).Has id) :
    id < (r.afterAll ops).nextTable := by
  induction ops generalizing r with
  | nil => exact hr id h
  | cons op ops ih =>
    refine ih ?_ h
    intro id' h'
    rcases h'.of_after with hold | ⟨rfl, hnext⟩
    · exact Nat.lt_of_lt_of_le (hr id' hold) (r.nextTable_le_after op)
    · rw [hnext]
      exact Nat.lt_succ_self _

/-- **A table that is held no longer will never be held again.** -/
theorem Has.of_afterAll {r : Roster} (ops : List (Operation H)) {id : TableId}
    (hold : id < r.nextTable) (h : (r.afterAll ops).Has id) : r.Has id := by
  induction ops generalizing r with
  | nil => exact h
  | cons op ops ih =>
    have hafter := ih (Nat.lt_of_lt_of_le hold (r.nextTable_le_after op)) h
    rcases hafter.of_after with hbefore | ⟨rfl, -⟩
    · exact hbefore
    · exact absurd hold (Nat.lt_irrefl _)

end Roster

/-- Not every handle on the table has been dropped in the history, where a solver counts as a handle
of its own table. -/
def Held {H : Type} (ops : List (Operation H)) (id : TableId) : Prop :=
  (Roster.ofHistory ops).Has id

instance {H : Type} (ops : List (Operation H)) (id : TableId) : Decidable (Held ops id) :=
  inferInstanceAs (Decidable (Roster.Has _ _))

theorem Held.lt_nextTable {H : Type} {ops : List (Operation H)} {id : TableId} (h : Held ops id) :
    id < (Roster.ofHistory ops).nextTable := by
  refine Roster.Has.lt_nextTable ?_ ops h
  rintro id (hhandle | hsolver)
  · cases hhandle
  · cases hsolver

theorem Held.of_append {H : Type} {ops later : List (Operation H)} {id : TableId}
    (hold : id < (Roster.ofHistory ops).nextTable) (h : Held (ops ++ later) id) :
    Held ops id := by
  rw [Held, Roster.ofHistory_append] at h
  exact h.of_afterAll later hold

/-! ## Workspaces and their rosters -/

variable {H : Type} {w : Workspace H} {r : Roster}

/-- The workspace has the handles and solvers of the roster. -/
structure Follows (w : Workspace H) (r : Roster) : Prop where
  handles : w.handles.toList = r.handles
  solvers : w.solvers.toList.map (Option.map fun s => s.table.id) = r.solvers
  nextTable : w.nextTable = r.nextTable

theorem set_eq_self {α : Type} {l : List α} {i : Nat} {a : α} (h : l[i]? = some a) :
    l.set i a = l := by
  obtain ⟨hi, rfl⟩ := List.getElem?_eq_some_iff.1 h
  exact List.set_getElem_self hi

/-- Whatever holds the identity of the table in the roster shows the table in the workspace. -/
structure Roster.Show (r : Roster) (w : Workspace H) (t : Table H) : Prop where
  handle : ∀ i, r.handles[i]? = some (some t.id) → w.table? i = some t
  solver : ∀ i, r.solvers[i]? = some (some t.id) → ∃ s, w.solver? i = some s ∧ s.table = t

namespace Follows

theorem empty : (Workspace.empty : Workspace H).Follows .empty := ⟨rfl, rfl, rfl⟩

theorem handle?_eq (h : w.Follows r) (i : Nat) : w.handle? i = r.handles[i]?.join := by
  rw [← h.handles, Array.getElem?_toList, handle?]

theorem map_solver? (h : w.Follows r) (i : Nat) :
    (w.solver? i).map (fun s => s.table.id) = r.solvers[i]?.join := by
  rw [← h.solvers, List.getElem?_map, Array.getElem?_toList, solver?]
  cases w.solvers[i]? with
  | none => rfl
  | some s? => rfl

theorem newSolver (h : w.Follows r) (settings : Settings) (listeners : Nat) :
    (w.newSolver settings listeners).2.Follows
      { r with solvers := r.solvers ++ [some r.nextTable], nextTable := r.nextTable + 1 } := by
  refine ⟨h.handles, ?_, congrArg Nat.succ h.nextTable⟩
  rw [Workspace.newSolver, Array.toList_push, List.map_append, h.solvers, ← h.nextTable]
  rfl

theorem dropSolver (h : w.Follows r) (i : Nat) :
    (w.dropSolver i).2.Follows { r with solvers := r.solvers.set i none } := by
  refine ⟨h.handles, ?_, h.nextTable⟩
  rw [Workspace.dropSolver, Array.toList_setIfInBounds, List.map_set, h.solvers]
  rfl

theorem newTable (h : w.Follows r) (symbols : List (Symbol H)) :
    (w.newTable symbols).2.Follows
      { r with handles := r.handles ++ [some r.nextTable], nextTable := r.nextTable + 1 } := by
  have hid : (Table.ofSymbols w.nextTable symbols).id = w.nextTable := by
    rw [Table.ofSymbols_eq]
    exact (Edit.writtenAll _ _).id
  refine ⟨?_, h.solvers, congrArg Nat.succ h.nextTable⟩
  rw [Workspace.newTable, Array.toList_push, hid, h.handles, h.nextTable]

theorem cloneHandle (h : w.Follows r) (i : Nat) :
    (w.cloneHandle i).2.Follows { r with handles := r.handles ++ [r.handles[i]?.join] } := by
  refine ⟨?_, h.solvers, h.nextTable⟩
  rw [Workspace.cloneHandle, Array.toList_push, h.handles, ← h.handle?_eq, handle?]

theorem dropHandle (h : w.Follows r) (i : Nat) :
    (w.dropHandle i).2.Follows { r with handles := r.handles.set i none } := by
  cases hi : w.handle? i with
  | none =>
    -- the handle was dropped before, or there has never been one
    have hset : r.handles.set i none = r.handles := by
      rw [h.handle?_eq] at hi
      cases hr : r.handles[i]? with
      | none => exact List.set_eq_of_length_le (List.getElem?_eq_none_iff.1 hr)
      | some id? =>
        rw [hr] at hi
        obtain rfl : id? = none := hi
        exact set_eq_self hr
    rw [dropHandle_of_none hi, hset]
    exact h
  | some id =>
    rw [handle?] at hi
    rw [Workspace.dropHandle, hi]
    refine ⟨?_, h.solvers, h.nextTable⟩
    rw [Array.toList_setIfInBounds, h.handles]

/-- A solver that goes on keeps its table. -/
theorem putSolver (h : w.Follows r) {i : Nat} {s s' : Solver H} (hs : w.solver? i = some s)
    (hid : s'.table.id = s.table.id) : (w.putSolver i s').Follows r := by
  refine ⟨h.handles, ?_, h.nextTable⟩
  have hthere : r.solvers[i]? = some (some s'.table.id) := by
    have hmap := h.map_solver? i
    rw [hs, Option.map_some, ← hid] at hmap
    exact Option.join_eq_some_iff.1 hmap.symm
  rw [Workspace.putSolver, Array.toList_setIfInBounds, List.map_set, h.solvers]
  exact set_eq_self hthere

theorem putTable (h : w.Follows r) (t : Table H) : (w.putTable t).Follows r :=
  ⟨h.handles, h.solvers, h.nextTable⟩

/-- Running a formula on a table leaves handles and solvers alone, whatever comes of it. -/
theorem afterFormula [HostLibrary H] (h : w.Follows r) (depth : Nat) (t : Table H)
    (text : String) : (w.afterFormula depth t text).Follows r := by
  rw [Workspace.afterFormula, runFormula]
  cases Formula.parse text with
  | error e => exact h
  | ok f =>
    simp only [Outcome.ofExcept, Outcome.mapError, Outcome.value_bind]
    cases f.assignIn w.allTables depth t with
    | error e => exact h
    | exhausted => exact h
    | value t' => exact h.putTable t'

/-- What refers to a table in the workspace is what holds it in the roster. -/
theorem hasHandle_iff (h : w.Follows r) (id : TableId) : w.HasHandle id ↔ r.Has id := by
  rw [HasHandle, Roster.Has, List.mem_iff_getElem?, List.mem_iff_getElem?]
  refine or_congr (exists_congr fun i => ?_) (exists_congr fun i => ?_)
  · rw [h.handle?_eq, Option.join_eq_some_iff]
  · rw [← Option.join_eq_some_iff, ← h.map_solver?, Option.map_eq_some_iff]

theorem shows (h : w.Follows r) {t : Table H} (ht : w.Shows t) : r.Show w t := by
  refine ⟨?handle, ?solver⟩
  case handle =>
    intro i hi
    refine ht.handle i ?_
    rw [h.handle?_eq, hi]
    rfl
  case solver =>
    intro i hi
    have hmap := h.map_solver? i
    rw [hi] at hmap
    obtain ⟨s, hs, hid⟩ := Option.map_eq_some_iff.1 hmap
    exact ⟨s, hs, ht.solver i s hs hid⟩

end Follows

variable [HostLibrary H] {log : List (Write H)}

/-- **Each operation does to the handles and solvers of a workspace what it does to the roster.** -/
theorem Keeps.follows_operate (h : w.Keeps log) (hr : w.Follows r) (op : Operation H) :
    (w.operate op).Follows (r.after op) := by
  cases op with
  | makeHost name arity? code => exact ⟨hr.handles, hr.solvers, hr.nextTable⟩
  | save slot v => exact ⟨hr.handles, hr.solvers, hr.nextTable⟩
  | newSolver settings listeners => exact hr.newSolver settings listeners
  | dropSolver i => exact hr.dropSolver i
  | newTable symbols => exact hr.newTable symbols
  | cloneHandle i => exact hr.cloneHandle i
  | dropHandle i => exact hr.dropHandle i
  | listen i =>
    rw [operate]
    cases hs : w.solver? i with
    | none => exact hr
    | some s => exact hr.putSolver hs rfl
  | request depth i r =>
    rw [operate, perform]
    cases hs : w.solver? i with
    | none => exact hr
    | some s => exact hr.putSolver hs (s.written (h.solver i s hs).2.1 r).id
  | solveAll depth i =>
    rw [operate, solveAll]
    cases hs : w.solver? i with
    | none => exact hr
    | some s =>
      exact hr.putSolver hs (Solver.writtenEach s.symbols (h.solver i s hs).2.1).1.id
  | edit i e =>
    rw [operate]
    cases w.table? i with
    | none => exact hr
    | some t => exact hr.putTable _
  | formula depth i text =>
    rw [operate]
    cases w.table? i with
    | none => exact hr
    | some t => exact hr.afterFormula depth t text

theorem Keeps.follows_operateAll (h : w.Keeps log) (hr : w.Follows r) (ops : List (Operation H)) :
    (w.operateAll ops).Follows (r.afterAll ops) := by
  induction ops generalizing w r log with
  | nil => exact hr
  | cons op ops ih => exact ih (h.moves (w.operate_moves op)) (h.follows_operate hr op)

/-- The workspace after a history that began with nothing. -/
def ofHistory (ops : List (Operation H)) : Workspace H := empty.operateAll ops

/-- What was written in the history. -/
def logOf (ops : List (Operation H)) : List (Write H) := (empty : Workspace H).writesAll ops

theorem keeps_ofHistory (ops : List (Operation H)) : (ofHistory ops).Keeps (logOf ops) :=
  Keeps.empty.operateAll ops

/-- **A workspace has the handles and solvers that its history tells.** -/
theorem follows_ofHistory (ops : List (Operation H)) :
    (ofHistory ops).Follows (Roster.ofHistory ops) :=
  Keeps.empty.follows_operateAll .empty ops

/-- Something refers to a table just as long as it is held. -/
theorem hasHandle_iff_held (ops : List (Operation H)) (id : TableId) :
    (ofHistory ops).HasHandle id ↔ Held ops id :=
  (follows_ofHistory ops).hasHandle_iff id

end Workspace

end Recalc

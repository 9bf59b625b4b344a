import Recalc.Proofs.Operations

/-!
# The books of a workspace

Whatever its history, a workspace keeps the books:

* the tables outside solvers are those that handles refer to, and each solver has its own;
* a table holds what was last written to it, through any of its handles;
* the identity of a table is newer than those of all tables before it.

From this it follows what a call finds. A table that something refers to is there, and it is the
same for all that refer to it. A table that nothing refers to is not there, whatever callables know
it.
-/

namespace Recalc

/-! ## The books -/

section

variable {H : Type}

/-- The table holds what was last written to it, and is older than the tables to come. -/
structure Table.Logged (log : List (Write H)) (next : TableId) (t : Table H) : Prop where
  old : t.id < next
  value? : ∀ x, t.value? x = lastWritten log t.id x

variable {t t' : Table H} {log ws : List (Write H)} {next next' : TableId}

theorem Table.Logged.mono (h : t.Logged log next) (hle : next ≤ next') : t.Logged log next' :=
  ⟨Nat.lt_of_lt_of_le h.old hle, h.value?⟩

/-- What is written elsewhere is not written here. -/
theorem Table.Logged.elsewhere (h : t.Logged log next) (hws : ∀ e ∈ ws, e.table ≠ t.id) :
    t.Logged (log ++ ws) next := by
  refine ⟨h.old, ?_⟩
  intro x
  rw [h.value?, lastWritten_append, lastWritten_eq_none hws]
  rfl

theorem Table.Logged.written (h : t.Logged log next) (hw : t.Written ws t') :
    t'.Logged (log ++ ws) next := by
  refine ⟨hw.id ▸ h.old, ?_⟩
  intro x
  rw [hw.value?, h.value?, hw.id, lastWritten_append]

/-- A table without symbols of an identity that is not in the log. -/
theorem Table.Logged.empty (hlog : ∀ e ∈ log, e.table < next) :
    (Table.empty next : Table H).Logged log (next + 1) := by
  refine ⟨Nat.lt_succ_self next, ?_⟩
  intro x
  rw [Table.value?_empty]
  exact (lastWritten_eq_none (fun e he => Nat.ne_of_lt (hlog e he)) x).symm

end

namespace Workspace

variable {H : Type}

/-- The tables of the workspace are those that something refers to, and they are as the log says. -/
structure Keeps (w : Workspace H) (log : List (Write H)) : Prop where
  handle : ∀ i id, w.handle? i = some id → ∃ t, w.tables[id]? = some t
  table : ∀ id t, w.tables[id]? = some t →
    t.id = id ∧ (∃ i, w.handle? i = some id) ∧ t.Logged log w.nextTable
  solver : ∀ i s, w.solver? i = some s → w.tables[s.table.id]? = none ∧ s.formulas.Tracked ∧
    s.table.Logged log w.nextTable
  /-- No two solvers have one table. -/
  apart : ∀ i j s s', w.solver? i = some s → w.solver? j = some s' → s.table.id = s'.table.id →
    i = j
  old : ∀ e ∈ log, e.table < w.nextTable

namespace Keeps

variable {w w' : Workspace H} {log ws : List (Write H)}

theorem empty : (Workspace.empty : Workspace H).Keeps [] := by
  have hhandle : ∀ i, (Workspace.empty : Workspace H).handle? i = none := fun i => rfl
  have hsolver : ∀ i, (Workspace.empty : Workspace H).solver? i = none := fun i => rfl
  refine ⟨?handle, ?table, ?solver, ?apart, fun e he => absurd he List.not_mem_nil⟩
  case handle =>
    intro i id h
    rw [hhandle] at h
    cases h
  case table =>
    intro id t h
    cases Std.ExtTreeMap.getElem?_empty.symm.trans h
  case solver =>
    intro i s h
    rw [hsolver] at h
    cases h
  case apart =>
    intro i j s s' h
    rw [hsolver] at h
    cases h

theorem aside (h : w.Keeps log) (hsolvers : w'.solvers = w.solvers)
    (hhandles : w'.handles = w.handles) (htables : w'.tables = w.tables)
    (hnext : w'.nextTable = w.nextTable) : w'.Keeps log := by
  have hsolver : ∀ i, w'.solver? i = w.solver? i := fun i => by rw [solver?, hsolvers, solver?]
  have hhandle : ∀ i, w'.handle? i = w.handle? i := fun i => by rw [handle?, hhandles, handle?]
  refine ⟨?_, ?_, ?_, ?_, ?_⟩
  all_goals simp only [hsolver, hhandle, htables, hnext]
  · exact h.handle
  · exact h.table
  · exact h.solver
  · exact h.apart
  · exact h.old

theorem newSolver (h : w.Keeps log) (settings : Settings) (listeners : Nat) :
    (w.newSolver settings listeners).2.Keeps log := by
  have hle : w.nextTable ≤ w.nextTable + 1 := Nat.le_succ _
  refine ⟨h.handle, ?table, ?solver, ?apart, fun e he => Nat.lt_of_lt_of_le (h.old e he) hle⟩
  case table =>
    intro id t ht
    obtain ⟨hid, hhandle, hlogged⟩ := h.table id t ht
    exact ⟨hid, hhandle, hlogged.mono hle⟩
  case solver =>
    intro i s hs
    rw [solver?_newSolver] at hs
    split at hs
    · cases hs
      refine ⟨?_, fun x f hf => ?_, .empty h.old⟩
      · -- the identity is new, so no handle refers to a table that has it
        cases ht : w.tables[w.nextTable]? with
        | none => exact ht
        | some t =>
          obtain ⟨hid, -, hlogged⟩ := h.table _ t ht
          exact absurd hlogged.old (by rw [hid]; exact Nat.lt_irrefl _)
      · cases Std.ExtTreeMap.getElem?_empty.symm.trans hf
    · obtain ⟨hnone, htracked, hlogged⟩ := h.solver i s hs
      exact ⟨hnone, htracked, hlogged.mono hle⟩
  case apart =>
    intro i j s s' hs hs' hid
    rw [solver?_newSolver] at hs hs'
    split at hs
    · next hi =>
      split at hs'
      · next hj => exact hi.trans hj.symm
      · cases hs
        have hold := (h.solver j s' hs').2.2.old
        rw [← hid] at hold
        exact absurd hold (Nat.lt_irrefl _)
    · split at hs'
      · cases hs'
        have hold := (h.solver i s hs).2.2.old
        rw [hid] at hold
        exact absurd hold (Nat.lt_irrefl _)
      · exact h.apart i j s s' hs hs' hid

theorem dropSolver (h : w.Keeps log) (i : Nat) : (w.dropSolver i).2.Keeps log := by
  have hsolver : ∀ j s, (w.dropSolver i).2.solver? j = some s → w.solver? j = some s := by
    intro j s hs
    rw [solver?_dropSolver] at hs
    split at hs
    · cases hs
    · exact hs
  exact ⟨h.handle, h.table, fun j s hs => h.solver j s (hsolver j s hs),
    fun j k s s' hs hs' => h.apart j k s s' (hsolver j s hs) (hsolver k s' hs'), h.old⟩

theorem putSolver (h : w.Keeps log) {i : Nat} {s s' : Solver H} (hs : w.solver? i = some s)
    (hw : s.table.Written ws s'.table) (ht : s'.formulas.Tracked) :
    (w.putSolver i s').Keeps (log ++ ws) := by
  obtain ⟨hnone, -, hlogged⟩ := h.solver i s hs
  refine ⟨h.handle, ?table, ?solver, ?apart, ?old⟩
  case table =>
    intro id t htable
    obtain ⟨rfl, hhandle, hthere⟩ := h.table id t htable
    refine ⟨rfl, hhandle, hthere.elsewhere ?_⟩
    -- the table of the solver is not among those that handles refer to
    intro e he hid
    rw [hw.own e he] at hid
    rw [hid] at hnone
    cases hnone.symm.trans htable
  case solver =>
    intro j u hu
    rw [solver?_putSolver hs] at hu
    split at hu
    · cases hu
      exact ⟨hw.id ▸ hnone, ht, hlogged.written hw⟩
    · next hj =>
      obtain ⟨hunone, hutracked, hulogged⟩ := h.solver j u hu
      refine ⟨hunone, hutracked, hulogged.elsewhere ?_⟩
      intro e he hid
      rw [hw.own e he] at hid
      exact hj (h.apart j i u s hu hs hid.symm)
  case apart =>
    intro j k u u' hu hu' hid
    rw [solver?_putSolver hs] at hu hu'
    split at hu
    · next hj =>
      split at hu'
      · next hk => exact hj.trans hk.symm
      · cases hu
        exact hj.trans (h.apart i k s u' hs hu' (hw.id ▸ hid))
    · split at hu'
      · next hk =>
        cases hu'
        exact (h.apart j i u s hu hs (hw.id ▸ hid)).trans hk.symm
      · exact h.apart j k u u' hu hu' hid
  case old =>
    intro e he
    rcases List.mem_append.mp he with he | he
    · exact h.old e he
    · rw [hw.own e he]
      exact hlogged.old

theorem newTable (h : w.Keeps log) (symbols : List (Symbol H)) :
    (w.newTable symbols).2.Keeps
      (log ++ Edit.writesAll (.empty w.nextTable) (symbols.map .insert)) := by
  have hle : w.nextTable ≤ w.nextTable + 1 := Nat.le_succ _
  have hw := Edit.writtenAll (Table.empty w.nextTable) (symbols.map .insert)
  rw [← Table.ofSymbols_eq] at hw
  have hid : (Table.ofSymbols w.nextTable symbols).id = w.nextTable := hw.id
  have htables : ∀ id, (w.newTable symbols).2.tables[id]? =
      if w.nextTable = id then some (Table.ofSymbols w.nextTable symbols) else w.tables[id]? := by
    intro id
    show (w.tables.insert _ _)[id]? = _
    rw [hid, Std.ExtTreeMap.getElem?_insert]
    simp [Std.LawfulEqCmp.compare_eq_iff_eq]
  have hother : ∀ t : Table H, t.id < w.nextTable → t.Logged log w.nextTable →
      t.Logged (log ++ Edit.writesAll (.empty w.nextTable) (symbols.map .insert))
        (w.nextTable + 1) := by
    intro t ht hlogged
    refine (hlogged.mono hle).elsewhere ?_
    intro e he hte
    rw [← hte, hw.own e he] at ht
    exact Nat.lt_irrefl _ ht
  refine ⟨?handle, ?table, ?solver, h.apart, ?old⟩
  case handle =>
    intro i id hi
    rw [handle?_newTable] at hi
    rw [htables]
    split at hi
    · cases hi
      exact ⟨_, if_pos hid.symm⟩
    · split
      · exact ⟨_, rfl⟩
      · exact h.handle i id hi
  case table =>
    intro id t ht
    rw [htables] at ht
    split at ht
    · next hnew =>
      subst hnew
      cases ht
      refine ⟨hid, ⟨w.handles.size, ?_⟩, (Table.Logged.empty h.old).written hw⟩
      rw [handle?_newTable, if_pos rfl, hid]
    · obtain ⟨rfl, ⟨i, hi⟩, hlogged⟩ := h.table id t ht
      refine ⟨rfl, ⟨i, ?_⟩, hother t hlogged.old hlogged⟩
      rw [handle?_newTable, if_neg, hi]
      rintro rfl
      simp [handle?] at hi
  case solver =>
    intro i s hs
    obtain ⟨hnone, htracked, hlogged⟩ := h.solver i s hs
    refine ⟨?_, htracked, hother s.table hlogged.old hlogged⟩
    rw [htables, if_neg (Nat.ne_of_gt hlogged.old), hnone]
  case old =>
    intro e he
    rcases List.mem_append.mp he with he | he
    · exact Nat.lt_of_lt_of_le (h.old e he) hle
    · rw [hw.own e he]
      exact Nat.lt_succ_self _

theorem cloneHandle (h : w.Keeps log) (i : Nat) : (w.cloneHandle i).2.Keeps log := by
  refine ⟨?handle, ?table, h.solver, h.apart, h.old⟩
  case handle =>
    intro j id hj
    rw [handle?_cloneHandle] at hj
    split at hj
    · exact h.handle i id hj
    · exact h.handle j id hj
  case table =>
    intro id t ht
    obtain ⟨hid, ⟨j, hj⟩, hlogged⟩ := h.table id t ht
    refine ⟨hid, ⟨j, ?_⟩, hlogged⟩
    rw [handle?_cloneHandle, if_neg, hj]
    rintro rfl
    simp [handle?] at hj

theorem dropHandle (h : w.Keeps log) {i : Nat} {id : TableId} (hi : w.handle? i = some id)
    (hd : w.DropsHandle i id w') : w'.Keeps log := by
  have hsolver : ∀ j, w'.solver? j = w.solver? j := fun j => by rw [solver?, hd.solvers, solver?]
  have hhandle : ∀ j id', w'.handle? j = some id' → j ≠ i ∧ w.handle? j = some id' := by
    intro j id' hj
    rw [hd.handle?] at hj
    split at hj
    · cases hj
    · next hne => exact ⟨hne, hj⟩
  have htables : ∀ id' t, w'.tables[id']? = some t → w.tables[id']? = some t ∧
      (id' = id → ∃ j, j ≠ i ∧ w.handle? j = some id) := by
    intro id' t ht
    rcases hd.tables with ⟨hkeep, hother⟩ | ⟨herase, -⟩
    · rw [hkeep] at ht
      exact ⟨ht, fun _ => hother⟩
    · rw [herase, Std.ExtTreeMap.getElem?_erase] at ht
      split at ht
      · cases ht
      · next hne => exact ⟨ht, fun he => absurd (he ▸ Std.ReflCmp.compare_self) hne⟩
  refine ⟨?handle, ?table, ?solver, ?apart, ?old⟩
  case handle =>
    intro j id' hj
    obtain ⟨hne, hj⟩ := hhandle j id' hj
    obtain ⟨t, ht⟩ := h.handle j id' hj
    rcases hd.tables with ⟨hkeep, -⟩ | ⟨herase, hlast⟩
    · exact ⟨t, by rw [hkeep, ht]⟩
    · refine ⟨t, ?_⟩
      rw [herase, Std.ExtTreeMap.getElem?_erase, if_neg, ht]
      rw [Std.LawfulEqCmp.compare_eq_iff_eq]
      rintro rfl
      exact hlast j hne hj
  case table =>
    intro id' t ht
    obtain ⟨ht, hother⟩ := htables id' t ht
    obtain ⟨hid, ⟨j, hj⟩, hlogged⟩ := h.table id' t ht
    refine ⟨hid, ?_, hd.nextTable ▸ hlogged⟩
    by_cases hji : j = i
    · -- the handle that was dropped is not the last one
      subst hji
      rw [hi] at hj
      cases hj
      obtain ⟨k, hk, hhandle⟩ := hother rfl
      exact ⟨k, by rw [hd.handle?, if_neg hk, hhandle]⟩
    · exact ⟨j, by rw [hd.handle?, if_neg hji, hj]⟩
  case solver =>
    intro j s hs
    rw [hsolver] at hs
    obtain ⟨hnone, htracked, hlogged⟩ := h.solver j s hs
    refine ⟨?_, htracked, hd.nextTable ▸ hlogged⟩
    cases ht : w'.tables[s.table.id]? with
    | none => rfl
    | some t => cases hnone.symm.trans (htables _ t ht).1
  case apart =>
    intro j k s s' hs hs'
    rw [hsolver] at hs hs'
    exact h.apart j k s s' hs hs'
  case old => exact hd.nextTable ▸ h.old

theorem putTable (h : w.Keeps log) {i : Nat} {t t' : Table H} (ht : w.table? i = some t)
    (hw : t.Written ws t') : (w.putTable t').Keeps (log ++ ws) := by
  obtain ⟨id, hi, htable⟩ := table?_eq_some.1 ht
  obtain ⟨rfl, -, hlogged⟩ := h.table id t htable
  have htables : ∀ id, (w.putTable t').tables[id]? =
      if t.id = id then some t' else w.tables[id]? := by
    intro id
    show (w.tables.insert _ _)[id]? = _
    rw [hw.id, Std.ExtTreeMap.getElem?_insert]
    simp [Std.LawfulEqCmp.compare_eq_iff_eq]
  refine ⟨?handle, ?table, ?solver, h.apart, ?old⟩
  case handle =>
    intro j id hj
    rw [htables]
    split
    · exact ⟨t', rfl⟩
    · exact h.handle j id hj
  case table =>
    intro id u hu
    rw [htables] at hu
    split at hu
    · next hid =>
      subst hid
      cases hu
      exact ⟨hw.id, ⟨i, hi⟩, hlogged.written hw⟩
    · next hne =>
      obtain ⟨rfl, hhandle, hulogged⟩ := h.table id u hu
      refine ⟨rfl, hhandle, hulogged.elsewhere ?_⟩
      intro e he hid
      exact hne ((hw.own e he).symm.trans hid)
  case solver =>
    intro j s hs
    obtain ⟨hnone, htracked, hslogged⟩ := h.solver j s hs
    have hne : t.id ≠ s.table.id := by
      intro hid
      rw [← hid, htable] at hnone
      cases hnone
    refine ⟨?_, htracked, hslogged.elsewhere ?_⟩
    · rw [htables, if_neg hne, hnone]
    · intro e he hid
      exact hne ((hw.own e he).symm.trans hid)
  case old =>
    intro e he
    rcases List.mem_append.mp he with he | he
    · exact h.old e he
    · rw [hw.own e he]
      exact hlogged.old

/-- **Every operation keeps the books.** -/
theorem moves (h : w.Keeps log) (hm : w.Moves ws w') : w'.Keeps (log ++ ws) := by
  cases hm with
  | aside hsolvers hhandles htables hnext =>
    rw [List.append_nil]
    exact h.aside hsolvers hhandles htables hnext
  | newSolver settings listeners =>
    rw [List.append_nil]
    exact h.newSolver settings listeners
  | dropSolver i =>
    rw [List.append_nil]
    exact h.dropSolver i
  | solver hs hgoes =>
    obtain ⟨hw, ht⟩ := hgoes (h.solver _ _ hs).2.1
    exact h.putSolver hs hw ht
  | newTable symbols => exact h.newTable symbols
  | cloneHandle i =>
    rw [List.append_nil]
    exact h.cloneHandle i
  | dropHandle hi hd =>
    rw [List.append_nil]
    exact h.dropHandle hi hd
  | table ht hw => exact h.putTable ht hw

/-- So does every history. -/
theorem operateAll [HostLibrary H] (h : w.Keeps log) (ops : List (Operation H)) :
    (w.operateAll ops).Keeps (log ++ w.writesAll ops) := by
  induction ops generalizing w log with
  | nil =>
    rw [Workspace.writesAll, List.append_nil]
    exact h
  | cons op ops ih =>
    rw [Workspace.writesAll, ← List.append_assoc]
    exact ih (h.moves (w.operate_moves op))

end Keeps

/-! ## What calls see -/

/-- All that refers to the identity of the table shows it. -/
structure Shows (w : Workspace H) (t : Table H) : Prop where
  there : w.allTables t.id = some t
  handle : ∀ i, w.handle? i = some t.id → w.table? i = some t
  solver : ∀ i s, w.solver? i = some s → s.table.id = t.id → s.table = t

theorem mem_solvers_iff {w : Workspace H} {s : Solver H} :
    some s ∈ w.solvers ↔ ∃ i, w.solver? i = some s := by
  simp only [Array.mem_iff_getElem?, solver?, Option.join_eq_some_iff]

/-- The table of a solver is there as long as the solver. -/
theorem Keeps.allTables_of_solver {w : Workspace H} {log : List (Write H)} (h : w.Keeps log)
    {i : Nat} {s : Solver H} (hs : w.solver? i = some s) :
    w.allTables s.table.id = some s.table := by
  rw [allTables, (h.solver i s hs).1]
  dsimp only
  generalize hfound : w.solvers.findSome? _ = found
  cases found with
  | none =>
    have hnone := Array.findSome?_eq_none_iff.1 hfound (some s) (mem_solvers_iff.2 ⟨i, hs⟩)
    dsimp only at hnone
    rw [if_pos rfl] at hnone
    cases hnone
  | some t =>
    obtain ⟨u?, hu, ht⟩ := Array.exists_of_findSome?_eq_some hfound
    cases u? with
    | none => cases ht
    | some u =>
      -- the table that was found is that of a solver, and no two solvers have one table
      dsimp only at ht
      split at ht
      · next hid =>
        obtain ⟨j, hj⟩ := mem_solvers_iff.1 hu
        obtain rfl := h.apart i j s u hs hj hid.symm
        rw [hs] at hj
        cases hj
        exact ht.symm
      · cases ht

/-- **What something refers to is there**, as it was written, and all handles show the same. -/
theorem Keeps.exists_shows {w : Workspace H} {log : List (Write H)} (h : w.Keeps log)
    {id : TableId} (hid : w.HasHandle id) :
    ∃ t, t.id = id ∧ w.Shows t ∧ t.Logged log w.nextTable := by
  rcases hid with ⟨i, hi⟩ | ⟨i, s, hs, rfl⟩
  · obtain ⟨t, ht⟩ := h.handle i id hi
    obtain ⟨rfl, -, hlogged⟩ := h.table id t ht
    refine ⟨t, rfl, ⟨?_, ?_, ?_⟩, hlogged⟩
    · rw [allTables, ht]
    · exact fun j hj => table?_eq_some.2 ⟨t.id, hj, ht⟩
    · intro j s hs hst
      have hnone := (h.solver j s hs).1
      rw [hst, ht] at hnone
      cases hnone
  · obtain ⟨hnone, -, hlogged⟩ := h.solver i s hs
    refine ⟨s.table, rfl, ⟨h.allTables_of_solver hs, ?_, ?_⟩, hlogged⟩
    · intro j hj
      obtain ⟨t, ht⟩ := h.handle j _ hj
      cases hnone.symm.trans ht
    · intro j u hu hid
      obtain rfl := h.apart j i u s hu hs hid
      rw [hs] at hu
      cases hu
      rfl

/-- **What nothing refers to is gone.** -/
theorem Keeps.allTables_eq_none {w : Workspace H} {log : List (Write H)} (h : w.Keeps log)
    {id : TableId} (hid : ¬w.HasHandle id) : w.allTables id = none := by
  have hnone : w.tables[id]? = none := by
    cases ht : w.tables[id]? with
    | none => rfl
    | some t => exact absurd (.inl (h.table id t ht).2.1) hid
  rw [allTables, hnone]
  refine Array.findSome?_eq_none_iff.2 ?_
  intro s? hs?
  cases s? with
  | none => rfl
  | some s =>
    obtain ⟨i, hs⟩ := mem_solvers_iff.1 hs?
    exact if_neg fun he => hid (.inr ⟨i, s, hs, he⟩)

end Workspace

end Recalc

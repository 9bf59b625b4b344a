import Recalc.Equality
import Recalc.Proofs.Isolation
import Recalc.Proofs.Roster

/-!
# A function lives as long as its table

A compiled function knows its table by identity only. Copies of it can be kept anywhere, in its own
table, in another one or outside of all, and none of them keeps the table. So whatever happens in a
workspace, and in whatever order handles are made and dropped:

* the number of arguments is checked first, whether the table is there or not;
* **a call finds the table gone just when its last handle was dropped**, where a solver counts as a
  handle of its own table, and it finds this out before it evaluates anything. The table stays gone;
* **as long as there is a handle, the body is evaluated over what was last written to the table**,
  through any of its handles;
* what is written to other tables makes no difference, unless a function in the table or among the
  arguments leads there.

Which handles there are is not read off the workspace, but told from the operations of its history.
-/

namespace Recalc

namespace Workspace

variable {H : Type}

/-! ## Where functions are compiled -/

/-- The function may have been compiled from the formula on a table that is held after the
history. -/
structure CompiledIn (ops : List (Operation H)) (f : Formula) (c : CompiledFunction) : Prop where
  isFunction : f.isFunction = true
  compiled : ∃ serial, c = f.compile c.table serial
  held : Held ops c.table

/-- The operation solves symbols of a solver. -/
inductive Operation.Solves (i : Nat) : Operation H → Prop where
  | one (depth : Nat) (x : String) : Solves i (.request depth i (.solve x))
  | all (depth : Nat) : Solves i (.solveAll depth i)

variable [HostLibrary H]

/-- Whatever runs a formula for a function next writes a function compiled from it, on the table
that it is run on. -/
structure CompilesNext (ops : List (Operation H)) : Prop where
  formula : ∀ (i : Nat) (t : Table H) (depth : Nat) (text : String) (f : Formula),
    (ofHistory ops).table? i = some t → Formula.parse text = .ok f → f.isFunction = true →
    ∃ c, CompiledIn ops f c ∧ c.table = t.id ∧
      (ofHistory ops).writes (.formula depth i text) =
        [⟨c.table, f.target, .callable (.compiled c)⟩]
  solve : ∀ (i : Nat) (s : Solver H) (op : Operation H) (e : Write H) (f : Formula),
    (ofHistory ops).solver? i = some s → op.Solves i → e ∈ (ofHistory ops).writes op →
    s.formula? e.name = some f → f.isFunction = true →
    ∃ c, CompiledIn ops f c ∧ c.table = s.table.id ∧
      e = ⟨c.table, f.target, .callable (.compiled c)⟩

/-- Running a formula for a function on a table writes the function. -/
theorem writes_formula_of_function {w : Workspace H} {i : Nat} {t : Table H}
    (ht : w.table? i = some t) {text : String} {f : Formula} (hf : Formula.parse text = .ok f)
    (hfun : f.isFunction = true) (depth : Nat) :
    w.writes (.formula depth i text) =
      [⟨t.id, f.target, .callable (.compiled (f.compile t.id t.compiled))⟩] := by
  rw [writes, ht]
  dsimp only
  rw [formulaWrites, runFormula, hf]
  simp only [Outcome.ofExcept, Outcome.mapError, Outcome.value_bind,
    Formula.assignIn_of_function hfun, Table.value?_set, if_pos, Outcome.pure_eq]
  rfl

/-- So does a solve, for each formula for a function that it runs. -/
theorem Operation.Solves.compiled_of_mem_writes {w : Workspace H} {i : Nat} {s : Solver H}
    (hs : w.solver? i = some s) (ht : s.formulas.Tracked) {op : Operation H} (hop : op.Solves i)
    {e : Write H} (he : e ∈ w.writes op) {f : Formula} (hf : s.formula? e.name = some f)
    (hfun : f.isFunction = true) : ∃ serial,
      e = ⟨s.table.id, f.target, .callable (.compiled (f.compile s.table.id serial))⟩ := by
  cases hop with
  | one depth x =>
    rw [writes, hs] at he
    exact Solver.compiled_of_mem_writes ht he hf hfun
  | all depth =>
    rw [writes, hs] at he
    exact Solver.compiled_of_mem_writesEach s.symbols ht he hf hfun

/-- **Functions are compiled on the tables that formulas are run on**, after any history. -/
theorem compilesNext (ops : List (Operation H)) : CompilesNext ops := by
  have h := keeps_ofHistory ops
  refine ⟨?formula, ?solve⟩
  case formula =>
    intro i t depth text f ht hf hfun
    obtain ⟨id, hi, htable⟩ := table?_eq_some.1 ht
    obtain ⟨rfl, -, -⟩ := h.table id t htable
    have hheld : Held ops t.id := (hasHandle_iff_held ops t.id).1 (.inl ⟨i, hi⟩)
    exact ⟨f.compile t.id t.compiled, ⟨hfun, ⟨t.compiled, rfl⟩, hheld⟩, rfl,
      writes_formula_of_function ht hf hfun depth⟩
  case solve =>
    intro i s op e f hs hop he hf hfun
    obtain ⟨serial, he⟩ := hop.compiled_of_mem_writes hs (h.solver i s hs).2.1 he hf hfun
    have hheld : Held ops s.table.id := (hasHandle_iff_held ops _).1 (.inr ⟨i, s, hs, rfl⟩)
    exact ⟨f.compile s.table.id serial, ⟨hfun, ⟨serial, rfl⟩, hheld⟩, rfl, he⟩

/-! ## Calls -/

/-- What is true of calls of a function compiled from the formula, after the history. -/
structure LivesWithTable (ops : List (Operation H)) (f : Formula) (c : CompiledFunction) :
    Prop where
  /-- Another number of arguments is refused, whether the table is there or not. -/
  refused : ∀ depth args, args.length ≠ f.params.length →
    (ofHistory ops).call depth (.compiled c) args =
      .error (.argumentCount f.target f.params.length args.length)
  /-- Where no body may be evaluated, a call fails just when all handles are dropped, -/
  detached_iff : ∀ args, args.length = f.params.length →
    ((ofHistory ops).call 0 (.compiled c) args = .error (.detached f.target) ↔
      ¬Held ops c.table)
  /-- and then it fails so wherever it is made. -/
  detached : ¬Held ops c.table → ∀ depth args, args.length = f.params.length →
    (ofHistory ops).call depth (.compiled c) args = .error (.detached f.target)
  /-- A table that is gone stays gone. -/
  gone : ¬Held ops c.table → ∀ later, ¬Held (ops ++ later) c.table
  /-- Else the body is evaluated over the table that all its handles show, as it was written. -/
  live : Held ops c.table → ∃ t, t.id = c.table ∧
    (Roster.ofHistory ops).Show (ofHistory ops) t ∧
    (∀ x, t.value? x = lastWritten (logOf ops) c.table x) ∧
    ∀ depth args, args.length = f.params.length →
      (ofHistory ops).call (depth + 1) (.compiled c) args =
        f.body.eval (ofHistory ops).allTables depth ⟨f.params.zip args, t⟩
  /-- Where host functions hold no compiled functions, calls come out the same as long as nothing is
  written to the tables that they can come to, and these neither come nor go. -/
  unaffected : HostLibrary.Uniform H → ∀ later args,
    (∀ id, (ofHistory ops).allTables.Reaches (.callable (.compiled c) :: args) id →
      (∀ e ∈ (ofHistory ops).writesAll later, e.table ≠ id) ∧
      (Held (ops ++ later) id ↔ Held ops id)) →
    ∀ depth, (ofHistory (ops ++ later)).call depth (.compiled c) args =
      (ofHistory ops).call depth (.compiled c) args

/-- Tables that nothing was written to and that neither came nor went are the same. -/
theorem Keeps.sameAt {w : Workspace H} {log : List (Write H)} (h : w.Keeps log)
    (later : List (Operation H)) {id : TableId} (hws : ∀ e ∈ w.writesAll later, e.table ≠ id)
    (hhandle : (w.operateAll later).HasHandle id ↔ w.HasHandle id) :
    w.allTables.SameAt (w.operateAll later).allTables id := by
  have hlater := h.operateAll later
  rw [Tables.SameAt]
  by_cases hid : w.HasHandle id
  · obtain ⟨t, rfl, hshows, hlogged⟩ := h.exists_shows hid
    obtain ⟨t', hid', hshows', hlogged'⟩ := hlater.exists_shows (hhandle.2 hid)
    have hthere' := hshows'.there
    rw [hid'] at hthere'
    rw [hshows.there, hthere']
    refine .some ?_
    intro x
    rw [hlogged.value?, hlogged'.value?, hid', lastWritten_append, lastWritten_eq_none hws]
    rfl
  · rw [h.allTables_eq_none hid, hlater.allTables_eq_none fun h => hid (hhandle.1 h)]
    exact .none

/-- **A function lives as long as its table**, if the table is among those that there have been. -/
theorem livesWithTable {ops : List (Operation H)} {f : Formula} {c : CompiledFunction}
    (hold : c.table < (Roster.ofHistory ops).nextTable)
    (hc : ∃ serial, c = f.compile c.table serial) : LivesWithTable ops f c := by
  have h := keeps_ofHistory ops
  have hheld := hasHandle_iff_held ops
  obtain ⟨hname, hparams, hbody⟩ :
      c.name = f.target ∧ c.params = f.params ∧ c.body = f.body := by
    obtain ⟨serial, hc⟩ := hc
    rw [hc]
    exact ⟨rfl, rfl, rfl⟩
  have htakes : ∀ args : List (Value H), args.length = f.params.length →
      (Callable.compiled c : Callable H).takes args.length = .ok () := by
    intro args hlen
    rw [← hparams] at hlen
    exact if_pos hlen
  have hdetached : ¬Held ops c.table → ∀ depth args, args.length = f.params.length →
      (ofHistory ops).call depth (.compiled c) args = .error (.detached f.target) := by
    intro hno depth args hlen
    rw [← hname]
    exact Callable.invoke_detached (htakes args hlen)
      (h.allTables_eq_none fun hid => hno ((hheld c.table).1 hid))
  have hthere : Held ops c.table → ∃ t, t.id = c.table ∧ (ofHistory ops).Shows t ∧
      t.Logged (logOf ops) (ofHistory ops).nextTable := fun hid =>
    h.exists_shows ((hheld c.table).2 hid)
  refine ⟨?refused, ?iff, hdetached, ?gone, ?live, ?unaffected⟩
  case refused =>
    intro depth args hlen
    rw [← hparams] at hlen
    rw [← hname, ← hparams]
    exact Callable.invoke_of_refused (if_neg hlen)
  case iff =>
    intro args hlen
    refine ⟨?_, fun hno => hdetached hno 0 args hlen⟩
    -- a table that is there is not evaluated over at depth zero, but it is found
    intro hcall hid
    obtain ⟨t, hid, hshows, -⟩ := hthere hid
    have ht := hshows.there
    rw [hid] at ht
    cases (Callable.invoke_compiled (htakes args hlen) ht).symm.trans hcall
  case gone => exact fun hno later hid => hno (hid.of_append hold)
  case live =>
    intro hid
    obtain ⟨t, hid, hshows, hlogged⟩ := hthere hid
    have ht := hshows.there
    rw [hid] at ht
    refine ⟨t, hid, (follows_ofHistory ops).shows hshows, ?_, ?_⟩
    · intro x
      rw [hlogged.value?, hid]
    · intro depth args hlen
      rw [← hparams, ← hbody]
      exact Callable.invoke_compiled (htakes args hlen) ht
  case unaffected =>
    intro hH later args hsame depth
    have happend : ofHistory (ops ++ later) = (ofHistory ops).operateAll later :=
      operateAll_append empty ops later
    rw [happend]
    refine Callable.invoke_eq_of_sameAt hH (.compiled c) args ?_ depth
    intro id hid
    obtain ⟨hws, hhandle⟩ := hsame id hid
    refine h.sameAt later hws ?_
    rw [← happend, hasHandle_iff_held, hheld]
    exact hhandle

/--
**A function lives exactly as long as its table, and reads it live.**

After any history, running a formula for a function compiles it on the table that it is run on. And
whatever happens after that, each function that a formula was compiled into can be called as long as
a handle on its table is left, and it reads that table as it is at the time of the call.
-/
theorem function_lives_with_table (before : List (Operation H)) :
    CompilesNext before ∧ ∀ (after : List (Operation H)) (f : Formula) (c : CompiledFunction),
      CompiledIn before f c → LivesWithTable (before ++ after) f c := by
  refine ⟨compilesNext before, ?_⟩
  intro after f c hc
  -- the table was there when the function was compiled, so its identity was given before
  refine livesWithTable (Nat.lt_of_lt_of_le hc.held.lt_nextTable ?_) hc.compiled
  rw [Roster.ofHistory_append]
  exact Roster.nextTable_le_afterAll _ after

/-! ### Functions that are lent -/

/-- A table with `a`, another one without symbols, and a solver; a function is compiled on the first
table and one on that of the solver. -/
def lending : List (Operation StandardHost) :=
  [.newTable [⟨"a", .number 2⟩], .newTable [], .newSolver {} 0, .formula 8 0 "f(x) = x * a",
    .request 8 0 (.define "g(x) = x + 1"), .request 8 0 (.solve "g")]

def lentFormula : Formula where
  raw := "f(x) = x * a"
  target := "f"
  params? := some ["x"]
  dependsOn := ["a"]
  body := .binary .mul (.name "x") (.name "a")

def lent : CompiledFunction := lentFormula.compile 0 0

def solvedFormula : Formula where
  raw := "g(x) = x + 1"
  target := "g"
  params? := some ["x"]
  dependsOn := []
  body := .binary .add (.name "x") (.number 1)

def solved : CompiledFunction := solvedFormula.compile 2 0

/-- The functions are copied into other tables, the first table is written to through a second
handle after the first was dropped, and then the solver is dropped. -/
def passingOn : List (Operation StandardHost) :=
  [.edit 1 (.set "copy" (.callable (.compiled lent))), .cloneHandle 0, .dropHandle 0,
    .edit 2 (.set "self" (.callable (.compiled lent))), .edit 2 (.set "a" (.number 5)),
    .edit 1 (.set "a" (.number 7)), .edit 1 (.set "g" (.callable (.compiled solved))),
    .dropSolver 0]

/-- The first function sees what was written last to its own table, until the second handle is
dropped too. The other one, which the solve at the end of `lending` compiles, is gone with the
solver, and its copy does not keep the table. -/
theorem function_lives_with_table_lent :
    (∃ c, CompiledIn lending.dropLast solvedFormula c ∧ c.table = solved.table) ∧
    (LivesWithTable (lending ++ passingOn) lentFormula lent ∧
      (ofHistory (lending ++ passingOn)).call 1 (.compiled lent) [.number 3] =
        .value (.number 15) ∧
      ¬Held (lending ++ (passingOn ++ [.dropHandle 2])) lent.table) ∧
    (ofHistory lending).call 1 (.compiled solved) [.number 3] = .value (.number 4) ∧
    ∀ depth, (ofHistory (lending ++ passingOn)).call depth (.compiled solved) [.number 3] =
      .error (.detached "g") := by
  refine ⟨?compiled, ⟨?lives, by decide +kernel, by decide⟩, by decide +kernel, ?detached⟩
  case compiled =>
    have hsolver : (((ofHistory lending.dropLast).solver? 0).any fun s =>
        s.table.id = 2 ∧ s.formula? "g" = some solvedFormula) = true := by decide +kernel
    obtain ⟨s, hs, hs'⟩ := (Option.any_eq_true _ _).1 hsolver
    obtain ⟨hid, hf⟩ := of_decide_eq_true hs'
    have hwrites : ((ofHistory lending.dropLast).writes (.request 8 0 (.solve "g"))).any
        (·.name = "g") = true := by decide +kernel
    obtain ⟨e, he, hname⟩ := List.any_eq_true.1 hwrites
    rw [← of_decide_eq_true hname] at hf
    obtain ⟨c, hc, htable, -⟩ := (function_lives_with_table lending.dropLast).1.solve 0 s
      (.request 8 0 (.solve "g")) e solvedFormula hs (.one 8 "g") he hf rfl
    exact ⟨c, hc, htable.trans hid⟩
  case lives =>
    exact (function_lives_with_table lending).2 passingOn lentFormula lent
      ⟨rfl, ⟨0, rfl⟩, by decide⟩
  case detached =>
    intro depth
    have hlives := (function_lives_with_table lending).2 passingOn solvedFormula solved
      ⟨rfl, ⟨0, rfl⟩, by decide⟩
    exact hlives.detached (by decide) depth [.number 3] rfl

end Workspace

end Recalc

import Recalc.Host
import Recalc.Proofs.FormulaRuns
import Recalc.Proofs.Histories
import Recalc.Proofs.Known
import Recalc.Proofs.Preservation

/-!
# Every name that is met is known

The errors `unresolved` and `detached` tell of a name that no table holds and of a table that is
gone. A solve never comes to either. A function compiled by a solver reads names that a formula of
that solver once depended on, and a definition makes these known for good; and it was compiled on
the table of the solver, which is there whenever it is called. So it may be called long after its
formula was replaced.

* **Every function that the solver holds or has answered with resolves in its table.** That is kept
  by all requests, as long as what is assigned is a number, an honest host function or a value that
  the solver has answered with.
* An honest host function makes up neither of the two errors, and no compiled functions. It may call
  and hand on its arguments, functions that the solver has answered with before the host function
  was assigned, and what comes of calling them.
-/

namespace Recalc

/-- The error tells of no missing name and no missing table. -/
def EvalError.Harmless : EvalError → Prop
  | .unresolved _ | .detached _ => False
  | .parse _ | .notCallable _ | .notNumber _ | .argumentCount _ _ _ => True

variable {H : Type} {G : (CompiledFunction → Prop) → H → Prop}

/-- The host functions with codes in `G P` come upon compiled functions in `P` only, if they are
given no others, and they make up no error that is not harmless. -/
structure HostLibrary.Honest [HostLibrary H] (G : (CompiledFunction → Prop) → H → Prop) :
    Prop where
  mono : ∀ {P Q : CompiledFunction → Prop}, (∀ f, P f → Q f) → ∀ code, G P code → G Q code
  keeps : ∀ (P : CompiledFunction → Prop) (code : H) (args : List (Value H)), G P code →
    (∀ v ∈ args, v.Drawn (G P) P) → (act code args).Keeps (Value.Drawn (G P) P) EvalError.Harmless

/-- **The standard host functions are honest**, whatever compiled functions there are. -/
theorem StandardHost.honest : HostLibrary.Honest fun _ (_ : StandardHost) => True := by
  refine ⟨fun _ _ h => h, ?_⟩
  intro P code args _ hargs
  cases code with
  | sum => exact .done (foldNumbers_meets (fun x => .number x) trivial args 0)
  | product => exact .done (foldNumbers_meets (fun x => .number x) trivial args 1)
  | first =>
    cases args with
    | nil => exact .done (.value (.number notANumber))
    | cons v vs => exact .done (.value (hargs v List.mem_cons_self))
  | count => exact .done (.value (.number _))
  | fail message => exact .done (.error trivial)
  | apply name =>
    match args, hargs with
    | [], _ => exact .done (.error trivial)
    | .number x :: vs, _ => exact .done (.error trivial)
    | .callable c :: vs, hargs =>
      exact .call (hargs _ List.mem_cons_self) (fun v hv => hargs v (List.mem_cons_of_mem _ hv))
        fun r hr => .done hr

/-! ## Tables -/

/-- The function was compiled on the table, and the table has all names that it reads there. -/
def CompiledFunction.ResolvesIn (t : Table H) (f : CompiledFunction) : Prop :=
  f.table = t.id ∧ ∀ x, f.body.references x = true → x ∉ f.params → ∃ v, t.value? x = some v

/-- The value is a number, a compiled function that resolves in the table, or a host function that
comes upon no others. -/
def Value.ResolvesIn (G : (CompiledFunction → Prop) → H → Prop) (t : Table H) (v : Value H) :
    Prop :=
  v.Drawn (G (·.ResolvesIn t)) (·.ResolvesIn t)

/-- The values of the table resolve in it. -/
def Table.Sound (G : (CompiledFunction → Prop) → H → Prop) (t : Table H) : Prop :=
  ∀ x v, t.value? x = some v → v.ResolvesIn G t

/-- `t'` is a later state of `t`: no name has left it. -/
structure Table.Grows (t t' : Table H) : Prop where
  id : t'.id = t.id
  exists_value : ∀ x, (∃ v, t.value? x = some v) → ∃ v, t'.value? x = some v

theorem Table.Grows.refl (t : Table H) : t.Grows t := ⟨rfl, fun _ h => h⟩

theorem CompiledFunction.ResolvesIn.grows {t t' : Table H} (ht : t.Grows t')
    {f : CompiledFunction} (h : f.ResolvesIn t) : f.ResolvesIn t' :=
  ⟨h.1.trans ht.id.symm, fun x hx hp => ht.exists_value x (h.2 x hx hp)⟩

variable {fs : Formulas} {t t' : Table H}

/-- A name that the body of a formula refers to is a parameter or known. -/
theorem Formula.exists_value_of_references {x : String} {f : Formula} (ht : fs.Tracked)
    (hknown : fs.KnownIn t) (hf : fs[x]? = some f) {y : String}
    (hy : f.body.references y = true) (hp : y ∉ f.params) : ∃ v, t.value? y = some v := by
  refine hknown x f hf y ?_
  rcases (ht x f hf).2 y hy with h | h | h
  · exact .inl h
  · exact absurd h hp
  · exact .inr h

variable [HostLibrary H]

theorem Value.ResolvesIn.grows (hG : HostLibrary.Honest G) (ht : t.Grows t') {v : Value H}
    (h : v.ResolvesIn G t) : v.ResolvesIn G t' :=
  h.mono (hG.mono fun _ hf => hf.grows ht) fun _ hf => hf.grows ht

/-- A table stays sound if its new values resolve in it. -/
theorem Table.Sound.grows (hG : HostLibrary.Honest G) (h : t.Sound G) (ht : t.Grows t')
    (hnew : ∀ x v, t'.value? x = some v → t.value? x = some v ∨ v.ResolvesIn G t) :
    t'.Sound G := by
  intro x v hv
  rcases hnew x v hv with hold | hresolves
  · exact (h x v hold).grows hG ht
  · exact hresolves.grows hG ht

variable {tables : Tables H} {depth : Nat}

/-- Evaluation over a sound table finds all names. -/
theorem Table.Sound.supports (hG : HostLibrary.Honest G) (h : t.Sound G) (tables : Tables H) :
    Supports (tables.put t) (Value.ResolvesIn G t) EvalError.Harmless where
  number x := .number x
  notNumber _ := trivial
  notCallable _ := trivial
  argumentCount _ _ _ := trivial
  compiled f hf := by
    cases hf with
    | compiled hf =>
      refine ⟨t, if_pos hf.1, ?_⟩
      intro x hx hp
      obtain ⟨v, hv⟩ := hf.2 x hx hp
      exact ⟨v, hv, h x v hv⟩
  host f args hf hargs := by
    cases hf with
    | host hg => exact hG.keeps _ f.code args hg hargs

namespace Formula

variable {x : String} {f : Formula}

/-- The body of a formula for a value ends well. -/
theorem eval_meets (hG : HostLibrary.Honest G) (ht : fs.Tracked) (hknown : fs.KnownIn t)
    (hsound : t.Sound G) (hf : fs[x]? = some f) (hfun : f.isFunction = false) :
    (f.body.eval (tables.put t) depth ⟨[], t⟩).Meets (Value.ResolvesIn G t)
      EvalError.Harmless := by
  refine Expr.eval_meets (hsound.supports hG tables) depth ?_
  intro y hy
  have hp : y ∉ f.params := by
    rw [params_eq_nil hfun]
    exact List.not_mem_nil
  obtain ⟨v, hv⟩ := exists_value_of_references ht hknown hf hy hp
  exact Scope.holds_of_table rfl ⟨v, hv, hsound y v hv⟩

/-- Running a formula keeps the table sound. -/
theorem Sets.sound (hG : HostLibrary.Honest G) (ht : fs.Tracked) (hknown : fs.KnownIn t)
    (hsound : t.Sound G) (hf : fs[x]? = some f) {v : Value H} (h : f.Sets tables depth v t t') :
    t'.Sound G := by
  have hresolves : v.ResolvesIn G t := by
    cases hfun : f.isFunction with
    | true =>
      rw [h.function hfun]
      exact .compiled ⟨rfl, fun y hy hp => exists_value_of_references ht hknown hf hy hp⟩
    | false =>
      have hmeets : (f.body.eval (tables.put t) depth ⟨[], t⟩).Meets (Value.ResolvesIn G t)
          EvalError.Harmless :=
        eval_meets hG ht hknown hsound hf hfun
      rw [h.scalar hfun] at hmeets
      exact hmeets.of_value
  refine hsound.grows hG ⟨h.id, ?_⟩ ?_
  · intro y hy
    rw [h.value?]
    split
    · exact ⟨v, rfl⟩
    · exact hy
  · intro y w hw
    rw [h.value?] at hw
    split at hw
    · cases hw
      exact .inr hresolves
    · exact .inl hw

end Formula

/-! ## Passes -/

namespace Pass

theorem Progress.grows {p q : Pass H} (h : Progress tables depth fs p q) :
    p.table.Grows q.table :=
  ⟨h.id_eq, fun _ hx => h.exists_value hx⟩

/-- **A pass keeps the table sound**, however it ends. -/
theorem Progress.sound (hG : HostLibrary.Honest G) (ht : fs.Tracked) {p q : Pass H}
    (h : Progress tables depth fs p q) (hknown : fs.KnownIn p.table) (hsound : p.table.Sound G) :
    q.table.Sound G := by
  induction h with
  | refl => exact hsound
  | tail hpq hx ih =>
    rcases hx.table_cases with ⟨htable, _⟩ | ⟨f, v, hf, _, hv⟩
    · rw [htable]
      exact ih
    · exact hv.sound hG ht (hpq.knownIn hknown) ih hf

end Pass

/-! ## Histories -/

namespace Solver

variable {settings : Settings}

/-- **A solver stays sound**, if a value that is assigned to it resolves in its table. -/
theorem Performs.sound (hG : HostLibrary.Honest G) {s : Solver H} {r : Request H}
    {reply : Reply H (Option (Value H))} (h : Performs tables depth s r reply)
    (ht : s.formulas.Tracked) (hknown : s.formulas.KnownIn s.table) (hsound : s.table.Sound G)
    (hassigned : ∀ v ∈ Exchange.assigned? ⟨r, reply⟩, v.ResolvesIn G s.table) :
    reply.solver.table.Sound G ∧ s.table.Grows reply.solver.table := by
  cases h with
  | @installed text f =>
    have hgrows : s.table.Grows (s.install f).table :=
      ⟨s.install_id f, fun x ⟨v, hv⟩ => ⟨v, value?_install_of_some hv⟩⟩
    refine ⟨hsound.grows hG hgrows ?_, hgrows⟩
    intro x v hv
    cases hold : s.table.value? x with
    | some w =>
      rw [value?_install_of_some hold] at hv
      exact .inl hv
    | none =>
      rw [value?_install_of_none hold hv]
      exact .inr (.number _)
  | @assigned x v =>
    have hgrows : s.table.Grows (s.withValue x v).table := by
      refine ⟨rfl, ?_⟩
      intro y hy
      rw [value?_withValue]
      split
      · exact ⟨v, rfl⟩
      · exact hy
    refine ⟨hsound.grows hG hgrows ?_, hgrows⟩
    intro y w hw
    rw [value?_withValue] at hw
    split at hw
    · cases hw
      exact .inr (hassigned v rfl)
    · exact .inl hw
  | @passed x =>
    have hprogress := s.pass_progress tables depth x
    exact ⟨hprogress.sound hG ht hknown hsound, hprogress.grows⟩
  | notInstalled | notAssigned | read => exact ⟨hsound, .refl _⟩

/-- A number, a host function that comes upon no compiled functions but answers, or an answer. -/
def Supplied (G : (CompiledFunction → Prop) → H → Prop) (before : List (Exchange H))
    (v : Value H) : Prop :=
  v.Drawn (G fun f => Answered before (.callable (.compiled f))) (fun _ => False) ∨
    Answered before v

instance [DecidableEq H] [∀ P, DecidablePred (G P)] (before : List (Exchange H)) :
    DecidablePred (Supplied G before) :=
  fun _ => inferInstanceAs (Decidable (_ ∨ _))

/-- Where all answers resolve, so does what is supplied. -/
theorem Supplied.resolvesIn (hG : HostLibrary.Honest G) {before : List (Exchange H)}
    {t : Table H} (hanswers : ∀ v, Answered before v → v.ResolvesIn G t) {v : Value H}
    (h : Supplied G before v) : v.ResolvesIn G t := by
  rcases h with hdrawn | hanswered
  · refine hdrawn.mono (hG.mono ?_) fun _ hno => hno.elim
    intro f hf
    cases hanswers _ hf with
    | compiled hf => exact hf
  · exact hanswers v hanswered

/-- **What a solver holds and has answered with resolves in its table**, if what was assigned to it
were numbers, honest host functions and values that it had answered with. -/
theorem Run.sound (hG : HostLibrary.Honest G) {id : TableId} {s : Solver H}
    {log : List (Exchange H)} (h : Run depth (.empty settings id) log s)
    (hassigns : AssignsFrom (Supplied G) [] log) :
    s.table.Sound G ∧ ∀ v, Answered log v → v.ResolvesIn G s.table := by
  induction h with
  | nil =>
    refine ⟨?_, fun _ ⟨_, he, _⟩ => absurd he List.not_mem_nil⟩
    intro x v hv
    cases (Table.value?_empty id x).symm.trans hv
  | listen _ ih => exact ih hassigns
  | @perform log s tables r hrun ih =>
    obtain ⟨hbefore, hlast⟩ := hassigns.append_singleton
    obtain ⟨hsound, hanswers⟩ := ih hbefore
    have hreachable := hrun.reachable_of_empty
    have hcases := s.perform_cases tables depth r
    generalize s.perform tables depth r = reply at hcases hlast
    obtain ⟨hsound', hgrows⟩ := hcases.sound hG hreachable.tracked hreachable.known hsound
      fun v hv => (hlast v hv).resolvesIn hG hanswers
    refine ⟨hsound', ?_⟩
    rintro v ⟨e, he, hv⟩
    rcases List.mem_append.mp he with he | he
    · exact (hanswers v ⟨e, he, hv⟩).grows hG hgrows
    · rw [List.mem_singleton] at he
      subst he
      -- a solver answers only with what its table holds afterwards
      obtain ⟨x, hx⟩ := hcases.value?_of_answered hv
      exact hsound' x v hx

/-- If a formula of a sound solver fails in a solve, the error is harmless. -/
theorem harmless_of_solve (hG : HostLibrary.Honest G) {s : Solver H}
    (h : Reachable settings depth s) (hsound : s.table.Sound G) (tables : Tables H) (d : Nat)
    {x : String} {e : EvalError} (he : (s.solve tables d x).answer = .error (.formula e)) :
    e.Harmless := by
  have hanswers := s.solve_answers tables d x
  rw [he] at hanswers
  cases hanswers with
  | @failed f q _ hruns hfun heval =>
    obtain ⟨hprogress, y, hready⟩ := hruns.2.2.ready
    have hmeets : (f.body.eval (tables.put q.table) d ⟨[], q.table⟩).Meets
        (Value.ResolvesIn G q.table) EvalError.Harmless :=
      Formula.eval_meets hG h.tracked (hprogress.knownIn h.known)
        (hprogress.sound hG h.tracked h.known hsound) hready.some hfun
    rw [heval] at hmeets
    exact hmeets.of_error

/--
**A solve never comes to a name that is not resolved or a function that is detached.**

Let a solver have come about by any definitions, assignments and solves, where each value that was
assigned is a number, an honest host function, or a value that an earlier solve of the same solver
has answered with. A host function may come upon functions of that solver too, if they were answers
before. Then no solve fails with one of the two errors: whatever symbol is solved, over whatever
other tables, to whatever depth, and whether or not the functions that it calls were compiled from
formulas that have been replaced since.
-/
theorem never_unresolved_or_detached (hG : HostLibrary.Honest G) {id : TableId} {s : Solver H}
    {log : List (Exchange H)} (h : Run depth (.empty settings id) log s)
    (hassigns : AssignsFrom (Supplied G) [] log) (tables : Tables H) (d : Nat) (x y : String) :
    (s.solve tables d x).answer ≠ .error (.formula (.unresolved y)) ∧
      (s.solve tables d x).answer ≠ .error (.formula (.detached y)) := by
  have hreachable := h.reachable_of_empty
  obtain ⟨hsound, _⟩ := h.sound hG hassigns
  exact ⟨fun he => harmless_of_solve hG hreachable hsound tables d he,
    fun he => harmless_of_solve hG hreachable hsound tables d he⟩

/-- A function that reads `a`. The solver below replaces the formula that it was compiled from. -/
def superseded : Value StandardHost :=
  .callable (.compiled ⟨"g", ["x"], .binary .add (.name "x") (.name "a"), 0, 0⟩)

def replacing : List (Request StandardHost) :=
  [.define "g(x) = x + a", .assign "a" (.number 1), .solve "g", .assign "h" superseded,
    .define "g(x) = x * b", .assign "apply" (.callable (.host ⟨"apply", none, .apply "apply", 0⟩)),
    .define "z = apply(h, 2)"]

theorem never_unresolved_or_detached_replacing :
    ((performAll .empty 8 (.empty {} 0) replacing).solve .empty 5 "z").answer =
        .value (.number 3) ∧
      ∀ y, ((performAll .empty 8 (.empty {} 0) replacing).solve .empty 5 "z").answer ≠
          .error (.formula (.unresolved y)) ∧
        ((performAll .empty 8 (.empty {} 0) replacing).solve .empty 5 "z").answer ≠
          .error (.formula (.detached y)) := by
  have h : Run 8 (.empty {} 0) (exchanges .empty 8 (.empty {} 0) replacing)
      (performAll .empty 8 (.empty {} 0) replacing) := .exchanges .empty replacing _
  exact ⟨by decide +kernel, fun y =>
    never_unresolved_or_detached StandardHost.honest h (by decide +kernel) .empty 5 "z" y⟩

/-! ### A host function that hands over what it holds -/

/-- A host function that holds a compiled function and hands it over. -/
structure Holder where
  held : CompiledFunction
  deriving DecidableEq

instance : HostLibrary Holder := ⟨fun code _ => .done (.ok (.callable (.compiled code.held)))⟩

/-- A number, a host function that makes up no harmful error, or an answer. Nothing is asked of the
functions that host functions come upon. -/
def Offered (before : List (Exchange H)) (v : Value H) : Prop :=
  v.Drawn (fun code => ∀ args, (HostLibrary.act code args).Keeps (fun _ => True) EvalError.Harmless)
    (fun _ => False) ∨ Answered before v

/-- Handing over is no error. -/
instance (code : Holder) : Decidable (∀ args : List (Value Holder),
    (HostLibrary.act code args).Keeps (fun _ => True) EvalError.Harmless) :=
  isTrue fun _ => .done (.value trivial)

instance (before : List (Exchange Holder)) : DecidablePred (Offered before) :=
  fun _ => inferInstanceAs (Decidable (_ ∨ _))

/-- A function that reads `b` in a table of its own. -/
def foreign : CompiledFunction := ⟨"c", ["x"], .binary .add (.name "x") (.name "b"), 1, 0⟩

def handingOver : List (Request Holder) :=
  [.assign "mk" (.callable (.host ⟨"mk", some 0, ⟨foreign⟩, 0⟩)), .define "h = mk()",
    .define "y = h(1)"]

/-- **It is not enough that host functions make up no such errors.** One that hands over a function
of another table leads to both: a solve finds that table gone, or the name missing there. -/
theorem detached_behind_holder :
    Run 8 (.empty {} 0) (exchanges .empty 8 (.empty {} 0) handingOver)
        (performAll .empty 8 (.empty {} 0) handingOver) ∧
      AssignsFrom Offered [] (exchanges .empty 8 (.empty {} 0) handingOver) ∧
      ((performAll .empty 8 (.empty {} 0) handingOver).solve .empty 5 "y").answer =
        .error (.formula (.detached "c")) ∧
      ((performAll .empty 8 (.empty {} 0) handingOver).solve (Tables.empty.put (.empty 1)) 5
        "y").answer = .error (.formula (.unresolved "b")) :=
  ⟨.exchanges .empty handingOver _, by decide +kernel, by decide +kernel, by decide +kernel⟩

end Solver

end Recalc

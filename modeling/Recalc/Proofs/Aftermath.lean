import Recalc.Host
import Recalc.Proofs.Recomputation
import Recalc.Proofs.Traversal

/-!
# What a request leaves

A request that is refused leaves the solver as it was. A solve is not refused once its symbol is
known: it makes a pass, and what it leaves depends on how the pass ends.

* If the pass succeeds, what is finished is the symbol and what it depends on, all of it and nothing
  else. The symbol is current then, so it is grounded, and the pass has gone through what it depends
  on as a plain traversal does.
* If the pass stops, the symbol is still stale. For if it were current it would be grounded, and a
  pass over a grounded symbol that stops does so before the symbol is finished.

However the pass ends, values, stale symbols and events are in step: a symbol has a new value only
if it has left the stale ones, and it has left them only if it was recomputed or has no formula.
-/

namespace Recalc

theorem Outcome.eq_error_of_map {ε α β : Type} {f : α → β} {o : Outcome ε α} {e : ε}
    (h : o.map f = .error e) : o = .error e := by
  cases o with
  | value a => cases h
  | error e' => exact congrArg _ (Outcome.error.inj h)
  | exhausted => cases h

/-- Only symbols with a formula are recomputed. -/
theorem Pass.Progress.formula_of_mem_recomputed {H : Type} [HostLibrary H] {depth : Nat}
    {tables : Tables H} {fs : Formulas} {p q : Pass H} (h : Progress tables depth fs p q)
    {x : String} (hx : x ∈ q.recomputed) : x ∈ p.recomputed ∨ ∃ f, fs[x]? = some f := by
  induction h with
  | refl => exact .inl hx
  | tail _ hz ih =>
    cases hz with
    | leaf => exact ih hx
    | current => exact ih hx
    | recomputed hf =>
      rcases List.mem_append.mp hx with hx | hx
      · exact ih hx
      · rw [List.mem_singleton.mp hx]
        exact .inr ⟨_, hf⟩

namespace Solver

variable {H : Type} [HostLibrary H] {settings : Settings} {depth : Nat} {tables : Tables H}
  {s : Solver H} {x y : String}

/-! ## The pass of a solve -/

theorem marks_pass (hm : s.formulas.Marks s.stale) :
    s.formulas.Marks (s.pass tables depth x).1.stale :=
  ((Pass.Marked.start hm).progress (s.pass_progress tables depth x)).marks

theorem mem_stale_pass : y ∈ (s.pass tables depth x).1.stale ↔
    y ∈ s.stale ∧ y ∉ (s.pass tables depth x).1.finished :=
  (s.pass_progress tables depth x).mem_stale_iff fun _ hy => absurd hy Std.ExtTreeSet.not_mem_empty

/-- What a pass finishes is current, so a pass that succeeds is one for a grounded symbol. -/
theorem grounded_of_pass (hm : s.formulas.Marks s.stale)
    (hpass : (s.pass tables depth x).2 = .value ()) : s.formulas.Grounded x := by
  have hx : x ∈ (s.pass tables depth x).1.finished := (Pass.refresh_progress _ _ _ _).2 hpass
  exact (marks_pass hm).grounded x fun hstale => (mem_stale_pass.1 hstale).2 hx

/-- **A pass that succeeds finishes its symbol and what that depends on, and nothing else.** -/
theorem mem_finished_pass (hm : s.formulas.Marks s.stale)
    (hpass : (s.pass tables depth x).2 = .value ()) :
    y ∈ (s.pass tables depth x).1.finished ↔ y = x ∨ s.formulas.Reaches x y := by
  have hx : x ∈ (s.pass tables depth x).1.finished := (Pass.refresh_progress _ _ _ _).2 hpass
  constructor
  · intro hy
    rw [pass_eq_settleEach (grounded_of_pass hm hpass)] at hy
    rcases Pass.mem_finished_settleEach hy with hy | hy
    · exact absurd hy Std.ExtTreeSet.not_mem_empty
    · exact Formulas.eq_or_reaches_of_mem_unfolding hy
  · intro hy
    have hclosed : Pass.Closed s.formulas (s.pass tables depth x).1 :=
      (Pass.Closed.start _ _ _).progress (s.pass_progress tables depth x)
    rcases hy with rfl | hxy
    · exact hx
    · exact hclosed.mem_of_reaches hx hxy

/-- **A pass that stops leaves its symbol stale.** -/
theorem mem_stale_of_pass_stop (hm : s.formulas.Marks s.stale)
    (hstop : (s.pass tables depth x).2 ≠ .value ()) : x ∈ (s.pass tables depth x).1.stale := by
  by_contra hx
  cases hstale : s.isStale x with
  | false =>
    obtain ⟨finished, hpass⟩ := pass_of_current hm tables depth hstale
    rw [hpass] at hstop
    exact hstop rfl
  | true =>
    have hg : s.formulas.Grounded x := (marks_pass hm).grounded x hx
    have hopen : x ∉ (s.pass tables depth x).1.finished :=
      Pass.not_mem_finished_of_stop hg (.start _) (fun _ hz => absurd hz List.not_mem_nil)
        (.start _ _ _) Std.ExtTreeSet.not_mem_empty hstop
    exact hx (mem_stale_pass.2 ⟨isStale_iff.1 hstale, hopen⟩)

/-- A pass stops at a circle or in a formula. -/
theorem error_of_pass {e : SolverError} (h : (s.pass tables depth x).2 = .error e) :
    (∃ y way, e = .circular y way) ∨ ∃ cause, e = .formula cause := by
  have hstop : (s.pass tables depth x).2 ≠ .value () := by
    rw [h]
    intro he
    cases he
  rcases Pass.refresh_stops _ _ _ _ (.start s.formulas) hstop with ⟨y, way, hway⟩ | ⟨f, q, _, hq⟩
  · exact .inl ⟨y, way, Outcome.error.inj (h.symm.trans hway)⟩
  · have hq : Pass.StopsAt tables depth q f (s.pass tables depth x).2 := hq
    rw [h] at hq
    cases hq with
    | @error cause _ => exact .inr ⟨cause, rfl⟩

/-- What a solver has in common with the one before a pass, however the pass ended. -/
structure Refreshed (s after : Solver H) : Prop where
  formulas : after.formulas = s.formulas
  known : ∀ y, after.contains y = s.contains y
  /-- Nothing has become stale. -/
  stale : ∀ y, after.isStale y = true → s.isStale y = true
  /-- What has another value has a formula and has left the stale symbols. -/
  values : ∀ y, after.table.value? y ≠ s.table.value? y →
    (∃ f, s.formula? y = some f) ∧ s.isStale y = true ∧ after.isStale y = false
  /-- What has left the stale symbols depends on none of those that have not. -/
  settled : ∀ y, s.isStale y = true → after.isStale y = false →
    ∀ d ∈ s.dependencies y, after.isStale d = false

theorem ReachableBy.refreshed {ok : Request H → Solver H → Prop} {depth' : Nat}
    (h : ReachableBy ok settings depth' s) (tables : Tables H) (depth : Nat) (x : String) :
    Refreshed s (s.afterPass (s.pass tables depth x).1) where
  formulas := rfl
  known y := by
    rw [contains_eq_isSome, contains_eq_isSome]
    exact (s.pass_progress tables depth x).isSome_value? h.tracked h.known y
  stale y hy := isStale_iff.2 (mem_stale_pass.1 (isStale_iff.1 hy)).1
  values y hy := by
    have hkeep := (s.pass_progress tables depth x).value?_eq h.tracked (y := y)
    rw [isStale_iff, isStale_eq_false]
    refine ⟨?_, ?_, ?_⟩
    · cases hf : s.formula? y with
      | none => exact absurd (hkeep (.inr (.inr hf))) hy
      | some f => exact ⟨f, rfl⟩
    · by_contra hs
      exact hy (hkeep (.inr (.inl hs)))
    · intro hs
      exact hy (hkeep (.inl hs))
  settled y _ hy d hd := by
    rw [isStale_eq_false] at hy ⊢
    exact (marks_pass h.marks).not_mem_of_reaches hy (Formulas.mem_dependencies_iff.1 hd).2

/-! ## Solves that succeed -/

/--
**A solve that succeeds makes current its symbol and what that depends on, and touches nothing
else.**

Of the stale symbols of a reachable solver, exactly these leave, those without formula among them.
Formulas and known names are as before; a value is another one only where a stale symbol among these
has a formula; and the answer is the value that the symbol has then.
-/
theorem stale_and_values_of_solved {s : Solver H} (h : Reachable settings depth s)
    {tables : Tables H} {depth' : Nat} {x : String} {v : Value H} {reply : Reply H (Value H)}
    (hreply : s.solve tables depth' x = reply) (hv : reply.answer = .value v) :
    (∀ y, reply.solver.isStale y = true ↔
      s.isStale y = true ∧ ¬ (y = x ∨ y ∈ s.dependencies x)) ∧
    reply.solver.formulas = s.formulas ∧
    (∀ y, reply.solver.contains y = s.contains y) ∧
    (∀ y, reply.solver.table.value? y ≠ s.table.value? y →
      (∃ f, s.formula? y = some f) ∧ (y = x ∨ y ∈ s.dependencies x) ∧ s.isStale y = true) ∧
    reply.solver.table.value? x = some v := by
  subst hreply
  obtain ⟨hx, hpass⟩ := pass_of_solved h.marks hv
  have hrefreshed := h.refreshed tables depth' x
  have hcone : ∀ y, y ∈ (s.pass tables depth' x).1.finished ↔ y = x ∨ y ∈ s.dependencies x := by
    intro y
    rw [mem_finished_pass h.marks hpass]
    exact Formulas.eq_or_mem_dependencies_iff.symm
  have hstale : ∀ y, (s.afterPass (s.pass tables depth' x).1).isStale y = true ↔
      s.isStale y = true ∧ ¬ (y = x ∨ y ∈ s.dependencies x) := by
    intro y
    rw [isStale_iff, isStale_iff, afterPass_stale, mem_stale_pass, hcone]
  rw [solve_eq_pass h.marks tables depth' hx] at hv ⊢
  refine ⟨hstale, rfl, hrefreshed.known, ?values, ?answer⟩
  case values =>
    intro y hy
    obtain ⟨hf, hs, hs'⟩ := hrefreshed.values y hy
    refine ⟨hf, ?_, hs⟩
    -- it has left the stale symbols, and only what `x` depends on has
    by_contra hno
    rw [(hstale y).2 ⟨hs, hno⟩] at hs'
    cases hs'
  case answer =>
    rw [hpass] at hv
    exact value?_of_read hv

/-- Two formulas on top of a value, and one that none of them depends on. -/
def stacked : Solver StandardHost :=
  performAll .empty 8 (.empty {} 0)
    [.define "b = a + 1", .define "c = b * 2", .define "z = c - a", .assign "a" (.number 1)]

theorem stale_and_values_of_solved_stacked :
    (stacked.solve .empty 8 "c").solver.isStale "a" = false ∧
    (stacked.solve .empty 8 "c").solver.isStale "z" = true ∧
    (stacked.solve .empty 8 "c").solver.table.value? "c" = some (.number 4) := by
  have h : Reachable {} 8 stacked := .performAll .empty _ (.empty 0) (by decide +kernel)
  have hv : (stacked.solve .empty 8 "c").answer = .value (.number 4) := by decide +kernel
  obtain ⟨hstale, _, _, _, hvalue⟩ := stale_and_values_of_solved h rfl hv
  refine ⟨?_, (hstale "z").2 ⟨by decide +kernel, by decide +kernel⟩, hvalue⟩
  rw [Bool.eq_false_iff]
  intro ha
  exact ((hstale "a").1 ha).2 (by decide +kernel)

/-! ## Requests that fail -/

/-- What a solve of `x` leaves that fails on the way, and what it has told of. -/
structure StopsMidway (s : Solver H) (x : String) (after : Solver H) (events : List Event) :
    Prop extends Refreshed s after where
  unsolved : after.isStale x = true
  /-- The symbols told of are those with a formula that have left the stale ones, each once. -/
  told : ∃ xs, events = s.eventsFor xs ∧ xs.Nodup ∧ ∀ y, y ∈ xs ↔
    (∃ f, s.formula? y = some f) ∧ s.isStale y = true ∧ after.isStale y = false

/-- All the ways in which a request fails. Only a solve of a known symbol leaves another solver. -/
inductive Fails (s : Solver H) :
    Request H → SolverError → Reply H (Option (Value H)) → Prop where
  | notFormula {text : String} {cause : ParseError} (parse : Formula.parse text = .error cause) :
      Fails s (.define text) (.formula (.parse cause)) ⟨s, [], .error (.formula (.parse cause))⟩
  | circular {text : String} {f : Formula} {path : List String}
      (parse : Formula.parse text = .ok f) (checked : s.settings.circles = .atDefinition)
      (circle : s.circle? f = some path) :
      Fails s (.define text) (.circular f.target path) ⟨s, [], .error (.circular f.target path)⟩
  | conflicting {x : String} {v : Value H} {f : Formula} (some : s.formula? x = some f) :
      Fails s (.assign x v) (.conflicting x) ⟨s, [], .error (.conflicting x)⟩
  | unknown {x : String} (unknown : s.contains x = false) :
      Fails s (.solve x) (.unknown x) ⟨s, [], .error (.unknown x)⟩
  | midway {x : String} {e : SolverError} {after : Solver H} {events : List Event}
      (known : s.contains x = true)
      (error : (∃ y way, e = .circular y way) ∨ ∃ cause, e = .formula cause)
      (midway : StopsMidway s x after events) : Fails s (.solve x) e ⟨after, events, .error e⟩

/-- A solve of a known symbol that fails stops midway. -/
theorem ReachableBy.stopsMidway {ok : Request H → Solver H → Prop} {depth' : Nat}
    (h : ReachableBy ok settings depth' s)
    (hstop : (s.pass tables depth x).2 ≠ .value ()) :
    StopsMidway s x (s.afterPass (s.pass tables depth x).1)
      (s.eventsFor (s.pass tables depth x).1.recomputed) where
  toRefreshed := h.refreshed tables depth x
  unsolved := isStale_iff.2 (mem_stale_of_pass_stop h.marks hstop)
  told := by
    have hprogress := s.pass_progress tables depth x
    obtain ⟨xs, hxs, hnodup, hmem⟩ := hprogress.recomputed_eq
    have hxs : (s.pass tables depth x).1.recomputed = xs := hxs
    refine ⟨xs, by rw [hxs], hnodup, ?_⟩
    intro y
    rw [isStale_iff, isStale_eq_false]
    constructor
    · intro hy
      rcases hprogress.formula_of_mem_recomputed (hxs ▸ hy) with hnil | hf
      · exact absurd hnil List.not_mem_nil
      · exact ⟨hf, hmem y hy⟩
    · intro hy
      obtain ⟨⟨f, hf⟩, hs, hs'⟩ := hy
      rw [← hxs]
      exact hprogress.mem_recomputed hf hs hs'

/--
**A request that fails leaves the solver as it was, or in step with what it has told of.**

A definition fails if its text is no formula or closes a circle that is looked for, an assignment if
the symbol has a formula, and a solve if its symbol is unknown: then the solver is the same and
nothing is told of. A solve of a known symbol fails at a circle or in a formula. It leaves formulas
and known names alone and makes nothing stale; its symbol is still stale, as is all that depends on
a stale symbol; values have changed only where a symbol has left the stale ones; and what it has
told of are the symbols with formulas that have, each once.
-/
theorem failed_request {s : Solver H} (h : Reachable settings depth s) {tables : Tables H}
    {depth' : Nat} {r : Request H} {e : SolverError} {reply : Reply H (Option (Value H))}
    (hreply : s.perform tables depth' r = reply) (he : reply.answer = .error e) :
    Fails s r e reply := by
  have hcases := s.perform_cases tables depth' r
  rw [hreply] at hcases
  cases hcases with
  | installed => cases he
  | notInstalled hd =>
    obtain rfl := Outcome.error.inj he
    rcases define_eq_error hd with ⟨cause, hf, rfl⟩ | ⟨f, path, hf, hs, hc, rfl⟩
    · exact .notFormula hf
    · exact .circular hf hs hc
  | assigned => cases he
  | notAssigned ha =>
    obtain rfl := Outcome.error.inj he
    obtain ⟨⟨f, hf⟩, rfl⟩ := assign_eq_error ha
    exact .conflicting hf
  | @passed x hx hstale =>
    have hanswer : (s.solve tables depth' x).answer = .error e := by
      rw [solve_of_stale tables depth' hx hstale]
      exact Outcome.eq_error_of_map he
    have hpass := pass_of_failed h.marks hx hanswer
    have hstop : (s.pass tables depth' x).2 ≠ .value () := by
      rw [hpass]
      intro hvalue
      cases hvalue
    dsimp only at he
    rw [he]
    exact .midway hx (error_of_pass hpass) (h.stopsMidway hstop)
  | @read x _ =>
    -- reading fails only for want of the symbol
    have hread := Outcome.eq_error_of_map he
    unfold Solver.read at hread
    split at hread
    · cases hread
    · next hnone =>
      obtain rfl := Outcome.error.inj hread
      dsimp only at he
      rw [he]
      exact .unknown (by rw [contains_eq_isSome, hnone]; rfl)

/-- The solve of `broken` recomputes `b` and `c` and fails behind them, and a circle is refused. -/
theorem failed_request_watched :
    StopsMidway watched "broken" watchedRecomputed.solver watchedRecomputed.events ∧
    watchedRecomputed.events = [⟨0, "b"⟩, ⟨0, "c"⟩] ∧
    (watched.perform .empty 8 (.define "a = c")).solver = watched := by
  have h : Reachable {} 8 watched := .performAll .empty _ (.listen (.empty 0)) (by decide +kernel)
  have hsolve : watchedRecomputed.answer = .error (.formula (.notCallable "c")) := by
    decide +kernel
  have hdefine : (watched.perform .empty 8 (.define "a = c")).answer =
      .error (.circular "a" ["a", "c", "b", "a"]) := by decide +kernel
  have hmidway : Fails watched (.solve "broken") _ watchedRecomputed := failed_request h rfl hsolve
  have hrefused := failed_request h rfl hdefine
  refine ⟨?_, by decide +kernel, ?_⟩
  · generalize watchedRecomputed = reply at hmidway
    cases hmidway with
    | midway _ _ hm => exact hm
  · generalize watched.perform .empty 8 (.define "a = c") = reply at hrefused
    generalize SolverError.circular "a" ["a", "c", "b", "a"] = e at hrefused
    cases hrefused with
    | notFormula => rfl
    | circular => rfl

end Solver

end Recalc

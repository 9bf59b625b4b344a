import Recalc.Proofs.Known

/-!
# The formulas that a pass runs

`Progress` tells what a pass has done, but not where it stopped. `Pass.Runs` follows the pass down
its dependencies and tells which formulas it runs and over which state, the last of them included
if that is where the pass stops.

**A pass stops only at a circle or where a formula that it runs does**, because there is always a
level left for a formula that is not on the path. `Solver.Answers` puts this together: a solve that
does not answer with a value met an unknown name, a circle, or a body that came to no value.
-/

namespace Recalc

namespace Pass

variable {H : Type}

/-- Refreshing symbols in order stops where refreshing one of them does. -/
theorem refreshEach_stops {one : String → Pass H → Step H} :
    ∀ (xs : List String) (p : Pass H), (refreshEach one xs p).2 ≠ .value () →
      ∃ before d after, xs = before ++ d :: after ∧ (refreshEach one before p).2 = .value () ∧
        one d (refreshEach one before p).1 = refreshEach one xs p := by
  intro xs
  induction xs with
  | nil => exact fun p h => absurd rfl h
  | cons x xs ih =>
    intro p h
    by_cases hv : (one x p).2 = .value ()
    · rw [refreshEach_of_value hv] at h
      obtain ⟨before, d, after, rfl, hbefore, hd⟩ := ih _ h
      refine ⟨x :: before, d, after, rfl, ?_⟩
      rw [refreshEach_of_value hv, refreshEach_of_value hv]
      exact ⟨hbefore, hd⟩
    · exact ⟨[], x, xs, rfl, rfl, (refreshEach_of_stop hv).symm⟩

/-- The symbol is stale, and all that its formula depends on is finished. -/
structure Ready (fs : Formulas) (q : Pass H) (x : String) (f : Formula) : Prop where
  some : fs[x]? = some f
  calm : f.isSelfCalling = false
  deps : ∀ d ∈ f.dependsOn, d ∈ q.finished
  stale : x ∈ q.stale

theorem Ready.mem_finished {fs : Formulas} {q : Pass H} {x y : String} {f : Formula}
    (h : Ready fs q x f) (hxy : fs.Edge x y) : y ∈ q.finished := by
  obtain ⟨g, hg, hy⟩ := Formulas.edge_iff.1 hxy
  exact h.deps y (Option.some.inj (h.some.symm.trans hg) ▸ hy)

variable [HostLibrary H]

/-- The pass that refreshes `x` runs the formula `f` over the state `q`. -/
inductive Runs (tables : Tables H) (depth : Nat) (fs : Formulas) :
    Nat → List String → String → Pass H → Formula → Pass H → Prop where
  /-- When its dependencies have been refreshed, the formula of `x` itself is run. -/
  | own {n : Nat} {path : List String} {x : String} {p : Pass H} {f : Formula}
      (new : x ∉ p.finished) (some : fs[x]? = some f) (calm : f.isSelfCalling = false)
      (path_free : x ∉ path)
      (deps : (refreshEach (refresh tables depth fs n (path ++ [x])) f.dependsOn p).2 = .value ())
      (stale : x ∈ (refreshEach (refresh tables depth fs n (path ++ [x])) f.dependsOn p).1.stale) :
      Runs tables depth fs (n + 1) path x p f
        (refreshEach (refresh tables depth fs n (path ++ [x])) f.dependsOn p).1
  /-- Before that, formulas are run to refresh the dependencies one by one. -/
  | dependency {n : Nat} {path : List String} {x : String} {p : Pass H} {f g : Formula}
      {before after : List String} {d : String} {q : Pass H}
      (new : x ∉ p.finished) (some : fs[x]? = some f) (calm : f.isSelfCalling = false)
      (path_free : x ∉ path) (split : f.dependsOn = before ++ d :: after)
      (done : (refreshEach (refresh tables depth fs n (path ++ [x])) before p).2 = .value ())
      (run : Runs tables depth fs n (path ++ [x]) d
        (refreshEach (refresh tables depth fs n (path ++ [x])) before p).1 g q) :
      Runs tables depth fs (n + 1) path x p g q

variable {tables : Tables H} {depth : Nat} {fs : Formulas}

/-- **A formula that is run is ready**, after the progress made so far. -/
theorem Runs.ready {n : Nat} {path : List String} {x : String} {p q : Pass H} {f : Formula}
    (h : Runs tables depth fs n path x p f q) :
    Progress tables depth fs p q ∧ ∃ y, Ready fs q y f := by
  induction h with
  | @own n path x p f _ hf hcalm _ hdeps hstale =>
    obtain ⟨hprogress, hfinished⟩ : Progress tables depth fs p
        (refreshEach (refresh tables depth fs n (path ++ [x])) f.dependsOn p).1 ∧ _ :=
      refreshEach_progress (refresh_progress n (path ++ [x])) f.dependsOn p
    exact ⟨hprogress, x, hf, hcalm, hfinished hdeps, hstale⟩
  | @dependency n path x p f g before after d q _ _ _ _ _ _ _ ih =>
    obtain ⟨hprogress, hready⟩ := ih
    have hbefore : Progress tables depth fs p
        (refreshEach (refresh tables depth fs n (path ++ [x])) before p).1 :=
      (refreshEach_progress (refresh_progress n (path ++ [x])) before p).1
    exact ⟨hbefore.trans hprogress, hready⟩

/-- **A pass stops only at a circle, or at a formula that it runs.** -/
theorem refresh_stops (n : Nat) (path : List String) (x : String) (p : Pass H)
    (hroom : fs.HasRoom n path) (hstop : (refresh tables depth fs n path x p).2 ≠ .value ()) :
    (∃ y way, (refresh tables depth fs n path x p).2 = .error (.circular y way)) ∨
      ∃ f q, Runs tables depth fs n path x p f q ∧
        StopsAt tables depth q f (refresh tables depth fs n path x p).2 := by
  by_cases hx : x ∈ p.finished
  · rw [refresh_of_finished hx] at hstop
    exact absurd rfl hstop
  cases hf : fs[x]? with
  | none =>
    rw [refresh_of_leaf hx hf] at hstop
    exact absurd rfl hstop
  | some f =>
    cases hcalm : f.isSelfCalling with
    | true =>
      rw [refresh_of_selfCalling hx hf hcalm]
      exact .inl ⟨x, _, rfl⟩
    | false =>
      by_cases hpath : x ∈ path
      · rw [refresh_of_mem_path hx hf hcalm hpath]
        exact .inl ⟨x, _, rfl⟩
      obtain ⟨m, rfl, hroom'⟩ := hroom.enter hf hpath
      by_cases hv : (refreshEach (refresh tables depth fs m (path ++ [x])) f.dependsOn p).2 =
          .value ()
      · rw [refresh_of_deps hx hf hcalm hpath hv] at hstop ⊢
        -- the dependencies went well, so it is the formula of `x` that stops
        obtain ⟨_, hstale, hstops⟩ := finishFormula_of_stop hstop
        exact .inr ⟨f, _, .own hx hf hcalm hpath hv hstale, hstops⟩
      · -- a dependency stops, and the reason is the one found a level below
        rw [refresh_of_deps_stop hx hf hcalm hpath hv] at hstop ⊢
        obtain ⟨before, d, after, hsplit, hbefore, hd⟩ := refreshEach_stops f.dependsOn p hstop
        rw [← hd] at hstop ⊢
        refine (refresh_stops m (path ++ [x]) d _ hroom' hstop).imp id ?_
        rintro ⟨g, q, hrun, hstops⟩
        exact ⟨g, q, .dependency hx hf hcalm hpath hsplit hbefore hrun, hstops⟩

end Pass

namespace Solver

variable {H : Type} [HostLibrary H]

/-- While `x` is solved, the formula `f` is run over the state `q`. -/
def Runs (tables : Tables H) (depth : Nat) (s : Solver H) (x : String) (f : Formula)
    (q : Pass H) : Prop :=
  s.contains x = true ∧ s.isStale x = true ∧
    Pass.Runs tables depth s.formulas s.formulas.size [] x (.start s.table s.stale) f q

/-- All that a solve can answer, and what made it do so. -/
inductive Answers (tables : Tables H) (depth : Nat) (s : Solver H) (x : String) :
    Outcome SolverError (Value H) → Prop where
  | value (v : Value H) : Answers tables depth s x (.value v)
  | unknown : Answers tables depth s x (.error (.unknown x))
  | circular (y : String) (way : List String) :
      Answers tables depth s x (.error (.circular y way))
  | failed {f : Formula} {q : Pass H} {e : EvalError} : s.Runs tables depth x f q →
      f.isFunction = false → f.body.eval (tables.put q.table) depth ⟨[], q.table⟩ = .error e →
      Answers tables depth s x (.error (.formula e))
  | exhausted {f : Formula} {q : Pass H} : s.Runs tables depth x f q → f.isFunction = false →
      f.body.eval (tables.put q.table) depth ⟨[], q.table⟩ = .exhausted →
      Answers tables depth s x .exhausted

theorem answers_read (tables : Tables H) (depth : Nat) (s s' : Solver H) (x : String) :
    Answers tables depth s x (s'.read x) := by
  rw [read]
  split
  · exact .value _
  · exact .unknown

/-- **A solve answers with a value, or it met an unknown name, a circle or a body without one.** -/
theorem solve_answers (tables : Tables H) (depth : Nat) (s : Solver H) (x : String) :
    Answers tables depth s x (s.solve tables depth x).answer := by
  by_cases hx : s.contains x = true ∧ s.isStale x = true
  · rw [solve_of_stale tables depth hx.1 hx.2]
    by_cases hv : (s.pass tables depth x).2 = .value ()
    · rw [hv]
      exact answers_read tables depth s _ x
    · rcases Pass.refresh_stops _ _ _ _ (.start s.formulas) hv with
        ⟨y, way, hway⟩ | ⟨f, q, hrun, hq⟩
      · have hway : (s.pass tables depth x).2 = .error (.circular y way) := hway
        rw [hway]
        exact .circular y way
      · have hruns : s.Runs tables depth x f q := ⟨hx.1, hx.2, hrun⟩
        have hq : Pass.StopsAt tables depth q f (s.pass tables depth x).2 := hq
        generalize (s.pass tables depth x).2 = o at hq
        cases hq with
        | error ha =>
          obtain ⟨hfun, heval⟩ := Formula.assignIn_eq_error ha
          exact .failed hruns hfun heval
        | exhausted ha =>
          obtain ⟨hfun, heval⟩ := Formula.assignIn_eq_exhausted ha
          exact .exhausted hruns hfun heval
  · rw [solve_of_not_stale tables depth hx]
    exact answers_read tables depth s s x

end Solver

end Recalc

import Recalc.Proofs.Aftermath
import Recalc.Proofs.FormulaRuns
import Recalc.Proofs.WayBack

/-!
# Circles that a pass meets

Where circular formulas are accepted, it is the pass of a solve that comes upon the circles. It goes
past what it has finished and holds a formula against the path only, those that it has entered and
not left.

* **The path is a way along edges over names that are different ones.** Coming upon it again makes a
  circle of its last part, whatever has been entered and left on the way there.
* **No pass gets round a circle.** What a pass finishes has its dependencies finished before it, and
  there is no first one on a circle. So a solve that succeeds reaches none.
* **Every pass comes to its end**: there is a level left for every formula that is not on the path.
  It is given up only where the formula that it runs is.
-/

namespace Recalc

namespace Formulas

variable {fs : Formulas}

/-- The last part of a way that comes upon itself is a circle. -/
theorem isCircle_of_mem_path {path : List String} {x : String}
    (hchain : (path ++ [x]).IsChain fs.Edge) (hnodup : path.Nodup) (hx : x ∈ path) :
    fs.IsCircle x (path.dropWhile (· != x) ++ [x]) := by
  obtain ⟨before, between, rfl, hbefore⟩ := List.eq_append_cons_of_mem hx
  have hdrop : (before ++ x :: between).dropWhile (· != x) = x :: between := by
    rw [List.dropWhile_append_of_pos, List.dropWhile_cons_of_neg]
    · simp
    · intro y hy
      rw [bne_iff_ne]
      exact fun he => hbefore (he ▸ hy)
  rw [hdrop]
  rw [List.append_assoc] at hchain
  exact ⟨between, rfl, hchain.right_of_append, (List.nodup_append.1 hnodup).2.1⟩

theorem ShowsCircle.reaches {x y : String} {way : List String} (h : fs.ShowsCircle x way)
    (hy : y ∈ way) : y = x ∨ fs.Reaches x y := by
  rcases h with ⟨_, _, _, rfl⟩ | h
  · exact .inl (List.eq_of_mem_replicate (n := 2) hy)
  · exact .inr (h.reaches hy)

end Formulas

namespace Pass

variable {H : Type} [HostLibrary H] {tables : Tables H} {depth : Nat} {fs : Formulas}

/-- **A circle that a pass reports is there**, and the pass has been led to it. -/
theorem showsCircle_of_refresh {y : String} {way : List String} (n : Nat) (path : List String)
    (x : String) (p : Pass H) (hroom : fs.HasRoom n path) (hchain : (path ++ [x]).IsChain fs.Edge)
    (h : (refresh tables depth fs n path x p).2 = .error (.circular y way)) :
    (y = x ∨ fs.Reaches x y) ∧ fs.ShowsCircle y way := by
  by_cases hx : x ∈ p.finished
  · rw [refresh_of_finished hx] at h
    cases h
  cases hf : fs[x]? with
  | none =>
    rw [refresh_of_leaf hx hf] at h
    cases h
  | some f =>
    cases hcalm : f.isSelfCalling with
    | true =>
      rw [refresh_of_selfCalling hx hf hcalm] at h
      cases h
      exact ⟨.inl rfl, .inl ⟨f, hf, hcalm, rfl⟩⟩
    | false =>
      by_cases hpath : x ∈ path
      · rw [refresh_of_mem_path hx hf hcalm hpath] at h
        cases h
        exact ⟨.inl rfl, .inr (Formulas.isCircle_of_mem_path hchain hroom.nodup hpath)⟩
      obtain ⟨m, rfl, hroom'⟩ := hroom.enter hf hpath
      by_cases hv : (refreshEach (refresh tables depth fs m (path ++ [x])) f.dependsOn p).2 =
          .value ()
      · rw [refresh_of_deps hx hf hcalm hpath hv] at h
        exact absurd h finishFormula_ne_circular
      rw [refresh_of_deps_stop hx hf hcalm hpath hv] at h
      -- a dependency reports the circle, and the path goes on to that along an edge
      have hdeps : ∀ d ∈ f.dependsOn, ∀ q : Pass H,
          (refresh tables depth fs m (path ++ [x]) d q).2 = .error (.circular y way) →
            (y = x ∨ fs.Reaches x y) ∧ fs.ShowsCircle y way := by
        intro d hd q hq
        have hxd : fs.Edge x d := Formulas.edge_of_some hf hd
        have hchain' : (path ++ [x] ++ [d]).IsChain fs.Edge := by
          rw [List.append_assoc]
          exact List.isChain_append_cons_cons.2 ⟨hchain, hxd, .singleton d⟩
        obtain ⟨hdy, hshown⟩ := showsCircle_of_refresh m (path ++ [x]) d q hroom' hchain' hq
        refine ⟨.inr ?_, hshown⟩
        rcases hdy with rfl | hdy
        · exact .single hxd
        · exact .head hxd hdy
      exact refreshEach_outcome (Q := fun o => o = .error (.circular y way) → _)
        (fun h => by cases h) f.dependsOn p hdeps h

/-! ## Formulas that are given up -/

theorem finishFormula_of_stopsAt {p : Pass H} {x : String} {f : Formula}
    {o : Outcome SolverError Unit} (hx : x ∈ p.stale) (h : StopsAt tables depth p f o) :
    p.finishFormula tables depth x f = (p, o) := by
  rw [finishFormula, if_pos (Std.ExtTreeSet.mem_iff_contains.1 hx)]
  cases h with
  | error ha => rw [ha]
  | exhausted ha => rw [ha]

/-- **A pass stops where a formula that it runs does.** -/
theorem Runs.stops {n : Nat} {path : List String} {x : String} {p q : Pass H} {f : Formula}
    {o : Outcome SolverError Unit} (h : Runs tables depth fs n path x p f q)
    (hq : StopsAt tables depth q f o) : refresh tables depth fs n path x p = (q, o) := by
  induction h with
  | own hx hf hcalm hpath hdeps hstale =>
    rw [refresh_of_deps hx hf hcalm hpath hdeps]
    exact finishFormula_of_stopsAt hstale hq
  | @dependency n path x p f g before after d q hx hf hcalm hpath hsplit hdone _ ih =>
    have hd := ih hq
    have hne : (refresh tables depth fs n (path ++ [x]) d
        (refreshEach (refresh tables depth fs n (path ++ [x])) before p).1).2 ≠ .value () := by
      rw [hd]
      exact hq.ne_value
    have hall : refreshEach (refresh tables depth fs n (path ++ [x])) f.dependsOn p = (q, o) := by
      rw [hsplit, refreshEach_append_of_value hdone, refreshEach_of_stop hne, hd]
    rw [refresh_of_deps_stop hx hf hcalm hpath (by rw [hall]; exact hq.ne_value), hall]

end Pass

/-! ## Solves -/

namespace Solver

variable {H : Type} [HostLibrary H] {settings : Settings} {depth : Nat} {tables : Tables H}

/-- The formulas that a solve of `x` runs come to an end, with a value or without. -/
def EvaluationsEnd (tables : Tables H) (depth : Nat) (s : Solver H) (x : String) : Prop :=
  ∀ f q, s.Runs tables depth x f q → f.assignIn tables depth q.table ≠ .exhausted

/-- Somewhere among `x` and what it depends on there is a circle, or a function that calls
itself. -/
def DependsOnCircle (s : Solver H) (x : String) : Prop :=
  ∃ y, (y = x ∨ y ∈ s.dependencies x) ∧
    (s.formulas.Reaches y y ∨ ∃ f, s.formula? y = some f ∧ f.isSelfCalling = true)

/-- **A solve is given up only where a formula that it runs is.** -/
theorem exhausted_iff {s : Solver H} {x : String} :
    (s.solve tables depth x).answer = .exhausted ↔ ¬ EvaluationsEnd tables depth s x := by
  constructor
  · intro hexhausted hend
    have hanswers := s.solve_answers tables depth x
    rw [hexhausted] at hanswers
    cases hanswers with
    | exhausted hruns hfun heval =>
      refine hend _ _ hruns ?_
      rw [Formula.assignIn_of_scalar hfun, heval]
      rfl
  · intro hnot
    rw [EvaluationsEnd] at hnot
    push Not at hnot
    obtain ⟨f, q, ⟨hx, hstale, hrun⟩, hexhausted⟩ := hnot
    have hpass : s.pass tables depth x = (q, .exhausted) := hrun.stops (.exhausted hexhausted)
    rw [solve_of_stale tables depth hx hstale, hpass]
    rfl

/-- **What is solved depends on no circle.** -/
theorem not_dependsOnCircle_of_solved {s : Solver H} (hm : s.formulas.Marks s.stale) {x : String}
    {v : Value H} (h : (s.solve tables depth x).answer = .value v) : ¬ s.DependsOnCircle x := by
  have hg : s.formulas.Grounded x := grounded_of_pass hm (pass_of_solved hm h).2
  rintro ⟨y, hy, hcircle⟩
  have hgy : s.formulas.Grounded y := by
    rcases Formulas.eq_or_mem_dependencies_iff.1 hy with rfl | hxy
    · exact hg
    · exact hg.of_reaches hxy
  rcases hcircle with hyy | ⟨f, hf, hself⟩
  · exact hgy.not_reaches_self hyy
  · rw [hgy.calm hf] at hself
    cases hself

/--
**A solve comes to its end, does not get round a circle, and reports circles that are there.**

Take a symbol of any reachable solver, whatever circles its formulas make.

* If the formulas that the solve runs come to an end, so does the solve, and only then.
* If the symbol or something that it depends on lies on a circle or is a function that calls
  itself, the solve answers with no value. It answers with an error then, unless a formula that it
  runs comes to no end.
* If it answers that there is a circle, what it shows is one, or a function that calls itself. It
  starts and ends with the name reported; on a circle each name depends on the next one, and no name
  stands there twice but the one at the ends. All of it is the symbol or what this depends on.
-/
theorem circles_met_at_solve {s : Solver H} (h : Reachable settings depth s) (tables : Tables H)
    (depth' : Nat) (x : String) :
    ((s.solve tables depth' x).answer ≠ .exhausted ↔ EvaluationsEnd tables depth' s x) ∧
    (s.DependsOnCircle x → (∀ v, (s.solve tables depth' x).answer ≠ .value v) ∧
      (EvaluationsEnd tables depth' s x → ∃ e, (s.solve tables depth' x).answer = .error e)) ∧
    (∀ y way, (s.solve tables depth' x).answer = .error (.circular y way) →
      (∀ z ∈ way, z = x ∨ z ∈ s.dependencies x) ∧ s.formulas.ShowsCircle y way) := by
  have hends : (s.solve tables depth' x).answer ≠ .exhausted ↔ EvaluationsEnd tables depth' s x :=
    (not_congr exhausted_iff).trans not_not
  refine ⟨hends, ?never, ?shown⟩
  case never =>
    intro hcircle
    have hnever : ∀ v, (s.solve tables depth' x).answer ≠ .value v := fun v hv =>
      not_dependsOnCircle_of_solved h.marks hv hcircle
    refine ⟨hnever, fun hend => ?_⟩
    cases hanswer : (s.solve tables depth' x).answer with
    | value v => exact absurd hanswer (hnever v)
    | error e => exact ⟨e, rfl⟩
    | exhausted => exact absurd hanswer (hends.2 hend)
  case shown =>
    intro y way hway
    obtain ⟨hxy, hshown⟩ := Pass.showsCircle_of_refresh _ [] x _ (.start s.formulas)
      (.singleton x) (pass_of_circular h.marks hway)
    refine ⟨fun z hz => Formulas.eq_or_mem_dependencies_iff.2 ?_, hshown⟩
    rcases hshown.reaches hz with rfl | hyz
    · exact hxy
    · rcases hxy with rfl | hxy
      · exact .inr hyz
      · exact .inr (hxy.trans hyz)

/-- Two circles that have a name in common, and a function that calls itself beside them. -/
def overlapping : Solver StandardHost :=
  performAll .empty 8 (.empty { circles := .atSolve } 0)
    [.define "a = leaf + b", .define "b = c + a", .define "c = leaf * b",
      .assign "leaf" (.number 1), .define "g(n) = n * g(n - 1)", .define "d = leaf + g(3) + a"]

theorem circles_met_at_solve_overlapping :
    (overlapping.solve .empty 8 "a").answer = .error (.circular "b" ["b", "c", "b"]) ∧
    overlapping.formulas.ShowsCircle "b" ["b", "c", "b"] ∧
    EvaluationsEnd .empty 8 overlapping "a" ∧
    ∀ v, (overlapping.solve .empty 8 "d").answer ≠ .value v := by
  have h : Reachable { circles := .atSolve } 8 overlapping :=
    .performAll .empty _ (.empty 0) (by decide +kernel)
  have hanswer : (overlapping.solve .empty 8 "a").answer =
      .error (.circular "b" ["b", "c", "b"]) := by decide +kernel
  have hg : (overlapping.formula? "g").any Formula.isSelfCalling = true := by decide +kernel
  have hself : overlapping.DependsOnCircle "d" :=
    ⟨"g", .inr (by decide +kernel), .inr ((Option.any_eq_true _ _).1 hg)⟩
  obtain ⟨hends, _, hshown⟩ := circles_met_at_solve h .empty 8 "a"
  obtain ⟨_, hnever, _⟩ := circles_met_at_solve h .empty 8 "d"
  refine ⟨hanswer, (hshown _ _ hanswer).2, hends.1 ?_, (hnever hself).1⟩
  rw [hanswer]
  intro he
  cases he

end Solver

end Recalc

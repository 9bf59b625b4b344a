import Recalc.Host
import Recalc.Proofs.Circle
import Recalc.Proofs.Progress

/-!
# Solvers that refuse circles

A solver that reports circles at definition checks only the formula at hand, against the other
formulas there are at the time. That is enough: in whatever order symbols are defined and
redefined, the formulas it holds never make a circle, and none of its functions calls itself. So
its passes, which look for circles too, find none.
-/

namespace Recalc

/-- The formulas make no circle, and no function calls itself. -/
structure Formulas.CircleFree (fs : Formulas) : Prop where
  acyclic : fs.Acyclic
  calm : ∀ (x : String) (f : Formula), fs[x]? = some f → f.isSelfCalling = false

namespace Formulas

theorem circleFree_empty : CircleFree ∅ := by
  constructor
  · intro x hx
    obtain ⟨f, hf⟩ := exists_formula_of_reaches hx
    cases Std.ExtTreeMap.getElem?_empty.symm.trans hf
  · intro x f hf
    cases Std.ExtTreeMap.getElem?_empty.symm.trans hf

/-- A formula that calls itself nowhere and makes no way back may be put in place. -/
theorem CircleFree.insert {fs : Formulas} (h : fs.CircleFree) {f : Formula}
    (hcalm : f.isSelfCalling = false) (hway : fs.cycle? f.target f.dependsOn = none) :
    CircleFree (fs.insert f.target f) := by
  refine ⟨h.acyclic.insert hway, ?_⟩
  intro x g hg
  by_cases hx : x = f.target
  · subst hx
    rw [Std.ExtTreeMap.getElem?_insert_self] at hg
    obtain rfl := Option.some.inj hg
    exact hcalm
  · rw [getElem?_insert_ne hx] at hg
    exact h.calm x g hg

end Formulas

/-! ## Passes meet no circle -/

namespace Pass

variable {H : Type}

/-- Refreshing symbols in order ends as refreshing one of them does, if it does not succeed. -/
theorem refreshEach_outcome {Q : Outcome SolverError Unit → Prop} (hvalue : Q (.value ()))
    {one : String → Pass H → Step H} :
    ∀ (xs : List String) (p : Pass H), (∀ x ∈ xs, ∀ p, Q (one x p).2) →
      Q (refreshEach one xs p).2 := by
  intro xs
  induction xs with
  | nil => intro p _; exact hvalue
  | cons x xs ih =>
    intro p hone
    by_cases hv : (one x p).2 = .value ()
    · rw [refreshEach_of_value hv]
      exact ih _ fun y hy => hone y (List.mem_cons_of_mem x hy)
    · rw [refreshEach_of_stop hv]
      exact hone x List.mem_cons_self p

variable [HostLibrary H] {tables : Tables H} {depth : Nat} {fs : Formulas}

/-- Finishing a formula fails only as its evaluation does. -/
theorem finishFormula_ne_circular {p : Pass H} {x : String} {f : Formula} {y : String}
    {way : List String} : (p.finishFormula tables depth x f).2 ≠ .error (.circular y way) := by
  have hstep := finishFormula_cases tables depth p x f
  generalize p.finishFormula tables depth x f = r at hstep
  intro h
  cases hstep with
  | current => cases h
  | recomputed => cases h
  | stopped _ hstops =>
    dsimp only at h
    subst h
    cases hstops

/-- **Where the formulas make no circle, a pass reports none.** -/
theorem refresh_ne_circular (h : fs.CircleFree) {y : String} {way : List String} (n : Nat)
    (path : List String) (x : String) (p : Pass H) (hpath : ∀ z ∈ path, fs.Reaches z x) :
    (refresh tables depth fs n path x p).2 ≠ .error (.circular y way) := by
  by_cases hx : x ∈ p.finished
  · rw [refresh_of_finished hx]
    intro h; cases h
  cases hf : fs[x]? with
  | none =>
    rw [refresh_of_leaf hx hf]
    intro h; cases h
  | some f =>
    -- everything on the path reaches `x`, so `x` is not there
    have hnew : x ∉ path := fun hp => h.acyclic x (hpath x hp)
    have hcalm := h.calm x f hf
    cases n with
    | zero =>
      rw [refresh_of_no_level hx hf hcalm hnew]
      intro h; cases h
    | succ n =>
      have hdeps : ∀ d ∈ f.dependsOn, ∀ q : Pass H,
          (refresh tables depth fs n (path ++ [x]) d q).2 ≠ .error (.circular y way) := by
        intro d hd q
        have hxd : fs.Edge x d := Formulas.edge_of_some hf hd
        exact refresh_ne_circular h n (path ++ [x]) d q (Formulas.reaches_of_mem_path hpath hxd)
      have hall := refreshEach_outcome (Q := fun o => o ≠ .error (.circular y way))
        (fun h => by cases h) f.dependsOn p hdeps
      by_cases hv : (refreshEach (refresh tables depth fs n (path ++ [x])) f.dependsOn p).2 =
          .value ()
      · rw [refresh_of_deps hx hf hcalm hnew hv]
        exact finishFormula_ne_circular
      · rw [refresh_of_deps_stop hx hf hcalm hnew hv]
        exact hall

end Pass

/-! ## Solvers -/

namespace Solver

variable {H : Type} [HostLibrary H] {ok : Request H → Solver H → Prop} {settings : Settings}
  {depth : Nat}

/-- A solver that refuses circles holds none. -/
theorem ReachableBy.circleFree {s : Solver H} (h : ReachableBy ok settings depth s)
    (hs : settings.circles = .atDefinition) : s.formulas.CircleFree := by
  refine h.induction (P := fun s => s.formulas.CircleFree) (fun _ => Formulas.circleFree_empty)
    (fun _ ih => ih) ?_ (fun _ _ _ ih _ _ => ih) (fun _ _ _ ih => ih)
  -- only a definition changes the formulas, and it has been checked
  intro s text f ih _ hchecked _
  have hcircle := hchecked hs
  rw [circle?] at hcircle
  split at hcircle
  · cases hcircle
  · next hself =>
    have hcalm : f.isSelfCalling = false := by simpa using hself
    exact ih.insert hcalm hcircle

/--
**Checking definitions keeps a solver free of circles.**

In every solver that is reachable with circles refused at definition, whatever was redefined,
assigned, solved or refused on the way, no symbol depends on itself along the formulas, no
formula calls itself, and no solve reports a circle.
-/
theorem acyclic_of_checked_at_definition {s : Solver H} (h : Reachable settings depth s)
    (hs : settings.circles = .atDefinition) :
    (∀ x, ¬ s.formulas.Reaches x x) ∧
    (∀ x f, s.formula? x = some f → f.target = x ∧ f.isSelfCalling = false) ∧
    (∀ (tables : Tables H) (depth : Nat) x y way,
      (s.solve tables depth x).answer ≠ .error (.circular y way)) := by
  have hfree := h.circleFree hs
  refine ⟨hfree.acyclic, fun x f hf => ⟨(h.parsed x f hf).1, hfree.calm x f hf⟩, ?_⟩
  intro tables depth x y way
  have hread : ∀ s' : Solver H, s'.read x ≠ .error (.circular y way) := by
    intro s'
    rw [read]
    split
    · intro h; cases h
    · intro h; cases h
  by_cases hx : s.contains x = true ∧ s.isStale x = true
  · have hp : (s.pass tables depth x).2 ≠ .error (.circular y way) :=
      Pass.refresh_ne_circular hfree _ _ _ _ fun z hz => absurd hz List.not_mem_nil
    rw [solve_of_stale tables depth hx.1 hx.2]
    cases ho : (s.pass tables depth x).2 with
    | value u => exact hread _
    | error e =>
      rw [ho] at hp
      intro he
      injection he with he
      exact hp (congrArg _ he)
    | exhausted => intro he; cases he
  · rw [solve_of_not_stale tables depth hx]
    exact hread s

/-- A symbol redefined twice, with the second redefinition refused. -/
def redefined : Solver StandardHost :=
  performAll .empty 8 (.empty {} 0)
    [.define "a = b + 1", .define "b = c", .define "a = 2", .define "b = a + c",
      .define "c = b", .solve "b"]

theorem acyclic_of_checked_at_definition_redefined :
    Reachable {} 8 redefined ∧ (redefined.formula? "c").isNone = true ∧
      (∀ x, ¬ redefined.formulas.Reaches x x) ∧
      ∀ x y way, (redefined.solve .empty 8 x).answer ≠ .error (.circular y way) := by
  have h : Reachable {} 8 redefined := .performAll .empty _ (.empty 0) (by decide +kernel)
  obtain ⟨hacyclic, _, hsolve⟩ := acyclic_of_checked_at_definition h rfl
  exact ⟨h, by decide +kernel, hacyclic, hsolve .empty 8⟩

end Solver

end Recalc

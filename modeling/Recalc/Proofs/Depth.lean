import Recalc.Proofs.Correspondence
import Recalc.Proofs.Progress

/-!
# The depth is only an allowance

An evaluation is given up when calls are nested deeper than it was allowed to go. **A larger
allowance changes nothing else**: what came to a value or an error comes to the same one, and so do
passes and solves, with all that they leave behind. So an answer that is not given up is the answer
of the program, and not of the depth.
-/

namespace Recalc

/-- `y` is `x`, unless `x` was given up. -/
def Outcome.Refines {ε α : Type} (x y : Outcome ε α) : Prop := x ≠ .exhausted → y = x

namespace Outcome.Refines

variable {ε α β : Type}

theorem refl (x : Outcome ε α) : x.Refines x := fun _ => rfl

theorem exhausted (y : Outcome ε α) : Outcome.Refines .exhausted y := fun h => absurd rfl h

theorem of_value {a : α} {y : Outcome ε α} (h : Outcome.Refines (.value a) y) : y = .value a :=
  h (by intro he; cases he)

theorem of_error {e : ε} {y : Outcome ε α} (h : Outcome.Refines (.error e) y) : y = .error e :=
  h (by intro he; cases he)

/-- What goes on in the same way goes on to the same end. -/
theorem bind {x y : Outcome ε α} (h : x.Refines y) {f g : α → Outcome ε β}
    (hfg : ∀ a, (f a).Refines (g a)) : (x >>= f).Refines (y >>= g) := by
  cases x with
  | value a =>
    rw [h.of_value]
    exact hfg a
  | error e =>
    rw [h.of_error]
    exact .refl _
  | exhausted => exact .exhausted _

end Outcome.Refines

section

variable {H : Type}

/-- Calls that are not given up come out alike. -/
def Caller.Refines (caller caller' : Caller H) : Prop :=
  ∀ c args, (caller c args).Refines (caller' c args)

variable {caller caller' : Caller H} {scope : Scope H}

mutual

theorem Expr.evalWith_refines (h : caller.Refines caller') (e : Expr) :
    (e.evalWith caller scope).Refines (e.evalWith caller' scope) := by
  cases e with
  | number x => exact .refl _
  | name x => exact .refl _
  | binary op left right =>
    rw [evalWith, evalWith]
    refine (evalWith_refines h left).bind fun l => (Outcome.Refines.refl _).bind fun x => ?_
    refine (evalWith_refines h right).bind fun r => (Outcome.Refines.refl _).bind fun y => ?_
    exact .refl _
  | signed sign operand =>
    rw [evalWith, evalWith]
    exact (evalWith_refines h operand).bind fun v => .refl _
  | call callee args =>
    rw [evalWith, evalWith]
    refine (Outcome.Refines.refl _).bind fun v => ?_
    cases v with
    | number x => exact .refl _
    | callable c => exact (evalAllWith_refines h args).bind fun values => h c values

theorem Expr.evalAllWith_refines (h : caller.Refines caller') (es : List Expr) :
    (evalAllWith caller scope es).Refines (evalAllWith caller' scope es) := by
  cases es with
  | nil => exact .refl _
  | cons e es =>
    rw [evalAllWith, evalAllWith]
    exact (evalWith_refines h e).bind fun v => (evalAllWith_refines h es).bind fun vs => .refl _

end

theorem HostAction.run_refines (h : caller.Refines caller') (a : HostAction H) :
    (a.run caller).Refines (a.run caller') := by
  induction a with
  | done r => exact .refl _
  | call c args k ih =>
    rw [run, run]
    have hout := h c args
    generalize caller c args = o at hout
    cases o with
    | value v =>
      rw [hout.of_value]
      exact ih (.ok v)
    | error e =>
      rw [hout.of_error]
      exact ih (.error e)
    | exhausted => exact .exhausted _

end

/-- Refreshing symbols in order is the same if refreshing each of them is. -/
theorem Pass.refreshEach_eq {H : Type} {one one' : String → Pass H → Step H}
    (hone : ∀ x p, (one x p).2 ≠ .exhausted → one' x p = one x p) :
    ∀ (xs : List String) (p : Pass H), (refreshEach one xs p).2 ≠ .exhausted →
      refreshEach one' xs p = refreshEach one xs p := by
  intro xs
  induction xs with
  | nil => exact fun p _ => rfl
  | cons x xs ih =>
    intro p h
    by_cases hv : (one x p).2 = .value ()
    · have hsame : one' x p = one x p := hone x p (by rw [hv]; intro he; cases he)
      rw [refreshEach_of_value hv] at h ⊢
      rw [refreshEach_of_value (hsame ▸ hv), hsame]
      exact ih _ h
    · rw [refreshEach_of_stop hv] at h ⊢
      have hsame : one' x p = one x p := hone x p h
      rw [refreshEach_of_stop (hsame ▸ hv), hsame]

variable {H : Type} [HostLibrary H] {tables : Tables H}

/-! ## Calls -/

/-- **Calls come out alike at a larger depth.** -/
theorem Callable.invoke_refines (depth : Nat) {depth' : Nat} (hle : depth ≤ depth') :
    (invoke tables depth : Caller H).Refines (invoke tables depth') := by
  intro c args
  cases hok : c.takes args.length with
  | error e =>
    rw [invoke_of_refused hok, invoke_of_refused hok]
    exact .refl _
  | ok u =>
    cases c with
    | compiled f =>
      cases ht : tables f.table with
      | none =>
        rw [invoke_detached hok ht, invoke_detached hok ht]
        exact .refl _
      | some t =>
        rw [invoke_compiled hok ht, invoke_compiled hok ht]
        cases depth with
        | zero => exact .exhausted _
        | succ depth =>
          -- the larger depth has a call left as well
          obtain ⟨m, rfl⟩ : ∃ m, depth' = m + 1 := ⟨depth' - 1, by omega⟩
          exact Expr.evalWith_refines (invoke_refines depth (Nat.le_of_succ_le_succ hle)) f.body
    | host f =>
      rw [invoke_host hok, invoke_host hok]
      cases depth with
      | zero => exact .exhausted _
      | succ depth =>
        obtain ⟨m, rfl⟩ : ∃ m, depth' = m + 1 := ⟨depth' - 1, by omega⟩
        exact HostAction.run_refines (invoke_refines depth (Nat.le_of_succ_le_succ hle)) _

variable {depth depth' : Nat}

theorem Formula.assignIn_refines (hle : depth ≤ depth') (f : Formula) (t : Table H) :
    (f.assignIn tables depth t).Refines (f.assignIn tables depth' t) := by
  rw [assignIn, assignIn]
  split
  · exact .refl _
  · have hbody : (f.body.eval (tables.put t) depth ⟨[], t⟩).Refines
        (f.body.eval (tables.put t) depth' ⟨[], t⟩) :=
      Expr.evalWith_refines (Callable.invoke_refines depth hle) f.body
    exact hbody.bind fun v => .refl _

/-! ## Passes -/

namespace Pass

variable {fs : Formulas}

/-- A step that was not given up is the same at a larger depth. -/
theorem finishFormula_eq (hle : depth ≤ depth') {p : Pass H} {x : String} {f : Formula}
    (h : (p.finishFormula tables depth x f).2 ≠ .exhausted) :
    p.finishFormula tables depth' x f = p.finishFormula tables depth x f := by
  rw [finishFormula] at h ⊢
  rw [finishFormula]
  split
  · next hstale =>
    rw [if_pos hstale] at h
    have hassign : (f.assignIn tables depth p.table).Refines (f.assignIn tables depth' p.table) :=
      f.assignIn_refines hle p.table
    rw [hassign]
    intro he
    rw [he] at h
    exact h rfl
  · rfl

/-- **A pass that is not given up is the same at a larger depth.** -/
theorem refresh_eq (hle : depth ≤ depth') (n : Nat) (path : List String) (x : String) (p : Pass H)
    (h : (refresh tables depth fs n path x p).2 ≠ .exhausted) :
    refresh tables depth' fs n path x p = refresh tables depth fs n path x p := by
  by_cases hx : x ∈ p.finished
  · rw [refresh_of_finished hx, refresh_of_finished hx]
  cases hf : fs[x]? with
  | none => rw [refresh_of_leaf hx hf, refresh_of_leaf hx hf]
  | some f =>
    cases hcalm : f.isSelfCalling with
    | true => rw [refresh_of_selfCalling hx hf hcalm, refresh_of_selfCalling hx hf hcalm]
    | false =>
      by_cases hpath : x ∈ path
      · rw [refresh_of_mem_path hx hf hcalm hpath, refresh_of_mem_path hx hf hcalm hpath]
      cases n with
      | zero => rw [refresh_of_no_level hx hf hcalm hpath, refresh_of_no_level hx hf hcalm hpath]
      | succ n =>
        have hone : ∀ y q, (refresh tables depth fs n (path ++ [x]) y q).2 ≠ .exhausted →
            refresh tables depth' fs n (path ++ [x]) y q =
              refresh tables depth fs n (path ++ [x]) y q :=
          fun y q hq => refresh_eq hle n (path ++ [x]) y q hq
        by_cases hv : (refreshEach (refresh tables depth fs n (path ++ [x])) f.dependsOn p).2 =
            .value ()
        · have hdeps := refreshEach_eq hone f.dependsOn p (by rw [hv]; intro he; cases he)
          rw [refresh_of_deps hx hf hcalm hpath hv] at h ⊢
          rw [refresh_of_deps hx hf hcalm hpath (hdeps ▸ hv), hdeps]
          exact finishFormula_eq hle h
        · rw [refresh_of_deps_stop hx hf hcalm hpath hv] at h ⊢
          have hdeps := refreshEach_eq hone f.dependsOn p h
          rw [refresh_of_deps_stop hx hf hcalm hpath (hdeps ▸ hv), hdeps]

end Pass

/-- **A solve that is not given up is the same at a larger depth**, with all that it leaves. -/
theorem Solver.solve_eq_of_le {s : Solver H} {x : String} (hle : depth ≤ depth')
    (h : (s.solve tables depth x).answer ≠ .exhausted) :
    s.solve tables depth' x = s.solve tables depth x := by
  by_cases hx : s.contains x = true ∧ s.isStale x = true
  · rw [solve_of_stale tables depth hx.1 hx.2] at h ⊢
    have hpass : s.pass tables depth' x = s.pass tables depth x := by
      refine Pass.refresh_eq hle _ _ _ _ ?_
      intro he
      refine h ?_
      rw [show (s.pass tables depth x).2 = .exhausted from he]
      rfl
    rw [solve_of_stale tables depth' hx.1 hx.2, hpass]
  · rw [solve_of_not_stale tables depth hx, solve_of_not_stale tables depth' hx]

end Recalc

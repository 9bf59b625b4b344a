import Recalc.Proofs.Correspondence

/-!
# Chains of calls

While a body is evaluated, a call is made, and while that is carried out, another one, and so on.
`Callable.Active` tells which callables can be active at one time, the outermost first, when a
callable is called: itself, and behind it a chain for a call that it makes. What calls are made
depends on what earlier ones came to, so `Expr.Calls` follows the evaluation.

**An evaluation is given up only when such a chain is as long as the depth allows.** So a bound on
the chains is a bound on the depth that is needed.
-/

namespace Recalc

/-- What goes on with a value is given up where it began or where it went on. -/
theorem Outcome.bind_eq_exhausted {ε α β : Type} {x : Outcome ε α} {f : α → Outcome ε β}
    (h : (x >>= f) = .exhausted) : x = .exhausted ∨ ∃ a, x = .value a ∧ f a = .exhausted := by
  cases x with
  | value a => exact .inr ⟨a, rfl, h⟩
  | error e => cases h
  | exhausted => exact .inl rfl

variable {H : Type}

/-- Asking for a number needs no calls. -/
theorem Value.bind_requireNumber_eq_exhausted {v : Value H} {operation : String} {β : Type}
    {f : Float → Outcome EvalError β}
    (h : (Outcome.ofExcept (v.requireNumber operation) >>= f) = .exhausted) :
    ∃ x, v = .number x ∧ f x = .exhausted := by
  cases v with
  | number x => exact ⟨x, rfl, h⟩
  | callable c => cases h

namespace Expr

mutual

/-- Whether a name is called in the expression. -/
def calls (x : String) : Expr → Bool
  | number _ | name _ => false
  | binary _ left right => left.calls x || right.calls x
  | signed _ operand => operand.calls x
  | call callee args => callee == x || anyCalls x args

/-- Whether a name is called in one of the expressions. -/
def anyCalls (x : String) : List Expr → Bool
  | [] => false
  | e :: es => e.calls x || anyCalls x es

end

mutual

/-- What is called is referred to. -/
theorem references_of_calls {x : String} : ∀ {e : Expr}, e.calls x = true → e.references x = true
  | number _, h | name _, h => by simp [calls] at h
  | binary _ left right, h => by
    simp only [calls, Bool.or_eq_true] at h
    simp only [references, Bool.or_eq_true]
    exact h.imp references_of_calls references_of_calls
  | signed _ operand, h => by
    simp only [calls] at h
    simp only [references]
    exact references_of_calls h
  | call callee args, h => by
    simp only [calls, Bool.or_eq_true] at h
    simp only [references, Bool.or_eq_true]
    exact h.imp_right anyReferences_of_anyCalls

theorem anyReferences_of_anyCalls {x : String} :
    ∀ {es : List Expr}, anyCalls x es = true → anyReferences x es = true
  | [], h => by simp [anyCalls] at h
  | e :: es, h => by
    simp only [anyCalls, Bool.or_eq_true] at h
    simp only [anyReferences, Bool.or_eq_true]
    exact h.imp references_of_calls anyReferences_of_anyCalls

end

theorem anyCalls_of_mem {x : String} {e : Expr} {es : List Expr} (he : e ∈ es)
    (h : e.calls x = true) : anyCalls x es = true := by
  induction es with
  | nil => cases he
  | cons d es ih =>
    rw [anyCalls, Bool.or_eq_true]
    rcases List.mem_cons.mp he with rfl | he
    · exact .inl h
    · exact .inr (ih he)

/-- Evaluating the expression makes a call of `c` with arguments `as`, when calls come out as
`caller` tells. -/
inductive Calls (caller : Caller H) (scope : Scope H) :
    Expr → Callable H → List (Value H) → Prop where
  | left {op : BinaryOp} {left right : Expr} {c : Callable H} {as : List (Value H)} :
      Calls caller scope left c as → Calls caller scope (.binary op left right) c as
  | right {op : BinaryOp} {left right : Expr} {x : Float} {c : Callable H} {as : List (Value H)} :
      left.evalWith caller scope = .value (.number x) → Calls caller scope right c as →
      Calls caller scope (.binary op left right) c as
  | operand {sign : Sign} {operand : Expr} {c : Callable H} {as : List (Value H)} :
      Calls caller scope operand c as → Calls caller scope (.signed sign operand) c as
  | argument {callee : String} {b : Callable H} {before after : List Expr} {arg : Expr}
      {values : List (Value H)} {c : Callable H} {as : List (Value H)} :
      scope.lookup callee = .value (.callable b) →
      evalAllWith caller scope before = .value values → Calls caller scope arg c as →
      Calls caller scope (.call callee (before ++ arg :: after)) c as
  | call {callee : String} {args : List Expr} {c : Callable H} {as : List (Value H)} :
      scope.lookup callee = .value (.callable c) → evalAllWith caller scope args = .value as →
      Calls caller scope (.call callee args) c as

variable {caller : Caller H} {scope : Scope H}

/-- What is called is held by a name that is called. -/
theorem Calls.exists_callee {e : Expr} {c : Callable H} {as : List (Value H)}
    (h : e.Calls caller scope c as) :
    ∃ x, e.calls x = true ∧ scope.lookup x = .value (.callable c) := by
  induction h with
  | left _ ih =>
    obtain ⟨x, hx, hc⟩ := ih
    exact ⟨x, by simp [calls, hx], hc⟩
  | right _ _ ih =>
    obtain ⟨x, hx, hc⟩ := ih
    exact ⟨x, by simp [calls, hx], hc⟩
  | operand _ ih =>
    obtain ⟨x, hx, hc⟩ := ih
    exact ⟨x, by simp [calls, hx], hc⟩
  | @argument callee b before after arg values c as _ _ _ ih =>
    obtain ⟨x, hx, hc⟩ := ih
    have hmem : arg ∈ before ++ arg :: after := List.mem_append_right _ List.mem_cons_self
    exact ⟨x, by rw [calls, anyCalls_of_mem hmem hx, Bool.or_true], hc⟩
  | @call callee args c as hc _ => exact ⟨callee, by simp [calls], hc⟩

mutual

/-- **If the evaluation of an expression is given up, so is one of the calls that it makes.** -/
theorem exists_call_of_exhausted {e : Expr} (h : e.evalWith caller scope = .exhausted) :
    ∃ c as, e.Calls caller scope c as ∧ caller c as = .exhausted := by
  match e with
  | number x =>
    rw [evalWith] at h
    cases h
  | name x =>
    rw [evalWith, Scope.lookup] at h
    split at h <;> cases h
  | binary op left right =>
    rw [evalWith] at h
    rcases Outcome.bind_eq_exhausted h with hleft | ⟨l, hl, h⟩
    · obtain ⟨c, as, hcalls, hc⟩ := exists_call_of_exhausted hleft
      exact ⟨c, as, .left hcalls, hc⟩
    obtain ⟨x, rfl, hnext⟩ := Value.bind_requireNumber_eq_exhausted h
    rcases Outcome.bind_eq_exhausted hnext with hright | ⟨r, _, hlast⟩
    · obtain ⟨c, as, hcalls, hc⟩ := exists_call_of_exhausted hright
      exact ⟨c, as, .right hl hcalls, hc⟩
    obtain ⟨y, _, hdone⟩ := Value.bind_requireNumber_eq_exhausted hlast
    cases hdone
  | signed sign operand =>
    rw [evalWith] at h
    rcases Outcome.bind_eq_exhausted h with hoperand | ⟨v, _, h⟩
    · obtain ⟨c, as, hcalls, hc⟩ := exists_call_of_exhausted hoperand
      exact ⟨c, as, .operand hcalls, hc⟩
    obtain ⟨x, _, h⟩ := Value.bind_requireNumber_eq_exhausted h
    cases h
  | call callee args =>
    rw [evalWith] at h
    rcases Outcome.bind_eq_exhausted h with hcallee | ⟨v, hv, h⟩
    · -- a look-up finds the name or fails
      rw [Scope.lookup] at hcallee
      split at hcallee <;> cases hcallee
    cases v with
    | number x => cases h
    | callable b =>
      rcases Outcome.bind_eq_exhausted h with hargs | ⟨values, hvalues, h⟩
      · obtain ⟨before, arg, after, values, c, as, rfl, hbefore, hcalls, hc⟩ :=
          exists_call_of_all_exhausted hargs
        exact ⟨c, as, .argument hv hbefore hcalls, hc⟩
      · exact ⟨b, values, .call hv hvalues, h⟩

/-- Of several expressions, those before the one that is given up have been evaluated. -/
theorem exists_call_of_all_exhausted {es : List Expr}
    (h : evalAllWith caller scope es = .exhausted) :
    ∃ before e after values c as, es = before ++ e :: after ∧
      evalAllWith caller scope before = .value values ∧ e.Calls caller scope c as ∧
      caller c as = .exhausted := by
  match es with
  | [] =>
    rw [evalAllWith] at h
    cases h
  | e :: es =>
    rw [evalAllWith] at h
    rcases Outcome.bind_eq_exhausted h with hfirst | ⟨v, hv, h⟩
    · obtain ⟨c, as, hcalls, hc⟩ := exists_call_of_exhausted hfirst
      exact ⟨[], e, es, [], c, as, rfl, rfl, hcalls, hc⟩
    rcases Outcome.bind_eq_exhausted h with hrest | ⟨vs, _, h⟩
    · obtain ⟨before, d, after, values, c, as, rfl, hbefore, hcalls, hc⟩ :=
        exists_call_of_all_exhausted hrest
      refine ⟨e :: before, d, after, v :: values, c, as, rfl, ?_, hcalls, hc⟩
      rw [evalAllWith, hv, hbefore]
      rfl
    · cases h

end

end Expr

/-! ## Host functions -/

/-- Carrying a host function out makes a call of `c` with arguments `as`. -/
inductive HostAction.Calls (caller : Caller H) :
    HostAction H → Callable H → List (Value H) → Prop where
  | here {c : Callable H} {as : List (Value H)} {k : Except EvalError (Value H) → HostAction H} :
      Calls caller (.call c as k) c as
  | after_value {b c : Callable H} {as bs : List (Value H)} {v : Value H}
      {k : Except EvalError (Value H) → HostAction H} :
      caller b bs = .value v → Calls caller (k (.ok v)) c as → Calls caller (.call b bs k) c as
  | after_error {b c : Callable H} {as bs : List (Value H)} {e : EvalError}
      {k : Except EvalError (Value H) → HostAction H} :
      caller b bs = .error e → Calls caller (k (.error e)) c as → Calls caller (.call b bs k) c as

theorem HostAction.exists_call_of_exhausted {caller : Caller H} {a : HostAction H}
    (h : a.run caller = .exhausted) : ∃ c as, a.Calls caller c as ∧ caller c as = .exhausted := by
  induction a with
  | done r =>
    rw [run] at h
    cases r <;> cases h
  | call b bs k ih =>
    rw [run] at h
    cases hb : caller b bs with
    | value v =>
      rw [hb] at h
      obtain ⟨c, as, hcalls, hc⟩ := ih (.ok v) h
      exact ⟨c, as, .after_value hb hcalls, hc⟩
    | error e =>
      rw [hb] at h
      obtain ⟨c, as, hcalls, hc⟩ := ih (.error e) h
      exact ⟨c, as, .after_error hb hcalls, hc⟩
    | exhausted => exact ⟨b, bs, .here, hb⟩

/-! ## Chains -/

variable [HostLibrary H]

/-- The callables that are active at some point of the call of a callable, the outermost first,
where calls may be nested as deep as the depth says. -/
inductive Callable.Active (tables : Tables H) :
    Nat → Callable H → List (Value H) → List (Callable H) → Prop where
  /-- The callable has taken its arguments. -/
  | entered {depth : Nat} {c : Callable H} {args : List (Value H)} :
      c.takes args.length = .ok () → Active tables depth c args [c]
  /-- A compiled function has made a call. -/
  | compiled {depth : Nat} {f : CompiledFunction} {args as : List (Value H)} {t : Table H}
      {c : Callable H} {chain : List (Callable H)} :
      (Callable.compiled f : Callable H).takes args.length = .ok () → tables f.table = some t →
      f.body.Calls (Callable.invoke tables depth) ⟨f.params.zip args, t⟩ c as →
      Active tables depth c as chain →
      Active tables (depth + 1) (.compiled f) args (.compiled f :: chain)
  /-- A host function has made a call. -/
  | host {depth : Nat} {f : HostFunction H} {args as : List (Value H)} {c : Callable H}
      {chain : List (Callable H)} :
      (Callable.host f).takes args.length = .ok () →
      (HostLibrary.act f.code args).Calls (Callable.invoke tables depth) c as →
      Active tables depth c as chain → Active tables (depth + 1) (.host f) args (.host f :: chain)

/-- **A call is given up only when a chain of active calls is as long as the depth allows.** -/
theorem Callable.exists_chain_of_exhausted {tables : Tables H} (depth : Nat) {c : Callable H}
    {args : List (Value H)} (h : invoke tables depth c args = .exhausted) :
    ∃ chain, Active tables depth c args chain ∧ chain.length = depth + 1 := by
  induction depth generalizing c args with
  | zero =>
    -- no call may be made, so the chain is the callable alone
    refine ⟨[c], .entered ?_, rfl⟩
    cases hok : c.takes args.length with
    | error e => rw [invoke_of_refused hok] at h; cases h
    | ok u => rfl
  | succ depth ih =>
    cases hok : c.takes args.length with
    | error e => rw [invoke_of_refused hok] at h; cases h
    | ok u =>
      cases c with
      | compiled f =>
        cases ht : tables f.table with
        | none => rw [invoke_detached hok ht] at h; cases h
        | some t =>
          rw [invoke_compiled hok ht] at h
          obtain ⟨c, as, hcalls, hc⟩ := Expr.exists_call_of_exhausted h
          obtain ⟨chain, hactive, hlength⟩ := ih hc
          exact ⟨_, .compiled hok ht hcalls hactive, congrArg Nat.succ hlength⟩
      | host f =>
        rw [invoke_host hok] at h
        obtain ⟨c, as, hcalls, hc⟩ := HostAction.exists_call_of_exhausted h
        obtain ⟨chain, hactive, hlength⟩ := ih hc
        exact ⟨_, .host hok hcalls hactive, congrArg Nat.succ hlength⟩

/-- The callables that are active at some point of the evaluation of an expression. -/
def Expr.Active (tables : Tables H) (depth : Nat) (scope : Scope H) (e : Expr)
    (chain : List (Callable H)) : Prop :=
  ∃ c as, e.Calls (Callable.invoke tables depth) scope c as ∧
    Callable.Active tables depth c as chain

theorem Expr.exists_chain_of_exhausted {tables : Tables H} {depth : Nat} {scope : Scope H}
    {e : Expr} (h : e.eval tables depth scope = .exhausted) :
    ∃ chain, e.Active tables depth scope chain ∧ chain.length = depth + 1 := by
  obtain ⟨c, as, hcalls, hc⟩ := exists_call_of_exhausted h
  obtain ⟨chain, hactive, hlength⟩ := Callable.exists_chain_of_exhausted depth hc
  exact ⟨chain, ⟨c, as, hcalls, hactive⟩, hlength⟩

end Recalc

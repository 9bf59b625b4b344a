import Recalc.Proofs.Correspondence

/-!
# Evaluation stays among good values

Call some values good and some errors expected. An evaluation that is given up says nothing; if it
ends, it **meets** the two when it ends with a good value or an expected error. All evaluations do
if

* numbers are good, and the errors of operations, of calls of numbers and of wrong numbers of
  arguments are expected;
* a good compiled function finds its table, and a good value under each name that it reads there;
* a good host function, given good arguments, calls only good callables with good arguments and ends
  well, as long as what it calls does.

What the names have to hold is asked of the functions that are good, so nothing has to be known
about how deep the calls go or which functions they reach.
-/

namespace Recalc

/-! ## Good values -/

section

variable {H : Type} {G : H → Prop}

/-- A number, a host function with its code in `G`, or a compiled function in `P`. -/
inductive Value.Drawn (G : H → Prop) (P : CompiledFunction → Prop) : Value H → Prop where
  | number (x : Float) : Drawn G P (.number x)
  | host {f : HostFunction H} : G f.code → Drawn G P (.callable (.host f))
  | compiled {f : CompiledFunction} : P f → Drawn G P (.callable (.compiled f))

theorem Value.Drawn.mono {G' : H → Prop} {P Q : CompiledFunction → Prop}
    (hG : ∀ code, G code → G' code) (hPQ : ∀ f, P f → Q f) {v : Value H} (h : v.Drawn G P) :
    v.Drawn G' Q := by
  cases h with
  | number x => exact .number x
  | host hg => exact .host (hG _ hg)
  | compiled hf => exact .compiled (hPQ _ hf)

instance Value.Drawn.decidable {P : CompiledFunction → Prop} [DecidablePred G] [DecidablePred P] :
    (v : Value H) → Decidable (v.Drawn G P)
  | .number x => isTrue (.number x)
  | .callable (.host f) =>
    decidable_of_iff (G f.code) ⟨.host, fun h => by cases h; assumption⟩
  | .callable (.compiled f) =>
    decidable_of_iff (P f) ⟨.compiled, fun h => by cases h; assumption⟩

end

/-! ## Good outcomes -/

/-- The evaluation is given up, or it ends with a value in `V` or an error in `E`. -/
inductive Outcome.Meets {ε α : Type} (V : α → Prop) (E : ε → Prop) : Outcome ε α → Prop where
  | value {a : α} : V a → Meets V E (.value a)
  | error {e : ε} : E e → Meets V E (.error e)
  | exhausted : Meets V E .exhausted

namespace Outcome.Meets

variable {ε α β : Type} {V : α → Prop} {W : β → Prop} {E : ε → Prop}

/-- To go on well it is enough to go on well with good values. -/
theorem bind {x : Outcome ε α} (h : x.Meets V E) {f : α → Outcome ε β}
    (hf : ∀ a, V a → (f a).Meets W E) : (x >>= f).Meets W E := by
  cases h with
  | value ha => exact hf _ ha
  | error he => exact .error he
  | exhausted => exact .exhausted

theorem of_value {a : α} (h : Outcome.Meets V E (.value a)) : V a := by
  cases h with
  | value ha => exact ha

theorem of_error {e : ε} (h : Outcome.Meets V E (.error e : Outcome ε α)) : E e := by
  cases h with
  | error he => exact he

end Outcome.Meets

section

variable {H : Type}

/-- A host function calls only good callables with good arguments, and if these calls end well, so
does the host function. -/
inductive HostAction.Keeps (V : Value H → Prop) (E : EvalError → Prop) : HostAction H → Prop where
  | done {r : Except EvalError (Value H)} : (Outcome.ofExcept r).Meets V E → Keeps V E (.done r)
  | call {c : Callable H} {args : List (Value H)}
      {k : Except EvalError (Value H) → HostAction H} : V (.callable c) → (∀ v ∈ args, V v) →
      (∀ r, (Outcome.ofExcept r).Meets V E → Keeps V E (k r)) → Keeps V E (.call c args k)

/-- Good callables with good arguments come out well. -/
def Caller.Meets (V : Value H → Prop) (E : EvalError → Prop) (caller : Caller H) : Prop :=
  ∀ c args, V (.callable c) → (∀ v ∈ args, V v) → (caller c args).Meets V E

/-- The name is known, and its value is good. -/
def Scope.Holds (V : Value H → Prop) (scope : Scope H) (x : String) : Prop :=
  ∃ v, scope.lookup? x = some v ∧ V v

variable {V : Value H → Prop} {E : EvalError → Prop} {caller : Caller H} {scope : Scope H}

theorem HostAction.run_meets (hcall : caller.Meets V E) {a : HostAction H} (h : a.Keeps V E) :
    (a.run caller).Meets V E := by
  induction h with
  | done h => exact h
  | @call c args k hc hargs _ ih =>
    have hout := hcall c args hc hargs
    rw [run]
    generalize caller c args = o at hout
    cases hout with
    | value hv => exact ih (.ok _) (.value hv)
    | error he => exact ih (.error _) (.error he)
    | exhausted => exact .exhausted

theorem Scope.Holds.meets {x : String} (h : scope.Holds V x) :
    (scope.lookup x).Meets V E := by
  obtain ⟨v, hx, hv⟩ := h
  rw [lookup, hx]
  exact .value hv

/-- A name that is not local has the value that it has in the table. -/
theorem Scope.lookup_of_table {x : String} {v : Value H} (hx : scope.locals.lookup x = none)
    (hv : scope.table.value? x = some v) : scope.lookup x = .value v := by
  rw [lookup, lookup?, hx]
  simp only [hv]

/-- A parameter holds the argument that it is bound to, -/
theorem Scope.holds_of_param {params : List String} {args : List (Value H)} {t : Table H}
    (hargs : ∀ v ∈ args, V v) (hlen : args.length = params.length) {x : String}
    (hx : x ∈ params) : Scope.Holds V ⟨params.zip args, t⟩ x := by
  have hall : List.Forall₂ (fun v _ => V v) args args := List.forall₂_same.2 hargs
  obtain ⟨v, _, hv, _, hgood⟩ := lookup_zip_of_mem hall hlen hx
  exact ⟨v, by rw [lookup?, hv], hgood⟩

/-- and any other name what it holds in the table. -/
theorem Scope.holds_of_table {x : String} (hx : scope.locals.lookup x = none)
    (h : ∃ v, scope.table.value? x = some v ∧ V v) : scope.Holds V x := by
  obtain ⟨v, hv, hgood⟩ := h
  exact ⟨v, by rw [lookup?, hx, hv], hgood⟩

/-! ## Expressions -/

/-- What evaluation needs to stay among the values in `V` and the errors in `E`. -/
structure Supports [HostLibrary H] (tables : Tables H) (V : Value H → Prop)
    (E : EvalError → Prop) : Prop where
  number : ∀ x, V (.number x)
  notNumber : ∀ operation, E (.notNumber operation)
  notCallable : ∀ x, E (.notCallable x)
  argumentCount : ∀ name expected actual, E (.argumentCount name expected actual)
  compiled : ∀ f, V (.callable (.compiled f)) → ∃ t, tables f.table = some t ∧
    ∀ x, f.body.references x = true → x ∉ f.params → ∃ v, t.value? x = some v ∧ V v
  host : ∀ f args, V (.callable (.host f)) → (∀ v ∈ args, V v) →
    (HostLibrary.act f.code args).Keeps V E

variable [HostLibrary H] {tables : Tables H}

/-- A number is asked for in vain only with an expected error. -/
theorem Supports.requireNumber (h : Supports tables V E) (v : Value H) (operation : String) :
    (Outcome.ofExcept (v.requireNumber operation)).Meets (fun _ => True) E := by
  cases v with
  | number x => exact .value trivial
  | callable c => exact .error (h.notNumber operation)

mutual

theorem Expr.evalWith_meets (h : Supports tables V E) (hcall : caller.Meets V E) (e : Expr)
    (hscope : ∀ x, e.references x = true → scope.Holds V x) :
    (e.evalWith caller scope).Meets V E := by
  cases e with
  | number x => exact .value (h.number x)
  | name x => exact (hscope x (by simp [references])).meets
  | binary op left right =>
    rw [evalWith]
    have hleft := evalWith_meets h hcall left fun x hx => hscope x (by simp [references, hx])
    have hright := evalWith_meets h hcall right fun x hx => hscope x (by simp [references, hx])
    refine hleft.bind fun l _ => (h.requireNumber l op.symbol).bind fun x _ => ?_
    refine hright.bind fun r _ => (h.requireNumber r op.symbol).bind fun y _ => ?_
    exact .value (h.number (op.apply x y))
  | signed sign operand =>
    rw [evalWith]
    have hoperand := evalWith_meets h hcall operand fun x hx => hscope x (by simp [references, hx])
    refine hoperand.bind fun v _ => (h.requireNumber v sign.symbol).bind fun x _ => ?_
    exact .value (h.number (sign.apply x))
  | call callee args =>
    rw [evalWith]
    have hargs := evalAllWith_meets h hcall args fun x hx => hscope x (by simp [references, hx])
    refine (hscope callee (by simp [references])).meets.bind fun v hv => ?_
    cases v with
    | number x => exact .error (h.notCallable callee)
    | callable c => exact hargs.bind fun values hvalues => hcall c values hv hvalues

theorem Expr.evalAllWith_meets (h : Supports tables V E) (hcall : caller.Meets V E)
    (es : List Expr) (hscope : ∀ x, anyReferences x es = true → scope.Holds V x) :
    (evalAllWith caller scope es).Meets (fun vs => ∀ v ∈ vs, V v) E := by
  cases es with
  | nil => exact .value fun _ hv => absurd hv List.not_mem_nil
  | cons e es =>
    rw [evalAllWith]
    have hfirst := evalWith_meets h hcall e fun x hx => hscope x (by simp [anyReferences, hx])
    have hothers := evalAllWith_meets h hcall es fun x hx => hscope x (by simp [anyReferences, hx])
    refine hfirst.bind fun v hv => hothers.bind fun vs hvs => ?_
    exact .value (List.forall_mem_cons.2 ⟨hv, hvs⟩)

end

/-! ## Calls -/

/-- **Calls of good callables with good arguments come out well.** -/
theorem Callable.invoke_meets (h : Supports tables V E) (depth : Nat) :
    (invoke tables depth : Caller H).Meets V E := by
  intro c args hc hargs
  cases hok : c.takes args.length with
  | error e =>
    -- a callable refuses its arguments for their number only
    rw [invoke_of_refused hok]
    rw [takes] at hok
    split at hok
    · cases hok
    · split at hok
      · cases hok
      · cases hok
        exact .error (h.argumentCount _ _ _)
  | ok _ =>
    cases c with
    | compiled f =>
      obtain ⟨t, ht, hread⟩ := h.compiled f hc
      rw [invoke_compiled hok ht]
      cases depth with
      | zero => exact .exhausted
      | succ depth =>
        -- the body runs with one call less allowed; its parameters hold the arguments
        refine Expr.evalWith_meets h (invoke_meets h depth) f.body ?_
        intro x hx
        by_cases hp : x ∈ f.params
        · exact Scope.holds_of_param hargs (length_of_takes hok) hp
        · exact Scope.holds_of_table (lookup_zip_of_not_mem hp) (hread x hx hp)
    | host f =>
      rw [invoke_host hok]
      cases depth with
      | zero => exact .exhausted
      | succ depth => exact HostAction.run_meets (invoke_meets h depth) (h.host f args hc hargs)

/-- **Evaluation stays among good values.** -/
theorem Expr.eval_meets (h : Supports tables V E) (depth : Nat) {e : Expr}
    (hscope : ∀ x, e.references x = true → scope.Holds V x) :
    (e.eval tables depth scope).Meets V E :=
  evalWith_meets h (Callable.invoke_meets h depth) e hscope

end

/-! ## Standard host functions -/

/-- Combining good values gives a number, or fails where a number is asked for. -/
theorem foldNumbers_meets {H : Type} {V : Value H → Prop} {E : EvalError → Prop}
    {operation : String} {f : Float → Float → Float} (hnumber : ∀ x, V (.number x))
    (herror : E (.notNumber operation)) : ∀ (args : List (Value H)) (x : Float),
      (Outcome.ofExcept (foldNumbers operation f x args)).Meets V E
  | [], x => .value (hnumber x)
  | .number y :: args, x => foldNumbers_meets hnumber herror args (f x y)
  | .callable _ :: _, _ => .error herror

end Recalc

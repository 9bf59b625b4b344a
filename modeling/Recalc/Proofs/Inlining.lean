import Recalc.Proofs.CallChains
import Recalc.Proofs.Depth
import Recalc.Proofs.HeadForms
import Recalc.Proofs.Known

/-!
# A call is its body with the arguments put in

`Expr.substitute` puts expressions in the places of names, all at once: what is put in is not looked
through again. A name that is called stays what it is.

**To call a function is to evaluate its body with the arguments in the places of the parameters**,
if no parameter is called. This is not obvious from the text, since the same name may stand for
different things. A parameter hides the symbol of its name in the body, and in the arguments the
symbol is meant. Behind the arguments the body of the function is in the scope of the caller, and
the functions that it calls do not see their caller's parameters in either case.
-/

namespace Recalc

namespace Expr

mutual

/-- The expression with others in the places of names. -/
def substitute (σ : String → Option Expr) : Expr → Expr
  | number x => number x
  | name x => (σ x).getD (name x)
  | binary op left right => binary op (substitute σ left) (substitute σ right)
  | signed sign operand => signed sign (substitute σ operand)
  | call callee args => call callee (substituteAll σ args)

/-- The expressions with others in the places of names. -/
def substituteAll (σ : String → Option Expr) : List Expr → List Expr
  | [] => []
  | e :: es => substitute σ e :: substituteAll σ es

end

end Expr

/-- The body of a formula with expressions in the places of its parameters, in order. -/
def Formula.inline (f : Formula) (args : List Expr) : Expr :=
  f.body.substitute fun x => (f.params.zip args).lookup x

section

variable {H : Type}

/-! ## One body in two scopes -/

/-- The expression comes to the value, where no names are local. -/
def Expr.Yields (caller : Caller H) (t : Table H) (e : Expr) (v : Value H) : Prop :=
  e.evalWith caller ⟨[], t⟩ = .value v

/-- The local names are those that expressions are put for, and have the values of these. -/
def Stand (caller : Caller H) (t : Table H) (σ : String → Option Expr)
    (locals : List (String × Value H)) : Prop :=
  ∀ x, Option.Rel (Expr.Yields caller t) (σ x) (locals.lookup x)

variable {caller : Caller H} {t : Table H} {σ : String → Option Expr}
  {locals : List (String × Value H)}

/-- A name that nothing is put for means the symbol in both scopes. -/
theorem Stand.lookup_eq (h : Stand caller t σ locals) {x : String} (hx : σ x = none) :
    (⟨[], t⟩ : Scope H).lookup x = (⟨locals, t⟩ : Scope H).lookup x := by
  have hlocals : locals.lookup x = none := by
    have hrel := h x
    rw [hx] at hrel
    generalize locals.lookup x = o at hrel
    cases hrel
    rfl
  rw [Scope.lookup, Scope.lookup, Scope.lookup?, Scope.lookup?, hlocals]
  rfl

mutual

/-- **Putting expressions in the places of names comes to the same as binding the names to the
values of the expressions.** -/
theorem Expr.evalWith_substitute (h : Stand caller t σ locals) (e : Expr)
    (hcalls : ∀ x, e.calls x = true → σ x = none) :
    (e.substitute σ).evalWith caller ⟨[], t⟩ = e.evalWith caller ⟨locals, t⟩ := by
  cases e with
  | number x => rfl
  | name x =>
    rw [substitute, evalWith]
    have hrel := h x
    cases hx : σ x with
    | none => exact h.lookup_eq hx
    | some e =>
      rw [hx] at hrel
      rw [Scope.lookup, Scope.lookup?]
      generalize locals.lookup x = o at hrel
      cases hrel with
      | some hyields => exact hyields
  | binary op left right =>
    rw [substitute, evalWith, evalWith,
      evalWith_substitute h left fun x hx => hcalls x (by simp [calls, hx]),
      evalWith_substitute h right fun x hx => hcalls x (by simp [calls, hx])]
  | signed sign operand =>
    rw [substitute, evalWith, evalWith,
      evalWith_substitute h operand fun x hx => hcalls x (by simpa [calls] using hx)]
  | call callee args =>
    rw [substitute, evalWith, evalWith, h.lookup_eq (hcalls callee (by simp [calls])),
      evalAllWith_substitute h args fun x hx => hcalls x (by simp [calls, hx])]

theorem Expr.evalAllWith_substitute (h : Stand caller t σ locals) (es : List Expr)
    (hcalls : ∀ x, anyCalls x es = true → σ x = none) :
    evalAllWith caller ⟨[], t⟩ (substituteAll σ es) = evalAllWith caller ⟨locals, t⟩ es := by
  cases es with
  | nil => rfl
  | cons e es =>
    rw [substituteAll, evalAllWith, evalAllWith,
      evalWith_substitute h e fun x hx => hcalls x (by simp [anyCalls, hx]),
      evalAllWith_substitute h es fun x hx => hcalls x (by simp [anyCalls, hx])]

end

/-! ## Arguments -/

/-- Expressions that come to values do so one after the other. -/
theorem Expr.evalAllWith_of_yields {es : List Expr} {vs : List (Value H)}
    (h : List.Forall₂ (Yields caller t) es vs) : evalAllWith caller ⟨[], t⟩ es = .value vs := by
  induction h with
  | nil => rfl
  | cons hfirst _ ih =>
    rw [evalAllWith, hfirst, ih]
    rfl

/-- Parameters stand for arguments where they are bound to their values. -/
theorem stand_zip {params : List String} {es : List Expr} {vs : List (Value H)}
    (h : List.Forall₂ (Expr.Yields caller t) es vs) :
    Stand caller t (fun x => (params.zip es).lookup x) (params.zip vs) := by
  intro x
  induction h generalizing params with
  | nil =>
    rw [List.zip_nil_right, List.zip_nil_right]
    exact .none
  | cons hfirst _ ih =>
    cases params with
    | nil => exact .none
    | cons p params =>
      simp only [List.zip_cons_cons, List.lookup_cons]
      cases x == p with
      | true => exact .some hfirst
      | false => exact ih

end

/-- Names that differ are bound by their positions. -/
theorem lookup_zip_getElem {α : Type} {params : List String} (h : params.Nodup) {as : List α}
    (hlen : as.length = params.length) (i : Nat) (hi : i < params.length) :
    (params.zip as).lookup params[i] = as[i]? := by
  induction params generalizing as i with
  | nil => cases hi
  | cons p params ih =>
    cases as with
    | nil => cases hlen
    | cons a as =>
      rw [List.nodup_cons] at h
      rw [List.zip_cons_cons, List.lookup_cons]
      cases i with
      | zero => simp
      | succ i =>
        have hi : i < params.length := Nat.lt_of_succ_lt_succ hi
        have hne : (params[i] == p) = false :=
          beq_eq_false_iff_ne.2 fun he => h.1 (he ▸ List.getElem_mem _)
        rw [List.getElem_cons_succ, hne, List.getElem?_cons_succ]
        exact ih h.2 (Nat.succ.inj hlen) i hi

/-! ## Evaluations that end -/

section

variable {H : Type} [HostLibrary H] {tables : Tables H} {scope : Scope H}

/-- The evaluation ends with the value or the error, at every depth that is large enough. -/
def Expr.ComesTo (tables : Tables H) (scope : Scope H) (e : Expr)
    (o : Except EvalError (Value H)) : Prop :=
  ∃ depth, e.eval tables depth scope = .ofExcept o

theorem Expr.eval_of_le {depth depth' : Nat} (hle : depth ≤ depth') {e : Expr}
    {o : Except EvalError (Value H)} (h : e.eval tables depth scope = .ofExcept o) :
    e.eval tables depth' scope = .ofExcept o := by
  have hrefines : (e.eval tables depth scope).Refines (e.eval tables depth' scope) :=
    Expr.evalWith_refines (Callable.invoke_refines depth hle) e
  rw [h] at hrefines
  refine hrefines ?_
  cases o with
  | ok v => exact fun he => by cases he
  | error e => exact fun he => by cases he

/-- Arguments that come to values do so at one depth. -/
theorem exists_depth_of_comeTo {t : Table H} {es : List Expr}
    (h : ∀ e ∈ es, ∃ v, e.ComesTo tables ⟨[], t⟩ (.ok v)) :
    ∃ depth vs, ∀ depth', depth ≤ depth' →
      List.Forall₂ (Expr.Yields (Callable.invoke tables depth') t) es vs := by
  induction es with
  | nil => exact ⟨0, [], fun _ _ => .nil⟩
  | cons e es ih =>
    obtain ⟨v, depth, hv⟩ := h e List.mem_cons_self
    obtain ⟨depth', vs, hvs⟩ := ih fun e' he' => h e' (List.mem_cons_of_mem e he')
    refine ⟨max depth depth', v :: vs, ?_⟩
    intro d hd
    exact .cons (Expr.eval_of_le (Nat.le_trans (Nat.le_max_left _ _) hd) hv)
      (hvs d (Nat.le_trans (Nat.le_max_right _ _) hd))

end

/-! ## Calls -/

namespace Formula

variable {H : Type} [HostLibrary H] {tables : Tables H} {f : Formula} {t : Table H}

/-- A call needs one level more than the body with the arguments put in. -/
theorem eval_call {serial depth : Nat} (ht : tables t.id = some t)
    (hvalue : t.value? f.target = some (.callable (.compiled (f.compile t.id serial))))
    (hcallee : ∀ p ∈ f.params, f.body.calls p = false) {es : List Expr}
    (hlen : es.length = f.params.length) {vs : List (Value H)}
    (hargs : ∀ depth', depth ≤ depth' →
      List.Forall₂ (Expr.Yields (Callable.invoke tables depth') t) es vs) :
    (Expr.call f.target es).eval tables (depth + 1) ⟨[], t⟩ =
      (f.inline es).eval tables depth ⟨[], t⟩ := by
  have hlookup : (⟨[], t⟩ : Scope H).lookup f.target =
      .value (.callable (.compiled (f.compile t.id serial))) := by
    rw [Scope.lookup, Scope.lookup?]
    simp [hvalue]
  have htakes : (Callable.compiled (f.compile t.id serial) : Callable H).takes vs.length =
      .ok () := by
    rw [← (hargs depth (Nat.le_refl depth)).length_eq, hlen]
    simp [Callable.takes, Callable.arity?, compile]
  have hbody : (f.inline es).eval tables depth ⟨[], t⟩ =
      f.body.evalWith (Callable.invoke tables depth) ⟨f.params.zip vs, t⟩ := by
    refine Expr.evalWith_substitute (stand_zip (hargs depth (Nat.le_refl depth))) f.body ?_
    -- what is called is no parameter, so nothing is put for it
    intro x hx
    refine lookup_zip_of_not_mem ?_
    intro hp
    rw [hcallee x hp] at hx
    cases hx
  rw [hbody, Expr.eval, Expr.evalWith, hlookup, Outcome.value_bind]
  simp only [Expr.evalAllWith_of_yields (hargs (depth + 1) (Nat.le_succ depth)),
    Outcome.value_bind]
  exact Callable.invoke_compiled htakes ht

/-- The parameters of a formula that was read differ. -/
theorem nodup_params_of_parse {raw : String} (h : parse raw = .ok f) : f.params.Nodup := by
  obtain ⟨left, _, _, _, hhead, _⟩ := isWritten_of_parse h
  generalize trim left = left at hhead
  rw [params]
  cases hp : f.params? with
  | none => exact .nil
  | some params =>
    rw [hp] at hhead
    cases hhead with
    | function _ _ _ hnodup => exact (List.nodup_cons.1 hnodup).2

/--
**To call a function is to evaluate its body with the arguments in the places of the parameters.**
The function is stored, whatever the table was before. As long as its target holds it, a call with
arguments that come to values ends with the value or the error that the body ends with, or neither
ends. What is put in the place of a parameter is the argument at its position.
-/
theorem call_comesTo_iff_inline {raw : String} (hparse : parse raw = .ok f)
    (hfun : f.isFunction = true) (hcallee : ∀ p ∈ f.params, f.body.calls p = false)
    (tables : Tables H) (depth : Nat) (t : Table H) :
    ∃ stored, f.assignIn tables depth t = .value stored ∧
      ∀ (store : Tables H) (now : Table H), store now.id = some now → now.id = stored.id →
        now.value? f.target = stored.value? f.target →
        ∀ args : List Expr, args.length = f.params.length →
          (∀ e ∈ args, ∃ v, e.ComesTo store ⟨[], now⟩ (.ok v)) →
          (∀ i (hi : i < f.params.length),
            (f.params.zip args).lookup f.params[i] = args[i]?) ∧
          ∀ o, (Expr.call f.target args).ComesTo store ⟨[], now⟩ o ↔
            (f.inline args).ComesTo store ⟨[], now⟩ o := by
  refine ⟨_, assignIn_of_function hfun, ?_⟩
  intro store now hnow hid hvalue args hlen hargs
  refine ⟨fun i hi => lookup_zip_getElem (nodup_params_of_parse hparse) hlen i hi, ?_⟩
  have hid : t.id = now.id := hid.symm
  have hstored : now.value? f.target =
      some (.callable (.compiled (f.compile now.id t.compiled))) := by
    rw [hvalue, Table.value?_set, if_pos rfl, hid]
  obtain ⟨least, vs, hvs⟩ := exists_depth_of_comeTo hargs
  have hcall : ∀ d, least ≤ d → (Expr.call f.target args).eval store (d + 1) ⟨[], now⟩ =
      (f.inline args).eval store d ⟨[], now⟩ :=
    fun d hd => eval_call hnow hstored hcallee hlen fun d' hd' => hvs d' (Nat.le_trans hd hd')
  intro o
  constructor
  · rintro ⟨d, hd⟩
    refine ⟨max least d, ?_⟩
    rw [← hcall _ (Nat.le_max_left _ _)]
    exact Expr.eval_of_le (Nat.le_trans (Nat.le_max_right least d) (Nat.le_succ _)) hd
  · rintro ⟨d, hd⟩
    refine ⟨max least d + 1, ?_⟩
    rw [hcall _ (Nat.le_max_left _ _)]
    exact Expr.eval_of_le (Nat.le_max_right least d) hd

/-- The parameters of `f` are symbols too, and `g` reads one of them and has the name of the
other for its own parameter. -/
def crossed : Table StandardHost :=
  ((((Table.empty 0).set "x" (.number 10)).set "y" (.number 3)).set "g"
    (.callable (.compiled ⟨"g", ["x"], .binary .add (.name "x") (.name "y"), 0, 0⟩)))

def crossing : Formula where
  raw := "f(x, y) = y * x - g(y)"
  target := "f"
  params? := some ["x", "y"]
  dependsOn := ["g"]
  body := .binary .sub (.binary .mul (.name "y") (.name "x")) (.call "g" [.name "y"])

/-- Each argument is written with the name of the other parameter. -/
def crossedArgs : List Expr := [.binary .add (.name "y") (.number 1), .name "x"]

theorem call_comesTo_iff_inline_crossed :
    parse crossing.raw = .ok crossing ∧
      crossing.inline crossedArgs =
        .binary .sub (.binary .mul (.name "x") (.binary .add (.name "y") (.number 1)))
          (.call "g" [.name "x"]) ∧
      ∃ stored, crossing.assignIn .empty 0 crossed = .value stored ∧
        (Expr.call "f" crossedArgs).ComesTo (Tables.empty.put stored) ⟨[], stored⟩
          (.ok (.number 27)) := by
  have hparse : parse crossing.raw = .ok crossing := by decide +kernel
  obtain ⟨stored, hstored, h⟩ :=
    call_comesTo_iff_inline hparse rfl (by decide) .empty 0 crossed
  refine ⟨hparse, rfl, stored, hstored, ?_⟩
  rw [assignIn_of_function rfl] at hstored
  cases hstored
  refine ((h _ _ (if_pos rfl) rfl rfl crossedArgs rfl ?_).2 _).2 ⟨1, by decide +kernel⟩
  intro e he
  simp only [crossedArgs, List.mem_cons, List.not_mem_nil, or_false] at he
  rcases he with rfl | rfl
  · exact ⟨.number 4, 0, by decide +kernel⟩
  · exact ⟨.number 10, 0, by decide +kernel⟩

end Formula

end Recalc

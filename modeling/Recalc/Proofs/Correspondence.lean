import Mathlib.Data.List.Forall2
import Recalc.Evaluation
import Recalc.Host

/-!
# Evaluation keeps correspondences

A formula can be run in two places: in two solvers, or in one solver at two times. The functions
compiled in one place are then not those of the other, but each has a counterpart there. Given a
relation between compiled functions, values correspond if they are the same number, the same host
function or related compiled functions.

A correspondence is kept by evaluation if

* related functions have one name, one parameter list and one body, and are told apart by their
  serial numbers on one side just when they are on the other;
* the names that related functions read hold corresponding values;
* a host function does corresponding things with corresponding arguments. It sees numbers, names
  and numbers of arguments, it can compare callables, and it can call them; but it cannot make up
  a compiled function or look into one.

The relation may be as small as it likes. Running a formula twice in one solver is the case where
each function is related to itself, and then the two results are equal.
-/

namespace Recalc

/-! ## Corresponding outcomes -/

/-- Two evaluations end alike: with related values, with the same error, or both too deep. -/
inductive Outcome.Related {ε α β : Type} (r : α → β → Prop) : Outcome ε α → Outcome ε β → Prop where
  | value {a : α} {b : β} : r a b → Related r (.value a) (.value b)
  | error (e : ε) : Related r (.error e) (.error e)
  | exhausted : Related r .exhausted .exhausted

namespace Outcome.Related

variable {ε α β γ δ : Type} {r : α → β → Prop} {q : γ → δ → Prop}

/-- Evaluations that end alike go on alike. -/
theorem bind {x : Outcome ε α} {y : Outcome ε β} (h : Outcome.Related r x y)
    {f : α → Outcome ε γ} {g : β → Outcome ε δ}
    (hfg : ∀ a b, r a b → Outcome.Related q (f a) (g b)) :
    Outcome.Related q (x >>= f) (y >>= g) := by
  cases h with
  | value hab => exact hfg _ _ hab
  | error e => exact .error e
  | exhausted => exact .exhausted

/-- Related outcomes are equal where related values are. -/
theorem eq {r : α → α → Prop} (hr : ∀ a b, r a b → a = b) {x y : Outcome ε α}
    (h : Outcome.Related r x y) : x = y := by
  cases h with
  | value hab => rw [hr _ _ hab]
  | error e => rfl
  | exhausted => rfl

end Outcome.Related

theorem rel_mono {α β : Type} {r r' : α → β → Prop} (hr : ∀ a b, r a b → r' a b) {x : Option α}
    {y : Option β} (h : Option.Rel r x y) : Option.Rel r' x y := by
  cases h with
  | some hab => exact .some (hr _ _ hab)
  | none => exact .none

/-! ## Corresponding values -/

/-- A relation between compiled functions that neither evaluation nor a host can see through. -/
structure CompiledFunction.Matching (R : CompiledFunction → CompiledFunction → Prop) : Prop where
  name : ∀ {f g}, R f g → f.name = g.name
  params : ∀ {f g}, R f g → f.params = g.params
  body : ∀ {f g}, R f g → f.body = g.body
  /-- Two functions are the same if and only if their counterparts are. -/
  same : ∀ {f g f' g'}, R f g → R f' g' →
    ((f.table = f'.table ∧ f.serial = f'.serial) ↔ (g.table = g'.table ∧ g.serial = g'.serial))

section

variable {H : Type} (R : CompiledFunction → CompiledFunction → Prop)

/-- Related functions correspond, and so does each host function to itself. -/
inductive Callable.Related : Callable H → Callable H → Prop where
  | compiled {f g : CompiledFunction} : R f g → Related (.compiled f) (.compiled g)
  | host (f : HostFunction H) : Related (.host f) (.host f)

/-- Equal numbers correspond, and so do corresponding callables. -/
inductive Value.Related : Value H → Value H → Prop where
  | number (x : Float) : Related (.number x) (.number x)
  | callable {c d : Callable H} : c.Related R d → Related (.callable c) (.callable d)

/-- What host functions do corresponds: the results do, or the calls and all that follows them. -/
inductive HostAction.Related : HostAction H → HostAction H → Prop where
  | done {r s : Except EvalError (Value H)} :
      Outcome.Related (Value.Related R) (.ofExcept r) (.ofExcept s) → Related (.done r) (.done s)
  | call {c d : Callable H} {as bs : List (Value H)}
      {k l : Except EvalError (Value H) → HostAction H} : c.Related R d →
      List.Forall₂ (Value.Related R) as bs →
      (∀ r s, Outcome.Related (Value.Related R) (.ofExcept r) (.ofExcept s) →
        Related (k r) (l s)) →
      Related (.call c as k) (.call d bs l)

end

/--
What a host function does depends on its arguments only, and on callables among them only by their
names, their numbers of arguments, which of them are the same, and what calls of them yield.

This leaves out host functions that hold a compiled function, one that they captured or a callable
argument that they close over: the code is the same on both sides, but the function that it holds
need not be related to itself. Which functions the codes may hold can be told by a predicate on
codes, as `HostLibrary.Honest` does.
-/
def HostLibrary.Uniform (H : Type) [HostLibrary H] : Prop :=
  ∀ (R : CompiledFunction → CompiledFunction → Prop), CompiledFunction.Matching R →
    ∀ (code : H) (as bs : List (Value H)), List.Forall₂ (Value.Related R) as bs →
      (act code as).Related R (act code bs)

section

variable {H : Type} {R : CompiledFunction → CompiledFunction → Prop}

theorem Callable.Related.name {c d : Callable H} (hR : CompiledFunction.Matching R)
    (h : c.Related R d) : c.name = d.name := by
  cases h with
  | compiled h => exact hR.name h
  | host f => rfl

theorem Callable.Related.arity? {c d : Callable H} (hR : CompiledFunction.Matching R)
    (h : c.Related R d) : c.arity? = d.arity? := by
  cases h with
  | compiled h => simp only [Callable.arity?, hR.params h]
  | host f => rfl

theorem Callable.Related.mono {R' : CompiledFunction → CompiledFunction → Prop}
    (hR : ∀ f g, R f g → R' f g) {c d : Callable H} (h : c.Related R d) : c.Related R' d := by
  cases h with
  | compiled h => exact .compiled (hR _ _ h)
  | host f => exact .host f

theorem Value.Related.mono {R' : CompiledFunction → CompiledFunction → Prop}
    (hR : ∀ f g, R f g → R' f g) {v w : Value H} (h : v.Related R w) : v.Related R' w := by
  cases h with
  | number x => exact .number x
  | callable h => exact .callable (h.mono hR)

/-- Where functions are related only to themselves, corresponding values are equal. -/
theorem Value.Related.eq (hR : ∀ f g, R f g → f = g) {v w : Value H} (h : v.Related R w) :
    v = w := by
  cases h with
  | number x => rfl
  | callable h =>
    cases h with
    | compiled h => rw [hR _ _ h]
    | host f => rfl

/-- A number is asked for alike, and alike refused. -/
theorem Value.Related.requireNumber {v w : Value H} (h : v.Related R w) (operation : String) :
    v.requireNumber operation = w.requireNumber operation := by
  cases h with
  | number x => rfl
  | callable h => rfl

/-- Evaluations that go on with the number that they must have yielded go on alike. -/
theorem Outcome.Related.bindNumber {x y : Outcome EvalError (Value H)}
    (h : Outcome.Related (Value.Related R) x y) (operation : String)
    {k k' : Float → Outcome EvalError (Value H)}
    (hk : ∀ z, Outcome.Related (Value.Related R) (k z) (k' z)) :
    Outcome.Related (Value.Related R)
      (x >>= fun v => .ofExcept (v.requireNumber operation) >>= k)
      (y >>= fun v => .ofExcept (v.requireNumber operation) >>= k') := by
  refine h.bind ?_
  intro v w hvw
  rw [hvw.requireNumber]
  cases w.requireNumber operation with
  | error e => exact .error e
  | ok z => exact hk z

/-! ## Expressions -/

/-- Callables and arguments that correspond come out alike. -/
def Caller.Related (R : CompiledFunction → CompiledFunction → Prop) (caller caller' : Caller H) :
    Prop :=
  ∀ c d as bs, c.Related R d → List.Forall₂ (Value.Related R) as bs →
    Outcome.Related (Value.Related R) (caller c as) (caller' d bs)

/-- Two scopes give a name corresponding values, or neither of them knows it. -/
def Scope.RelatedAt (R : CompiledFunction → CompiledFunction → Prop) (s s' : Scope H)
    (x : String) : Prop :=
  Outcome.Related (Value.Related R) (s.lookup x) (s'.lookup x)

variable {caller caller' : Caller H} {scope scope' : Scope H}

mutual

theorem Expr.evalWith_related (hcall : Caller.Related R caller caller') (e : Expr)
    (h : ∀ x, e.references x = true → scope.RelatedAt R scope' x) :
    Outcome.Related (Value.Related R) (e.evalWith caller scope) (e.evalWith caller' scope') := by
  cases e with
  | number x => exact .value (.number x)
  | name x => exact h x (by simp [references])
  | binary op left right =>
    rw [evalWith, evalWith]
    have hleft := evalWith_related hcall left fun x hx => h x (by simp [references, hx])
    have hright := evalWith_related hcall right fun x hx => h x (by simp [references, hx])
    refine hleft.bindNumber op.symbol ?_
    intro x
    refine hright.bindNumber op.symbol ?_
    intro y
    exact .value (.number (op.apply x y))
  | signed sign operand =>
    rw [evalWith, evalWith]
    have hoperand := evalWith_related hcall operand fun x hx => h x (by simp [references, hx])
    refine hoperand.bindNumber sign.symbol ?_
    intro x
    exact .value (.number (sign.apply x))
  | call callee args =>
    rw [evalWith, evalWith]
    have hcallee : scope.RelatedAt R scope' callee := h callee (by simp [references])
    have hargs := evalAllWith_related hcall args fun x hx => h x (by simp [references, hx])
    refine hcallee.bind ?_
    intro v v' hv
    cases hv with
    | number x => exact .error _
    | callable hc =>
      refine hargs.bind ?_
      intro as bs has
      exact hcall _ _ as bs hc has

theorem Expr.evalAllWith_related (hcall : Caller.Related R caller caller') (es : List Expr)
    (h : ∀ x, anyReferences x es = true → scope.RelatedAt R scope' x) :
    Outcome.Related (List.Forall₂ (Value.Related R)) (evalAllWith caller scope es)
      (evalAllWith caller' scope' es) := by
  cases es with
  | nil => exact .value .nil
  | cons e es =>
    rw [evalAllWith, evalAllWith]
    have hfirst := evalWith_related hcall e fun x hx => h x (by simp [anyReferences, hx])
    have hothers := evalAllWith_related hcall es fun x hx => h x (by simp [anyReferences, hx])
    refine hfirst.bind ?_
    intro v v' hv
    refine hothers.bind ?_
    intro vs vs' hvs
    exact .value (.cons hv hvs)

end

/-! ## Calls -/

theorem HostAction.run_related (hcall : Caller.Related R caller caller') {a b : HostAction H}
    (h : a.Related R b) :
    Outcome.Related (Value.Related R) (a.run caller) (b.run caller') := by
  induction h with
  | done h => exact h
  | call hc has _ ih =>
    have hout := hcall _ _ _ _ hc has
    rw [run, run]
    generalize caller _ _ = o at hout
    generalize caller' _ _ = o' at hout
    cases hout with
    | value hv => exact ih (.ok _) (.ok _) (.value hv)
    | error e => exact ih (.error e) (.error e) (.error e)
    | exhausted => exact .exhausted

/-- Related functions are called over tables in which the names that they read correspond, or over
tables that are not there. -/
def Tables.AlikeUnder (R : CompiledFunction → CompiledFunction → Prop)
    (tables tables' : Tables H) : Prop :=
  ∀ f g, R f g → Option.Rel (fun t t' : Table H =>
    ∀ x, f.body.references x = true → x ∉ f.params →
      Option.Rel (Value.Related R) (t.value? x) (t'.value? x)) (tables f.table) (tables' g.table)

/-- Related functions are called over tables that are there and in which the names that they
read correspond. -/
def Tables.RelatedUnder (R : CompiledFunction → CompiledFunction → Prop)
    (tables tables' : Tables H) : Prop :=
  ∀ f g, R f g → ∃ t t', tables f.table = some t ∧ tables' g.table = some t' ∧
    ∀ x, f.body.references x = true → x ∉ f.params →
      Option.Rel (Value.Related R) (t.value? x) (t'.value? x)

theorem Tables.RelatedUnder.alike {tables tables' : Tables H}
    (h : Tables.RelatedUnder R tables tables') : Tables.AlikeUnder R tables tables' := by
  intro f g hfg
  obtain ⟨t, t', hf, hg, hread⟩ := h f g hfg
  rw [hf, hg]
  exact .some hread

/-- A parameter is bound to related arguments by related lists of as many arguments as there are
parameters. -/
theorem lookup_zip_of_mem {r : Value H → Value H → Prop} {params : List String}
    {as bs : List (Value H)} (h : List.Forall₂ r as bs) (hlen : as.length = params.length)
    {x : String} (hx : x ∈ params) :
    ∃ v w, (params.zip as).lookup x = some v ∧ (params.zip bs).lookup x = some w ∧ r v w := by
  induction h generalizing params with
  | nil =>
    rw [List.length_nil, eq_comm, List.length_eq_zero_iff] at hlen
    rw [hlen] at hx
    cases hx
  | @cons a b as bs hab hrest ih =>
    cases params with
    | nil => cases hx
    | cons p params =>
      by_cases hp : x = p
      · subst hp
        exact ⟨a, b, by simp, by simp, hab⟩
      · have hx : x ∈ params := (List.mem_cons.mp hx).resolve_left hp
        obtain ⟨v, w, hv, hw, hvw⟩ := ih (Nat.succ.inj hlen) hx
        have hne : (x == p) = false := beq_eq_false_iff_ne.2 hp
        refine ⟨v, w, ?_, ?_, hvw⟩
        · rwa [List.zip_cons_cons, List.lookup_cons, hne]
        · rwa [List.zip_cons_cons, List.lookup_cons, hne]

theorem lookup_zip_of_not_mem {α : Type} {params : List String} {as : List α} {x : String}
    (hx : x ∉ params) : (params.zip as).lookup x = none := by
  rw [List.lookup_eq_none_iff]
  intro p hp
  have hmem : p.1 ∈ params := (List.of_mem_zip hp).1
  exact bne_iff_ne.2 fun he => hx (he ▸ hmem)

/-- A name that is not local corresponds in two scopes if it does in their tables. -/
theorem Scope.relatedAt_of_table {x : String} (h : scope.locals.lookup x = none)
    (h' : scope'.locals.lookup x = none)
    (ht : Option.Rel (Value.Related R) (scope.table.value? x) (scope'.table.value? x)) :
    scope.RelatedAt R scope' x := by
  have hs : scope.lookup? x = scope.table.value? x := by rw [lookup?, h]
  have hs' : scope'.lookup? x = scope'.table.value? x := by rw [lookup?, h']
  rw [RelatedAt, lookup, lookup, hs, hs']
  generalize scope.table.value? x = o at ht
  generalize scope'.table.value? x = o' at ht
  cases ht with
  | some h => exact .value h
  | none => exact .error _

/-- A name that is local in both scopes corresponds if its local values do. -/
theorem Scope.relatedAt_of_locals {x : String} {v w : Value H}
    (h : scope.locals.lookup x = some v) (h' : scope'.locals.lookup x = some w)
    (hvw : v.Related R w) : scope.RelatedAt R scope' x := by
  rw [RelatedAt, lookup, lookup, lookup?, lookup?, h, h']
  exact .value hvw

theorem Callable.Related.takes {c d : Callable H} (hR : CompiledFunction.Matching R)
    (h : c.Related R d) (count : Nat) : c.takes count = d.takes count := by
  rw [Callable.takes, Callable.takes, h.arity? hR, h.name hR]

/-- A compiled function takes as many arguments as it has parameters. -/
theorem Callable.length_of_takes {f : CompiledFunction} {count : Nat}
    (h : (Callable.compiled f : Callable H).takes count = .ok ()) : count = f.params.length := by
  simp only [takes, arity?] at h
  split at h
  · assumption
  · cases h

variable [HostLibrary H] {tables tables' : Tables H}

theorem Callable.invoke_of_refused {depth : Nat} {c : Callable H} {as : List (Value H)}
    {e : EvalError} (h : c.takes as.length = .error e) : invoke tables depth c as = .error e := by
  rw [invoke.eq_def]
  simp only [h]
  rfl

theorem Callable.invoke_detached {depth : Nat} {f : CompiledFunction} {as : List (Value H)}
    (h : (Callable.compiled f : Callable H).takes as.length = .ok ()) (ht : tables f.table = none) :
    invoke tables depth (.compiled f) as = .error (.detached f.name) := by
  rw [invoke.eq_def]
  simp only [h, ht]
  rfl

/-- A compiled function that is called evaluates its body, if the depth allows it. -/
theorem Callable.invoke_compiled {depth : Nat} {f : CompiledFunction} {as : List (Value H)}
    {t : Table H} (h : (Callable.compiled f : Callable H).takes as.length = .ok ())
    (ht : tables f.table = some t) :
    invoke tables depth (.compiled f) as =
      match depth with
      | 0 => .exhausted
      | depth + 1 => f.body.evalWith (invoke tables depth) ⟨f.params.zip as, t⟩ := by
  rw [invoke.eq_def]
  simp only [h, ht]
  rfl

theorem Callable.invoke_host {depth : Nat} {f : HostFunction H} {as : List (Value H)}
    (h : (Callable.host f).takes as.length = .ok ()) :
    invoke tables depth (.host f) as =
      match depth with
      | 0 => .exhausted
      | depth + 1 => (HostLibrary.act f.code as).run (invoke tables depth) := by
  rw [invoke.eq_def]
  simp only [h]
  rfl

/-- **Calls of corresponding callables with corresponding arguments come out alike.** -/
theorem Callable.invoke_related_of_alike (hH : HostLibrary.Uniform H)
    (hR : CompiledFunction.Matching R) (ht : Tables.AlikeUnder R tables tables') (depth : Nat) :
    Caller.Related R (invoke tables depth) (invoke tables' depth) := by
  intro c d as bs hc has
  have htakes : c.takes as.length = d.takes bs.length := by rw [hc.takes hR, has.length_eq]
  cases hok : c.takes as.length with
  | error e =>
    rw [invoke_of_refused hok, invoke_of_refused (htakes ▸ hok)]
    exact .error e
  | ok _ =>
    cases hc with
    | @compiled f g hfg =>
      have htables := ht f g hfg
      generalize hf : tables f.table = o at htables
      generalize hg : tables' g.table = o' at htables
      cases htables with
      | none =>
        rw [invoke_detached hok hf, invoke_detached (htakes ▸ hok) hg, hR.name hfg]
        exact .error _
      | some hread =>
        rw [invoke_compiled hok hf, invoke_compiled (htakes ▸ hok) hg]
        cases depth with
        | zero => exact .exhausted
        | succ depth =>
          -- the bodies are one, run over tables that correspond in what it reads
          show Outcome.Related _ (f.body.evalWith _ _) (g.body.evalWith _ _)
          rw [← hR.body hfg, ← hR.params hfg]
          refine Expr.evalWith_related (invoke_related_of_alike hH hR ht depth) f.body ?_
          intro x hx
          -- a parameter is bound to an argument, and any other name is looked up in the table
          by_cases hp : x ∈ f.params
          · obtain ⟨v, w, hv, hw, hvw⟩ := lookup_zip_of_mem has (length_of_takes hok) hp
            exact Scope.relatedAt_of_locals hv hw hvw
          · exact Scope.relatedAt_of_table (lookup_zip_of_not_mem hp) (lookup_zip_of_not_mem hp)
              (hread x hx hp)
    | host f =>
      rw [invoke_host hok, invoke_host (htakes ▸ hok)]
      cases depth with
      | zero => exact .exhausted
      | succ depth =>
        exact HostAction.run_related (invoke_related_of_alike hH hR ht depth)
          (hH R hR f.code as bs has)

theorem Callable.invoke_related (hH : HostLibrary.Uniform H) (hR : CompiledFunction.Matching R)
    (ht : Tables.RelatedUnder R tables tables') (depth : Nat) :
    Caller.Related R (invoke tables depth) (invoke tables' depth) :=
  invoke_related_of_alike hH hR ht.alike depth

/-- **Evaluation keeps correspondences.** -/
theorem Expr.eval_related (hH : HostLibrary.Uniform H) (hR : CompiledFunction.Matching R)
    (ht : Tables.RelatedUnder R tables tables') (depth : Nat) {e : Expr}
    (h : ∀ x, e.references x = true → scope.RelatedAt R scope' x) :
    Outcome.Related (Value.Related R) (e.eval tables depth scope) (e.eval tables' depth scope') :=
  evalWith_related (Callable.invoke_related hH hR ht depth) e h

end

/-! ## The standard host functions -/

theorem foldNumbers_related {H : Type} {R : CompiledFunction → CompiledFunction → Prop}
    (operation : String) (f : Float → Float → Float) {as bs : List (Value H)}
    (h : List.Forall₂ (Value.Related R) as bs) (x : Float) :
    Outcome.Related (Value.Related R) (.ofExcept (foldNumbers operation f x as))
      (.ofExcept (foldNumbers operation f x bs)) := by
  induction h generalizing x with
  | nil => exact .value (.number x)
  | @cons v w as bs hvw _ ih =>
    rw [foldNumbers, foldNumbers, hvw.requireNumber]
    cases w.requireNumber operation with
    | error e => exact .error e
    | ok y => exact ih (f x y)

/-- **The standard host functions are uniform.** -/
theorem StandardHost.uniform : HostLibrary.Uniform StandardHost := by
  intro R _ code as bs has
  cases code with
  | sum => exact .done (foldNumbers_related "sum" (· + ·) has 0)
  | product => exact .done (foldNumbers_related "mul" (· * ·) has 1)
  | first =>
    cases has with
    | nil => exact .done (.value (.number notANumber))
    | cons hvw _ => exact .done (.value hvw)
  | count =>
    show HostAction.Related R (.done (.ok (.number (Float.ofNat as.length)))) _
    rw [has.length_eq]
    exact .done (.value (.number _))
  | fail message => exact .done (.error _)
  | apply name =>
    cases has with
    | nil => exact .done (.error _)
    | cons hvw hrest =>
      cases hvw with
      | number x => exact .done (.error _)
      | callable hc => exact .call hc hrest fun r s hrs => .done hrs

end Recalc

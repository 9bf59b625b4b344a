import Recalc.Proofs.Agreement
import Recalc.Proofs.CallChains
import Recalc.Proofs.Depth
import Recalc.Proofs.FormulaRuns
import Recalc.Proofs.Known
import Recalc.Proofs.Preservation

/-!
# First-order programs come to an end

A call is made through a name, and the callable is taken from the table, not from the text. So what
keeps calls from going round for ever? In a first-order program no function calls a parameter, no
host function calls at all, and what host functions yield are numbers and their arguments. Then

* **every function that a current symbol holds was compiled from the formula that its own name has
  now**, and the symbol has this name or reaches it, by whatever aliases and calls it got the
  function;
* a function calls through names that it depends on, all of which are current when a formula is run
  on top of them. So **each call goes down the graph of dependencies**, and below a current symbol
  that graph has no circles.

The functions in a chain of active calls are therefore different ones, and a solve ends within a
depth above the number of formulas for functions.
-/

namespace Recalc

variable {H : Type}

/-! ## First-order host functions -/

/-- The host function calls nothing, and yields a number or one of its arguments, if it does not
fail. -/
def HostLibrary.FirstOrder [HostLibrary H] (code : H) : Prop :=
  ∀ args, ∃ r, act code args = .done r ∧ ∀ v, r = .ok v → (∃ x, v = .number x) ∨ v ∈ args

theorem HostLibrary.FirstOrder.keeps [HostLibrary H] {code : H} (h : FirstOrder code)
    {V : Value H → Prop} (hnumber : ∀ x, V (.number x)) {args : List (Value H)}
    (hargs : ∀ v ∈ args, V v) : (act code args).Keeps V fun _ => True := by
  obtain ⟨r, hr, hv⟩ := h args
  rw [hr]
  refine .done ?_
  cases r with
  | error e => exact .error trivial
  | ok v =>
    rcases hv v rfl with ⟨x, rfl⟩ | hmem
    · exact .value (hnumber x)
    · exact .value (hargs v hmem)

theorem HostLibrary.FirstOrder.not_calls [HostLibrary H] {code : H} (h : FirstOrder code)
    {caller : Caller H} {args as : List (Value H)} {c : Callable H} :
    ¬ (act code args).Calls caller c as := by
  obtain ⟨r, hr, _⟩ := h args
  rw [hr]
  intro hcalls
  cases hcalls

theorem foldNumbers_eq_ok {operation : String} {f : Float → Float → Float} {v : Value H}
    {args : List (Value H)} {x : Float} (h : foldNumbers operation f x args = .ok v) :
    ∃ y, v = .number y := by
  induction args generalizing x with
  | nil => exact ⟨x, (Except.ok.inj h).symm⟩
  | cons w args ih =>
    cases w with
    | number y => exact ih h
    | callable c => cases h

theorem StandardHost.firstOrder_of_ne_apply {code : StandardHost}
    (h : ∀ name, code ≠ .apply name) : HostLibrary.FirstOrder code := by
  intro args
  cases code with
  | sum => exact ⟨_, rfl, fun v hv => .inl (foldNumbers_eq_ok hv)⟩
  | product => exact ⟨_, rfl, fun v hv => .inl (foldNumbers_eq_ok hv)⟩
  | first =>
    refine ⟨_, rfl, fun v hv => ?_⟩
    cases hv
    cases args with
    | nil => exact .inl ⟨_, rfl⟩
    | cons w ws => exact .inr List.mem_cons_self
  | count => exact ⟨_, rfl, fun v hv => .inl ⟨_, (Except.ok.inj hv).symm⟩⟩
  | fail message => exact ⟨_, rfl, fun v hv => by cases hv⟩
  | apply name => exact absurd rfl (h name)

/-- Given a callable, `apply` calls it. -/
theorem StandardHost.not_firstOrder_apply (name : String) :
    ¬ HostLibrary.FirstOrder (StandardHost.apply name) := by
  intro h
  obtain ⟨r, hr, _⟩ := h [.callable (.host ⟨name, none, .count, 0⟩)]
  cases hr

instance StandardHost.decidableFirstOrder :
    (code : StandardHost) → Decidable (HostLibrary.FirstOrder code)
  | .apply name => isFalse (not_firstOrder_apply name)
  | .sum | .product | .first | .count | .fail _ =>
    isTrue (firstOrder_of_ne_apply fun _ h => by cases h)

/-! ## Where functions come from -/

/-- The function is compiled, on the table with this identity, from the formula that its name has
now. -/
def CompiledFunction.CurrentIn (fs : Formulas) (id : TableId) (g : CompiledFunction) : Prop :=
  ∃ f serial, fs[g.name]? = some f ∧ f.isFunction = true ∧ g = f.compile id serial

variable [HostLibrary H]

/-- A number, a first-order host function, or a function compiled from the present formula of a name
that `x` reaches. -/
def Value.Below (fs : Formulas) (id : TableId) (x : String) (v : Value H) : Prop :=
  v.Drawn HostLibrary.FirstOrder fun g => g.CurrentIn fs id ∧ fs.Reaches x g.name

/-- The same, or a function compiled from the present formula of `x` itself. -/
def Value.SourcedFrom (fs : Formulas) (id : TableId) (x : String) (v : Value H) : Prop :=
  v.Drawn HostLibrary.FirstOrder fun g =>
    g.CurrentIn fs id ∧ (g.name = x ∨ fs.Reaches x g.name)

theorem Value.Below.trans {fs : Formulas} {id : TableId} {x y : String} {v : Value H}
    (h : v.Below fs id y) (hxy : fs.Reaches x y) : v.Below fs id x :=
  h.mono (fun _ h => h) fun _ hg => ⟨hg.1, hxy.trans hg.2⟩

/-- What a symbol holds is below all that depend on it. -/
theorem Value.SourcedFrom.below {fs : Formulas} {id : TableId} {x y : String} {v : Value H}
    (h : v.SourcedFrom fs id y) (hxy : fs.Edge x y) : v.Below fs id x := by
  refine h.mono (fun _ h => h) fun g hg => ⟨hg.1, ?_⟩
  rcases hg.2 with he | hreach
  · exact .single (he ▸ hxy)
  · exact .head hxy hreach

/-- All that current symbols hold comes from what they reach, and symbols without a formula hold no
compiled functions. -/
structure Formulas.Sourced (fs : Formulas) (t : Table H) (stale : NameSet) : Prop where
  leaf : ∀ x v, fs[x]? = none → t.value? x = some v →
    v.Drawn HostLibrary.FirstOrder fun _ => False
  current : ∀ x v, x ∉ stale → t.value? x = some v → v.SourcedFrom fs t.id x

/-- The formulas and the table of a solver in which what is current is in order. -/
structure Formulas.InOrder (fs : Formulas) (t : Table H) (stale : NameSet) : Prop where
  tracked : fs.Tracked
  known : fs.KnownIn t
  marks : fs.Marks stale
  sourced : fs.Sourced t stale

namespace Formulas.InOrder

variable {fs : Formulas} {t : Table H} {stale : NameSet}

/-- A name that a current function reads from the table is one that its own name depends on. -/
theorem edge_of_reads (h : fs.InOrder t stale) {g : CompiledFunction} (hg : g.CurrentIn fs t.id)
    (hstale : g.name ∉ stale) {y : String} (hy : g.body.references y = true)
    (hp : y ∉ g.params) : fs.Edge g.name y := by
  obtain ⟨f, serial, hf, hfun, he⟩ := hg
  rw [he] at hy hp
  rcases (h.tracked g.name f hf).2 y hy with hself | hparam | hdep
  · -- a function that refers to its own name calls itself, and no current one does
    have hcalm := (h.marks.grounded g.name hstale).calm hf
    rw [Formula.isSelfCalling, hfun, Bool.true_and, (h.tracked g.name f hf).1, ← hself] at hcalm
    cases hcalm.symm.trans hy
  · exact absurd hparam hp
  · exact Formulas.edge_of_some hf hdep

/-- What a name that `x` depends on holds is below `x`. -/
theorem exists_value_below (h : fs.InOrder t stale) {x y : String} (hxy : fs.Edge x y)
    (hy : y ∉ stale) : ∃ v, t.value? y = some v ∧ v.Below fs t.id x := by
  obtain ⟨v, hv⟩ := h.known.exists_value_of_reaches (.single hxy)
  exact ⟨v, hv, (h.sourced.current y v hy hv).below hxy⟩

/-- Evaluation over what a symbol reaches yields only what is below the symbol. -/
theorem supports (h : fs.InOrder t stale) {x : String} (hx : ∀ y, fs.Reaches x y → y ∉ stale)
    (tables : Tables H) :
    Supports (tables.put t) (Value.Below fs t.id x) fun _ => True where
  number z := .number z
  notNumber _ := trivial
  notCallable _ := trivial
  argumentCount _ _ _ := trivial
  compiled g hg := by
    cases hg with
    | compiled hg =>
      obtain ⟨hcurrent, hreach⟩ := hg
      have hid : g.table = t.id := by
        obtain ⟨f, serial, _, _, he⟩ := hcurrent
        rw [he]
        rfl
      refine ⟨t, if_pos hid, ?_⟩
      intro y hy hp
      have hedge := h.edge_of_reads hcurrent (hx _ hreach) hy hp
      obtain ⟨v, hv, hbelow⟩ := h.exists_value_below hedge (hx y (hreach.tail hedge))
      exact ⟨v, hv, hbelow.trans hreach⟩
  host f args hf hargs := by
    cases hf with
    | host hfirst => exact hfirst.keeps (fun z => .number z) hargs

/-- The body of a formula for a value yields only what is below its symbol. -/
theorem eval_below (h : fs.InOrder t stale) {x : String} {f : Formula} (hf : fs[x]? = some f)
    (hfun : f.isFunction = false) (hself : f.body.references x = false)
    (hx : ∀ y, fs.Reaches x y → y ∉ stale) (tables : Tables H) (depth : Nat) :
    (f.body.eval (tables.put t) depth ⟨[], t⟩).Meets (Value.Below fs t.id x) fun _ => True := by
  refine Expr.eval_meets (h.supports hx tables) depth ?_
  intro y hy
  have hyx : y ≠ x := by
    rintro rfl
    cases hself.symm.trans hy
  have hedge := Formula.edge_of_references h.tracked hf hfun hy hyx
  exact Scope.holds_of_table rfl (h.exists_value_below hedge (hx y (.single hedge)))

end Formulas.InOrder

/-! ## Passes -/

namespace Pass

variable {fs : Formulas} {tables : Tables H} {depth : Nat}

theorem Finishes.sourced (hself : ∀ (x : String) (f : Formula), fs[x]? = some f →
      f.isFunction = false → f.body.references x = false) {p q : Pass H} {x : String}
    (hm : Marked fs p) (h : fs.InOrder p.table p.stale) (hq : Finishes tables depth fs p x q) :
    fs.Sourced q.table q.stale := by
  have hother : ∀ y, y ≠ x → q.table.value? y = p.table.value? y :=
    fun y hy => hq.value?_of_ne h.tracked hy
  have hcurrent : ∀ y v, y ≠ x → y ∉ q.stale → q.table.value? y = some v →
      v.SourcedFrom fs q.table.id y := by
    intro y v hyx hy hv
    rw [hother y hyx] at hv
    rw [hq.id_eq]
    exact h.sourced.current y v (fun hys => hy (hq.mem_stale_iff.2 ⟨hyx, hys⟩)) hv
  rcases hq.table_cases with ⟨htable, hkeep⟩ | ⟨f, w, hf, _, hw⟩
  · refine ⟨htable ▸ h.sourced.leaf, ?_⟩
    intro y v hy hv
    by_cases hyx : y = x
    · -- without a formula, `x` holds no compiled function; with one, it was current before
      subst hyx
      rw [htable] at hv ⊢
      rcases hkeep with hnone | hys
      · exact (h.sourced.leaf y v hnone hv).mono (fun _ h => h) fun _ hno => hno.elim
      · exact h.sourced.current y v hys hv
    · exact hcurrent y v hyx hy hv
  · obtain ⟨htarget, _⟩ := h.tracked x f hf
    refine ⟨?leaf, ?current⟩
    case leaf =>
      intro y v hy hv
      have hyx : y ≠ x := by
        rintro rfl
        cases hy.symm.trans hf
      exact h.sourced.leaf y v hy ((hother y hyx).symm.trans hv)
    case current =>
      intro y v hy hv
      by_cases hyx : y = x
      · subst hyx
        rw [hw.value?, if_pos htarget] at hv
        obtain rfl := Option.some.inj hv
        rw [hw.id]
        cases hfun : f.isFunction with
        | true =>
          have hname : fs[f.target]? = some f := by rw [htarget, hf]
          rw [hw.function hfun]
          exact .compiled ⟨⟨f, _, hname, hfun, rfl⟩, .inl htarget⟩
        | false =>
          have hbelow := h.eval_below hf hfun (hself y f hf hfun)
            (fun z hz => hm.not_stale_of_reaches (fun d hd => hq.deps_finished hd) hz) tables depth
          rw [hw.scalar hfun] at hbelow
          exact hbelow.of_value.mono (fun _ h => h) fun _ hg => ⟨hg.1, .inr hg.2⟩
      · exact hcurrent y v hyx hy hv

/-- **A pass keeps what is current in order**, however it ends. -/
theorem Progress.inOrder (hself : ∀ (x : String) (f : Formula), fs[x]? = some f →
      f.isFunction = false → f.body.references x = false) {p q : Pass H} (hm : Marked fs p)
    (h : fs.InOrder p.table p.stale) (hq : Progress tables depth fs p q) :
    fs.InOrder q.table q.stale := by
  induction hq with
  | refl => exact h
  | tail hpq hx ih =>
    have hmarked := hm.progress hpq
    exact ⟨h.tracked, (hpq.tail hx).knownIn h.known, (hmarked.finishes hx).marks,
      hx.sourced hself hmarked ih⟩

end Pass

/-! ## Requests -/

/-- **A change of one symbol keeps what is current in order**, if it makes that symbol and all that
reaches it stale, and leaves no compiled function where there is no formula. -/
theorem Formulas.Sourced.touch {fs gs : Formulas} {t t' : Table H} {stale stale' : NameSet}
    {z : String} (h : fs.Sourced t stale) (hgs : ∀ y, y ≠ z → gs[y]? = fs[y]?)
    (hid : t'.id = t.id)
    (hvalue : ∀ y v, y ≠ z → t'.value? y = some v → t.value? y = some v ∨ v = .unknown)
    (hleaf : ∀ v, gs[z]? = none → t'.value? z = some v →
      v.Drawn HostLibrary.FirstOrder fun _ => False)
    (hstale : ∀ y, y ∈ stale' ↔ y = z ∨ gs.Reaches y z ∨ y ∈ stale) : gs.Sourced t' stale' := by
  constructor
  · intro y v hy hv
    by_cases hyz : y = z
    · subst hyz
      exact hleaf v hy hv
    · rw [hgs y hyz] at hy
      rcases hvalue y v hyz hv with hold | rfl
      · exact h.leaf y v hy hold
      · exact .number _
  · intro x v hx hv
    rw [hstale, not_or, not_or] at hx
    obtain ⟨hxz, hno, hxs⟩ := hx
    have hreach : ∀ y, gs.Reaches x y ↔ fs.Reaches x y :=
      fun y => (Formulas.reaches_iff_of_agree (fun y hy => (hgs y hy).symm) hxz hno).symm
    rcases hvalue x v hxz hv with hold | rfl
    · rw [hid]
      refine (h.current x v hxs hold).mono (fun _ h => h) fun g hg => ?_
      obtain ⟨⟨f, serial, hf, hfun, he⟩, hname⟩ := hg
      -- the formula that changes is none that `x` has or reaches
      have hgz : g.name ≠ z := by
        rcases hname with hgx | hxg
        · exact hgx ▸ hxz
        · exact fun hgz => hno ((hreach z).2 (hgz ▸ hxg))
      exact ⟨⟨f, serial, (hgs _ hgz).trans hf, hfun, he⟩, hname.imp_right (hreach _).2⟩
    · exact .number _

namespace Solver

/-- A value that is assigned is in `P`. -/
def Request.Assigns (P : Value H → Prop) : Request H → Prop
  | .assign _ v => P v
  | .define _ | .solve _ => True

instance {P : Value H → Prop} [DecidablePred P] (r : Request H) : Decidable (r.Assigns P) :=
  match r with
  | .assign _ v => inferInstanceAs (Decidable (P v))
  | .define _ | .solve _ => inferInstanceAs (Decidable True)

/-- No function calls one of its parameters. -/
def CallsNoParams (s : Solver H) : Prop :=
  ∀ (x : String) (f : Formula), s.formulas[x]? = some f → ∀ p ∈ f.params, f.body.calls p = false

instance (s : Solver H) : Decidable s.CallsNoParams :=
  decidable_of_iff (∀ p ∈ s.formulas.toList, ∀ q ∈ p.2.params, p.2.body.calls q = false) <| by
    rw [CallsNoParams]
    constructor
    · exact fun h x f hf => h (x, f) (Std.ExtTreeMap.mem_toList_iff_getElem?_eq_some.2 hf)
    · exact fun h p hp => h p.1 p.2 (Std.ExtTreeMap.mem_toList_iff_getElem?_eq_some.1 hp)

/-- A number or a first-order host function is assigned, no function calls one of its parameters,
and no formula for a value refers to its target. -/
structure FirstOrderStep (r : Request H) (s : Solver H) : Prop where
  assigns : r.Assigns (Value.Drawn HostLibrary.FirstOrder fun _ => False)
  noParams : s.CallsNoParams
  noSelf : s.NoSelfReaders

instance [DecidablePred (HostLibrary.FirstOrder (H := H))] (r : Request H) (s : Solver H) :
    Decidable (FirstOrderStep r s) :=
  decidable_of_iff (r.Assigns (Value.Drawn HostLibrary.FirstOrder fun _ => False) ∧
    s.CallsNoParams ∧ s.NoSelfReaders)
    ⟨fun h => ⟨h.1, h.2.1, h.2.2⟩, fun h => ⟨h.assigns, h.noParams, h.noSelf⟩⟩

variable {settings : Settings} {depth : Nat}

/-- **What is current in a solver with a first-order program is in order.** -/
theorem ReachableBy.inOrder {s : Solver H}
    (h : ReachableBy FirstOrderStep settings depth s) :
    s.formulas.InOrder s.table s.stale := by
  refine ⟨h.tracked, h.known, h.marks, ?_⟩
  refine h.strongInduction (P := fun s => s.formulas.Sourced s.table s.stale) ?empty
    (fun _ _ ih => ih) ?install ?assign ?pass
  case empty =>
    intro id
    have hnone : ∀ x v, (Table.empty id : Table H).value? x ≠ some v := by
      intro x v hv
      cases (Table.value?_empty id x).symm.trans hv
    exact ⟨fun x v _ hv => absurd hv (hnone x v), fun x v _ hv => absurd hv (hnone x v)⟩
  case install =>
    intro s text f hs ih _ _ _
    refine ih.touch (fun y hy => Formulas.getElem?_insert_ne hy) (s.install_id f) ?value ?leaf
      fun y => mem_stale_install
    case value =>
      intro y v _ hv
      cases hold : s.table.value? y with
      | some w => exact .inl ((value?_install_of_some hold).symm.trans hv)
      | none => exact .inr (value?_install_of_none hold hv)
    case leaf =>
      intro v hnone
      have hnew : (s.install f).formulas[f.target]? = some f :=
        Std.ExtTreeMap.getElem?_insert_self
      cases hnone.symm.trans hnew
  case assign =>
    intro s z v hs ih _ hafter
    refine ih.touch (fun _ _ => rfl) rfl ?value ?leaf fun y => mem_stale_withValue
    case value =>
      intro y w hy hw
      rw [value?_withValue, if_neg fun he => hy he.symm] at hw
      exact .inl hw
    case leaf =>
      intro w _ hw
      rw [value?_withValue, if_pos rfl] at hw
      obtain rfl := Option.some.inj hw
      exact hafter.assigns
  case pass =>
    intro s tables z hs ih
    have hself := hs.noSelfReaders fun _ _ hok => hok.noSelf
    exact ((s.pass_progress tables depth z).inOrder hself (.start hs.marks)
      ⟨hs.tracked, hs.known, hs.marks, ih⟩).sourced

end Solver

/-! ## Chains -/

/-- The compiled function, if the callable is one. -/
def Callable.function? {H : Type} : Callable H → Option CompiledFunction
  | .compiled g => some g
  | .host _ => none

/-- The compiled functions of a chain, the outermost first. -/
def functionsOf {H : Type} (chain : List (Callable H)) : List CompiledFunction :=
  chain.filterMap Callable.function?

/-- The names that formulas for functions define. -/
def Formulas.functionNames (fs : Formulas) : List String :=
  (fs.toList.filter fun p => p.2.isFunction).map (·.1)

theorem Formulas.mem_functionNames {fs : Formulas} {x : String} :
    x ∈ fs.functionNames ↔ ∃ f, fs[x]? = some f ∧ f.isFunction = true := by
  simp only [functionNames, List.mem_map, List.mem_filter, Prod.exists,
    Std.ExtTreeMap.mem_toList_iff_getElem?_eq_some]
  constructor
  · rintro ⟨y, f, ⟨hf, hfun⟩, rfl⟩
    exact ⟨f, hf, hfun⟩
  · rintro ⟨f, hf, hfun⟩
    exact ⟨x, f, ⟨hf, hfun⟩, rfl⟩

/-- The chain goes down from `x`: each function is compiled from the present formula of a name that
the one before reaches, and behind a host function nothing follows. -/
inductive Descends {H : Type} (fs : Formulas) (id : TableId) :
    String → List (Callable H) → Prop where
  | nil {x : String} : Descends fs id x []
  | host {x : String} (f : HostFunction H) : Descends fs id x [.host f]
  | compiled {x : String} {g : CompiledFunction} {chain : List (Callable H)} :
      g.CurrentIn fs id → fs.Reaches x g.name → Descends fs id g.name chain →
      Descends fs id x (.compiled g :: chain)

/-- **The functions of a chain that goes down are different ones**, and it has at most one callable
more. -/
theorem Descends.nodup {H : Type} {fs : Formulas} {id : TableId} {x : String}
    {chain : List (Callable H)} (h : Descends fs id x chain)
    (hx : ∀ y, fs.Reaches x y → ¬ fs.Reaches y y) :
    ((functionsOf chain).map (·.name)).Nodup ∧
      (∀ g ∈ functionsOf chain, g.CurrentIn fs id ∧ fs.Reaches x g.name) ∧
      chain.length ≤ (functionsOf chain).length + 1 := by
  induction h with
  | nil => exact ⟨List.nodup_nil, fun _ hg => absurd hg List.not_mem_nil, Nat.zero_le _⟩
  | host f => exact ⟨List.nodup_nil, fun _ hg => absurd hg List.not_mem_nil, Nat.le_refl _⟩
  | @compiled x g chain hg hreach _ ih =>
    obtain ⟨hnodup, hbelow, hlength⟩ := ih fun y hy => hx y (hreach.trans hy)
    have hcons : functionsOf (.compiled g :: chain) = g :: functionsOf chain := rfl
    rw [hcons]
    refine ⟨List.nodup_cons.2 ⟨?_, hnodup⟩, ?_, Nat.succ_le_succ hlength⟩
    · -- a function of the same name further down would close a circle
      intro hmem
      obtain ⟨k, hk, hname⟩ := List.mem_map.1 hmem
      have hback : fs.Reaches g.name k.name := (hbelow k hk).2
      rw [show k.name = g.name from hname] at hback
      exact hx g.name hreach hback
    · intro k hk
      rcases List.mem_cons.1 hk with rfl | hk
      · exact ⟨hg, hreach⟩
      · exact ⟨(hbelow k hk).1, hreach.trans (hbelow k hk).2⟩

namespace Formulas.InOrder

variable {fs : Formulas} {t : Table H} {stale : NameSet}

/-- What is called through names that `x` depends on, and that are not local, is below `x`. -/
theorem callee_below (h : fs.InOrder t stale) {x : String}
    (hx : ∀ y, fs.Reaches x y → y ∉ stale) {caller : Caller H} {locals : List (String × Value H)}
    {e : Expr} {c : Callable H} {as : List (Value H)} (hcalls : e.Calls caller ⟨locals, t⟩ c as)
    (hnames : ∀ y, e.calls y = true → locals.lookup y = none ∧ fs.Edge x y) :
    Value.Below fs t.id x (.callable c) := by
  obtain ⟨y, hy, hlookup⟩ := hcalls.exists_callee
  obtain ⟨hlocal, hedge⟩ := hnames y hy
  obtain ⟨v, hv, hbelow⟩ := h.exists_value_below hedge (hx y (.single hedge))
  cases (Scope.lookup_of_table hlocal hv).symm.trans hlookup
  exact hbelow

/-- **Active calls go down**, from a symbol below which all is current. -/
theorem descends (h : fs.InOrder t stale)
    (hparams : ∀ (x : String) (f : Formula), fs[x]? = some f → ∀ p ∈ f.params,
      f.body.calls p = false)
    {tables : Tables H} {depth : Nat} {c : Callable H} {args : List (Value H)}
    {chain : List (Callable H)} (hactive : Callable.Active (tables.put t) depth c args chain)
    {x : String} (hx : ∀ y, fs.Reaches x y → y ∉ stale)
    (hc : Value.Below fs t.id x (.callable c)) : Descends fs t.id x chain := by
  induction hactive generalizing x with
  | @entered depth c args _ =>
    cases hc with
    | host _ => exact .host _
    | compiled hg => exact .compiled hg.1 hg.2 .nil
  | @compiled depth g args as u c chain _ htable hcalls _ ih =>
    cases hc with
    | compiled hg =>
      obtain ⟨hcurrent, hreach⟩ := hg
      obtain ⟨f, serial, hf, hfun, he⟩ := hcurrent
      have hu : u = t := by
        have hid : g.table = t.id := by rw [he]; rfl
        rw [Tables.put, if_pos hid] at htable
        exact (Option.some.inj htable).symm
      subst hu
      have hbelow : ∀ z, fs.Reaches g.name z → z ∉ stale := fun z hz => hx z (hreach.trans hz)
      -- what `g` calls is no parameter, so it is taken from the table
      have hcallee := h.callee_below hbelow hcalls fun y hy => by
        have hp : y ∉ g.params := by
          intro hp
          rw [he] at hy hp
          cases (hparams g.name f hf y hp).symm.trans hy
        exact ⟨lookup_zip_of_not_mem hp, h.edge_of_reads ⟨f, serial, hf, hfun, he⟩ (hx _ hreach)
          (Expr.references_of_calls hy) hp⟩
      exact .compiled ⟨f, serial, hf, hfun, he⟩ hreach (ih hbelow hcallee)
  | host _ hcalls _ _ =>
    cases hc with
    | host hfirst => exact absurd hcalls hfirst.not_calls

end Formulas.InOrder

/-! ## Solves -/

namespace Solver

/-- The callables that are active at some point while `x` is solved, called by the body of a formula
for a value that is run. -/
def ActiveIn (tables : Tables H) (depth : Nat) (s : Solver H) (x : String)
    (chain : List (Callable H)) : Prop :=
  ∃ f q, s.Runs tables depth x f q ∧ f.isFunction = false ∧
    f.body.Active (tables.put q.table) depth ⟨[], q.table⟩ chain

/-- **A solve is given up only when a chain of active calls is as long as the depth allows.** -/
theorem exists_chain_of_exhausted {s : Solver H} {tables : Tables H} {d : Nat} {x : String}
    (h : (s.solve tables d x).answer = .exhausted) :
    ∃ chain, s.ActiveIn tables d x chain ∧ chain.length = d + 1 := by
  have hanswers := s.solve_answers tables d x
  rw [h] at hanswers
  cases hanswers with
  | exhausted hruns hfun heval =>
    obtain ⟨chain, hactive, hlength⟩ := Expr.exists_chain_of_exhausted heval
    exact ⟨chain, ⟨_, _, hruns, hfun, hactive⟩, hlength⟩

variable {settings : Settings} {depth : Nat}

/-- **The functions in a chain of active calls are different ones**, each compiled from a formula
that the solver has now. -/
theorem ActiveIn.nodup {s : Solver H} (h : ReachableBy FirstOrderStep settings depth s)
    {tables : Tables H} {d : Nat} {x : String} {chain : List (Callable H)}
    (hactive : s.ActiveIn tables d x chain) :
    ((functionsOf chain).map (·.name)).Nodup ∧
      (∀ g ∈ functionsOf chain, g.CurrentIn s.formulas s.table.id) ∧
      chain.length ≤ (functionsOf chain).length + 1 := by
  obtain ⟨f, q, ⟨_, _, hrun⟩, hfun, c, as, hcalls, hactive⟩ := hactive
  obtain ⟨hprogress, y, hready⟩ := hrun.ready
  have hself := h.noSelfReaders fun _ _ hok => hok.noSelf
  have hparams : s.CallsNoParams := h.formulas (P := fun fs => ∀ (x : String) (f : Formula),
    fs[x]? = some f → ∀ p ∈ f.params, f.body.calls p = false)
      (fun x f hf => by cases Std.ExtTreeMap.getElem?_empty.symm.trans hf)
      fun _ _ hok => hok.noParams
  have hmarked := (Pass.Marked.start h.marks).progress hprogress
  have horder := hprogress.inOrder hself (.start h.marks) h.inOrder
  have hbelow : ∀ z, s.formulas.Reaches y z → z ∉ q.stale :=
    fun z hz => hmarked.not_stale_of_reaches (fun d hd => hready.mem_finished hd) hz
  -- the body calls through names that the symbol depends on
  have hcallee := horder.callee_below hbelow hcalls fun z hz => by
    have hread := Expr.references_of_calls hz
    have hzy : z ≠ y := by
      rintro rfl
      cases (hself z f hready.some hfun).symm.trans hread
    exact ⟨rfl, Formula.edge_of_references horder.tracked hready.some hfun hread hzy⟩
  have hdescends := horder.descends hparams hactive hbelow hcallee
  obtain ⟨hnodup, hcurrent, hlength⟩ := hdescends.nodup fun z hz =>
    (horder.marks.grounded z (hbelow z hz)).not_reaches_self
  refine ⟨hnodup, ?_, hlength⟩
  intro g hg
  have hid : q.table.id = s.table.id := hprogress.id_eq
  exact hid ▸ (hcurrent g hg).1

/-- How many formulas for functions a solver has. -/
def functionCount (s : Solver H) : Nat := s.formulas.functionNames.length

/--
**First-order programs come to an end.**

Let a solver have come about by assignments of numbers and of host functions that call nothing and
yield numbers or arguments, by definitions of functions that call none of their parameters and of
values that do not refer to themselves, and by solves. Then, whatever symbol is solved,

* the solve ends with a value or an error at any depth above the number of formulas for functions,
  and it is the same at all such depths, with all that it leaves;
* at whatever depth, in each chain of calls that are active at one time no function occurs twice,
  each is compiled from a formula that the solver has now, and so there are no more of them than
  there are formulas for functions.
-/
theorem solve_terminates_of_first_order {s : Solver H}
    (h : ReachableBy FirstOrderStep settings depth s) (tables : Tables H) (d : Nat) (x : String) :
    (s.functionCount < d → (s.solve tables d x).answer ≠ .exhausted ∧
      ∀ d', d ≤ d' → s.solve tables d' x = s.solve tables d x) ∧
    ∀ chain, s.ActiveIn tables d x chain →
      ((functionsOf chain).map (·.name)).Nodup ∧
      (∀ g ∈ functionsOf chain, ∃ f serial, s.formula? g.name = some f ∧ f.isFunction = true ∧
        g = f.compile s.table.id serial) ∧
      (functionsOf chain).length ≤ s.functionCount := by
  have hchain : ∀ chain, s.ActiveIn tables d x chain →
      (functionsOf chain).length ≤ s.functionCount := by
    intro chain hactive
    obtain ⟨hnodup, hcurrent, _⟩ := ActiveIn.nodup h hactive
    rw [← List.length_map (·.name)]
    refine hnodup.length_le_of_subset ?_
    intro name hname
    obtain ⟨g, hg, rfl⟩ := List.mem_map.1 hname
    obtain ⟨f, serial, hf, hfun, _⟩ := hcurrent g hg
    exact Formulas.mem_functionNames.2 ⟨f, hf, hfun⟩
  constructor
  · intro hd
    have hends : (s.solve tables d x).answer ≠ .exhausted := by
      intro hexhausted
      obtain ⟨chain, hactive, hlength⟩ := exists_chain_of_exhausted hexhausted
      have hfunctions := hchain chain hactive
      have hhosts := (ActiveIn.nodup h hactive).2.2
      omega
    exact ⟨hends, fun d' hle => solve_eq_of_le hle hends⟩
  · intro chain hactive
    obtain ⟨hnodup, hcurrent, _⟩ := ActiveIn.nodup h hactive
    exact ⟨hnodup, hcurrent, hchain chain hactive⟩

/-- A program with an alias and with a function that a host function picks. -/
def layered : Solver StandardHost :=
  performAll .empty 8 (.empty {} 0)
    [.assign "a" (.number 1), .assign "first" (.callable (.host ⟨"first", none, .first, 0⟩)),
      .define "f(x) = x + a", .define "alias = f", .define "g(x) = alias(x) * 2",
      .define "picked = first(g, f)", .define "h(x) = picked(x) + f(x)", .define "y = h(first(3))"]

theorem solve_terminates_of_first_order_layered :
    layered.functionCount = 3 ∧
      (layered.solve .empty 2 "y").answer = .exhausted ∧
      (layered.solve .empty 4 "y").answer = .value (.number 12) ∧
      ∀ d, 4 ≤ d → layered.solve .empty d "y" = layered.solve .empty 4 "y" := by
  have h : ReachableBy FirstOrderStep {} 8 layered :=
    .performAll .empty _ (.empty 0) (by decide +kernel)
  have hcount : layered.functionCount = 3 := by decide +kernel
  obtain ⟨hends, _⟩ := solve_terminates_of_first_order h .empty 4 "y"
  exact ⟨hcount, by decide +kernel, by decide +kernel, (hends (by rw [hcount]; decide)).2⟩

/-! ### A host function that calls what it holds -/

/-- A host function that holds a compiled function, and calls it with the number one. -/
structure Recaller where
  held : CompiledFunction
  deriving DecidableEq

/-- A number is handed on, and a callable is not. -/
def Recaller.resume : Except EvalError (Value Recaller) → HostAction Recaller
  | .ok (.callable _) => .done (.ok .unknown)
  | result => .done result

instance : HostLibrary Recaller :=
  ⟨fun code _ => .call (.compiled code.held) [.number 1] Recaller.resume⟩

/-- The host function does the same with all arguments, so it calls none of them, and if it comes to
an end without an error, it yields a number, whatever comes of its call. -/
def Recaller.Heedless (code : Recaller) : Prop :=
  ∃ (c : Callable Recaller) (as : List (Value Recaller))
    (k : Except EvalError (Value Recaller) → HostAction Recaller),
    (∀ args, HostLibrary.act code args = .call c as k) ∧
      ∀ result, ∃ r, k result = .done r ∧ ∀ v, r = .ok v → ∃ x, v = .number x

theorem Recaller.heedless (code : Recaller) : code.Heedless := by
  refine ⟨_, _, _, fun _ => rfl, ?_⟩
  intro result
  match result with
  | .ok (.number x) => exact ⟨_, rfl, fun v hv => ⟨x, (Except.ok.inj hv).symm⟩⟩
  | .ok (.callable c) => exact ⟨_, rfl, fun v hv => ⟨notANumber, (Except.ok.inj hv).symm⟩⟩
  | .error e => exact ⟨_, rfl, fun v hv => by cases hv⟩

instance : DecidablePred Recaller.Heedless := fun code => isTrue code.heedless

/-- As a step of a first-order program, but a host function may call what it holds. -/
def HeedlessStep (r : Request Recaller) (s : Solver Recaller) : Prop :=
  r.Assigns (Value.Drawn Recaller.Heedless fun _ => False) ∧ s.CallsNoParams ∧ s.NoSelfReaders

instance (r : Request Recaller) (s : Solver Recaller) : Decidable (HeedlessStep r s) :=
  inferInstanceAs (Decidable (_ ∧ _ ∧ _))

/-- A function `f` that calls `g`. -/
def calling (serial : Nat) : CompiledFunction := ⟨"f", ["x"], .call "g" [.name "x"], 0, serial⟩

/-- The function is solved and then called by the host function that is assigned to `g`. -/
def goingRound : Solver Recaller :=
  performAll .empty 8 (.empty {} 0)
    [.define "f(x) = g(x)", .assign "g" (.number 0), .solve "f",
      .assign "g" (.callable (.host ⟨"g", none, ⟨calling 0⟩, 0⟩)), .solve "f", .define "y = f(1)"]

/-- Calls of the two go on for ever: each round needs two levels, and no depth is enough. -/
theorem invoke_calling {tables : Tables Recaller} {t : Table Recaller} (ht : tables 0 = some t)
    (hg : t.value? "g" = some (.callable (.host ⟨"g", none, ⟨calling 0⟩, 0⟩))) (serial : Nat)
    (v : Value Recaller) : ∀ depth,
      Callable.invoke tables depth (.compiled (calling serial)) [v] = .exhausted
  | 0 => Callable.invoke_compiled rfl ht
  | depth + 1 => by
    have hcallee : Scope.lookup ⟨[("x", v)], t⟩ "g" =
        .value (.callable (.host ⟨"g", none, ⟨calling 0⟩, 0⟩)) := Scope.lookup_of_table rfl hg
    have hargs : Expr.evalAllWith (Callable.invoke tables depth) ⟨[("x", v)], t⟩ [.name "x"] =
        .value [v] := rfl
    have hbody : Callable.invoke tables (depth + 1) (.compiled (calling serial)) [v] =
        Callable.invoke tables depth (.host ⟨"g", none, ⟨calling 0⟩, 0⟩) [v] := by
      rw [Callable.invoke_compiled rfl ht]
      show Expr.evalWith _ ⟨[("x", v)], t⟩ (.call "g" [.name "x"]) = _
      rw [Expr.evalWith, hcallee, Outcome.value_bind]
      dsimp only
      rw [hargs, Outcome.value_bind]
    rw [hbody, Callable.invoke_host rfl]
    cases depth with
    | zero => rfl
    | succ depth =>
      -- what comes of the call is the next round
      show (HostAction.call _ _ _).run _ = _
      rw [HostAction.run, invoke_calling ht hg 0 (.number 1) depth]

/-- **It is not enough that host functions call none of their arguments.** One that holds a function
of the solver and calls it leads round in a circle that no dependency shows, and the solve never
ends. -/
theorem goes_round_behind_recaller :
    ReachableBy HeedlessStep {} 8 goingRound ∧
      ∀ d, (goingRound.solve .empty d "y").answer = .exhausted := by
  have h : ReachableBy HeedlessStep {} 8 goingRound :=
    .performAll .empty _ (.empty 0) (by decide +kernel)
  refine ⟨h, ?_⟩
  intro d
  have hid : goingRound.table.id = 0 := by decide +kernel
  have hvalues : goingRound.table.value? "f" = some (.callable (.compiled (calling 1))) ∧
      goingRound.table.value? "g" =
        some (.callable (.host ⟨"g", none, ⟨calling 0⟩, 0⟩)) := by decide +kernel
  have hformula : goingRound.formulas["y"]? =
      some ⟨"y = f(1)", "y", none, ["f"], .call "f" [.number 1]⟩ := by decide +kernel
  obtain ⟨finished, hpass⟩ := pass_of_current_deps h.marks .empty d hformula rfl
    (by decide +kernel)
  have hput : Tables.empty.put goingRound.table 0 = some goingRound.table := if_pos hid.symm
  have hround := invoke_calling hput hvalues.2 1 (.number 1) d
  have hcallee : Scope.lookup ⟨[], goingRound.table⟩ "f" =
      .value (.callable (.compiled (calling 1))) := Scope.lookup_of_table rfl hvalues.1
  have heval : (Expr.call "f" [.number 1]).eval (Tables.empty.put goingRound.table) d
      ⟨[], goingRound.table⟩ = .exhausted := by
    rw [Expr.eval, Expr.evalWith, hcallee]
    exact hround
  have hstale : goingRound.stale.contains "y" = true := by decide +kernel
  rw [solve_of_stale .empty d (by decide +kernel) hstale, hpass, Pass.finishFormula, if_pos hstale,
    Formula.assignIn_of_scalar rfl, heval]
  rfl

end Solver

end Recalc

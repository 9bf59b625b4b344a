import Recalc.Equality
import Recalc.Proofs.Coherence

/-!
# Two passes in step

Two solvers that have the same formulas where it matters can be very different otherwise: one may
have nothing computed where the other has nothing left to compute, and what is a function in one
was compiled on another table, under another serial number, than its counterpart. A pass over one
and a pass over the other still go through the same symbols in the same order, and they end alike.

What is kept in step is not what the passes do to a symbol, since one may recompute it where the
other goes past it. It is what holds once both have finished it:

* both have finished the same symbols;
* the values of a finished symbol correspond, where two functions are **twins** if they are what
  one and the same finished symbol holds here and there.

Since the tables are coherent, a symbol that is gone past holds what a recomputation would give.
-/

namespace Recalc

/-- Two formulas have the same parameters, the same dependencies and the same body. -/
def Formula.Alike (f g : Formula) : Prop :=
  f.params? = g.params? ∧ f.dependsOn = g.dependsOn ∧ f.body = g.body

instance (f g : Formula) : Decidable (f.Alike g) := inferInstanceAs (Decidable (_ ∧ _ ∧ _))

theorem Formula.Alike.isFunction_eq {f g : Formula} (h : f.Alike g) :
    g.isFunction = f.isFunction := by
  rw [isFunction, isFunction, h.1]

theorem Formula.Alike.isSelfCalling_eq {f g : Formula} (h : f.Alike g)
    (ht : f.target = g.target) : g.isSelfCalling = f.isSelfCalling := by
  rw [isSelfCalling, isSelfCalling, h.isFunction_eq, h.2.2, ht]

/-- Two compiled functions have the same name, the same parameters and the same body. -/
def CompiledFunction.Alike (f g : CompiledFunction) : Prop :=
  f.name = g.name ∧ f.params = g.params ∧ f.body = g.body

/-- Equal numbers, the same function of the host, or functions compiled from the same definition. -/
abbrev Value.Alike {H : Type} : Value H → Value H → Prop := Value.Related CompiledFunction.Alike

namespace Pass

variable {H : Type}

/--
The formulas are the same on the names in `C`, and what these depend on is in `C` too. A symbol
that reads itself has the same origin.
-/
structure Matched (C : String → Prop) (o o' : String → Value H) (fs gs : Formulas) : Prop where
  leaf : ∀ (x : String), C x → fs[x]? = none → gs[x]? = none
  formula : ∀ (x : String) (f : Formula), C x → fs[x]? = some f →
    ∃ g : Formula, gs[x]? = some g ∧ f.Alike g
  closed : ∀ x y, C x → fs.Edge x y → C y
  origin : ∀ (x : String) (f : Formula), C x → fs[x]? = some f → f.isFunction = false →
    f.body.references x = true → o x = o' x

/-- `f` and `g` are the functions that a finished symbol holds in the one table and the other. -/
def Twin (fs : Formulas) (finished : NameSet) (t t' : Table H) (f g : CompiledFunction) : Prop :=
  ∃ (x : String) (a : Formula), x ∈ finished ∧ fs[x]? = some a ∧ a.isFunction = true ∧
    t.value? x = some (.callable (.compiled f)) ∧ t'.value? x = some (.callable (.compiled g))

/-- Twins with the symbol that holds them and its formulas. -/
structure Twinned (fs gs : Formulas) (p q : Pass H) (x : String) (a b : Formula)
    (f g : CompiledFunction) : Prop where
  finished : x ∈ p.finished
  left : fs[x]? = some a
  right : gs[x]? = some b
  alike : a.Alike b
  leftFunction : a.isFunction = true
  rightFunction : b.isFunction = true
  leftValue : p.table.value? x = some (.callable (.compiled f))
  rightValue : q.table.value? x = some (.callable (.compiled g))
  leftCompiled : ∃ m, f = a.compile p.table.id m
  rightCompiled : ∃ n, g = b.compile q.table.id n
  target : a.target = x ∧ b.target = x

theorem Twinned.alike_compiled {fs gs : Formulas} {p q : Pass H} {x : String} {a b : Formula}
    {f g : CompiledFunction} (h : Twinned fs gs p q x a b f g) : f.Alike g := by
  obtain ⟨m, rfl⟩ := h.leftCompiled
  obtain ⟨n, rfl⟩ := h.rightCompiled
  refine ⟨h.target.1.trans h.target.2.symm, ?_, h.alike.2.2⟩
  simp only [Formula.compile, Formula.params, h.alike.1]

variable [HostLibrary H]

/-- A pass over `fs` and a pass over `gs` have finished the same symbols, and these correspond. -/
structure InStep (depth : Nat) (C : String → Prop) (o o' : String → Value H) (fs gs : Formulas)
    (p q : Pass H) : Prop where
  left : Sound depth o fs p
  right : Sound depth o' gs q
  finished : q.finished = p.finished
  inside : ∀ x ∈ p.finished, C x
  closed : ∀ x ∈ p.finished, ∀ y, fs.Edge x y → y ∈ p.finished
  leaf : ∀ x, C x → fs[x]? = none → p.table.value? x = q.table.value? x
  value : ∀ x ∈ p.finished, Option.Rel (Value.Related (Twin fs p.finished p.table q.table))
    (p.table.value? x) (q.table.value? x)

variable {depth : Nat} {C : String → Prop} {o o' : String → Value H} {fs gs : Formulas}
  {tables tables' : Tables H}

/-! ## Twins -/

theorem InStep.not_stale {p q : Pass H} (h : InStep depth C o o' fs gs p q) {x : String}
    (hx : x ∈ p.finished) : x ∉ p.stale ∧ x ∉ q.stale :=
  ⟨h.left.current x hx, h.right.current x (h.finished ▸ hx)⟩

/-- **Twins are one formula, compiled here and there.** -/
theorem InStep.twinned {p q : Pass H} (h : InStep depth C o o' fs gs p q)
    (hm : Matched C o o' fs gs) {f g : CompiledFunction}
    (hfg : Twin fs p.finished p.table q.table f g) : ∃ x a b, Twinned fs gs p q x a b f g := by
  obtain ⟨x, a, hx, ha, hfun, hf, hg⟩ := hfg
  obtain ⟨hxp, hxq⟩ := h.not_stale hx
  obtain ⟨b, hb, hab⟩ := hm.formula x a (h.inside x hx) ha
  have hta := (h.left.coherent.tracked x a ha).1
  have htb := (h.right.coherent.tracked x b hb).1
  have hbfun : b.isFunction = true := hab.isFunction_eq.trans hfun
  obtain ⟨m, _, hm⟩ := (h.left.coherent.settled x a ha hxp).function hfun
  obtain ⟨n, _, hn⟩ := (h.right.coherent.settled x b hb hxq).function hbfun
  rw [hta, hf] at hm
  rw [htb, hg] at hn
  cases hm
  cases hn
  exact ⟨x, a, b, hx, ha, hb, hab, hfun, hbfun, hf, hg, ⟨m, rfl⟩, ⟨n, rfl⟩, hta, htb⟩

/-- Which functions are the same is told by the symbols that hold them, here as there. -/
theorem InStep.matching {p q : Pass H} (h : InStep depth C o o' fs gs p q)
    (hm : Matched C o o' fs gs) :
    CompiledFunction.Matching (Twin fs p.finished p.table q.table) where
  name hfg := by
    obtain ⟨_, _, _, ht⟩ := h.twinned hm hfg
    exact ht.alike_compiled.1
  params hfg := by
    obtain ⟨_, _, _, ht⟩ := h.twinned hm hfg
    exact ht.alike_compiled.2.1
  body hfg := by
    obtain ⟨_, _, _, ht⟩ := h.twinned hm hfg
    exact ht.alike_compiled.2.2
  same {f g f' g'} hfg hfg' := by
    obtain ⟨x, a, b, ht⟩ := h.twinned hm hfg
    obtain ⟨x', a', b', ht'⟩ := h.twinned hm hfg'
    obtain ⟨hxp, hxq⟩ := h.not_stale ht.finished
    obtain ⟨hxp', hxq'⟩ := h.not_stale ht'.finished
    obtain ⟨m, hf⟩ := ht.leftCompiled
    obtain ⟨m', hf'⟩ := ht'.leftCompiled
    obtain ⟨n, hg⟩ := ht.rightCompiled
    obtain ⟨n', hg'⟩ := ht'.rightCompiled
    have htable : f.table = f'.table ∧ g.table = g'.table := by
      rw [hf, hf', hg, hg']
      exact ⟨rfl, rfl⟩
    have hsymbol : x = x' → f = f' ∧ g = g' := by
      rintro rfl
      have hleft := ht.leftValue.symm.trans ht'.leftValue
      have hright := ht.rightValue.symm.trans ht'.rightValue
      cases hleft
      cases hright
      exact ⟨rfl, rfl⟩
    constructor
    · rintro ⟨_, hserial⟩
      have hx := h.left.coherent.distinct x x' a a' f f' ht.left ht'.left ht.leftFunction
        ht'.leftFunction hxp hxp' ht.leftValue ht'.leftValue hserial
      exact ⟨htable.2, congrArg _ (hsymbol hx).2⟩
    · rintro ⟨_, hserial⟩
      have hx := h.right.coherent.distinct x x' b b' g g' ht.right ht'.right ht.rightFunction
        ht'.rightFunction hxq hxq' ht.rightValue ht'.rightValue hserial
      exact ⟨htable.1, congrArg _ (hsymbol hx).1⟩

/-- Twins read twins, and plain values that are the same. -/
theorem InStep.relatedUnder {p q : Pass H} (h : InStep depth C o o' fs gs p q)
    (hm : Matched C o o' fs gs) (tables tables' : Tables H) :
    Tables.RelatedUnder (Twin fs p.finished p.table q.table) (tables.put p.table)
      (tables'.put q.table) := by
  intro f g hfg
  obtain ⟨x, a, b, ht⟩ := h.twinned hm hfg
  obtain ⟨m, rfl⟩ := ht.leftCompiled
  obtain ⟨n, rfl⟩ := ht.rightCompiled
  refine ⟨p.table, q.table, if_pos rfl, if_pos rfl, ?_⟩
  intro y hread hyp
  have hy : a.body.references y = true := hread
  refine h.value y ?_
  rcases (h.left.coherent.tracked x a ht.left).2 y hy with rfl | hyp' | hyd
  · -- the function would call itself, but the symbol is current
    have hcalm := (h.left.coherent.marks.grounded y (h.not_stale ht.finished).1).calm ht.left
    rw [Formula.isSelfCalling, ht.leftFunction, ht.target.1, hy] at hcalm
    cases hcalm
  · exact absurd hyp' hyp
  · exact h.closed x ht.finished y (Formulas.edge_of_some ht.left hyd)

/-! ## Finishing a symbol in both passes -/

/-- Only the value of a stale symbol that has a formula can change when it is finished. -/
theorem Finishes.value?_eq (hH : HostLibrary.Uniform H) {p q : Pass H} {x : String}
    (h : Sound depth o fs p) (hq : Finishes tables depth fs p x q) {y : String}
    (hy : y = x → fs[y]? = none ∨ y ∉ p.stale) : q.table.value? y = p.table.value? y := by
  have hreach : ∀ z, fs.Reaches x z → z ∉ p.stale := by
    intro z hz
    exact h.marked.not_stale_of_reaches (fun d hd => hq.deps_finished hd) hz
  cases hq with
  | leaf => rfl
  | current => rfl
  | @recomputed f table hf _ _ hx ha =>
    refine (h.coherent.recomputes hH hf hx hreach ha).frame y ?_
    rw [(h.coherent.tracked x f hf).1]
    rintro rfl
    rcases hy rfl with hy | hy
    · rw [hf] at hy
      cases hy
    · exact hy hx

/-- Twins stay twins while other symbols are finished. -/
theorem InStep.twin_mono (hH : HostLibrary.Uniform H) {p q p' q' : Pass H} {x : String}
    (h : InStep depth C o o' fs gs p q) (hp : Finishes tables depth fs p x p')
    (hq : Finishes tables' depth gs q x q') (f g : CompiledFunction)
    (hfg : Twin fs p.finished p.table q.table f g) :
    Twin fs p'.finished p'.table q'.table f g := by
  obtain ⟨z, a, hz, ha, hfun, hf, hg⟩ := hfg
  obtain ⟨hzp, hzq⟩ := h.not_stale hz
  refine ⟨z, a, ?_, ha, hfun, ?_, ?_⟩
  · rw [hp.finished_eq]
    exact NameSet.mem_insert_iff.2 (.inr hz)
  · rw [hp.value?_eq hH h.left fun _ => .inr hzp]
    exact hf
  · rw [hq.value?_eq hH h.right fun _ => .inr hzq]
    exact hg

/-- **Passes stay in step when both finish a symbol** that then has corresponding values. -/
theorem InStep.finishes (hH : HostLibrary.Uniform H) (hm : Matched C o o' fs gs)
    {p q p' q' : Pass H} {x : String} (h : InStep depth C o o' fs gs p q) (hx : C x)
    (hp : Finishes tables depth fs p x p') (hq : Finishes tables' depth gs q x q')
    (hvalue : Option.Rel (Value.Related (Twin fs p'.finished p'.table q'.table))
      (p'.table.value? x) (q'.table.value? x)) : InStep depth C o o' fs gs p' q' where
  left := h.left.finishes hH hp
  right := h.right.finishes hH hq
  finished := by rw [hp.finished_eq, hq.finished_eq, h.finished]
  inside y hy := by
    rw [hp.finished_eq] at hy
    rcases NameSet.mem_insert_iff.1 hy with rfl | hy
    · exact hx
    · exact h.inside y hy
  closed y hy z hz := by
    rw [hp.finished_eq] at hy ⊢
    refine NameSet.mem_insert_iff.2 (.inr ?_)
    rcases NameSet.mem_insert_iff.1 hy with rfl | hy
    · exact hp.deps_finished hz
    · exact h.closed y hy z hz
  leaf y hy hf := by
    rw [hp.value?_eq hH h.left fun _ => .inl hf,
      hq.value?_eq hH h.right fun _ => .inl (hm.leaf y hy hf)]
    exact h.leaf y hy hf
  value y hy := by
    rw [hp.finished_eq] at hy
    rcases NameSet.mem_insert_iff.1 hy with rfl | hy
    · exact hvalue
    · obtain ⟨hyp, hyq⟩ := h.not_stale hy
      rw [hp.value?_eq hH h.left fun _ => .inr hyp, hq.value?_eq hH h.right fun _ => .inr hyq]
      exact rel_mono (fun _ _ hvw => hvw.mono (h.twin_mono hH hp hq)) (h.value y hy)

/-- A formula for a function is always finished. -/
theorem finishFormula_function (tables : Tables H) (depth : Nat) {p : Pass H} {x : String}
    {f : Formula} (hf : fs[x]? = some f) (hcalm : f.isSelfCalling = false)
    (hfun : f.isFunction = true) (hdeps : ∀ d ∈ f.dependsOn, d ∈ p.finished) :
    ∃ p', p.finishFormula tables depth x f = (p', .value ()) ∧
      Finishes tables depth fs p x p' := by
  by_cases hx : x ∈ p.stale
  · rw [finishFormula, if_pos (Std.ExtTreeSet.mem_iff_contains.1 hx)]
    cases ha : f.assignIn tables depth p.table with
    | value t => exact ⟨_, rfl, .recomputed hf hcalm hdeps hx ha⟩
    | error e => rw [Formula.assignIn, hfun] at ha; cases ha
    | exhausted => rw [Formula.assignIn, hfun] at ha; cases ha
  · refine ⟨{ p with finished := p.finished.insert x }, ?_, .current hf hcalm hdeps hx⟩
    rw [finishFormula, if_neg (by rwa [← Std.ExtTreeSet.mem_iff_contains])]

/-- A formula for a value is finished with what its body yields, whether it is stale or not. -/
theorem finishFormula_scalar (hH : HostLibrary.Uniform H) (tables : Tables H) {p : Pass H}
    (h : Sound depth o fs p) {x : String} {f : Formula} (hf : fs[x]? = some f)
    (hcalm : f.isSelfCalling = false) (hfun : f.isFunction = false)
    (hdeps : ∀ d ∈ f.dependsOn, d ∈ p.finished) :
    match f.body.evalFrom tables depth x (o x) p.table with
    | .value v => ∃ p', p.finishFormula tables depth x f = (p', .value ()) ∧
        Finishes tables depth fs p x p' ∧ p'.table.value? x = some v
    | .error e => p.finishFormula tables depth x f = (p, .error (.formula e))
    | .exhausted => p.finishFormula tables depth x f = (p, .exhausted) := by
  have hedge : ∀ y, fs.Edge x y → y ∈ p.finished := by
    intro y hy
    obtain ⟨g, hg, hyg⟩ := Formulas.edge_iff.1 hy
    rw [hf] at hg
    obtain rfl := Option.some.inj hg
    exact hdeps y hyg
  have hreach : ∀ y, fs.Reaches x y → y ∉ p.stale := by
    intro y hy
    exact h.marked.not_stale_of_reaches hedge hy
  by_cases hx : x ∈ p.stale
  · -- a stale symbol is recomputed, and its body is run as it is here
    have ha := h.coherent.assignIn_eq hH hf hfun hx hreach tables
    rw [finishFormula, if_pos (Std.ExtTreeSet.mem_iff_contains.1 hx)]
    cases hv : f.body.evalFrom tables depth x (o x) p.table with
    | value v =>
      rw [hv] at ha
      have ha : f.assignIn tables depth p.table = .value (p.table.set x v) := ha
      have hself : (p.table.set x v).value? x = some v := by
        rw [Table.value?_set, if_pos rfl]
      simp only [ha]
      exact ⟨_, rfl, .recomputed hf hcalm hdeps hx ha, hself⟩
    | error e =>
      rw [hv] at ha
      have ha : f.assignIn tables depth p.table = .error e := ha
      simp only [ha]
    | exhausted =>
      rw [hv] at ha
      have ha : f.assignIn tables depth p.table = .exhausted := ha
      simp only [ha]
  · -- a current symbol is gone past, and it holds what its body would yield
    obtain ⟨rfl, _⟩ := h.coherent.tracked x f hf
    obtain ⟨v, hvalue, heval⟩ := (h.coherent.settled _ f hf hx).scalar hfun
    rw [heval tables]
    refine ⟨{ p with finished := p.finished.insert f.target }, ?_, .current hf hcalm hdeps hx,
      hvalue⟩
    rw [finishFormula, if_neg (by rwa [← Std.ExtTreeSet.mem_iff_contains])]

/-- What a symbol with a formula for a function holds once it is finished. -/
theorem Sound.value?_of_function {p : Pass H} (h : Sound depth o fs p) {x : String} {f : Formula}
    (hf : fs[x]? = some f) (hfun : f.isFunction = true) (hx : x ∈ p.finished) :
    ∃ serial, p.table.value? x = some (.callable (.compiled (f.compile p.table.id serial))) := by
  obtain ⟨serial, _, hvalue⟩ := (h.coherent.settled x f hf (h.current x hx)).function hfun
  rw [(h.coherent.tracked x f hf).1] at hvalue
  exact ⟨serial, hvalue⟩

/--
**Passes that have finished the dependencies of a formula stay in step when they come to it.**
-/
theorem InStep.finishFormula (hH : HostLibrary.Uniform H) (hm : Matched C o o' fs gs) {p q : Pass H}
    (h : InStep depth C o o' fs gs p q) {x : String} {f g : Formula} (hx : C x)
    (hf : fs[x]? = some f) (hg : gs[x]? = some g) (hfg : f.Alike g)
    (hcalm : f.isSelfCalling = false) (hdeps : ∀ d ∈ f.dependsOn, d ∈ p.finished) :
    (p.finishFormula tables depth x f).2 = (q.finishFormula tables' depth x g).2 ∧
      InStep depth C o o' fs gs (p.finishFormula tables depth x f).1
        (q.finishFormula tables' depth x g).1 := by
  have hdependsOn := hfg.2.1
  have hbody := hfg.2.2
  have htarget : f.target = g.target :=
    (h.left.coherent.tracked x f hf).1.trans (h.right.coherent.tracked x g hg).1.symm
  have hgfun := hfg.isFunction_eq
  have hgcalm : g.isSelfCalling = false := (hfg.isSelfCalling_eq htarget).trans hcalm
  have hgdeps : ∀ d ∈ g.dependsOn, d ∈ q.finished := by
    intro d hd
    rw [h.finished]
    exact hdeps d (hdependsOn ▸ hd)
  cases hfun : f.isFunction with
  | true =>
    have hgfun : g.isFunction = true := hgfun.trans hfun
    obtain ⟨p', hp', hpf⟩ := finishFormula_function tables depth hf hcalm hfun hdeps
    obtain ⟨q', hq', hqf⟩ := finishFormula_function tables' depth hg hgcalm hgfun hgdeps
    rw [hp', hq']
    refine ⟨rfl, h.finishes hH hm hx hpf hqf ?_⟩
    -- both hold the function now, which makes what they hold twins
    have hxp : x ∈ p'.finished := hpf.finished_eq ▸ NameSet.mem_insert_iff.2 (.inl rfl)
    have hxq : x ∈ q'.finished := hqf.finished_eq ▸ NameSet.mem_insert_iff.2 (.inl rfl)
    obtain ⟨m, hvp⟩ := (h.left.finishes hH hpf).value?_of_function hf hfun hxp
    obtain ⟨n, hvq⟩ := (h.right.finishes hH hqf).value?_of_function hg hgfun hxq
    rw [hvp, hvq]
    exact .some (.callable (.compiled ⟨x, f, hxp, hf, hfun, hvp, hvq⟩))
  | false =>
    have hself : f.body.references x = true →
        (o x).Related (Twin fs p.finished p.table q.table) (o' x) := by
      intro hself
      rw [← hm.origin x f hx hf hfun hself]
      exact (h.left.coherent.origins x).related _
    have hread : ∀ y, f.body.references y = true → y ≠ x →
        Option.Rel (Value.Related (Twin fs p.finished p.table q.table)) (p.table.value? y)
          (q.table.value? y) := by
      intro y hy hyx
      have hxy := Formula.edge_of_references h.left.coherent.tracked hf hfun hy hyx
      rw [Formulas.Edge, Formulas.directDeps_of_some hf] at hxy
      exact h.value y (hdeps y hxy)
    have hrel := Expr.evalFrom_related hH (h.matching hm) (h.relatedUnder hm tables tables') depth
      hself hread
    have hp := finishFormula_scalar hH tables h.left hf hcalm hfun hdeps
    have hq := finishFormula_scalar hH tables' h.right hg hgcalm (hgfun.trans hfun) hgdeps
    rw [← hbody] at hq
    generalize f.body.evalFrom tables depth x (o x) p.table = r at hrel hp
    generalize f.body.evalFrom tables' depth x (o' x) q.table = r' at hrel hq
    cases hrel with
    | value hvw =>
      obtain ⟨p', hp', hpf, hvp⟩ := hp
      obtain ⟨q', hq', hqf, hvq⟩ := hq
      rw [hp', hq']
      refine ⟨rfl, h.finishes hH hm hx hpf hqf ?_⟩
      rw [hvp, hvq]
      exact .some (hvw.mono (h.twin_mono hH hpf hqf))
    | error e =>
      rw [hp, hq]
      exact ⟨rfl, h⟩
    | exhausted =>
      rw [hp, hq]
      exact ⟨rfl, h⟩

/-! ## Whole passes -/

theorem InStep.finishLeaf (hH : HostLibrary.Uniform H) (hm : Matched C o o' fs gs) {p q : Pass H}
    (h : InStep depth C o o' fs gs p q) {x : String} (hx : C x) (hf : fs[x]? = none) :
    InStep depth C o o' fs gs (p.finishLeaf x) (q.finishLeaf x) := by
  have hp : Finishes Tables.empty depth fs p x (p.finishLeaf x) := .leaf hf
  have hq : Finishes Tables.empty depth gs q x (q.finishLeaf x) := .leaf (hm.leaf x hx hf)
  refine h.finishes hH hm hx hp hq ?_
  show Option.Rel _ (p.table.value? x) (q.table.value? x)
  rw [← h.leaf x hx hf]
  cases hv : p.table.value? x with
  | none => exact .none
  | some v => exact .some ((h.left.coherent.leaf x v hf hv).related _)

theorem refreshEach_inStep {one one' : String → Pass H → Step H}
    (hone : ∀ x p q, C x → InStep depth C o o' fs gs p q →
      (one x p).2 = (one' x q).2 ∧ InStep depth C o o' fs gs (one x p).1 (one' x q).1) :
    ∀ (xs : List String) (p q : Pass H), (∀ x ∈ xs, C x) → InStep depth C o o' fs gs p q →
      (refreshEach one xs p).2 = (refreshEach one' xs q).2 ∧
        InStep depth C o o' fs gs (refreshEach one xs p).1 (refreshEach one' xs q).1 := by
  intro xs
  induction xs with
  | nil => intro p q _ h; exact ⟨rfl, h⟩
  | cons x xs ih =>
    intro p q hxs h
    obtain ⟨hout, hstep⟩ := hone x p q (hxs x List.mem_cons_self) h
    by_cases hv : (one x p).2 = .value ()
    · rw [refreshEach_of_value hv, refreshEach_of_value (hout ▸ hv)]
      exact ih _ _ (fun y hy => hxs y (List.mem_cons_of_mem x hy)) hstep
    · rw [refreshEach_of_stop hv, refreshEach_of_stop (hout ▸ hv)]
      exact ⟨hout, hstep⟩

/--
**Two passes that are in step stay in step and end alike**: both succeed, or both stop on the same
error, which is a circle by the same way.
-/
theorem refresh_inStep (hH : HostLibrary.Uniform H) (hm : Matched C o o' fs gs) (n m : Nat)
    (path : List String) (x : String) (p q : Pass H) (hn : fs.HasRoom n path)
    (hroom : gs.HasRoom m path) (hx : C x) (h : InStep depth C o o' fs gs p q) :
    (refresh tables depth fs n path x p).2 = (refresh tables' depth gs m path x q).2 ∧
      InStep depth C o o' fs gs (refresh tables depth fs n path x p).1
        (refresh tables' depth gs m path x q).1 := by
  by_cases hfin : x ∈ p.finished
  · rw [refresh_of_finished hfin, refresh_of_finished (h.finished ▸ hfin)]
    exact ⟨rfl, h⟩
  have hfin' : x ∉ q.finished := fun hq => hfin (h.finished ▸ hq)
  cases hf : fs[x]? with
  | none =>
    rw [refresh_of_leaf hfin hf, refresh_of_leaf hfin' (hm.leaf x hx hf)]
    exact ⟨rfl, h.finishLeaf hH hm hx hf⟩
  | some f =>
    obtain ⟨g, hg, hfg⟩ := hm.formula x f hx hf
    have htarget : f.target = g.target :=
      (h.left.coherent.tracked x f hf).1.trans (h.right.coherent.tracked x g hg).1.symm
    have hself := hfg.isSelfCalling_eq htarget
    cases hcalm : f.isSelfCalling with
    | true =>
      rw [refresh_of_selfCalling hfin hf hcalm, refresh_of_selfCalling hfin' hg (hself.trans hcalm)]
      exact ⟨rfl, h⟩
    | false =>
      have hcalm' := hself.trans hcalm
      by_cases hpath : x ∈ path
      · rw [refresh_of_mem_path hfin hf hcalm hpath, refresh_of_mem_path hfin' hg hcalm' hpath]
        exact ⟨rfl, h⟩
      · obtain ⟨n', rfl, hn'⟩ := hn.enter hf hpath
        obtain ⟨m', rfl, hm'⟩ := hroom.enter hg hpath
        -- the dependencies come first, in the same order here and there
        have hinside : ∀ d ∈ f.dependsOn, C d := by
          intro d hd
          exact hm.closed x d hx (Formulas.edge_of_some hf hd)
        have hone : ∀ y p q, C y → InStep depth C o o' fs gs p q →
            (refresh tables depth fs n' (path ++ [x]) y p).2 =
              (refresh tables' depth gs m' (path ++ [x]) y q).2 ∧
            InStep depth C o o' fs gs (refresh tables depth fs n' (path ++ [x]) y p).1
              (refresh tables' depth gs m' (path ++ [x]) y q).1 := by
          intro y p q hy h
          exact refresh_inStep hH hm n' m' (path ++ [x]) y p q hn' hm' hy h
        obtain ⟨hout, hstep⟩ := refreshEach_inStep hone f.dependsOn p q hinside h
        have hdependsOn := hfg.2.1
        by_cases hv : (refreshEach (refresh tables depth fs n' (path ++ [x])) f.dependsOn p).2 =
            .value ()
        · have hv' := hout ▸ hv
          rw [hdependsOn] at hv'
          have hfinished := (refreshEach_progress (refresh_progress n' (path ++ [x]))
            f.dependsOn p).2 hv
          rw [refresh_of_deps hfin hf hcalm hpath hv, refresh_of_deps hfin' hg hcalm' hpath hv',
            ← hdependsOn]
          exact hstep.finishFormula hH hm hx hf hg hfg hcalm hfinished
        · have hv' := hout ▸ hv
          rw [hdependsOn] at hv'
          rw [refresh_of_deps_stop hfin hf hcalm hpath hv,
            refresh_of_deps_stop hfin' hg hcalm' hpath hv', ← hdependsOn]
          exact ⟨hout, hstep⟩

/-- Passes over coherent tables begin in step. -/
theorem InStep.start {t t' : Table H} {stale stale' : NameSet} (h : Coherent depth o fs t stale)
    (h' : Coherent depth o' gs t' stale')
    (hleaf : ∀ x, C x → fs[x]? = none → t.value? x = t'.value? x) :
    InStep depth C o o' fs gs (.start t stale) (.start t' stale') where
  left := .start h
  right := .start h'
  finished := rfl
  inside _ hx := absurd hx Std.ExtTreeSet.not_mem_empty
  closed _ hx := absurd hx Std.ExtTreeSet.not_mem_empty
  leaf := hleaf
  value _ hx := absurd hx Std.ExtTreeSet.not_mem_empty

/-- What a symbol holds when both passes have finished it is alike. -/
theorem InStep.value_alike {p q : Pass H} (h : InStep depth C o o' fs gs p q)
    (hm : Matched C o o' fs gs) {x : String} (hx : x ∈ p.finished) :
    Option.Rel Value.Alike (p.table.value? x) (q.table.value? x) := by
  have halike : ∀ f g, Twin fs p.finished p.table q.table f g → f.Alike g := by
    intro f g hfg
    obtain ⟨_, _, _, ht⟩ := h.twinned hm hfg
    exact ht.alike_compiled
  exact rel_mono (fun _ _ hvw => hvw.mono halike) (h.value x hx)

end Pass

/-! ## Solvers -/

namespace Solver

variable {H : Type}

/-- Two solvers have the same formula for a symbol, or none and the same value. -/
def SameAt (s s' : Solver H) (x : String) : Prop :=
  (∃ f g, s.formula? x = some f ∧ s'.formula? x = some g ∧ f.Alike g) ∨
  (s.formula? x = none ∧ s'.formula? x = none ∧ s.table.value? x = s'.table.value? x)

instance [DecidableEq H] (s s' : Solver H) (x : String) : Decidable (s.SameAt s' x) :=
  match hs : s.formula? x, hs' : s'.formula? x with
  | some f, some g => decidable_of_iff (f.Alike g) (by simp [SameAt, hs, hs'])
  | none, none =>
    decidable_of_iff (s.table.value? x = s'.table.value? x) (by simp [SameAt, hs, hs'])
  | some _, none => isFalse (by simp [SameAt, hs, hs'])
  | none, some _ => isFalse (by simp [SameAt, hs, hs'])

/-- No formula for a value refers to its own target. -/
def NoSelfReaders (s : Solver H) : Prop :=
  ∀ (x : String) (f : Formula), s.formulas[x]? = some f → f.isFunction = false →
    f.body.references x = false

instance (s : Solver H) : Decidable s.NoSelfReaders :=
  decidable_of_iff (∀ p ∈ s.formulas.toList, p.2.isFunction = false →
    p.2.body.references p.1 = false) <| by
    rw [NoSelfReaders]
    constructor
    · exact fun h x f hf => h (x, f) (Std.ExtTreeMap.mem_toList_iff_getElem?_eq_some.2 hf)
    · exact fun h p hp => h p.1 p.2 (Std.ExtTreeMap.mem_toList_iff_getElem?_eq_some.1 hp)

theorem NoSelfReaders.selfReadersPlain {s : Solver H} (h : s.NoSelfReaders) :
    s.SelfReadersPlain := by
  intro x f v hf hfun hself
  rw [h x f hf hfun] at hself
  cases hself

variable [HostLibrary H]

theorem ReachableBy.noSelfReaders {ok : Request H → Solver H → Prop}
    (hok : ∀ r s, ok r s → s.NoSelfReaders) {settings : Settings} {depth : Nat} {s : Solver H}
    (h : ReachableBy ok settings depth s) : s.NoSelfReaders := by
  refine h.formulas (P := fun fs => ∀ (x : String) (f : Formula), fs[x]? = some f →
    f.isFunction = false → f.body.references x = false) ?_ hok
  intro x f hf
  cases Std.ExtTreeMap.getElem?_empty.symm.trans hf

/-- Passes over two solvers that are the same on `C` end alike, and in step. -/
theorem pass_inStep (hH : HostLibrary.Uniform H) {depth : Nat} {C : String → Prop}
    {o o' : String → Value H} {s s' : Solver H}
    (hs : Coherent depth o s.formulas s.table s.stale)
    (hs' : Coherent depth o' s'.formulas s'.table s'.stale)
    (hm : Pass.Matched C o o' s.formulas s'.formulas)
    (hleaf : ∀ x, C x → s.formulas[x]? = none → s.table.value? x = s'.table.value? x)
    (tables tables' : Tables H) {x : String} (hx : C x) :
    (s.pass tables depth x).2 = (s'.pass tables' depth x).2 ∧
      Pass.InStep depth C o o' s.formulas s'.formulas (s.pass tables depth x).1
        (s'.pass tables' depth x).1 :=
  Pass.refresh_inStep hH hm _ _ [] x _ _ (.start _) (.start _) hx (.start hs hs' hleaf)

/-- And so do the answers of a solve. -/
theorem answer_alike (hH : HostLibrary.Uniform H) {depth : Nat} {C : String → Prop}
    {o o' : String → Value H} {s s' : Solver H}
    (hs : Coherent depth o s.formulas s.table s.stale)
    (hs' : Coherent depth o' s'.formulas s'.table s'.stale)
    (hm : Pass.Matched C o o' s.formulas s'.formulas)
    (hleaf : ∀ x, C x → s.formulas[x]? = none → s.table.value? x = s'.table.value? x)
    (tables tables' : Tables H) {x : String} (hx : C x) (hknown : s.contains x = true)
    (hknown' : s'.contains x = true) :
    Outcome.Related Value.Alike (s.solve tables depth x).answer
      (s'.solve tables' depth x).answer := by
  obtain ⟨hout, hstep⟩ := pass_inStep hH hs hs' hm hleaf tables tables' hx
  rw [solve_eq_pass hs.marks tables depth hknown, solve_eq_pass hs'.marks tables' depth hknown']
  show Outcome.Related _ ((s.pass tables depth x).2 >>= _) ((s'.pass tables' depth x).2 >>= _)
  rw [← hout]
  cases hv : (s.pass tables depth x).2 with
  | error e => exact .error e
  | exhausted => exact .exhausted
  | value u =>
    have hfinished := (Pass.refresh_progress _ _ _ _).2 hv
    have hvalue := hstep.value_alike hm hfinished
    show Outcome.Related _ ((s.afterPass _).read x) ((s'.afterPass _).read x)
    rw [read, read, afterPass_table, afterPass_table]
    generalize (s.pass tables depth x).1.table.value? x = v at hvalue
    generalize (s'.pass tables' depth x).1.table.value? x = w at hvalue
    cases hvalue with
    | none => exact .error _
    | some hvw => exact .value hvw

/--
**What a solve answers depends on nothing but the symbol and its dependencies.**

Let two solvers have come about in any way, by definitions, assignments of plain values and solves,
with any settings and over any other tables, where no formula for a value refers to its own target.
If a symbol that both know and all that it depends on have the same formulas in both, or no formula
and the same value, then both answer alike when the symbol is solved: by the same number, by
functions of the same definition, or by the same error.
-/
theorem answer_eq_of_same_cone (hH : HostLibrary.Uniform H) {settings settings' : Settings}
    {depth : Nat} {s s' : Solver H}
    (hs : ReachableBy (fun r s => r.AssignsPlain ∧ s.NoSelfReaders) settings depth s)
    (hs' : ReachableBy (fun r s => r.AssignsPlain ∧ s.NoSelfReaders) settings' depth s')
    {x : String} (hx : s.contains x = true) (hx' : s'.contains x = true)
    (hsame : ∀ y, y = x ∨ y ∈ s.dependencies x → s.SameAt s' y) (tables tables' : Tables H) :
    Outcome.Related Value.Alike (s.solve tables depth x).answer
      (s'.solve tables' depth x).answer := by
  obtain ⟨o, hc⟩ := hs.coherent hH fun r s h => ⟨h.1, h.2.selfReadersPlain⟩
  obtain ⟨o', hc'⟩ := hs'.coherent hH fun r s h => ⟨h.1, h.2.selfReadersPlain⟩
  have hself : s.NoSelfReaders := hs.noSelfReaders fun _ _ h => h.2
  have hclosed : ∀ y z, (y = x ∨ y ∈ s.dependencies x) → s.formulas.Edge y z →
      z = x ∨ z ∈ s.dependencies x := by
    intro y z hy hyz
    by_cases hzx : z = x
    · exact .inl hzx
    · refine .inr (Formulas.mem_dependencies_iff.2 ⟨hzx, ?_⟩)
      rcases hy with rfl | hy
      · exact .single hyz
      · exact (Formulas.mem_dependencies_iff.1 hy).2.tail hyz
  have hm : Pass.Matched (fun y => y = x ∨ y ∈ s.dependencies x) o o' s.formulas s'.formulas := by
    refine ⟨?leaf, ?formula, hclosed, ?origin⟩
    case leaf =>
      intro y hy hf
      rcases hsame y hy with ⟨f, _, hf', _⟩ | ⟨_, hg, _⟩
      · cases hf.symm.trans hf'
      · exact hg
    case formula =>
      intro y f hy hf
      rcases hsame y hy with ⟨f', g, hf', hg, hfg⟩ | ⟨hf', _⟩
      · cases hf.symm.trans hf'
        exact ⟨g, hg, hfg⟩
      · cases hf.symm.trans hf'
    case origin =>
      intro y f _ hf hfun href
      rw [hself y f hf hfun] at href
      cases href
  have hleaf : ∀ y, (y = x ∨ y ∈ s.dependencies x) → s.formulas[y]? = none →
      s.table.value? y = s'.table.value? y := by
    intro y hy hf
    rcases hsame y hy with ⟨f, _, hf', _⟩ | ⟨_, _, hvalue⟩
    · cases hf.symm.trans hf'
    · exact hvalue
  exact answer_alike hH hc hc' hm hleaf tables tables' (.inl rfl) hx hx'

/-- The host function that calls its first argument. -/
def applyHost : Value StandardHost := .callable (.host ⟨"apply", none, .apply "apply", 0⟩)

/-- A solver with a past: formulas replaced, a value replaced, a solve that failed. -/
def usedSolver : Solver StandardHost :=
  performAll .empty 8 (.empty {} 0)
    [.assign "rate" (.number 2), .assign "apply" applyHost, .define "f(x) = x * rate",
      .define "total = apply(f, 5) + 1", .solve "total", .define "f(x) = x + rate",
      .define "broken = rate(total)", .solve "broken", .assign "rate" (.number 7)]

/-- A solver that was just given what `total` depends on. -/
def freshSolver : Solver StandardHost :=
  performAll .empty 8 (.empty { circles := .atSolve } 1)
    [.define "total = apply(f, 5) + 1", .define "f(x) = x + rate", .assign "rate" (.number 7),
      .assign "apply" applyHost]

theorem answer_eq_of_same_cone_used :
    Outcome.Related Value.Alike (usedSolver.solve .empty 8 "total").answer
      (freshSolver.solve .empty 8 "total").answer ∧
    (freshSolver.solve .empty 8 "total").answer = .value (.number 13) := by
  have hused : ReachableBy (fun r s => r.AssignsPlain ∧ s.NoSelfReaders) {} 8 usedSolver :=
    .performAll .empty _ (.empty 0) (by decide +kernel)
  have hfresh : ReachableBy (fun r s => r.AssignsPlain ∧ s.NoSelfReaders) { circles := .atSolve } 8
      freshSolver := .performAll .empty _ (.empty 1) (by decide +kernel)
  have hsame : ∀ y ∈ "total" :: (usedSolver.dependencies "total").toList,
      usedSolver.SameAt freshSolver y := by decide +kernel
  refine ⟨answer_eq_of_same_cone StandardHost.uniform hused hfresh (by decide +kernel)
    (by decide +kernel) (fun y hy => hsame y ?_) .empty .empty, by decide +kernel⟩
  rw [List.mem_cons, Std.ExtTreeSet.mem_toList]
  exact hy

end Solver

end Recalc

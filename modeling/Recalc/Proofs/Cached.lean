import Recalc.Equality
import Recalc.Host
import Recalc.Proofs.Known

/-!
# What a cached value is worth

A current symbol is not recomputed, so its value is the one that its body yielded the last time.
Does the body yield it now?

* **The value was yielded over a table that differed only outside of what the symbol reaches.**
  This holds whatever values are assigned. It is the invariant here: the symbols that the body
  names have not changed since.
* **If the functions among those symbols read nothing else either, the body yields the value
  now**, over the table as it is and whatever other tables there are.
* They do read nothing else where only numbers and host functions are assigned and no symbol keeps
  a function by referring to itself.

A function that was assigned reads what its own formula names, and nothing marks the symbols that
call it when that changes. `cachedCall` is a solver in which the value of a current symbol is
outdated for this reason.
-/

namespace Recalc

variable {H : Type} [HostLibrary H] {depth : Nat}

/-- The body of `f` yielded `v` over a table that differs from `t` only outside of what `x`
reaches. -/
def Formula.YieldedLike (depth : Nat) (fs : Formulas) (x : String) (f : Formula) (v : Value H)
    (t : Table H) : Prop :=
  ∃ (tables : Tables H) (t₀ : Table H), t₀.id = t.id ∧
    (∀ y, fs.Reaches x y → t₀.value? y = t.value? y) ∧
    f.body.eval (tables.put t₀) depth ⟨[], t₀⟩ = .value v

/-- Changes outside of what `x` reaches make no difference. -/
theorem Formula.YieldedLike.frame {fs gs : Formulas} {x : String} {f : Formula} {v : Value H}
    {t t' : Table H} (h : f.YieldedLike depth fs x v t)
    (hreach : ∀ y, gs.Reaches x y → fs.Reaches x y) (hid : t'.id = t.id)
    (hcell : ∀ y, fs.Reaches x y → t'.value? y = t.value? y) : f.YieldedLike depth gs x v t' := by
  obtain ⟨tables, t₀, hid₀, hcell₀, heval⟩ := h
  refine ⟨tables, t₀, hid₀.trans hid.symm, ?_, heval⟩
  intro y hy
  rw [hcell₀ y (hreach y hy), hcell y (hreach y hy)]

/-- Every current symbol with a formula for a value holds what the body yielded over a table that
differs only outside of what the symbol reaches. -/
def Formulas.Cached (depth : Nat) (fs : Formulas) (t : Table H) (stale : NameSet) : Prop :=
  ∀ (x : String) (f : Formula), fs[x]? = some f → f.isFunction = false → x ∉ stale →
    ∃ v, t.value? x = some v ∧ f.YieldedLike depth fs x v t

/-! ## Passes -/

namespace Pass

variable {fs : Formulas} {tables : Tables H}

theorem Finishes.cached (ht : fs.Tracked) {p q : Pass H} {x : String} (hm : Marked fs p)
    (h : fs.Cached depth p.table p.stale) (hq : Finishes tables depth fs p x q) :
    fs.Cached depth q.table q.stale := by
  intro y g hg hfun hy
  have hys : y = x ∨ y ∉ p.stale := by
    by_cases hyx : y = x
    · exact .inl hyx
    · exact .inr fun hys => hy (hq.mem_stale_iff.2 ⟨hyx, hys⟩)
  rcases hq.table_cases with ⟨htable, hkeep⟩ | ⟨f, v, hf, hx, hv⟩
  · -- the table is the same, and `x` was current if it has a formula
    have hold : y ∉ p.stale := by
      rcases hys with rfl | hys
      · rcases hkeep with hnone | hcurrent
        · cases hg.symm.trans hnone
        · exact hcurrent
      · exact hys
    rw [htable]
    exact h y g hg hfun hold
  · have hrecomputed : ∀ z, z ≠ x → q.table.value? z = p.table.value? z :=
      fun z hz => hq.value?_of_ne ht hz
    -- what is current now does not reach `x`, also where it is `x` itself
    have hno : ¬ fs.Reaches y x := by
      rcases hys with rfl | hys
      · exact ((hm.finishes hq).marks.grounded y hy).not_reaches_self
      · exact fun hyx => hm.marks.not_mem_of_reaches hys hyx hx
    have hcell : ∀ z, fs.Reaches y z → q.table.value? z = p.table.value? z :=
      fun z hz => hrecomputed z fun he => hno (he ▸ hz)
    by_cases hyx : y = x
    · subst hyx
      obtain rfl := Option.some.inj (hf.symm.trans hg)
      refine ⟨v, ?_, tables, p.table, hv.id.symm, fun z hz => (hcell z hz).symm, hv.scalar hfun⟩
      rw [hv.value?, if_pos (ht y f hf).1]
    · obtain ⟨w, hw, hyield⟩ := h y g hg hfun (hys.resolve_left hyx)
      exact ⟨w, (hrecomputed y hyx).trans hw, hyield.frame (fun z hz => hz) hv.id hcell⟩

theorem Progress.cached (ht : fs.Tracked) {p q : Pass H} (hm : Marked fs p)
    (h : fs.Cached depth p.table p.stale) (hq : Progress tables depth fs p q) :
    fs.Cached depth q.table q.stale := by
  induction hq with
  | refl => exact h
  | tail hpq hx ih => exact hx.cached ht (hm.progress hpq) ih

end Pass

/-! ## Requests -/

/-- **A change of one symbol leaves the current symbols cached**, if it makes that symbol and all
that reaches it stale. -/
theorem Formulas.Cached.touch {fs gs : Formulas} {t t' : Table H} {stale stale' : NameSet}
    {z : String} (h : fs.Cached depth t stale) (hknown : fs.KnownIn t)
    (hgs : ∀ y, y ≠ z → gs[y]? = fs[y]?) (hid : t'.id = t.id)
    (hkeep : ∀ y v, y ≠ z → t.value? y = some v → t'.value? y = some v)
    (hstale : ∀ y, y ∈ stale' ↔ y = z ∨ gs.Reaches y z ∨ y ∈ stale) :
    gs.Cached depth t' stale' := by
  intro x f hf hfun hx
  rw [hstale, not_or, not_or] at hx
  obtain ⟨hxz, hno, hxs⟩ := hx
  rw [hgs x hxz] at hf
  obtain ⟨v, hv, hyield⟩ := h x f hf hfun hxs
  have hreach : ∀ y, gs.Reaches x y ↔ fs.Reaches x y :=
    fun y => (Formulas.reaches_iff_of_agree (fun y hy => (hgs y hy).symm) hxz hno).symm
  have hcell : ∀ y, fs.Reaches x y → t'.value? y = t.value? y := by
    intro y hy
    obtain ⟨w, hw⟩ := hknown.exists_value_of_reaches hy
    rw [hw]
    refine hkeep y w ?_ hw
    rintro rfl
    exact hno ((hreach y).2 hy)
  exact ⟨v, hkeep x v hxz hv, hyield.frame (fun y hy => (hreach y).1 hy) hid hcell⟩

namespace Solver

variable {ok : Request H → Solver H → Prop} {settings : Settings}

/-- **In a reachable solver the current symbols are cached**, whatever values were assigned. -/
theorem ReachableBy.cached {s : Solver H} (h : ReachableBy ok settings depth s) :
    s.formulas.Cached depth s.table s.stale := by
  refine h.strongInduction (P := fun s => s.formulas.Cached depth s.table s.stale) ?empty
    (fun _ _ ih => ih) ?install ?assign ?pass
  case empty =>
    intro id x f hf
    cases Std.ExtTreeMap.getElem?_empty.symm.trans hf
  case install =>
    intro s text f hs ih _ _ _
    exact ih.touch hs.known (fun y hy => Formulas.getElem?_insert_ne hy) (s.install_id f)
      (fun y v _ hv => value?_install_of_some hv) fun y => mem_stale_install
  case assign =>
    intro s z v hs ih _ _
    refine ih.touch hs.known (fun _ _ => rfl) rfl ?_ fun y => mem_stale_withValue
    intro y w hy hw
    rw [value?_withValue, if_neg fun he => hy he.symm]
    exact hw
  case pass =>
    intro s tables z hs ih
    exact (s.pass_progress tables depth z).cached hs.tracked (.start hs.marks) ih

/-! ## The value now -/

/-- The functions that the dependencies of `x` hold read only dependencies of `x`. -/
def ReadsInside (s : Solver H) (x : String) : Prop :=
  ∀ y v, y ∈ s.dependencies x → s.table.value? y = some v →
    v.Within s.table.id fun z => z ∈ s.dependencies x

/-- Below a current symbol, the dependencies are what it reaches. -/
theorem ReachableBy.mem_dependencies_iff {s : Solver H} (h : ReachableBy ok settings depth s)
    {x : String} (hx : s.isStale x = false) {y : String} :
    y ∈ s.dependencies x ↔ s.formulas.Reaches x y := by
  refine Formulas.mem_dependencies_iff.trans (and_iff_right_of_imp ?_)
  rintro hy rfl
  exact (h.marks.grounded y (not_mem_stale hx)).not_reaches_self hy

/-- Where only plain values are assigned and kept, functions read only what their symbols depend
on. -/
theorem ReachableBy.readsInside (hH : HostLibrary.Uniform H)
    (hok : ∀ r s, ok r s → r.AssignsPlain ∧ s.SelfReadersPlain) {s : Solver H}
    (h : ReachableBy ok settings depth s) {x : String} (hx : s.isStale x = false) :
    s.ReadsInside x := by
  obtain ⟨origin, hc⟩ := h.coherent hH hok
  intro y v hy hv
  have hxy := (h.mem_dependencies_iff hx).1 hy
  have hwithin := hc.within hH (hc.marks.not_mem_of_reaches (not_mem_stale hx) hxy) hv
  exact hwithin.mono fun z hz => (h.mem_dependencies_iff hx).2 (hxy.trans hz)

/-- What the body of a formula yielded it yields now, if all that it read is below the symbol. -/
theorem eval_of_yieldedLike (hH : HostLibrary.Uniform H) {s : Solver H}
    (h : ReachableBy ok settings depth s) {x : String} {f : Formula}
    (hf : s.formulas[x]? = some f) (hfun : f.isFunction = false)
    (hself : f.body.references x = false) (hx : s.isStale x = false) {v : Value H}
    (hv : f.YieldedLike depth s.formulas x v s.table) (hreads : s.ReadsInside x)
    (tables : Tables H) : f.body.eval (tables.put s.table) depth ⟨[], s.table⟩ = .value v := by
  obtain ⟨tables₀, t₀, hid, hcell, heval⟩ := hv
  -- the two tables agree where the body and the functions below it read
  have hagree : s.table.AgreeOn (fun y => y ∈ s.dependencies x) t₀ := by
    refine ⟨hid, ?_, fun y w hy hw => hreads y w hy hw⟩
    intro y hy
    exact hcell y ((h.mem_dependencies_iff hx).1 hy)
  have hscope : ∀ y, f.body.references y = true → Scope.RelatedAt
      (CompiledFunction.SameWithin s.table.id fun y => y ∈ s.dependencies x)
      ⟨[], s.table⟩ ⟨[], t₀⟩ y := by
    intro y hy
    have hyx : y ≠ x := by
      rintro rfl
      rw [hself] at hy
      cases hy
    have hedge := Formula.edge_of_references h.tracked hf hfun hy hyx
    exact Scope.relatedAt_of_table rfl rfl
      (hagree.rel ((h.mem_dependencies_iff hx).2 (.single hedge)))
  have hrelated := Expr.eval_related hH (CompiledFunction.SameWithin.matching s.table.id _)
    (hagree.relatedUnder tables tables₀) depth hscope
  rw [hrelated.eq_of_sameWithin, heval]

/--
**What the value of a current symbol is worth.**

Take a symbol of a reachable solver that is current and has a formula for a value that does not
refer to its own target. Whatever values were assigned,

* the symbol holds what the body yielded over some table with the present values of all that the
  symbol depends on;
* the body yields it over the present table, if the functions among these values read only names
  that the symbol depends on;
* and so they do if only numbers and host functions were ever assigned, and no symbol whose formula
  for a value refers to it has held a compiled function.
-/
theorem current_value_eq_eval (hH : HostLibrary.Uniform H) {s : Solver H}
    (h : Reachable settings depth s) {x : String} {f : Formula} (hf : s.formula? x = some f)
    (hfun : f.isFunction = false) (hself : f.body.references x = false)
    (hx : s.isStale x = false) :
    ∃ v, s.table.value? x = some v ∧
      (∃ (tables : Tables H) (t : Table H), t.id = s.table.id ∧
        (∀ y, y ∈ s.dependencies x → t.value? y = s.table.value? y) ∧
        f.body.eval (tables.put t) depth ⟨[], t⟩ = .value v) ∧
      (s.ReadsInside x → ∀ tables : Tables H,
        f.body.eval (tables.put s.table) depth ⟨[], s.table⟩ = .value v) ∧
      (ReachableBy (fun r s => r.AssignsPlain ∧ s.SelfReadersPlain) settings depth s →
        ∀ tables : Tables H,
          f.body.eval (tables.put s.table) depth ⟨[], s.table⟩ = .value v) := by
  obtain ⟨v, hv, hyielded⟩ := h.cached x f hf hfun (not_mem_stale hx)
  have hnow := eval_of_yieldedLike hH h hf hfun hself hx hyielded
  refine ⟨v, hv, ?before, hnow, fun hplain => hnow (hplain.readsInside hH (fun _ _ hok => hok) hx)⟩
  obtain ⟨tables, t, hid, hcell, heval⟩ := hyielded
  exact ⟨tables, t, hid, fun y hy => hcell y ((h.mem_dependencies_iff hx).1 hy), heval⟩

/-! ## Functions that were assigned -/

/-- A solver that has compiled a function which reads `a`. -/
def compiledReader : Solver StandardHost :=
  performAll .empty 8 (.empty {} 0)
    [.define "g(x) = x + a", .assign "a" (.number 1), .solve "g"]

/-- The function. -/
def readerOfA : Value StandardHost :=
  .callable (.compiled ⟨"g", ["x"], .binary .add (.name "x") (.name "a"), 0, 0⟩)

/-- The function is called through `h`, which was assigned it, by a symbol that depends on `a`. -/
def cachedCall : Solver StandardHost :=
  compiledReader.performAll .empty 8
    [.define "y = h(1) * a", .assign "h" readerOfA, .assign "a" (.number 2), .solve "y"]

/-- And here by one that does not, and `a` has changed since. -/
def outdatedCall : Solver StandardHost :=
  compiledReader.performAll .empty 8
    [.define "y = h(1)", .assign "h" readerOfA, .solve "y", .assign "a" (.number 2)]

theorem readsInside_cachedCall : cachedCall.ReadsInside "y" := by
  have hdeps : (cachedCall.dependencies "y").toList = ["a", "h"] := by decide +kernel
  intro y v hy hv
  rw [← Std.ExtTreeSet.mem_toList, hdeps] at hy
  simp only [List.mem_cons, List.not_mem_nil, or_false] at hy
  rcases hy with rfl | rfl
  · have ha : cachedCall.table.value? "a" = some (.number 2) := by decide +kernel
    cases ha.symm.trans hv
    exact .number 2
  · have hh : cachedCall.table.value? "h" = some readerOfA := by decide +kernel
    cases hh.symm.trans hv
    have hid : cachedCall.table.id = 0 := by decide +kernel
    refine .callable (.compiled ⟨rfl, hid.symm, ?_⟩)
    intro z hz hp
    have hza : z = "a" := by
      simp only [Expr.references, Bool.or_eq_true, beq_iff_eq, List.mem_singleton] at hz hp
      exact (hz.resolve_left fun he => hp he.symm).symm
    rw [hza, ← Std.ExtTreeSet.mem_toList, hdeps]
    decide

theorem current_value_eq_eval_cachedCall :
    cachedCall.table.value? "y" = some (.number 6) ∧
      ∃ f, cachedCall.formula? "y" = some f ∧
        f.body.eval (Tables.empty.put cachedCall.table) 8 ⟨[], cachedCall.table⟩ =
          .value (.number 6) := by
  have h : Reachable {} 8 cachedCall :=
    .performAll .empty _ (.performAll .empty _ (.empty 0) (by decide +kernel)) (by decide +kernel)
  obtain ⟨f, hf⟩ : ∃ f, cachedCall.formula? "y" = some f :=
    Option.isSome_iff_exists.1 (by decide +kernel)
  have hfacts : ∀ g ∈ cachedCall.formula? "y", g.isFunction = false ∧
      g.body.references "y" = false := by decide +kernel
  obtain ⟨hfun, hself⟩ := hfacts f hf
  obtain ⟨v, hv, _, hnow, _⟩ := current_value_eq_eval StandardHost.uniform h hf hfun hself
    (by decide +kernel)
  have hsix : cachedCall.table.value? "y" = some (.number 6) := by decide +kernel
  cases hsix.symm.trans hv
  exact ⟨hsix, f, hf, hnow readsInside_cachedCall .empty⟩

/--
**A value can be outdated without its symbol being stale.** A function that an earlier solve
answered with was assigned to `h`. Then `y = h(1)` was solved, and the symbol `a` that the function
reads was changed: `y` is current and holds 2, and its body yields 3.
-/
theorem outdated_behind_assigned_function :
    (compiledReader.solve .empty 8 "g").answer = .value readerOfA ∧
      Reachable {} 8 outdatedCall ∧
      ∃ f, outdatedCall.formula? "y" = some f ∧ f.isFunction = false ∧
        f.body.references "y" = false ∧ outdatedCall.isStale "y" = false ∧
        outdatedCall.table.value? "y" = some (.number 2) ∧
        f.body.eval (Tables.empty.put outdatedCall.table) 8 ⟨[], outdatedCall.table⟩ =
          .value (.number 3) := by
  have h : Reachable {} 8 outdatedCall :=
    .performAll .empty _ (.performAll .empty _ (.empty 0) (by decide +kernel)) (by decide +kernel)
  have hf : outdatedCall.formula? "y" =
      some ⟨"y = h(1)", "y", none, ["h"], .call "h" [.number 1]⟩ := by decide +kernel
  exact ⟨by decide +kernel, h, _, hf, rfl, by decide +kernel, by decide +kernel,
    by decide +kernel, by decide +kernel⟩

end Solver

end Recalc

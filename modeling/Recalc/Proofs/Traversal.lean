import Recalc.Proofs.FormulaRuns

/-!
# A pass as a plain traversal

A pass remembers what it has finished, so that it enters no symbol twice. A plain traversal
remembers nothing: `unfolding` writes down all that a symbol depends on, each time behind all that
it depends on in its turn, and as often as there are ways to it. The list can be exponentially
longer than the pass.

**On a symbol that reaches no circle, the pass does what going through that list does** with
`settle`, which finishes a symbol that is not finished yet. What the pass leaves out are names that
stand in the list again, and by then they are finished. Two facts carry this:

* a finished symbol has all that it depends on finished, so leaving it out leaves out nothing else;
* nothing below a symbol that reaches no circle is the symbol itself, so going through the names
  below it does not finish it.
-/

namespace Recalc

/-! ## Writing out what a symbol depends on -/

namespace Formulas

/-- `x` behind all that it depends on, written out again on each way to it, with at most `n`
formulas on one way. -/
def unfolding (fs : Formulas) : Nat → String → List String
  | 0, x => [x]
  | n + 1, x => (fs.directDeps x).flatMap (fs.unfolding n) ++ [x]

variable {fs : Formulas}

theorem unfolding_of_none {x : String} (h : fs[x]? = none) (n : Nat) :
    fs.unfolding n x = [x] := by
  cases n with
  | zero => rfl
  | succ n =>
    rw [unfolding, directDeps, h]
    rfl

theorem unfolding_of_some {x : String} {f : Formula} (h : fs[x]? = some f) (n : Nat) :
    fs.unfolding (n + 1) x = f.dependsOn.flatMap (fs.unfolding n) ++ [x] := by
  rw [unfolding, directDeps_of_some h]

/-- `x` stands at the end, and before it stands only what it reaches. -/
theorem unfolding_eq_append (n : Nat) (x : String) :
    ∃ below, fs.unfolding n x = below ++ [x] ∧ ∀ y ∈ below, fs.Reaches x y := by
  induction n generalizing x with
  | zero => exact ⟨[], rfl, fun y hy => absurd hy List.not_mem_nil⟩
  | succ n ih =>
    refine ⟨_, rfl, ?_⟩
    intro y hy
    obtain ⟨d, hd, hyd⟩ := List.mem_flatMap.1 hy
    obtain ⟨below, heq, hbelow⟩ := ih d
    rw [heq] at hyd
    rcases List.mem_append.mp hyd with hyd | hyd
    · exact .head hd (hbelow y hyd)
    · rw [List.mem_singleton.mp hyd]
      exact .single hd

theorem eq_or_reaches_of_mem_unfolding {n : Nat} {x y : String} (h : y ∈ fs.unfolding n x) :
    y = x ∨ fs.Reaches x y := by
  obtain ⟨below, heq, hbelow⟩ := fs.unfolding_eq_append n x
  rw [heq] at h
  rcases List.mem_append.mp h with h | h
  · exact .inr (hbelow y h)
  · exact .inl (List.mem_singleton.mp h)

/-- With room for all formulas, further levels write out nothing more. -/
theorem unfolding_eq_of_le (n : Nat) {path : List String} {x : String} (hg : fs.Grounded x)
    (hroom : fs.HasRoom n path) (hpath : ∀ z ∈ path, fs.Reaches z x) {m : Nat} (hnm : n ≤ m) :
    fs.unfolding m x = fs.unfolding n x := by
  cases hf : fs[x]? with
  | none => rw [unfolding_of_none hf, unfolding_of_none hf]
  | some f =>
    obtain ⟨n', rfl, hroom'⟩ := hroom.enter hf (hg.not_mem_path hpath)
    obtain ⟨m', rfl⟩ : ∃ m', m = m' + 1 := ⟨m - 1, by omega⟩
    have hdeps : ∀ d ∈ f.dependsOn, fs.unfolding m' d = fs.unfolding n' d := by
      intro d hd
      have hxd : fs.Edge x d := edge_of_some hf hd
      exact unfolding_eq_of_le n' (hg.of_edge hxd) hroom' (reaches_of_mem_path hpath hxd)
        (by omega)
    rw [unfolding_of_some hf, unfolding_of_some hf, List.flatMap_congr hdeps]

/-- A name is grounded if it lies on no circle and does not call itself, nor does anything that it
reaches. -/
theorem grounded_of_no_circle (n : Nat) {path : List String} {x : String}
    (hroom : fs.HasRoom n path) (hpath : ∀ z ∈ path, fs.Reaches z x)
    (h : ∀ y, y = x ∨ fs.Reaches x y →
      ¬ fs.Reaches y y ∧ ∀ f, fs[y]? = some f → f.isSelfCalling = false) :
    fs.Grounded x := by
  cases hf : fs[x]? with
  | none => exact .of_leaf hf
  | some f =>
    obtain ⟨hself, hcalm⟩ := h x (.inl rfl)
    have hnew : x ∉ path := fun hx => hself (hpath x hx)
    obtain ⟨n', rfl, hroom'⟩ := hroom.enter hf hnew
    refine ⟨hcalm, ?_⟩
    intro d hxd
    refine grounded_of_no_circle n' hroom' (reaches_of_mem_path hpath hxd) ?_
    intro y hy
    rcases hy with rfl | hdy
    · exact h y (.inr (.single hxd))
    · exact h y (.inr (.head hxd hdy))

end Formulas

/-! ## Going through a list -/

namespace Pass

variable {H : Type}

/-- Refreshing symbols in order is refreshing some of them and then the others. -/
theorem refreshEach_append_of_value {one : String → Pass H → Step H} {xs ys : List String}
    {p : Pass H} (h : (refreshEach one xs p).2 = .value ()) :
    refreshEach one (xs ++ ys) p = refreshEach one ys (refreshEach one xs p).1 := by
  induction xs generalizing p with
  | nil => rfl
  | cons x xs ih =>
    by_cases hv : (one x p).2 = .value ()
    · rw [refreshEach_of_value hv] at h
      rw [List.cons_append, refreshEach_of_value hv, refreshEach_of_value hv]
      exact ih h
    · rw [refreshEach_of_stop hv] at h
      exact absurd h hv

theorem refreshEach_append_of_stop {one : String → Pass H → Step H} {xs ys : List String}
    {p : Pass H} (h : (refreshEach one xs p).2 ≠ .value ()) :
    refreshEach one (xs ++ ys) p = refreshEach one xs p := by
  induction xs generalizing p with
  | nil => exact absurd rfl h
  | cons x xs ih =>
    rw [List.cons_append]
    by_cases hv : (one x p).2 = .value ()
    · rw [refreshEach_of_value hv] at h
      rw [refreshEach_of_value hv, refreshEach_of_value hv]
      exact ih h
    · rw [refreshEach_of_stop hv, refreshEach_of_stop hv]

/-- If refreshing a symbol is refreshing a list in another way, then refreshing symbols in order is
refreshing their lists one behind the other. -/
theorem refreshEach_flatMap {one other : String → Pass H → Step H} {list : String → List String}
    {P : Pass H → Prop} (xs : List String) {p : Pass H}
    (hone : ∀ x ∈ xs, ∀ p, P p → one x p = refreshEach other (list x) p ∧ P (one x p).1)
    (hp : P p) : refreshEach one xs p = refreshEach other (xs.flatMap list) p := by
  induction xs generalizing p with
  | nil => rfl
  | cons x xs ih =>
    obtain ⟨hx, hnext⟩ := hone x List.mem_cons_self p hp
    rw [List.flatMap_cons]
    by_cases hv : (one x p).2 = .value ()
    · rw [refreshEach_of_value hv, refreshEach_append_of_value (hx ▸ hv), ← hx]
      exact ih (fun y hy => hone y (List.mem_cons_of_mem x hy)) hnext
    · rw [refreshEach_of_stop hv, refreshEach_append_of_stop (hx ▸ hv), hx]

/-! ## Finished symbols -/

/-- A finished symbol has all that it depends on finished. -/
def Closed (fs : Formulas) (p : Pass H) : Prop :=
  ∀ x y, fs.Edge x y → x ∈ p.finished → y ∈ p.finished

theorem Closed.start (fs : Formulas) (table : Table H) (stale : NameSet) :
    Closed fs (.start table stale) :=
  fun _ _ _ hx => absurd hx Std.ExtTreeSet.not_mem_empty

theorem Closed.mem_of_reaches {fs : Formulas} {p : Pass H} (h : Closed fs p) {x y : String}
    (hx : x ∈ p.finished) (hxy : fs.Reaches x y) : y ∈ p.finished :=
  hxy.mem_of_closed (fun a b ha hab => h a b hab ha) hx

variable [HostLibrary H]

/-- Finish a symbol that is not finished yet, without a look at what it depends on. -/
def settle (tables : Tables H) (depth : Nat) (fs : Formulas) (x : String) (p : Pass H) : Step H :=
  if p.finished.contains x then (p, .value ())
  else
    match fs[x]? with
    | none => (p.finishLeaf x, .value ())
    | some f => p.finishFormula tables depth x f

variable {tables : Tables H} {depth : Nat} {fs : Formulas}

theorem Closed.progress {p q : Pass H} (h : Closed fs p) (hq : Progress tables depth fs p q) :
    Closed fs q := by
  induction hq with
  | refl => exact h
  | tail _ hx ih =>
    intro a b hab ha
    rw [hx.finished_eq, NameSet.mem_insert_iff] at ha ⊢
    rcases ha with rfl | ha
    · exact .inr (hx.deps_finished hab)
    · exact .inr (ih a b hab ha)

theorem settle_of_finished {x : String} {p : Pass H} (hx : x ∈ p.finished) :
    settle tables depth fs x p = (p, .value ()) := by
  rw [settle, if_pos (Std.ExtTreeSet.mem_iff_contains.1 hx)]

theorem settle_of_leaf {x : String} {p : Pass H} (hx : x ∉ p.finished) (hf : fs[x]? = none) :
    settle tables depth fs x p = (p.finishLeaf x, .value ()) := by
  rw [Std.ExtTreeSet.mem_iff_contains] at hx
  rw [settle, if_neg hx, hf]

theorem settle_of_formula {x : String} {p : Pass H} {f : Formula} (hx : x ∉ p.finished)
    (hf : fs[x]? = some f) : settle tables depth fs x p = p.finishFormula tables depth x f := by
  rw [Std.ExtTreeSet.mem_iff_contains] at hx
  rw [settle, if_neg hx, hf]

/-- All that settling a symbol can do. -/
inductive Settling (tables : Tables H) (depth : Nat) (fs : Formulas) (p : Pass H) (x : String) :
    Step H → Prop where
  | done (finished : x ∈ p.finished) : Settling tables depth fs p x (p, .value ())
  | leaf (none : fs[x]? = none) : Settling tables depth fs p x (p.finishLeaf x, .value ())
  | current {f : Formula} (some : fs[x]? = some f) (current : x ∉ p.stale) :
      Settling tables depth fs p x ({ p with finished := p.finished.insert x }, .value ())
  | recomputed {f : Formula} {table : Table H} (some : fs[x]? = some f) (stale : x ∈ p.stale)
      (assigned : f.assignIn tables depth p.table = .value table) :
      Settling tables depth fs p x (p.finishRecomputed x table, .value ())
  | stopped {f : Formula} {o : Outcome SolverError Unit} (some : fs[x]? = some f)
      (stale : x ∈ p.stale) (stops : StopsAt tables depth p f o) :
      Settling tables depth fs p x (p, o)

theorem settle_cases (tables : Tables H) (depth : Nat) (fs : Formulas) (x : String) (p : Pass H) :
    Settling tables depth fs p x (settle tables depth fs x p) := by
  by_cases hx : x ∈ p.finished
  · rw [settle_of_finished hx]
    exact .done hx
  cases hf : fs[x]? with
  | none =>
    rw [settle_of_leaf hx hf]
    exact .leaf hf
  | some f =>
    rw [settle_of_formula hx hf]
    have hstep := finishFormula_cases tables depth p x f
    generalize p.finishFormula tables depth x f = r at hstep ⊢
    cases hstep with
    | current hcurrent => exact .current hf hcurrent
    | recomputed hstale ha => exact .recomputed hf hstale ha
    | stopped hstale hstops => exact .stopped hf hstale hstops

/-- Nothing but the symbol is finished. -/
theorem Settling.mem_finished {x y : String} {p : Pass H} {r : Step H}
    (h : Settling tables depth fs p x r) (hy : y ∈ r.1.finished) : y ∈ p.finished ∨ y = x := by
  cases h with
  | done => exact .inl hy
  | leaf => exact (NameSet.mem_insert_iff.1 hy).symm
  | current => exact (NameSet.mem_insert_iff.1 hy).symm
  | recomputed => exact (NameSet.mem_insert_iff.1 hy).symm
  | stopped => exact .inl hy

/-- A step that does not go on changes nothing. -/
theorem Settling.eq_of_stop {x : String} {p : Pass H} {r : Step H}
    (h : Settling tables depth fs p x r) (hr : r.2 ≠ .value ()) : r.1 = p := by
  cases h with
  | stopped => rfl
  | done => exact absurd rfl hr
  | leaf => exact absurd rfl hr
  | current => exact absurd rfl hr
  | recomputed => exact absurd rfl hr

theorem mem_finished_settleEach {y : String} : ∀ {xs : List String} {p : Pass H},
    y ∈ (refreshEach (settle tables depth fs) xs p).1.finished → y ∈ p.finished ∨ y ∈ xs := by
  intro xs
  induction xs with
  | nil => exact fun h => .inl h
  | cons x xs ih =>
    intro p h
    have hone : y ∈ (settle tables depth fs x p).1.finished → y ∈ p.finished ∨ y ∈ x :: xs := by
      intro hy
      rcases (settle_cases tables depth fs x p).mem_finished hy with hy | rfl
      · exact .inl hy
      · exact .inr List.mem_cons_self
    by_cases hv : (settle tables depth fs x p).2 = .value ()
    · rw [refreshEach_of_value hv] at h
      rcases ih h with hy | hy
      · exact hone hy
      · exact .inr (List.mem_cons_of_mem x hy)
    · rw [refreshEach_of_stop hv] at h
      exact hone h

/-- Going through finished symbols does nothing. -/
theorem settleEach_of_finished {xs : List String} {p : Pass H} (h : ∀ x ∈ xs, x ∈ p.finished) :
    refreshEach (settle tables depth fs) xs p = (p, .value ()) := by
  induction xs with
  | nil => rfl
  | cons x xs ih =>
    have hx : settle tables depth fs x p = (p, .value ()) :=
      settle_of_finished (h x List.mem_cons_self)
    rw [refreshEach_of_value (by rw [hx]), hx]
    exact ih fun y hy => h y (List.mem_cons_of_mem x hy)

/-! ## The pass and the list -/

/-- **A pass over a grounded symbol goes through what the symbol depends on, written out.** -/
theorem refresh_eq_settleEach (n : Nat) (path : List String) (x : String) (p : Pass H)
    (hg : fs.Grounded x) (hroom : fs.HasRoom n path) (hpath : ∀ z ∈ path, fs.Reaches z x)
    (hp : Closed fs p) :
    refresh tables depth fs n path x p =
      refreshEach (settle tables depth fs) (fs.unfolding n x) p := by
  by_cases hx : x ∈ p.finished
  · rw [refresh_of_finished hx, settleEach_of_finished]
    intro y hy
    rcases Formulas.eq_or_reaches_of_mem_unfolding hy with rfl | hxy
    · exact hx
    · exact hp.mem_of_reaches hx hxy
  cases hf : fs[x]? with
  | none =>
    rw [refresh_of_leaf hx hf, Formulas.unfolding_of_none hf,
      refreshEach_of_value (by rw [settle_of_leaf hx hf]), settle_of_leaf hx hf]
    rfl
  | some f =>
    have hnew := hg.not_mem_path hpath
    have hcalm := hg.calm hf
    obtain ⟨m, rfl, hroom'⟩ := hroom.enter hf hnew
    have hone : ∀ d ∈ f.dependsOn, ∀ q : Pass H, Closed fs q →
        refresh tables depth fs m (path ++ [x]) d q =
          refreshEach (settle tables depth fs) (fs.unfolding m d) q ∧
        Closed fs (refresh tables depth fs m (path ++ [x]) d q).1 := by
      intro d hd q hq
      have hxd : fs.Edge x d := Formulas.edge_of_some hf hd
      exact ⟨refresh_eq_settleEach m (path ++ [x]) d q (hg.of_edge hxd) hroom'
        (Formulas.reaches_of_mem_path hpath hxd) hq, hq.progress (refresh_progress _ _ _ _).1⟩
    have hdeps := refreshEach_flatMap f.dependsOn hone hp
    rw [Formulas.unfolding_of_some hf]
    by_cases hv : (refreshEach (refresh tables depth fs m (path ++ [x])) f.dependsOn p).2 =
        .value ()
    · -- the names below `x` have been gone through, and `x` is none of them
      have hopen : x ∉ (refreshEach (refresh tables depth fs m (path ++ [x])) f.dependsOn
          p).1.finished := by
        rw [hdeps]
        intro hmem
        rcases mem_finished_settleEach hmem with hmem | hmem
        · exact hx hmem
        · obtain ⟨d, hd, hxd⟩ := List.mem_flatMap.1 hmem
          have hedge : fs.Edge x d := Formulas.edge_of_some hf hd
          rcases Formulas.eq_or_reaches_of_mem_unfolding hxd with rfl | hdx
          · exact hg.not_reaches_self (.single hedge)
          · exact hg.not_reaches_self (.head hedge hdx)
      rw [refresh_of_deps hx hf hcalm hnew hv, refreshEach_append_of_value (hdeps ▸ hv), ← hdeps]
      generalize (refreshEach (refresh tables depth fs m (path ++ [x])) f.dependsOn p).1 = q
        at hopen ⊢
      have hself : settle tables depth fs x q = q.finishFormula tables depth x f :=
        settle_of_formula hopen hf
      rw [← hself]
      by_cases hs : (settle tables depth fs x q).2 = .value ()
      · rw [refreshEach_of_value hs]
        exact Prod.ext rfl hs
      · rw [refreshEach_of_stop hs]
    · rw [refresh_of_deps_stop hx hf hcalm hnew hv, refreshEach_append_of_stop (hdeps ▸ hv), hdeps]

/-- A pass over a grounded symbol that stops has not finished the symbol. -/
theorem not_mem_finished_of_stop {n : Nat} {path : List String} {x : String} {p : Pass H}
    (hg : fs.Grounded x) (hroom : fs.HasRoom n path) (hpath : ∀ z ∈ path, fs.Reaches z x)
    (hp : Closed fs p) (hx : x ∉ p.finished)
    (hstop : (refresh tables depth fs n path x p).2 ≠ .value ()) :
    x ∉ (refresh tables depth fs n path x p).1.finished := by
  obtain ⟨below, heq, hbelow⟩ := fs.unfolding_eq_append n x
  rw [refresh_eq_settleEach n path x p hg hroom hpath hp, heq] at hstop ⊢
  have hopen : x ∉ (refreshEach (settle tables depth fs) below p).1.finished := by
    intro hmem
    rcases mem_finished_settleEach hmem with hmem | hmem
    · exact hx hmem
    · exact hg.not_reaches_self (hbelow x hmem)
  by_cases hv : (refreshEach (settle tables depth fs) below p).2 = .value ()
  · rw [refreshEach_append_of_value hv] at hstop ⊢
    generalize (refreshEach (settle tables depth fs) below p).1 = q at hopen hstop
    -- it is the formula of `x` itself that stops
    have hself : (settle tables depth fs x q).2 ≠ .value () := by
      intro hs
      rw [refreshEach_of_value hs] at hstop
      exact hstop rfl
    rw [refreshEach_of_stop hself, (settle_cases tables depth fs x q).eq_of_stop hself]
    exact hopen
  · rw [refreshEach_append_of_stop hv]
    exact hopen

end Pass

/-- The pass of a solver over a grounded symbol, as a plain traversal. -/
theorem Solver.pass_eq_settleEach {H : Type} [HostLibrary H] {s : Solver H} {x : String}
    (hg : s.formulas.Grounded x) (tables : Tables H) (depth : Nat) :
    s.pass tables depth x = Pass.refreshEach (Pass.settle tables depth s.formulas)
      (s.formulas.unfolding s.formulas.size x) (.start s.table s.stale) :=
  Pass.refresh_eq_settleEach s.formulas.size [] x _ hg (.start _)
    (fun _ hz => absurd hz List.not_mem_nil) (.start _ _ _)

end Recalc

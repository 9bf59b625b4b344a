import Recalc.Proofs.Reachability
import Recalc.Proofs.Runs

/-!
# What a pass does

However a pass ends, what it has done is to finish symbols one after the other, and `Finishes`
says all that finishing one symbol can do: drop a symbol without formula from the stale ones, go
past a formula symbol that is not stale, or recompute one that is. A formula symbol is finished
only when all its dependencies are. Whatever each of these steps keeps, a pass keeps.
-/

namespace Recalc

/-! ## Levels -/

namespace Formulas

/-- The path holds different names with formulas, and `n` levels are left for all other formulas. -/
structure HasRoom (fs : Formulas) (n : Nat) (path : List String) : Prop where
  nodup : path.Nodup
  formulas : ∀ y ∈ path, ∃ f, fs[y]? = some f
  size : fs.size ≤ n + path.length

theorem HasRoom.start (fs : Formulas) : fs.HasRoom fs.size [] :=
  ⟨List.nodup_nil, fun _ hy => absurd hy List.not_mem_nil, Nat.le_refl _⟩

/-- There is always a level left to enter a formula that is not on the path. -/
theorem HasRoom.enter {fs : Formulas} {n : Nat} {path : List String} (h : fs.HasRoom n path)
    {x : String} {f : Formula} (hf : fs[x]? = some f) (hx : x ∉ path) :
    ∃ m, n = m + 1 ∧ fs.HasRoom m (path ++ [x]) := by
  have hnodup : (path ++ [x]).Nodup := by
    rw [List.nodup_append]
    refine ⟨h.nodup, by simp, ?_⟩
    intro a ha b hb he
    rw [List.mem_singleton] at hb
    exact hx (hb ▸ he ▸ ha)
  have hformulas : ∀ y ∈ path ++ [x], ∃ f, fs[y]? = some f := by
    intro y hy
    rcases List.mem_append.mp hy with hy | hy
    · exact h.formulas y hy
    · rw [List.mem_singleton] at hy
      exact ⟨f, hy ▸ hf⟩
  -- the names on the path are different keys of the formulas
  have hkeys : (path ++ [x]).length ≤ fs.keys.length := by
    refine List.Nodup.length_le_of_subset hnodup ?_
    intro y hy
    obtain ⟨g, hg⟩ := hformulas y hy
    rw [Std.ExtTreeMap.mem_keys, Std.ExtTreeMap.mem_iff_isSome_getElem?, hg]
    rfl
  have hsize := h.size
  rw [Std.ExtTreeMap.length_keys, List.length_append, List.length_singleton] at hkeys
  refine ⟨n - 1, ?_, hnodup, hformulas, ?_⟩
  · omega
  · rw [List.length_append, List.length_singleton]
    omega

/-! ## The path -/

/-- Where everything on the path reaches `x`, a grounded `x` is not on it. -/
theorem Grounded.not_mem_path {fs : Formulas} {x : String} (h : fs.Grounded x)
    {path : List String} (hpath : ∀ z ∈ path, fs.Reaches z x) : x ∉ path :=
  fun hx => h.not_reaches_self (hpath x hx)

/-- What lies on the path behind `x` reaches what `x` depends on. -/
theorem reaches_of_mem_path {fs : Formulas} {x d : String} {path : List String}
    (hpath : ∀ z ∈ path, fs.Reaches z x) (hxd : fs.Edge x d) :
    ∀ z ∈ path ++ [x], fs.Reaches z d := by
  intro z hz
  rcases List.mem_append.mp hz with hz | hz
  · exact (hpath z hz).tail hxd
  · rw [List.mem_singleton.mp hz]
    exact .single hxd

end Formulas

namespace Pass

variable {H : Type}

/-! ## One symbol after the other -/

/-- Refreshing symbols in order goes on where the first was refreshed, -/
theorem refreshEach_of_value {one : String → Pass H → Step H} {x : String} {xs : List String}
    {p : Pass H} (h : (one x p).2 = .value ()) :
    refreshEach one (x :: xs) p = refreshEach one xs (one x p).1 := by
  rw [refreshEach]
  rcases hx : one x p with ⟨q, o⟩
  rw [hx] at h
  dsimp only at h
  subst h
  rfl

/-- and stops where it was not. -/
theorem refreshEach_of_stop {one : String → Pass H → Step H} {x : String} {xs : List String}
    {p : Pass H} (h : (one x p).2 ≠ .value ()) : refreshEach one (x :: xs) p = one x p := by
  rw [refreshEach]
  rcases hx : one x p with ⟨q, o⟩
  rw [hx] at h
  cases o with
  | value u => exact absurd rfl h
  | error e => rfl
  | exhausted => rfl

variable [HostLibrary H]

/-- `q` is `p` with the symbol `x` finished. -/
inductive Finishes (tables : Tables H) (depth : Nat) (fs : Formulas) (p : Pass H) (x : String) :
    Pass H → Prop where
  | leaf (none : fs[x]? = none) :
      Finishes tables depth fs p x (p.finishLeaf x)
  | current {f : Formula} (some : fs[x]? = some f)
      (calm : f.isSelfCalling = false) (deps : ∀ d ∈ f.dependsOn, d ∈ p.finished)
      (current : x ∉ p.stale) :
      Finishes tables depth fs p x { p with finished := p.finished.insert x }
  | recomputed {f : Formula} {table : Table H} (some : fs[x]? = some f)
      (calm : f.isSelfCalling = false) (deps : ∀ d ∈ f.dependsOn, d ∈ p.finished)
      (stale : x ∈ p.stale) (assigned : f.assignIn tables depth p.table = .value table) :
      Finishes tables depth fs p x (p.finishRecomputed x table)

/-- `q` is `p` with some symbols finished one after the other. -/
inductive Progress (tables : Tables H) (depth : Nat) (fs : Formulas) : Pass H → Pass H → Prop where
  | refl (p : Pass H) : Progress tables depth fs p p
  | tail {p q r : Pass H} {x : String} :
      Progress tables depth fs p q → Finishes tables depth fs q x r → Progress tables depth fs p r

variable {tables : Tables H} {depth : Nat} {fs : Formulas}

theorem Progress.trans {p q r : Pass H} (h : Progress tables depth fs p q)
    (h' : Progress tables depth fs q r) : Progress tables depth fs p r := by
  induction h' with
  | refl => exact h
  | tail _ hx ih => exact ih.tail hx

/-! ## What finishing a symbol changes -/

theorem Finishes.finished_eq {p q : Pass H} {x : String} (h : Finishes tables depth fs p x q) :
    q.finished = p.finished.insert x := by
  cases h <;> rfl

/-- Afterwards the symbol is not stale, and all others are as they were. -/
theorem Finishes.mem_stale_iff {p q : Pass H} {x : String} (h : Finishes tables depth fs p x q)
    {y : String} : y ∈ q.stale ↔ y ≠ x ∧ y ∈ p.stale := by
  cases h with
  | leaf => exact NameSet.mem_erase_iff
  | current _ _ _ hx => exact ⟨fun hy => ⟨fun he => hx (he ▸ hy), hy⟩, fun hy => hy.2⟩
  | recomputed => exact NameSet.mem_erase_iff

theorem Finishes.deps_finished {p q : Pass H} {x : String} (h : Finishes tables depth fs p x q)
    {y : String} (hy : fs.Edge x y) : y ∈ p.finished := by
  obtain ⟨f, hf, hy⟩ := Formulas.edge_iff.1 hy
  cases h with
  | leaf hx => rw [hx] at hf; cases hf
  | current hx _ hdeps _ =>
    rw [hx] at hf
    exact hdeps y (Option.some.inj hf ▸ hy)
  | recomputed hx _ hdeps _ _ =>
    rw [hx] at hf
    exact hdeps y (Option.some.inj hf ▸ hy)

theorem Finishes.calm {p q : Pass H} {x : String} (h : Finishes tables depth fs p x q)
    {f : Formula} (hf : fs[x]? = some f) : f.isSelfCalling = false := by
  cases h with
  | leaf hx => rw [hx] at hf; cases hf
  | current hx hcalm _ _ =>
    rw [hx] at hf
    exact Option.some.inj hf ▸ hcalm
  | recomputed hx hcalm _ _ _ =>
    rw [hx] at hf
    exact Option.some.inj hf ▸ hcalm

theorem Progress.finished_mono {p q : Pass H} (h : Progress tables depth fs p q) {y : String}
    (hy : y ∈ p.finished) : y ∈ q.finished := by
  induction h with
  | refl => exact hy
  | tail _ hx ih =>
    rw [hx.finished_eq]
    exact NameSet.mem_insert_iff.2 (.inr ih)

/-- Nothing becomes stale in a pass. -/
theorem Progress.stale_subset {p q : Pass H} (h : Progress tables depth fs p q) {y : String}
    (hy : y ∈ q.stale) : y ∈ p.stale := by
  induction h with
  | refl => exact hy
  | tail _ hx ih => exact ih (hx.mem_stale_iff.1 hy).2

/-! ## One level of a pass -/

/-- The symbol is left alone if it is finished. -/
theorem refresh_of_finished {n : Nat} {path : List String} {x : String} {p : Pass H}
    (hx : x ∈ p.finished) : refresh tables depth fs n path x p = (p, .value ()) := by
  rw [refresh.eq_def]
  exact if_pos (Std.ExtTreeSet.mem_iff_contains.1 hx)

theorem refresh_of_leaf {n : Nat} {path : List String} {x : String} {p : Pass H}
    (hx : x ∉ p.finished) (hf : fs[x]? = none) :
    refresh tables depth fs n path x p = (p.finishLeaf x, .value ()) := by
  rw [Std.ExtTreeSet.mem_iff_contains] at hx
  rw [refresh.eq_def]
  simp only [hx, hf]
  rfl

/-- A function that calls itself stops the pass. -/
theorem refresh_of_selfCalling {n : Nat} {path : List String} {x : String} {p : Pass H}
    {f : Formula} (hx : x ∉ p.finished) (hf : fs[x]? = some f) (hself : f.isSelfCalling = true) :
    refresh tables depth fs n path x p = (p, .error (.circular x [x, x])) := by
  rw [Std.ExtTreeSet.mem_iff_contains] at hx
  rw [refresh.eq_def]
  simp only [hx, hf, hself]
  rfl

/-- Coming upon the path stops the pass. -/
theorem refresh_of_mem_path {n : Nat} {path : List String} {x : String} {p : Pass H}
    {f : Formula} (hx : x ∉ p.finished) (hf : fs[x]? = some f) (hcalm : f.isSelfCalling = false)
    (hpath : x ∈ path) : refresh tables depth fs n path x p =
      (p, .error (.circular x (path.dropWhile (· != x) ++ [x]))) := by
  rw [Std.ExtTreeSet.mem_iff_contains] at hx
  rw [refresh.eq_def]
  simp only [hx, hf, hcalm, List.contains_iff_mem.2 hpath]
  rfl

/-- Otherwise the dependencies come first. If they are refreshed, the symbol itself follows, -/
theorem refresh_of_deps {n : Nat} {path : List String} {x : String} {p : Pass H}
    {f : Formula} (hx : x ∉ p.finished) (hf : fs[x]? = some f) (hcalm : f.isSelfCalling = false)
    (hpath : x ∉ path)
    (h : (refreshEach (refresh tables depth fs n (path ++ [x])) f.dependsOn p).2 = .value ()) :
    refresh tables depth fs (n + 1) path x p =
      (refreshEach (refresh tables depth fs n (path ++ [x])) f.dependsOn p).1.finishFormula
        tables depth x f := by
  rw [Std.ExtTreeSet.mem_iff_contains] at hx
  rw [← List.contains_iff_mem] at hpath
  rw [refresh.eq_def]
  simp only [hx, hf, hcalm, hpath]
  rcases hd : refreshEach (refresh tables depth fs n (path ++ [x])) f.dependsOn p with ⟨q, o⟩
  rw [hd] at h
  dsimp only at h
  subst h
  rfl

/-- and if not, the pass stops. -/
theorem refresh_of_deps_stop {n : Nat} {path : List String} {x : String} {p : Pass H}
    {f : Formula} (hx : x ∉ p.finished) (hf : fs[x]? = some f) (hcalm : f.isSelfCalling = false)
    (hpath : x ∉ path)
    (h : (refreshEach (refresh tables depth fs n (path ++ [x])) f.dependsOn p).2 ≠ .value ()) :
    refresh tables depth fs (n + 1) path x p =
      refreshEach (refresh tables depth fs n (path ++ [x])) f.dependsOn p := by
  rw [Std.ExtTreeSet.mem_iff_contains] at hx
  rw [← List.contains_iff_mem] at hpath
  rw [refresh.eq_def]
  simp only [hx, hf, hcalm, hpath]
  rcases hd : refreshEach (refresh tables depth fs n (path ++ [x])) f.dependsOn p with ⟨q, o⟩
  rw [hd] at h
  cases o with
  | value u => exact absurd rfl h
  | error e => rfl
  | exhausted => rfl

/-- Without levels left nothing is entered. -/
theorem refresh_of_no_level {path : List String} {x : String} {p : Pass H}
    {f : Formula} (hx : x ∉ p.finished) (hf : fs[x]? = some f) (hcalm : f.isSelfCalling = false)
    (hpath : x ∉ path) : refresh tables depth fs 0 path x p = (p, .exhausted) := by
  rw [Std.ExtTreeSet.mem_iff_contains] at hx
  rw [← List.contains_iff_mem] at hpath
  rw [refresh.eq_def]
  simp only [hx, hf, hcalm, hpath]
  rfl

/-! ## Finishing a formula -/

/-- The way in which a pass ends when a formula that it runs does not come to a value. -/
inductive StopsAt (tables : Tables H) (depth : Nat) (q : Pass H) (f : Formula) :
    Outcome SolverError Unit → Prop where
  | error {e : EvalError} : f.assignIn tables depth q.table = .error e →
      StopsAt tables depth q f (.error (.formula e))
  | exhausted : f.assignIn tables depth q.table = .exhausted → StopsAt tables depth q f .exhausted

theorem StopsAt.ne_value {q : Pass H} {f : Formula} {o : Outcome SolverError Unit}
    (h : StopsAt tables depth q f o) : o ≠ .value () := by
  intro ho
  subst ho
  cases h

/-- All that finishing a formula can do. -/
inductive FormulaStep (tables : Tables H) (depth : Nat) (p : Pass H) (x : String) (f : Formula) :
    Step H → Prop where
  | current (current : x ∉ p.stale) :
      FormulaStep tables depth p x f ({ p with finished := p.finished.insert x }, .value ())
  | recomputed {table : Table H} (stale : x ∈ p.stale)
      (assigned : f.assignIn tables depth p.table = .value table) :
      FormulaStep tables depth p x f (p.finishRecomputed x table, .value ())
  | stopped {o : Outcome SolverError Unit} (stale : x ∈ p.stale)
      (stops : StopsAt tables depth p f o) : FormulaStep tables depth p x f (p, o)

theorem finishFormula_cases (tables : Tables H) (depth : Nat) (p : Pass H) (x : String)
    (f : Formula) : FormulaStep tables depth p x f (p.finishFormula tables depth x f) := by
  by_cases hx : x ∈ p.stale
  · rw [finishFormula, if_pos (Std.ExtTreeSet.mem_iff_contains.1 hx)]
    cases ha : f.assignIn tables depth p.table with
    | value table => exact .recomputed hx ha
    | error e => exact .stopped hx (.error ha)
    | exhausted => exact .stopped hx (.exhausted ha)
  · have hcurrent := hx
    rw [Std.ExtTreeSet.mem_iff_contains] at hcurrent
    rw [finishFormula, if_neg hcurrent]
    exact .current hx

/-- Finishing a formula is progress if its dependencies are finished. -/
theorem finishFormula_progress (tables : Tables H) (depth : Nat) {p : Pass H} {x : String}
    {f : Formula} (hf : fs[x]? = some f) (hcalm : f.isSelfCalling = false)
    (hdeps : ∀ d ∈ f.dependsOn, d ∈ p.finished) :
    Progress tables depth fs p (p.finishFormula tables depth x f).1 ∧
      ((p.finishFormula tables depth x f).2 = .value () →
        x ∈ (p.finishFormula tables depth x f).1.finished) := by
  have hstep := finishFormula_cases tables depth p x f
  generalize p.finishFormula tables depth x f = r at hstep
  cases hstep with
  | current hx =>
    exact ⟨.tail (.refl p) (.current hf hcalm hdeps hx),
      fun _ => NameSet.mem_insert_iff.2 (.inl rfl)⟩
  | recomputed hx ha =>
    exact ⟨.tail (.refl p) (.recomputed hf hcalm hdeps hx ha),
      fun _ => NameSet.mem_insert_iff.2 (.inl rfl)⟩
  | stopped _ hstops => exact ⟨.refl p, fun h => absurd h hstops.ne_value⟩

/-- A formula that is finished without failure is finished. -/
theorem finishFormula_finished {p : Pass H} {x : String} {f : Formula}
    (h : (p.finishFormula tables depth x f).2 = .value ()) :
    (p.finishFormula tables depth x f).1.finished = p.finished.insert x := by
  have hstep := finishFormula_cases tables depth p x f
  generalize p.finishFormula tables depth x f = r at hstep h
  cases hstep with
  | current => rfl
  | recomputed => rfl
  | stopped _ hstops => exact absurd h hstops.ne_value

/-- A formula that does not come to a value leaves everything as it was. -/
theorem finishFormula_of_stop {x : String} {p : Pass H} {f : Formula}
    (h : (p.finishFormula tables depth x f).2 ≠ .value ()) :
    (p.finishFormula tables depth x f).1 = p ∧ x ∈ p.stale ∧
      StopsAt tables depth p f (p.finishFormula tables depth x f).2 := by
  have hstep := finishFormula_cases tables depth p x f
  generalize p.finishFormula tables depth x f = r at hstep h
  cases hstep with
  | current => exact absurd rfl h
  | recomputed => exact absurd rfl h
  | stopped hx hstops => exact ⟨rfl, hx, hstops⟩

/-! ## A pass is progress -/

theorem refreshEach_progress {one : String → Pass H → Step H}
    (hone : ∀ x p, Progress tables depth fs p (one x p).1 ∧
      ((one x p).2 = .value () → x ∈ (one x p).1.finished)) :
    ∀ (xs : List String) (p : Pass H), Progress tables depth fs p (refreshEach one xs p).1 ∧
      ((refreshEach one xs p).2 = .value () → ∀ x ∈ xs, x ∈ (refreshEach one xs p).1.finished) := by
  intro xs
  induction xs with
  | nil => intro p; exact ⟨.refl p, fun _ x hx => by cases hx⟩
  | cons x xs ih =>
    intro p
    obtain ⟨hx, hxfin⟩ := hone x p
    by_cases hv : (one x p).2 = .value ()
    · rw [refreshEach_of_value hv]
      obtain ⟨hxs, hxsfin⟩ := ih (one x p).1
      refine ⟨hx.trans hxs, ?_⟩
      intro h y hy
      rcases List.mem_cons.mp hy with rfl | hy
      · exact hxs.finished_mono (hxfin hv)
      · exact hxsfin h y hy
    · rw [refreshEach_of_stop hv]
      exact ⟨hx, fun h => absurd h hv⟩

/-- **A pass is progress**, and a pass that succeeds finishes its symbol. -/
theorem refresh_progress (n : Nat) (path : List String) (x : String) (p : Pass H) :
    Progress tables depth fs p (refresh tables depth fs n path x p).1 ∧
      ((refresh tables depth fs n path x p).2 = .value () →
        x ∈ (refresh tables depth fs n path x p).1.finished) := by
  by_cases hx : x ∈ p.finished
  · rw [refresh_of_finished hx]
    exact ⟨.refl p, fun _ => hx⟩
  cases hf : fs[x]? with
  | none =>
    rw [refresh_of_leaf hx hf]
    exact ⟨.tail (.refl p) (.leaf hf), fun _ => NameSet.mem_insert_iff.2 (.inl rfl)⟩
  | some f =>
    cases hcalm : f.isSelfCalling with
    | true =>
      rw [refresh_of_selfCalling hx hf hcalm]
      exact ⟨.refl p, fun h => by cases h⟩
    | false =>
      by_cases hpath : x ∈ path
      · rw [refresh_of_mem_path hx hf hcalm hpath]
        exact ⟨.refl p, fun h => by cases h⟩
      cases n with
      | zero =>
        rw [refresh_of_no_level hx hf hcalm hpath]
        exact ⟨.refl p, fun h => by cases h⟩
      | succ n =>
        obtain ⟨hdeps, hfin⟩ := refreshEach_progress (refresh_progress n (path ++ [x]))
          f.dependsOn p
        by_cases hv : (refreshEach (refresh tables depth fs n (path ++ [x])) f.dependsOn p).2 =
            .value ()
        · rw [refresh_of_deps hx hf hcalm hpath hv]
          obtain ⟨hself, hdone⟩ := finishFormula_progress tables depth hf hcalm (hfin hv)
          exact ⟨hdeps.trans hself, hdone⟩
        · rw [refresh_of_deps_stop hx hf hcalm hpath hv]
          exact ⟨hdeps, fun h => absurd h hv⟩

end Pass

/-- The pass of a solver begins with its table and its stale symbols. -/
theorem Solver.pass_progress {H : Type} [HostLibrary H] (tables : Tables H) (depth : Nat)
    (s : Solver H) (x : String) :
    Pass.Progress tables depth s.formulas (.start s.table s.stale) (s.pass tables depth x).1 :=
  (Pass.refresh_progress _ _ _ _).1

end Recalc

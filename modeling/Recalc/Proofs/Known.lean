import Recalc.Proofs.Coherence

/-!
# Known names

A body is run over a table, and every name that it reads should be there. Two facts see to that,
and they hold whatever values are assigned:

* **Running a formula gives its target a value** and leaves all other symbols alone.
* **What formulas mention is known.** A definition makes its target and all that it depends on
  symbols, and no name ever leaves the table.
-/

namespace Recalc

variable {H : Type}

/-- The targets of the formulas and all that these depend on are in the table. -/
def Formulas.KnownIn (fs : Formulas) (t : Table H) : Prop :=
  ∀ (x : String) (f : Formula), fs[x]? = some f → ∀ y, y = x ∨ y ∈ f.dependsOn →
    ∃ v, t.value? y = some v

theorem Formulas.KnownIn.exists_value_of_reaches {fs : Formulas} {t : Table H} (h : fs.KnownIn t)
    {x y : String} (hxy : fs.Reaches x y) : ∃ v, t.value? y = some v := by
  obtain ⟨d, _, hdy⟩ := Relation.TransGen.tail'_iff.1 hxy
  obtain ⟨g, hg, hy⟩ := Formulas.edge_iff.1 hdy
  exact h d g hg y (.inr hy)

namespace Solver

/-- A definition takes no value away. -/
theorem value?_install_of_some {s : Solver H} {f : Formula} {x : String} {v : Value H}
    (h : s.table.value? x = some v) : (s.install f).table.value? x = some v := by
  rw [value?_install, h]
  split <;> rfl

/-- A name that a definition meets for the first time becomes a symbol of unknown value. -/
theorem value?_install_of_new {s : Solver H} {f : Formula} {x : String}
    (h : s.table.value? x = none) : (s.install f).table.value? x =
      if x = f.target ∨ x ∈ f.dependsOn then some .unknown else none := by
  simp only [value?_install, h, List.mem_cons, Option.getD_none]

/-- What a definition makes known is not known the value of. -/
theorem value?_install_of_none {s : Solver H} {f : Formula} {x : String} {v : Value H}
    (h : s.table.value? x = none) (hv : (s.install f).table.value? x = some v) :
    v = .unknown := by
  rw [value?_install_of_new h] at hv
  split at hv
  · exact (Option.some.inj hv).symm
  · cases hv

theorem install_id (s : Solver H) (f : Formula) : (s.install f).table.id = s.table.id :=
  (s.table.foldl_ensure_frame (f.target :: f.dependsOn)).1

end Solver

variable [HostLibrary H]

/-! ## Running a formula -/

namespace Formula

variable {tables : Tables H} {depth : Nat} {f : Formula} {t t' : Table H}

/-- A formula for a function compiles it under the next serial number. -/
theorem assignIn_of_function (h : f.isFunction = true) :
    f.assignIn tables depth t =
      .value (t.nextSerial.2.set f.target (.callable (.compiled (f.compile t.id t.compiled)))) := by
  rw [assignIn, h]
  rfl

/-- A formula for a value runs its body. -/
theorem assignIn_of_scalar (h : f.isFunction = false) :
    f.assignIn tables depth t =
      f.body.eval (tables.put t) depth ⟨[], t⟩ >>= fun v => .value (t.set f.target v) := by
  rw [assignIn, h]
  rfl

/-- A formula fails only where its body does, -/
theorem assignIn_eq_error {e : EvalError} (h : f.assignIn tables depth t = .error e) :
    f.isFunction = false ∧ f.body.eval (tables.put t) depth ⟨[], t⟩ = .error e := by
  cases hfun : f.isFunction with
  | true =>
    rw [assignIn_of_function hfun] at h
    cases h
  | false =>
    rw [assignIn_of_scalar hfun] at h
    cases hv : f.body.eval (tables.put t) depth ⟨[], t⟩ with
    | value v => rw [hv] at h; cases h
    | error e' => rw [hv] at h; cases h; exact ⟨rfl, rfl⟩
    | exhausted => rw [hv] at h; cases h

/-- and is given up only where its body is. -/
theorem assignIn_eq_exhausted (h : f.assignIn tables depth t = .exhausted) :
    f.isFunction = false ∧ f.body.eval (tables.put t) depth ⟨[], t⟩ = .exhausted := by
  cases hfun : f.isFunction with
  | true =>
    rw [assignIn_of_function hfun] at h
    cases h
  | false =>
    rw [assignIn_of_scalar hfun] at h
    cases hv : f.body.eval (tables.put t) depth ⟨[], t⟩ with
    | value v => rw [hv] at h; cases h
    | error e => rw [hv] at h; cases h
    | exhausted => exact ⟨rfl, rfl⟩

/-- `t'` is `t` after `f` was run over it and gave its target the value `v`. -/
structure Sets (tables : Tables H) (depth : Nat) (f : Formula) (v : Value H) (t t' : Table H) :
    Prop where
  id : t'.id = t.id
  value? : ∀ y, t'.value? y = if f.target = y then some v else t.value? y
  /-- A formula for a function makes a new one. -/
  function : f.isFunction = true → v = .callable (.compiled (f.compile t.id t.compiled))
  /-- A formula for a value gives what its body yields. -/
  scalar : f.isFunction = false → f.body.eval (tables.put t) depth ⟨[], t⟩ = .value v

theorem sets_of_assignIn (h : f.assignIn tables depth t = .value t') :
    ∃ v, f.Sets tables depth v t t' := by
  cases hfun : f.isFunction with
  | true =>
    rw [assignIn_of_function hfun] at h
    cases h
    refine ⟨_, rfl, fun y => Table.value?_set _ _ _ _, fun _ => rfl, ?_⟩
    intro hno
    rw [hfun] at hno
    cases hno
  | false =>
    rw [assignIn_of_scalar hfun] at h
    cases hv : f.body.eval (tables.put t) depth ⟨[], t⟩ with
    | error e => rw [hv] at h; cases h
    | exhausted => rw [hv] at h; cases h
    | value v =>
      rw [hv] at h
      cases h
      refine ⟨v, rfl, fun y => Table.value?_set _ _ _ _, ?_, fun _ => hv⟩
      intro hno
      rw [hfun] at hno
      cases hno

end Formula

namespace Pass

variable {tables : Tables H} {depth : Nat} {fs : Formulas}

/-- What finishing a symbol does to the table: nothing, or its formula was stale and is run. -/
theorem Finishes.table_cases {p q : Pass H} {x : String} (h : Finishes tables depth fs p x q) :
    q.table = p.table ∧ (fs[x]? = none ∨ x ∉ p.stale) ∨
    ∃ f v, fs[x]? = some f ∧ x ∈ p.stale ∧ f.Sets tables depth v p.table q.table := by
  cases h with
  | leaf hx => exact .inl ⟨rfl, .inl hx⟩
  | current _ _ _ hx => exact .inl ⟨rfl, .inr hx⟩
  | recomputed hf _ _ hx ha =>
    obtain ⟨v, hv⟩ := Formula.sets_of_assignIn ha
    exact .inr ⟨_, v, hf, hx, hv⟩

theorem Finishes.id_eq {p q : Pass H} {x : String} (h : Finishes tables depth fs p x q) :
    q.table.id = p.table.id := by
  rcases h.table_cases with ⟨htable, _⟩ | ⟨f, v, _, _, hv⟩
  · rw [htable]
  · exact hv.id

/-- Other symbols keep their values. -/
theorem Finishes.value?_of_ne (ht : fs.Tracked) {p q : Pass H} {x y : String}
    (h : Finishes tables depth fs p x q) (hy : y ≠ x) :
    q.table.value? y = p.table.value? y := by
  rcases h.table_cases with ⟨htable, _⟩ | ⟨f, v, hf, _, hv⟩
  · rw [htable]
  · rw [hv.value?, (ht x f hf).1, if_neg fun he => hy he.symm]

/-- No name leaves the table. -/
theorem Finishes.exists_value {p q : Pass H} {x : String} (h : Finishes tables depth fs p x q)
    {y : String} (hy : ∃ v, p.table.value? y = some v) : ∃ v, q.table.value? y = some v := by
  rcases h.table_cases with ⟨htable, _⟩ | ⟨f, v, _, _, hv⟩
  · rwa [htable]
  · rw [hv.value?]
    split
    · exact ⟨v, rfl⟩
    · exact hy

theorem Progress.exists_value {p q : Pass H} (h : Progress tables depth fs p q) {y : String}
    (hy : ∃ v, p.table.value? y = some v) : ∃ v, q.table.value? y = some v := by
  induction h with
  | refl => exact hy
  | tail _ hx ih => exact hx.exists_value ih

theorem Progress.knownIn {p q : Pass H} (h : Progress tables depth fs p q)
    (hknown : fs.KnownIn p.table) : fs.KnownIn q.table :=
  fun x f hf y hy => h.exists_value (hknown x f hf y hy)

/-- Values change only where a formula was stale and no longer is. -/
theorem Progress.value?_eq {p q : Pass H} (h : Progress tables depth fs p q) (ht : fs.Tracked)
    {y : String} (hy : y ∈ q.stale ∨ y ∉ p.stale ∨ fs[y]? = none) :
    q.table.value? y = p.table.value? y := by
  induction h with
  | refl => rfl
  | @tail q r x hq hx ih =>
    have hone : r.table.value? y = q.table.value? y := by
      by_cases hyx : y = x
      · rcases hx.table_cases with ⟨htable, _⟩ | ⟨f, v, hf, hxq, _⟩
        · rw [htable]
        · -- the symbol is recomputed, which none of the three allows
          subst hyx
          rcases hy with hy | hy | hy
          · exact absurd rfl (hx.mem_stale_iff.1 hy).1
          · exact absurd (hq.stale_subset hxq) hy
          · cases hf.symm.trans hy
      · exact hx.value?_of_ne ht hyx
    rw [hone]
    exact ih (hy.imp_left fun hr => (hx.mem_stale_iff.1 hr).2)

/-- No name comes into the table or leaves it. -/
theorem Progress.isSome_value? {p q : Pass H} (h : Progress tables depth fs p q) (ht : fs.Tracked)
    (hknown : fs.KnownIn p.table) (y : String) :
    (q.table.value? y).isSome = (p.table.value? y).isSome := by
  cases hp : p.table.value? y with
  | some v =>
    obtain ⟨w, hw⟩ := h.exists_value ⟨v, hp⟩
    rw [hw]
    rfl
  | none =>
    -- an unknown name has no formula, so nothing gives it a value
    have hleaf : fs[y]? = none := by
      cases hf : fs[y]? with
      | none => rfl
      | some f =>
        obtain ⟨v, hv⟩ := hknown y f hf y (.inl rfl)
        cases hp.symm.trans hv
    rw [h.value?_eq ht (.inr (.inr hleaf)), hp]

theorem Progress.id_eq {p q : Pass H} (h : Progress tables depth fs p q) :
    q.table.id = p.table.id := by
  induction h with
  | refl => rfl
  | tail _ hx ih => exact hx.id_eq.trans ih

end Pass

/-! ## Reachable solvers -/

namespace Solver

variable {ok : Request H → Solver H → Prop} {settings : Settings} {depth : Nat}

theorem ReachableBy.tracked {s : Solver H} (h : ReachableBy ok settings depth s) :
    s.formulas.Tracked := by
  intro x f hf
  obtain ⟨rfl, text, hparse⟩ := h.parsed x f hf
  exact ⟨rfl, fun y hy => Formula.tracked hparse hy⟩

/-- **What the formulas of a reachable solver mention is known to it.** -/
theorem ReachableBy.known {s : Solver H} (h : ReachableBy ok settings depth s) :
    s.formulas.KnownIn s.table := by
  refine h.induction (P := fun s => s.formulas.KnownIn s.table) ?empty (fun _ ih => ih) ?install
    ?assign ?pass
  case empty =>
    intro id x f hf
    cases Std.ExtTreeMap.getElem?_empty.symm.trans hf
  case install =>
    intro s text f ih _ _ _ x g hg y hy
    by_cases hx : x = f.target
    · subst hx
      have hg : (s.formulas.insert f.target f)[f.target]? = some g := hg
      rw [Std.ExtTreeMap.getElem?_insert_self] at hg
      obtain rfl := Option.some.inj hg
      exact ⟨_, (value?_install s f y).trans (if_pos (List.mem_cons.2 hy))⟩
    · have hg : (s.formulas.insert f.target f)[x]? = some g := hg
      rw [Formulas.getElem?_insert_ne hx] at hg
      obtain ⟨v, hv⟩ := ih x g hg y hy
      exact ⟨v, value?_install_of_some hv⟩
  case assign =>
    intro s z v ih _ _ x g hg y hy
    rw [value?_withValue]
    split
    · exact ⟨v, rfl⟩
    · exact ih x g hg y hy
  case pass =>
    intro s tables z ih x g hg y hy
    exact (Pass.refresh_progress _ _ _ _).1.exists_value (ih x g hg y hy)

end Solver

end Recalc

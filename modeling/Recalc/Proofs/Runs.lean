import Recalc.Proofs.Reachability
import Recalc.Solver.Solve

/-!
# Reachable solvers

A solver is reachable if requests lead to it from a solver that knows nothing. Requests may be
refused or fail, and between two of them listeners may be registered and the tables of others may
change. `ReachableBy` asks in addition for something of each request and the solver after it.

Whatever a request was, it either left the solver as it was, or put a formula in place, or
assigned a value, or kept the state of a pass. `Performs` says so with the answer and the events,
and `perform_cases` is the only place where the requests themselves are taken apart.
-/

namespace Recalc

namespace Solver

variable {H : Type}

/-- The solver with a value assigned. -/
def withValue (s : Solver H) (x : String) (v : Value H) : Solver H :=
  markStale { s with table := s.table.set x v } x

/-- The solver with what a pass left. -/
def afterPass (s : Solver H) (p : Pass H) : Solver H :=
  { s with table := p.table, stale := p.stale }

@[simp] theorem afterPass_formulas (s : Solver H) (p : Pass H) :
    (s.afterPass p).formulas = s.formulas := rfl

@[simp] theorem afterPass_table (s : Solver H) (p : Pass H) :
    (s.afterPass p).table = p.table := rfl

@[simp] theorem afterPass_stale (s : Solver H) (p : Pass H) :
    (s.afterPass p).stale = p.stale := rfl

/-- A definition that is accepted puts the formula in place, and it closes no circle that the
settings forbid. -/
theorem define_eq_ok {s s' : Solver H} {text : String} (h : s.define text = .ok s') :
    ∃ f, Formula.parse text = .ok f ∧
      (s.settings.circles = .atDefinition → s.circle? f = none) ∧ s' = s.install f := by
  rw [define] at h
  cases hf : Formula.parse text with
  | error e => rw [hf] at h; cases h
  | ok f =>
    rw [hf] at h
    dsimp only at h
    refine ⟨f, rfl, ?_⟩
    split at h
    · cases h
    · next hno =>
      refine ⟨?_, (Except.ok.inj h).symm⟩
      intro hs
      cases hc : s.circle? f with
      | none => rfl
      | some path => exact absurd hc (hno path hs)

/-- Where circles are looked for, a formula is put in place unless it closes one. -/
theorem define_atDefinition {s : Solver H} (hs : s.settings.circles = .atDefinition)
    {text : String} {f : Formula} (hf : Formula.parse text = .ok f) :
    s.define text = match s.circle? f with
      | some way => .error (.circular f.target way)
      | none => .ok (s.install f) := by
  rw [define, hf]
  dsimp only
  rw [hs]
  cases s.circle? f <;> rfl

/-- Where they are not looked for, every formula is put in place. -/
theorem define_eq_install {s : Solver H} (hs : s.settings.circles = .atSolve) {text : String}
    {f : Formula} (hf : Formula.parse text = .ok f) : s.define text = .ok (s.install f) := by
  rw [define, hf]
  dsimp only
  rw [hs]

/-- An assignment that is accepted is to a name without formula. -/
theorem assign_eq_ok {s s' : Solver H} {x : String} {v : Value H} (h : s.assign x v = .ok s') :
    s.formulas[x]? = none ∧ s' = s.withValue x v := by
  rw [assign] at h
  split at h
  · cases h
  · next hx =>
    refine ⟨?_, (Except.ok.inj h).symm⟩
    rw [Std.ExtTreeMap.contains_eq_isSome_getElem?] at hx
    simpa using hx

/-- A definition is refused if its text is no formula or closes a circle that is looked for. -/
theorem define_eq_error {s : Solver H} {text : String} {e : SolverError}
    (h : s.define text = .error e) :
    (∃ cause, Formula.parse text = .error cause ∧ e = .formula (.parse cause)) ∨
    ∃ f path, Formula.parse text = .ok f ∧ s.settings.circles = .atDefinition ∧
      s.circle? f = some path ∧ e = .circular f.target path := by
  unfold define at h
  cases hf : Formula.parse text with
  | error cause =>
    rw [hf] at h
    exact .inl ⟨cause, rfl, (Except.error.inj h).symm⟩
  | ok f =>
    rw [hf] at h
    dsimp only at h
    split at h
    · next path hs hc => exact .inr ⟨f, path, rfl, hs, hc, (Except.error.inj h).symm⟩
    · cases h

/-- An assignment is refused if the symbol has a formula. -/
theorem assign_eq_error {s : Solver H} {x : String} {v : Value H} {e : SolverError}
    (h : s.assign x v = .error e) : (∃ f, s.formula? x = some f) ∧ e = .conflicting x := by
  unfold assign at h
  split at h
  · next hx =>
    rw [Std.ExtTreeMap.contains_eq_isSome_getElem?] at hx
    exact ⟨Option.isSome_iff_exists.1 hx, (Except.error.inj h).symm⟩
  · cases h

variable [HostLibrary H]

/-- Solving a known stale symbol makes a pass and then reads the symbol. -/
theorem solve_of_stale (tables : Tables H) (depth : Nat) {s : Solver H} {x : String}
    (hx : s.contains x = true) (hstale : s.isStale x = true) :
    s.solve tables depth x =
      ⟨s.afterPass (s.pass tables depth x).1, s.eventsFor (s.pass tables depth x).1.recomputed,
        (s.pass tables depth x).2 >>= fun _ => (s.afterPass (s.pass tables depth x).1).read x⟩ := by
  rw [solve, hx, hstale]
  rfl

/-- Solving any other name only reads it. -/
theorem solve_of_not_stale (tables : Tables H) (depth : Nat) {s : Solver H} {x : String}
    (h : ¬ (s.contains x = true ∧ s.isStale x = true)) :
    s.solve tables depth x = ⟨s, [], s.read x⟩ := by
  rw [← Bool.and_eq_true] at h
  rw [solve, if_neg h]

/-- A solve leaves the formulas alone. -/
theorem solve_formulas (tables : Tables H) (depth : Nat) (s : Solver H) (x : String) :
    (s.solve tables depth x).solver.formulas = s.formulas := by
  rw [solve]
  split
  · rfl
  · rfl

/-- All that a request can do to a solver, and the reply to it. -/
inductive Performs (tables : Tables H) (depth : Nat) (s : Solver H) :
    Request H → Reply H (Option (Value H)) → Prop where
  | installed {text : String} {f : Formula} (parse : Formula.parse text = .ok f)
      (circle : s.settings.circles = .atDefinition → s.circle? f = none) :
      Performs tables depth s (.define text) ⟨s.install f, [], .value none⟩
  | notInstalled {text : String} {e : SolverError} (refused : s.define text = .error e) :
      Performs tables depth s (.define text) ⟨s, [], .error e⟩
  | assigned {x : String} (v : Value H) (leaf : s.formulas[x]? = none) :
      Performs tables depth s (.assign x v) ⟨s.withValue x v, [], .value none⟩
  | notAssigned {x : String} {v : Value H} {e : SolverError} (refused : s.assign x v = .error e) :
      Performs tables depth s (.assign x v) ⟨s, [], .error e⟩
  | passed {x : String} (known : s.contains x = true) (stale : s.isStale x = true) :
      Performs tables depth s (.solve x)
        ⟨s.afterPass (s.pass tables depth x).1, s.eventsFor (s.pass tables depth x).1.recomputed,
          ((s.pass tables depth x).2 >>= fun _ =>
            (s.afterPass (s.pass tables depth x).1).read x).map some⟩
  | read {x : String} (idle : ¬ (s.contains x = true ∧ s.isStale x = true)) :
      Performs tables depth s (.solve x) ⟨s, [], (s.read x).map some⟩

theorem perform_cases (tables : Tables H) (depth : Nat) (s : Solver H) (r : Request H) :
    Performs tables depth s r (s.perform tables depth r) := by
  cases r with
  | define text =>
    rw [perform]
    cases hd : s.define text with
    | error e => exact .notInstalled hd
    | ok s' =>
      obtain ⟨f, hf, hc, rfl⟩ := define_eq_ok hd
      exact .installed hf hc
  | assign x v =>
    rw [perform]
    cases ha : s.assign x v with
    | error e => exact .notAssigned ha
    | ok s' =>
      obtain ⟨hx, rfl⟩ := assign_eq_ok ha
      exact .assigned v hx
  | solve x =>
    rw [perform]
    by_cases hx : s.contains x = true ∧ s.isStale x = true
    · rw [solve_of_stale tables depth hx.1 hx.2]
      exact .passed hx.1 hx.2
    · rw [solve_of_not_stale tables depth hx]
      exact .read hx

/--
The solvers that requests lead to, made at any time and answered over any tables, where
`ok request after` holds of each request and the solver after it.
-/
inductive ReachableBy (ok : Request H → Solver H → Prop) (settings : Settings) (depth : Nat) :
    Solver H → Prop where
  | empty (id : TableId) : ReachableBy ok settings depth (.empty settings id)
  | listen {s : Solver H} : ReachableBy ok settings depth s →
      ReachableBy ok settings depth s.listen
  | perform {s : Solver H} (tables : Tables H) (r : Request H) :
      ReachableBy ok settings depth s → ok r (s.perform tables depth r).solver →
      ReachableBy ok settings depth (s.perform tables depth r).solver

/-- The solvers that any requests lead to. -/
abbrev Reachable (settings : Settings) (depth : Nat) : Solver H → Prop :=
  ReachableBy (fun _ _ => True) settings depth

variable {ok : Request H → Solver H → Prop} {settings : Settings} {depth : Nat}

/-- No request changes the settings. -/
theorem perform_settings (tables : Tables H) (depth : Nat) (s : Solver H) (r : Request H) :
    (s.perform tables depth r).solver.settings = s.settings := by
  have hcases := s.perform_cases tables depth r
  generalize s.perform tables depth r = reply at hcases
  cases hcases <;> rfl

theorem ReachableBy.settings_eq {s : Solver H} (h : ReachableBy ok settings depth s) :
    s.settings = settings := by
  induction h with
  | empty id => rfl
  | listen _ ih => exact ih
  | perform tables r _ _ ih => exact (perform_settings tables depth _ r).trans ih

/-- To show something of all reachable solvers, show that what a request can do to a reachable
solver keeps it. -/
theorem ReachableBy.strongInduction {P : Solver H → Prop}
    (empty : ∀ id, P (.empty settings id))
    (listen : ∀ s, ReachableBy ok settings depth s → P s → P s.listen)
    (install : ∀ s text f, ReachableBy ok settings depth s → P s →
      Formula.parse text = .ok f → (settings.circles = .atDefinition → s.circle? f = none) →
      ok (.define text) (s.install f) → P (s.install f))
    (assign : ∀ s x v, ReachableBy ok settings depth s → P s → s.formulas[x]? = none →
      ok (.assign x v) (s.withValue x v) → P (s.withValue x v))
    (pass : ∀ s tables x, ReachableBy ok settings depth s → P s →
      P (s.afterPass (s.pass tables depth x).1))
    {s : Solver H} (h : ReachableBy ok settings depth s) : P s := by
  induction h with
  | empty id => exact empty id
  | listen hs ih => exact listen _ hs ih
  | @perform s tables r hs hok ih =>
    have hcases := s.perform_cases tables depth r
    generalize s.perform tables depth r = reply at hcases hok
    cases hcases with
    | installed hf hc => exact install s _ _ hs ih hf (hs.settings_eq ▸ hc) hok
    | notInstalled => exact ih
    | assigned v hx => exact assign s _ v hs ih hx hok
    | notAssigned => exact ih
    | passed => exact pass s tables _ hs ih
    | read => exact ih

/-- It is enough to know of the solver before that it has what is to be shown. -/
theorem ReachableBy.induction {P : Solver H → Prop}
    (empty : ∀ id, P (.empty settings id))
    (listen : ∀ s, P s → P s.listen)
    (install : ∀ s text f, P s → Formula.parse text = .ok f →
      (settings.circles = .atDefinition → s.circle? f = none) →
      ok (.define text) (s.install f) → P (s.install f))
    (assign : ∀ s x v, P s → s.formulas[x]? = none → ok (.assign x v) (s.withValue x v) →
      P (s.withValue x v))
    (pass : ∀ s tables x, P s → P (s.afterPass (s.pass tables depth x).1))
    {s : Solver H} (h : ReachableBy ok settings depth s) : P s :=
  h.strongInduction empty (fun s _ => listen s) (fun s text f _ => install s text f)
    (fun s x v _ => assign s x v) (fun s tables x _ => pass s tables x)

/-- Every formula was read from a text, and it is kept under its target. -/
theorem ReachableBy.parsed {s : Solver H} (h : ReachableBy ok settings depth s) (x : String)
    (f : Formula) (hf : s.formulas[x]? = some f) :
    f.target = x ∧ ∃ text, Formula.parse text = .ok f := by
  refine h.induction (P := fun s => ∀ (x : String) (f : Formula), s.formulas[x]? = some f →
    f.target = x ∧ ∃ text, Formula.parse text = .ok f) ?empty (fun _ ih => ih) ?install
    (fun _ _ _ ih _ _ => ih) (fun _ _ _ ih => ih) x f hf
  case empty =>
    intro id x f hf
    cases Std.ExtTreeMap.getElem?_empty.symm.trans hf
  case install =>
    intro s text f ih hparse _ _ x g hg
    by_cases hx : x = f.target
    · subst hx
      have hg : (s.formulas.insert f.target f)[f.target]? = some g := hg
      rw [Std.ExtTreeMap.getElem?_insert_self] at hg
      obtain rfl := Option.some.inj hg
      exact ⟨rfl, text, hparse⟩
    · have hg : (s.formulas.insert f.target f)[x]? = some g := hg
      rw [Formulas.getElem?_insert_ne hx] at hg
      exact ih x g hg

/-- What is true of no formulas, and asked of the formulas after each request, is true of those of
a reachable solver. -/
theorem ReachableBy.formulas {P : Formulas → Prop} (hempty : P ∅)
    (hok : ∀ r s, ok r s → P s.formulas) {s : Solver H} (h : ReachableBy ok settings depth s) :
    P s.formulas :=
  h.induction (P := fun s => P s.formulas) (fun _ => hempty) (fun _ ih => ih)
    (fun _ _ _ _ _ _ hafter => hok _ _ hafter) (fun _ _ _ ih _ _ => ih) (fun _ _ _ ih => ih)

/-- Each request of a list is as `ok` asks, with the solver after it. -/
def Allowed (ok : Request H → Solver H → Prop) (tables : Tables H) (depth : Nat) :
    Solver H → List (Request H) → Prop
  | _, [] => True
  | s, r :: rs => ok r (s.perform tables depth r).solver ∧
      Allowed ok tables depth (s.perform tables depth r).solver rs

instance Allowed.decidable [∀ r s, Decidable (ok r s)] (tables : Tables H) (depth : Nat) :
    (s : Solver H) → (rs : List (Request H)) → Decidable (Allowed ok tables depth s rs)
  | _, [] => inferInstanceAs (Decidable True)
  | s, r :: rs =>
    have := Allowed.decidable tables depth (s.perform tables depth r).solver rs
    inferInstanceAs (Decidable (_ ∧ _))

/-- Lists of requests that are allowed lead to reachable solvers. -/
theorem ReachableBy.performAll (tables : Tables H) (rs : List (Request H)) {s : Solver H}
    (h : ReachableBy ok settings depth s) (hrs : Allowed ok tables depth s rs) :
    ReachableBy ok settings depth (s.performAll tables depth rs) := by
  induction rs generalizing s with
  | nil => exact h
  | cons r rs ih => exact ih (.perform tables r h hrs.1) hrs.2

/-- Where nothing is asked of requests, all lists of them lead to reachable solvers. -/
theorem Reachable.afterAll (tables : Tables H) (rs : List (Request H)) {s : Solver H}
    (h : Reachable settings depth s) : Reachable settings depth (s.performAll tables depth rs) := by
  induction rs generalizing s with
  | nil => exact h
  | cons r rs ih => exact ih (.perform tables r h trivial)

end Solver

end Recalc

import Mathlib.Data.List.Nodup
import Recalc.Proofs.Agreement
import Recalc.Proofs.Known

/-!
# Solving again, and in another order

A solve leaves a solver that differs from the one before only in what has been recomputed, and what
a later solve does never shows what was recomputed before. Two things make it so:

* **The pass for a symbol finishes the same symbols before and after.** It is the pass of two
  solvers with the same formulas, so the two are in step. Which symbols a solve makes current is
  then known in advance, also for a solve that fails.
* **A symbol leaves the stale ones once.** It is recomputed when it does, and no solve makes a
  symbol stale.

So the stale symbols after some solves are those that none of their passes finishes, whatever the
order and however often each was asked for, and the values are those that coherence leaves no choice
about.
-/

namespace Recalc

namespace Pass

variable {H : Type} [HostLibrary H] {depth : Nat} {o : String → Value H} {fs : Formulas}
  {tables : Tables H}

/-! ## What a pass leaves -/

/-- What is stale afterwards is what was stale and has not been finished. -/
theorem Progress.mem_stale_iff {p q : Pass H} (hp : ∀ y ∈ p.finished, y ∉ p.stale)
    (h : Progress tables depth fs p q) {y : String} :
    y ∈ q.stale ↔ y ∈ p.stale ∧ y ∉ q.finished := by
  induction h with
  | refl => exact ⟨fun hy => ⟨hy, fun hf => hp y hf hy⟩, fun hy => hy.1⟩
  | tail _ hx ih =>
    rw [hx.mem_stale_iff, ih, hx.finished_eq, NameSet.mem_insert_iff, not_or]
    exact ⟨fun ⟨hne, hs, hf⟩ => ⟨hs, hne, hf⟩, fun ⟨hs, hne, hf⟩ => ⟨hne, hs, hf⟩⟩

/-- The symbols recomputed are different ones, each stale before and current afterwards. -/
theorem Progress.recomputed_eq {p q : Pass H} (h : Progress tables depth fs p q) :
    ∃ xs, q.recomputed = p.recomputed ++ xs ∧ xs.Nodup ∧ ∀ x ∈ xs, x ∈ p.stale ∧ x ∉ q.stale := by
  induction h with
  | refl => exact ⟨[], by simp, List.nodup_nil, fun _ hx => absurd hx List.not_mem_nil⟩
  | @tail q r z hq hz ih =>
    obtain ⟨xs, hxs, hnodup, hmem⟩ := ih
    have hleft : ∀ x ∈ xs, x ∈ p.stale ∧ x ∉ r.stale := by
      intro x hx
      obtain ⟨hxp, hxq⟩ := hmem x hx
      exact ⟨hxp, fun hr => hxq (hz.mem_stale_iff.1 hr).2⟩
    have hself : z ∉ r.stale := fun hr => (hz.mem_stale_iff.1 hr).1 rfl
    cases hz with
    | leaf => exact ⟨xs, hxs, hnodup, hleft⟩
    | current => exact ⟨xs, hxs, hnodup, hleft⟩
    | @recomputed f table _ _ _ hzq _ =>
      -- those recomputed before are current by now, so the symbol is none of them
      have hnew : z ∉ xs := fun hz => (hmem z hz).2 hzq
      have hall : ∀ x ∈ xs ++ [z], x ∈ p.stale ∧ x ∉ q.stale.erase z := by
        intro x hx
        rcases List.mem_append.mp hx with hx | hx
        · exact hleft x hx
        · rw [List.mem_singleton.mp hx]
          exact ⟨hq.stale_subset hzq, hself⟩
      refine ⟨xs ++ [z], ?_, ?_, hall⟩
      · show q.recomputed ++ [z] = _
        rw [hxs, List.append_assoc]
      · exact hnodup.append (List.nodup_singleton z) (List.disjoint_singleton.2 hnew)

/-- A pass that finishes only current symbols changes nothing. -/
theorem Progress.idle {p q : Pass H} (h : Progress tables depth fs p q)
    (hq : ∀ y ∈ q.finished, y ∉ p.stale) :
    q.table = p.table ∧ q.stale = p.stale ∧ q.recomputed = p.recomputed := by
  induction h with
  | refl => exact ⟨rfl, rfl, rfl⟩
  | @tail q r x _ hx ih =>
    rw [hx.finished_eq] at hq
    have hbefore : ∀ y ∈ q.finished, y ∉ p.stale := by
      intro y hy
      exact hq y (NameSet.mem_insert_iff.2 (.inr hy))
    obtain ⟨htable, hstale, hrec⟩ := ih hbefore
    have hxs : x ∉ q.stale := by
      rw [hstale]
      exact hq x (NameSet.mem_insert_iff.2 (.inl rfl))
    cases hx with
    | leaf => exact ⟨htable, (NameSet.erase_of_not_mem hxs).trans hstale, hrec⟩
    | current => exact ⟨htable, hstale, hrec⟩
    | recomputed _ _ _ hx _ => exact absurd hx hxs

end Pass

/-! ## What solves leave -/

theorem Value.Alike.refl {H : Type} (v : Value H) : v.Alike v := by
  match v with
  | .number x => exact .number x
  | .callable (.compiled f) => exact .callable (.compiled ⟨rfl, rfl, rfl⟩)
  | .callable (.host f) => exact .callable (.host f)

theorem rel_alike_refl {H : Type} (v : Option (Value H)) : Option.Rel Value.Alike v v := by
  cases v with
  | none => exact .none
  | some v => exact .some (.refl v)

namespace Solver

variable {H : Type}

theorem eventsFor_append (s : Solver H) (xs ys : List String) :
    s.eventsFor (xs ++ ys) = s.eventsFor xs ++ s.eventsFor ys := by
  rw [eventsFor, eventsFor, eventsFor]
  split
  · exact List.flatMap_append
  · rfl

theorem mem_eventsFor {s : Solver H} {xs : List String} {i : Nat} {x : String} :
    ⟨i, x⟩ ∈ s.eventsFor xs ↔ s.settings.announces = true ∧ i < s.listeners ∧ x ∈ xs := by
  rw [eventsFor]
  split
  · next hs => simp [hs, and_comm]
  · next hs => simp [hs]

/-- Different symbols make different events. -/
theorem nodup_eventsFor (s : Solver H) {xs : List String} (h : xs.Nodup) :
    (s.eventsFor xs).Nodup := by
  rw [eventsFor]
  split
  · rw [List.nodup_flatMap]
    constructor
    · intro x _
      refine List.Nodup.map ?_ List.nodup_range
      intro i j hij
      exact congrArg Event.listener hij
    · refine h.imp ?_
      intro x y hxy e hx hy
      obtain ⟨i, _, rfl⟩ := List.mem_map.mp hx
      obtain ⟨j, _, hj⟩ := List.mem_map.mp hy
      exact hxy (congrArg Event.symbol hj).symm
  · exact List.nodup_nil

theorem contains_eq_isSome (s : Solver H) (x : String) :
    s.contains x = (s.table.value? x).isSome := by
  rw [contains, Table.contains, Table.value?, Std.ExtTreeMap.contains_eq_isSome_getElem?]

variable [HostLibrary H] {depth : Nat} {o : String → Value H}

/-- `s'` is `s` with some stale symbols made current, from the same origins. -/
structure Settles (depth : Nat) (o : String → Value H) (s s' : Solver H) : Prop where
  coherent : Coherent depth o s'.formulas s'.table s'.stale
  formulas : s'.formulas = s.formulas
  settings : s'.settings = s.settings
  listeners : s'.listeners = s.listeners
  stale : ∀ y, y ∈ s'.stale → y ∈ s.stale
  keep : ∀ y, y ∈ s'.stale ∨ s.formulas[y]? = none → s'.table.value? y = s.table.value? y
  known : ∀ y, s'.contains y = s.contains y

theorem Settles.refl {s : Solver H} (h : Coherent depth o s.formulas s.table s.stale) :
    Settles depth o s s :=
  ⟨h, rfl, rfl, rfl, fun _ hy => hy, fun _ _ => rfl, fun _ => rfl⟩

theorem Settles.trans {s s' s'' : Solver H} (h : Settles depth o s s')
    (h' : Settles depth o s' s'') : Settles depth o s s'' where
  coherent := h'.coherent
  formulas := h'.formulas.trans h.formulas
  settings := h'.settings.trans h.settings
  listeners := h'.listeners.trans h.listeners
  stale y hy := h.stale y (h'.stale y hy)
  keep y hy := by
    rw [h'.keep y (hy.imp_right fun hf => h.formulas ▸ hf)]
    exact h.keep y (hy.imp_left (h'.stale y))
  known y := (h'.known y).trans (h.known y)

/-- A name that is not known is not solved. -/
theorem solve_of_unknown (tables : Tables H) (depth : Nat) {s : Solver H} {x : String}
    (hx : ¬ s.contains x = true) : s.solve tables depth x = ⟨s, [], .error (.unknown x)⟩ := by
  rw [solve_of_not_stale tables depth fun h => hx h.1]
  rw [contains_eq_isSome, Option.isSome_iff_exists, not_exists] at hx
  rw [read, Option.eq_none_iff_forall_ne_some.2 hx]

/-- A symbol that is solved is known, and its pass succeeds. -/
theorem pass_of_solved {s : Solver H} (hm : s.formulas.Marks s.stale) {tables : Tables H}
    {x : String} {v : Value H} (h : (s.solve tables depth x).answer = .value v) :
    s.contains x = true ∧ (s.pass tables depth x).2 = .value () := by
  by_cases hx : s.contains x = true
  · rw [solve_eq_pass hm tables depth hx] at h
    refine ⟨hx, ?_⟩
    cases hpass : (s.pass tables depth x).2 with
    | value u => rfl
    | error e => rw [hpass] at h; cases h
    | exhausted => rw [hpass] at h; cases h
  · rw [solve_of_unknown tables depth hx] at h
    cases h

/-- If solving a known symbol fails, its pass does. -/
theorem pass_of_failed {s : Solver H} (hm : s.formulas.Marks s.stale) {tables : Tables H}
    {x : String} {e : SolverError} (hx : s.contains x = true)
    (h : (s.solve tables depth x).answer = .error e) : (s.pass tables depth x).2 = .error e := by
  rw [solve_eq_pass hm tables depth hx] at h
  cases hpass : (s.pass tables depth x).2 with
  | value u =>
    -- the symbol is still known after the pass, so reading it does not fail
    rw [contains_eq_isSome, Option.isSome_iff_exists] at hx
    obtain ⟨v, hv⟩ := (s.pass_progress tables depth x).exists_value hx
    have hread : (s.afterPass (s.pass tables depth x).1).read x = .value v := by
      rw [read, afterPass_table, hv]
    rw [hpass] at h
    cases h.symm.trans hread
  | error e' =>
    rw [hpass] at h
    cases h
    rfl
  | exhausted => rw [hpass] at h; cases h

/-- The symbols that the pass for a symbol finishes. -/
def settledBy (tables : Tables H) (depth : Nat) (s : Solver H) (x : String) : NameSet :=
  (s.pass tables depth x).1.finished

theorem Settles.pass (hH : HostLibrary.Uniform H) {s : Solver H}
    (h : Coherent depth o s.formulas s.table s.stale) (tables : Tables H) (x : String) :
    Settles depth o s (s.afterPass (s.pass tables depth x).1) := by
  have hprogress := s.pass_progress tables depth x
  have hstart := Pass.Sound.start h
  refine ⟨(hstart.progress hH hprogress).coherent, rfl, rfl, rfl, ?stale, ?keep, ?known⟩
  case stale =>
    intro y hy
    exact ((hprogress.mem_stale_iff hstart.current).1 hy).1
  case keep =>
    intro y hy
    exact hprogress.value?_eq h.tracked (hy.imp_right .inr)
  case known =>
    intro y
    rw [contains_eq_isSome, contains_eq_isSome]
    exact hprogress.isSome_value? h.tracked h.known y

/-- A solve makes some stale symbols current. -/
theorem Settles.solve (hH : HostLibrary.Uniform H) {s s' : Solver H} (h : Settles depth o s s')
    (tables : Tables H) (x : String) : Settles depth o s (s'.solve tables depth x).solver := by
  by_cases hx : s'.contains x = true
  · rw [solve_eq_pass h.coherent.marks tables depth hx]
    exact h.trans (.pass hH h.coherent tables x)
  · rw [solve_of_unknown tables depth hx]
    exact h

/-- What was recomputed before makes no difference to the formulas. -/
theorem Settles.matched {s s' : Solver H} (h : Settles depth o s s') :
    Pass.Matched (fun _ => True) o o s.formulas s'.formulas := by
  rw [h.formulas]
  exact ⟨fun _ _ hf => hf, fun _ f _ hf => ⟨f, hf, rfl, rfl, rfl⟩, fun _ _ _ _ => trivial,
    fun _ _ _ _ _ _ => rfl⟩

/-- **The pass for a symbol finishes the same symbols, whatever has been recomputed before.** -/
theorem Settles.settledBy_eq (hH : HostLibrary.Uniform H) {s s' : Solver H}
    (hs : Coherent depth o s.formulas s.table s.stale) (h : Settles depth o s s')
    (tables tables' : Tables H) (x : String) :
    s'.settledBy tables' depth x = s.settledBy tables depth x := by
  have hleaf : ∀ y, True → s.formulas[y]? = none → s.table.value? y = s'.table.value? y := by
    intro y _ hf
    exact (h.keep y (.inr hf)).symm
  have hpass := pass_inStep hH hs h.coherent h.matched hleaf tables tables' (x := x) trivial
  exact hpass.2.finished

/-- A solve makes current what its pass finishes, and nothing else. -/
theorem Settles.mem_stale_solve (hH : HostLibrary.Uniform H) {s s' : Solver H}
    (hs : Coherent depth o s.formulas s.table s.stale) (h : Settles depth o s s')
    (tables tables' : Tables H) {x y : String} :
    y ∈ (s'.solve tables' depth x).solver.stale ↔
      y ∈ s'.stale ∧ (s.contains x = true → y ∉ s.settledBy tables depth x) := by
  rw [← h.known x]
  by_cases hx : s'.contains x = true
  · rw [solve_eq_pass h.coherent.marks tables' depth hx, ← h.settledBy_eq hH hs tables tables' x]
    have hprogress := s'.pass_progress tables' depth x
    refine (hprogress.mem_stale_iff (Pass.Sound.start h.coherent).current).trans ?_
    exact and_congr_right fun _ => ⟨fun hy _ => hy, fun hy => hy hx⟩
  · rw [solve_of_unknown tables' depth hx]
    exact ⟨fun hy => ⟨hy, fun hk => absurd hk hx⟩, fun hy => hy.1⟩

/-- The events of a solve are those of different symbols that it makes current. -/
theorem Settles.events_solve {s s' : Solver H} (h : Settles depth o s s') (tables : Tables H)
    (x : String) : ∃ xs, (s'.solve tables depth x).events = s.eventsFor xs ∧ xs.Nodup ∧
      ∀ y ∈ xs, y ∈ s'.stale ∧ y ∉ (s'.solve tables depth x).solver.stale := by
  have hevents : ∀ xs, s'.eventsFor xs = s.eventsFor xs := by
    intro xs
    rw [eventsFor, eventsFor, h.settings, h.listeners]
  by_cases hx : s'.contains x = true
  · rw [solve_eq_pass h.coherent.marks tables depth hx]
    obtain ⟨xs, hxs, hnodup, hmem⟩ := (s'.pass_progress tables depth x).recomputed_eq
    refine ⟨xs, ?_, hnodup, hmem⟩
    have hxs : (s'.pass tables depth x).1.recomputed = xs := hxs
    rw [← hevents, ← hxs]
  · rw [solve_of_unknown tables depth hx]
    exact ⟨[], (s.eventsFor_nil).symm, List.nodup_nil, fun _ hy => absurd hy List.not_mem_nil⟩

/-- What is left after some solves, and what has been told of them. -/
theorem Settles.solveEach (hH : HostLibrary.Uniform H) {s s' : Solver H}
    (hs : Coherent depth o s.formulas s.table s.stale) (h : Settles depth o s s')
    (tables tables' : Tables H) (xs : List String) :
    Settles depth o s (s'.solveEach tables' depth xs).1 ∧
    (∀ y, y ∈ (s'.solveEach tables' depth xs).1.stale ↔ y ∈ s'.stale ∧
      ∀ x ∈ xs, s.contains x = true → y ∉ s.settledBy tables depth x) ∧
    ∃ rs, (s'.solveEach tables' depth xs).2.1 = s.eventsFor rs ∧ rs.Nodup ∧
      ∀ y ∈ rs, y ∈ s'.stale ∧ y ∉ (s'.solveEach tables' depth xs).1.stale := by
  induction xs generalizing s' with
  | nil =>
    exact ⟨h, fun y => ⟨fun hy => ⟨hy, fun _ hx => absurd hx List.not_mem_nil⟩, fun hy => hy.1⟩,
      [], (s.eventsFor_nil).symm, List.nodup_nil, fun _ hy => absurd hy List.not_mem_nil⟩
  | cons x xs ih =>
    obtain ⟨hsettles, hstale, rs, hrs, hnodup, hmem⟩ := ih (h.solve hH tables' x)
    have hone := fun y => h.mem_stale_solve hH hs tables tables' (x := x) (y := y)
    obtain ⟨qs, hqs, hqnodup, hqmem⟩ := h.events_solve tables' x
    -- what the first solve made current is not stale for those behind it
    have hdisjoint : qs.Disjoint rs := by
      intro y hyq hyr
      exact (hqmem y hyq).2 (hmem y hyr).1
    refine ⟨hsettles, ?stale, qs ++ rs, ?events, hqnodup.append hnodup hdisjoint, ?told⟩
    case stale =>
      intro y
      refine (hstale y).trans ?_
      rw [hone, List.forall_mem_cons, and_assoc]
    case events =>
      show (s'.solve tables' depth x).events ++ _ = _
      rw [hqs, hrs, eventsFor_append]
    case told =>
      intro y hy
      rcases List.mem_append.mp hy with hy | hy
      · obtain ⟨hbefore, hafter⟩ := hqmem y hy
        exact ⟨hbefore, fun hlast => hafter ((hstale y).1 hlast).1⟩
      · obtain ⟨hbefore, hafter⟩ := hmem y hy
        exact ⟨((hone y).1 hbefore).1, hafter⟩

/-- **Coherence leaves no choice**: with the same symbols stale, the values are alike. -/
theorem Settles.value_alike (hH : HostLibrary.Uniform H) {s a b : Solver H}
    (ha : Settles depth o s a) (hb : Settles depth o s b) (hab : a.stale = b.stale) (x : String) :
    Option.Rel Value.Alike (a.table.value? x) (b.table.value? x) := by
  by_cases hx : x ∈ a.stale
  · rw [ha.keep x (.inl hx), hb.keep x (.inl (hab ▸ hx))]
    exact rel_alike_refl _
  · have hxa : a.isStale x = false := by
      rw [isStale, Bool.eq_false_iff]
      exact fun h => hx (Std.ExtTreeSet.mem_iff_contains.2 h)
    have hxb : b.isStale x = false := by rw [isStale, ← hab]; exact hxa
    have hm : Pass.Matched (fun _ => True) o o a.formulas b.formulas := by
      rw [ha.formulas]
      exact hb.matched
    have hleaf : ∀ y, True → a.formulas[y]? = none → a.table.value? y = b.table.value? y := by
      intro y _ hf
      rw [ha.formulas] at hf
      rw [ha.keep y (.inr hf), hb.keep y (.inr hf)]
    -- passes that change nothing are in step, and both finish the symbol
    obtain ⟨finished, hpa⟩ := pass_of_current ha.coherent.marks .empty depth hxa
    obtain ⟨_, hpb⟩ := pass_of_current hb.coherent.marks .empty depth hxb
    have hfinished := (Pass.refresh_progress _ _ _ _).2 (congrArg Prod.snd hpa)
    have hstep := (pass_inStep hH ha.coherent hb.coherent hm hleaf .empty .empty
      (x := x) trivial).2
    have hvalue := hstep.value_alike hm hfinished
    rwa [hpa, hpb] at hvalue

/-- A solve is answered as it would have been before. -/
theorem Settles.answer (hH : HostLibrary.Uniform H) {s s' : Solver H}
    (hs : Coherent depth o s.formulas s.table s.stale) (h : Settles depth o s s')
    (tables tables' : Tables H) (x : String) :
    Outcome.Related Value.Alike (s.solve tables depth x).answer
      (s'.solve tables' depth x).answer := by
  have hknown := h.known x
  by_cases hx : s.contains x = true
  · exact answer_alike hH hs h.coherent h.matched (fun y _ hf => (h.keep y (.inr hf)).symm) tables
      tables' trivial hx (hknown.trans hx)
  · rw [solve_of_unknown tables depth hx, solve_of_unknown tables' depth (hknown ▸ hx)]
    exact .error _

/-- A solve changes nothing if nothing is left to do for it. -/
theorem Settles.solve_idle (hH : HostLibrary.Uniform H) {s s' : Solver H}
    (hs : Coherent depth o s.formulas s.table s.stale) (h : Settles depth o s s')
    (tables tables' : Tables H) {x : String}
    (hx : s.contains x = true → ∀ y ∈ s.settledBy tables depth x, y ∉ s'.stale) :
    (s'.solve tables' depth x).solver = s' ∧ (s'.solve tables' depth x).events = [] := by
  by_cases hk : s'.contains x = true
  · have hcurrent : ∀ y ∈ s'.settledBy tables' depth x, y ∉ s'.stale := by
      rw [h.settledBy_eq hH hs tables tables' x]
      exact hx (h.known x ▸ hk)
    obtain ⟨htable, hstale, hrecomputed⟩ := (s'.pass_progress tables' depth x).idle hcurrent
    rw [solve_eq_pass h.coherent.marks tables' depth hk, afterPass, htable, hstale, hrecomputed]
    exact ⟨rfl, s'.eventsFor_nil⟩
  · rw [solve_of_unknown tables' depth hk]
    exact ⟨rfl, rfl⟩

/--
**Solves commute, and a solve need not be made twice.**

From a solver that definitions, assignments of plain values and solves have led to, where a symbol
whose formula for a value refers to it holds no compiled function, let some symbols be solved, in
any order, any number of times and whether the solves succeed or fail. Then

* a solve is answered as it would have been before them, by an equal number, a function of the same
  definition or the same error;
* which symbols are stale and what values all symbols have depends only on which symbols were
  solved;
* each listener is told of a symbol at most once;
* solving one of the symbols again changes nothing and tells nobody of anything.
-/
theorem solves_commute (hH : HostLibrary.Uniform H) {settings : Settings} {s : Solver H}
    (h : ReachableBy (fun r s => r.AssignsPlain ∧ s.SelfReadersPlain) settings depth s)
    (tables tables' : Tables H) (xs : List String) :
    (∀ x, Outcome.Related Value.Alike (s.solve tables depth x).answer
      ((s.solveEach tables depth xs).1.solve tables' depth x).answer) ∧
    (∀ ys, (∀ x, x ∈ xs ↔ x ∈ ys) →
      (s.solveEach tables depth xs).1.stale = (s.solveEach tables' depth ys).1.stale ∧
      ∀ x, Option.Rel Value.Alike ((s.solveEach tables depth xs).1.table.value? x)
        ((s.solveEach tables' depth ys).1.table.value? x)) ∧
    (s.solveEach tables depth xs).2.1.Nodup ∧
    (∀ x ∈ xs, ((s.solveEach tables depth xs).1.solve tables' depth x).solver =
        (s.solveEach tables depth xs).1 ∧
      ((s.solveEach tables depth xs).1.solve tables' depth x).events = []) := by
  obtain ⟨o, hs⟩ := h.coherent hH fun _ _ hok => hok
  obtain ⟨hxs, hstale, rs, hevents, hnodup, _⟩ :=
    (Settles.refl hs).solveEach hH hs tables tables xs
  refine ⟨?answer, ?order, ?events, ?again⟩
  case answer => exact fun x => hxs.answer hH hs tables tables' x
  case order =>
    intro ys hys
    obtain ⟨hys', hstale', _⟩ := (Settles.refl hs).solveEach hH hs tables tables' ys
    have heq : (s.solveEach tables depth xs).1.stale = (s.solveEach tables' depth ys).1.stale := by
      refine Std.ExtTreeSet.ext_mem ?_
      intro y
      rw [hstale, hstale']
      simp only [hys]
    exact ⟨heq, hxs.value_alike hH hys' heq⟩
  case events =>
    rw [hevents]
    exact s.nodup_eventsFor hnodup
  case again =>
    intro x hx
    refine hxs.solve_idle hH hs tables tables' ?_
    intro hk y hy hys
    exact ((hstale y).1 hys).2 x hx hk hy

/-- A solver with a listener, a symbol that counts itself up, and a formula that always fails. -/
def counter : Solver StandardHost :=
  performAll .empty 8 (listen (.empty {} 0))
    [.assign "n" (.number 1), .assign "step" (.number 2), .define "n = n + step",
      .define "f(x) = x * step", .define "total = f(n) + 1", .define "broken = n(1)"]

theorem solves_commute_counter :
    Outcome.Related Value.Alike (counter.solve .empty 8 "total").answer
      ((counter.solveEach .empty 8 ["broken", "total", "n", "broken"]).1.solve .empty 8
        "total").answer ∧
    (counter.solve .empty 8 "total").answer = .value (.number 7) ∧
    (counter.solveEach .empty 8 ["broken", "total", "n", "broken"]).2.1.Nodup ∧
    (counter.solveEach .empty 8 ["broken", "total", "n", "broken"]).2.1 =
      [⟨0, "n"⟩, ⟨0, "f"⟩, ⟨0, "total"⟩] := by
  have h : ReachableBy (fun r s => r.AssignsPlain ∧ s.SelfReadersPlain) {} 8 counter :=
    .performAll .empty _ (.listen (.empty 0)) (by decide +kernel)
  obtain ⟨hanswer, _, hevents, _⟩ := solves_commute StandardHost.uniform h .empty .empty
    ["broken", "total", "n", "broken"]
  exact ⟨hanswer "total", by decide +kernel, hevents, by decide +kernel⟩

end Solver

end Recalc

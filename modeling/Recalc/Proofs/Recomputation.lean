import Recalc.Proofs.Confluence
import Recalc.Proofs.Histories

/-!
# Recomputation follows changes

A symbol with a formula is recomputed when it was stale and a pass reaches it, and becomes stale
when it, or a symbol that it depends on, is defined or assigned. Over a whole history the two
alternate:

* **Between two recomputations there is a change.** What was recomputed is current, and it has to
  become stale before it is recomputed again. The names that it depends on may be others by then;
  the last change that made it stale was one of those it depends on now.
* **After a change there is one recomputation.** As long as neither the symbol nor anything below
  it changes, the names below it stay the same. The symbol stays stale until it is recomputed, by
  whatever solve that is and however that solve ends, and is current from then on.
-/

namespace Recalc

variable {H : Type} [HostLibrary H] {settings : Settings} {depth : Nat} {tables : Tables H}

/-- A symbol with a formula that a pass makes current is recomputed. -/
theorem Pass.Progress.mem_recomputed {fs : Formulas} {p q : Pass H}
    (h : Progress tables depth fs p q) {x : String} {f : Formula} (hf : fs[x]? = some f)
    (hp : x ∈ p.stale) (hq : x ∉ q.stale) : x ∈ q.recomputed := by
  induction h with
  | refl => exact absurd hp hq
  | @tail q r z _ hz ih =>
    by_cases hxq : x ∈ q.stale
    · -- it leaves the stale symbols now, so it is the one that is finished
      have hxz : x = z := by
        by_contra hne
        exact hq (hz.mem_stale_iff.2 ⟨hne, hxq⟩)
      subst hxz
      cases hz with
      | leaf hnone => cases hf.symm.trans hnone
      | current _ _ _ hcurrent => exact absurd hxq hcurrent
      | recomputed => exact List.mem_append_right _ (List.mem_singleton_self x)
    · have hbefore : x ∈ q.recomputed := ih hxq
      cases hz with
      | leaf => exact hbefore
      | current => exact hbefore
      | recomputed => exact List.mem_append_left _ hbefore

namespace Solver

/-! ## What a reply tells -/

variable {s : Solver H} {r : Request H} {reply : Reply H (Option (Value H))}

theorem Performs.frame (h : Performs tables depth s r reply) :
    reply.solver.settings = s.settings ∧ reply.solver.listeners = s.listeners := by
  cases h <;> exact ⟨rfl, rfl⟩

/-- No listener is told of a symbol twice. -/
theorem Performs.nodup_events (h : Performs tables depth s r reply) : reply.events.Nodup := by
  cases h with
  | @passed x =>
    obtain ⟨xs, hxs, hnodup, _⟩ := (s.pass_progress tables depth x).recomputed_eq
    have hxs : (s.pass tables depth x).1.recomputed = xs := hxs
    exact s.nodup_eventsFor (hxs ▸ hnodup)
  | installed | notInstalled | assigned | notAssigned | read => exact List.nodup_nil

/-- What listeners are told of was stale and is current now. -/
theorem Performs.of_told (h : Performs tables depth s r reply) {i : Nat} {x : String}
    (hx : ⟨i, x⟩ ∈ reply.events) : x ∈ s.stale ∧ x ∉ reply.solver.stale := by
  cases h with
  | @passed z =>
    obtain ⟨xs, hxs, _, hmem⟩ := (s.pass_progress tables depth z).recomputed_eq
    have hxs : (s.pass tables depth z).1.recomputed = xs := hxs
    exact hmem x (hxs ▸ (mem_eventsFor.1 hx).2.2)
  | installed | notInstalled | assigned | notAssigned | read => cases hx

/-- And all listeners are told of a symbol with a formula for which that is so. -/
theorem Performs.told (h : Performs tables depth s r reply) (hs : s.settings.announces = true)
    {i : Nat} (hi : i < s.listeners) {x : String} {f : Formula} (hf : s.formulas[x]? = some f)
    (hx : x ∈ s.stale) (hx' : x ∉ reply.solver.stale) : ⟨i, x⟩ ∈ reply.events := by
  cases h with
  | @passed z =>
    have hrecomputed := (s.pass_progress tables depth z).mem_recomputed hf hx hx'
    exact mem_eventsFor.2 ⟨hs, hi, hrecomputed⟩
  | installed => exact absurd (mem_stale_install.2 (.inr (.inr hx))) hx'
  | assigned => exact absurd (mem_stale_withValue.2 (.inr (.inr hx))) hx'
  | notInstalled | notAssigned | read => exact absurd hx hx'

/-- A listener is told of a symbol once if it becomes current, and otherwise not at all. -/
theorem Performs.count_events (h : Performs tables depth s r reply)
    (hs : s.settings.announces = true) {i : Nat} (hi : i < s.listeners) {x : String} {f : Formula}
    (hf : s.formulas[x]? = some f) :
    reply.events.count ⟨i, x⟩ = if x ∈ s.stale ∧ x ∉ reply.solver.stale then 1 else 0 := by
  rw [h.nodup_events.count]
  refine if_congr ⟨h.of_told, ?_⟩ rfl rfl
  rintro ⟨hx, hx'⟩
  exact h.told hs hi hf hx hx'

/-! ## Between two recomputations -/

/-- **What has become stale on the way was changed, or something that it depends on now was.** -/
theorem Run.exists_change {s s' : Solver H} {log : List (Exchange H)} (h : Run depth s log s')
    {x : String} (hx : x ∉ s.stale) (hx' : x ∈ s'.stale) :
    ∃ e ∈ log, ∃ m, e.change? = some m ∧ (m = x ∨ s'.formulas.Reaches x m) := by
  induction h with
  | nil => exact absurd hx' hx
  | listen _ ih => exact ih hx'
  | @perform log s' tables r _ ih =>
    have hcases := s'.perform_cases tables depth r
    generalize s'.perform tables depth r = reply at hcases hx'
    cases hm : Exchange.change? ⟨r, reply⟩ with
    | none =>
      obtain ⟨hformulas, hstale⟩ := hcases.of_no_change hm
      obtain ⟨e, he, m, hem, hmx⟩ := ih (hstale x hx')
      rw [hformulas]
      exact ⟨e, List.mem_append_left _ he, m, hem, hmx⟩
    | some m =>
      obtain ⟨hother, hstale⟩ := hcases.of_change hm
      by_cases hlast : m = x ∨ reply.solver.formulas.Reaches x m
      · exact ⟨_, List.mem_append_right _ (List.mem_singleton_self _), m, hm, hlast⟩
      · -- this change is elsewhere: `x` was stale before it, and depends on the same names
        rw [not_or] at hlast
        have hxm : x ≠ m := fun he => hlast.1 he.symm
        have hbefore : x ∈ s'.stale := (((hstale x).1 hx').resolve_left hxm).resolve_left hlast.2
        have hsame : ∀ y, s'.formulas.Reaches x y ↔ reply.solver.formulas.Reaches x y := by
          intro y
          exact Formulas.reaches_iff_of_agree (fun y hy => (hother y hy).symm) hxm hlast.2
        obtain ⟨e, he, n, hen, hnx⟩ := ih hbefore
        exact ⟨e, List.mem_append_left _ he, n, hen, hnx.imp_right (hsame n).1⟩

/-! ## After a change -/

/-- `s'` has the formula and the dependencies of `x` that `s` has, and no fewer listeners. -/
structure SameBelow (x : String) (s s' : Solver H) : Prop where
  formula : s'.formulas[x]? = s.formulas[x]?
  reaches : ∀ y, s'.formulas.Reaches x y ↔ s.formulas.Reaches x y
  settings : s'.settings = s.settings
  listeners : s.listeners ≤ s'.listeners

/-- No change is one of `x` or of a symbol that `x` depends on. -/
def SparesBelow (s : Solver H) (x : String) (log : List (Exchange H)) : Prop :=
  ∀ e ∈ log, ∀ m, e.change? = some m → ¬ (m = x ∨ s.formulas.Reaches x m)

/-- A change elsewhere leaves the dependencies of `x` alone, and does not make `x` stale. -/
theorem Performs.sameBelow (h : Performs tables depth s r reply) {x : String}
    (hno : ∀ m, Exchange.change? ⟨r, reply⟩ = some m → ¬ (m = x ∨ s.formulas.Reaches x m)) :
    SameBelow x s reply.solver ∧ (x ∈ reply.solver.stale → x ∈ s.stale) := by
  obtain ⟨hsettings, hlisteners⟩ := h.frame
  cases hm : Exchange.change? ⟨r, reply⟩ with
  | none =>
    obtain ⟨hformulas, hstale⟩ := h.of_no_change hm
    refine ⟨⟨?_, ?_, hsettings, hlisteners.ge⟩, hstale x⟩
    · rw [hformulas]
    · intro y
      rw [hformulas]
  | some m =>
    obtain ⟨hother, hstale⟩ := h.of_change hm
    have hspared := hno m hm
    rw [not_or] at hspared
    have hxm : x ≠ m := fun he => hspared.1 he.symm
    have hreach : ∀ y, reply.solver.formulas.Reaches x y ↔ s.formulas.Reaches x y :=
      fun y => Formulas.reaches_iff_of_agree hother hxm hspared.2
    refine ⟨⟨hother x hxm, hreach, hsettings, hlisteners.ge⟩, ?_⟩
    intro hx
    have hnot : ¬ reply.solver.formulas.Reaches x m := fun hxm => hspared.2 ((hreach m).1 hxm)
    exact (((hstale x).1 hx).resolve_left hxm).resolve_left hnot

/--
**While nothing below a stale symbol changes, a listener is told of it once if it is current in the
end, and otherwise not at all.**
-/
theorem Run.count_events {s s' : Solver H} {log : List (Exchange H)} (h : Run depth s log s')
    (hs : s.settings.announces = true) {i : Nat} (hi : i < s.listeners) {x : String} {f : Formula}
    (hf : s.formulas[x]? = some f) (hx : x ∈ s.stale) (hno : s.SparesBelow x log) :
    SameBelow x s s' ∧
      (log.flatMap fun e => e.reply.events).count ⟨i, x⟩ = if x ∈ s'.stale then 0 else 1 := by
  induction h with
  | nil => exact ⟨⟨rfl, fun _ => Iff.rfl, rfl, le_rfl⟩, (if_pos hx).symm⟩
  | listen _ ih =>
    obtain ⟨hsame, hcount⟩ := ih hno
    exact ⟨⟨hsame.formula, hsame.reaches, hsame.settings, hsame.listeners.trans (Nat.le_succ _)⟩,
      hcount⟩
  | @perform log s' tables r _ ih =>
    obtain ⟨hsame, hcount⟩ := ih fun e he => hno e (List.mem_append_left _ he)
    have hcases := s'.perform_cases tables depth r
    -- `x` depends on the same names in `s'` as in `s`, so the last change spares these too
    have hlast := hno _ (List.mem_append_right log (List.mem_singleton_self _))
    generalize s'.perform tables depth r = reply at hcases hlast
    obtain ⟨hstep, hkeep⟩ := hcases.sameBelow (x := x) fun m hm => by
      rw [hsame.reaches m]
      exact hlast m hm
    refine ⟨⟨hstep.formula.trans hsame.formula, fun y => (hstep.reaches y).trans (hsame.reaches y),
      hstep.settings.trans hsame.settings, hsame.listeners.trans hstep.listeners⟩, ?_⟩
    have hnew := hcases.count_events (hsame.settings ▸ hs) (hi.trans_le hsame.listeners)
      (hsame.formula.trans hf)
    rw [List.flatMap_append, List.count_append, hcount, List.flatMap_singleton, hnew]
    by_cases hx' : x ∈ s'.stale
    · by_cases hxr : x ∈ reply.solver.stale <;> simp [hx', hxr]
    · -- `x` has been recomputed before, and nothing makes it stale again
      have hxr : x ∉ reply.solver.stale := fun hxr => hx' (hkeep hxr)
      simp [hx', hxr]

/-- A symbol that has been solved is current. -/
theorem not_stale_of_solved {s : Solver H} (hm : s.formulas.Marks s.stale) {tables : Tables H}
    {x : String} {v : Value H} (h : (s.solve tables depth x).answer = .value v) :
    x ∉ (s.solve tables depth x).solver.stale := by
  obtain ⟨hknown, hpass⟩ := pass_of_solved hm h
  rw [solve_eq_pass hm tables depth hknown]
  have hmarked := (Pass.Marked.start hm).progress (s.pass_progress tables depth x)
  exact hmarked.current x ((Pass.refresh_progress _ _ _ _).2 hpass)

/--
**Recomputation is driven by changes.**

Look at a request to a reachable solver and at what follows it, with a symbol `x` in mind.

* No listener is told of `x` twice in one reply.
* If the reply to it and a later one tell of `x`, then in between `x` or a symbol that `x` depends
  on, by the time of the later one, has been defined or assigned.
* If it defines or assigns `x`, which has a formula then, or a symbol that `x` depends on, then each
  listener is told of `x` exactly once up to the end of any solve of `x` that succeeds, as long as
  neither `x` nor any of these symbols is defined or assigned again. Solves that fail on the way
  make no difference.
-/
theorem recomputed_once_per_change {s : Solver H} (h : Reachable settings depth s)
    {tables : Tables H} {r : Request H} {reply : Reply H (Option (Value H))}
    (hreply : s.perform tables depth r = reply) (x : String) :
    reply.events.Nodup ∧
    (∀ i j log s' tables' r', ⟨i, x⟩ ∈ reply.events → Run depth reply.solver log s' →
      ⟨j, x⟩ ∈ (s'.perform tables' depth r').events →
      ∃ e ∈ log, ∃ m, e.change? = some m ∧ (m = x ∨ m ∈ s'.dependencies x)) ∧
    (∀ m f, settings.announces = true → Exchange.change? ⟨r, reply⟩ = some m →
      reply.solver.formula? x = some f → m = x ∨ m ∈ reply.solver.dependencies x →
      ∀ log s' tables' v, Run depth reply.solver log s' →
        (∀ e ∈ log, ∀ n, e.change? = some n →
          ¬ (n = x ∨ n ∈ reply.solver.dependencies x)) →
        (s'.solve tables' depth x).answer = .value v →
        ∀ i, i < s.listeners →
          (log.flatMap (fun e => e.reply.events) ++ (s'.solve tables' depth x).events).count
            ⟨i, x⟩ = 1) := by
  have hcases := s.perform_cases tables depth r
  have hreachable : Reachable settings depth reply.solver := hreply ▸ h.perform tables r trivial
  rw [hreply] at hcases
  refine ⟨hcases.nodup_events, ?between, ?after⟩
  case between =>
    intro i j log s' tables' r' hfirst hrun hsecond
    have hcurrent := (hcases.of_told hfirst).2
    have hstale := ((s'.perform_cases tables' depth r').of_told hsecond).1
    obtain ⟨e, he, m, hem, hmx⟩ := hrun.exists_change hcurrent hstale
    exact ⟨e, he, m, hem, Formulas.eq_or_mem_dependencies_iff.2 hmx⟩
  case after =>
    intro m f hs hm hf hmx log s' tables' v hrun hno hv i hi
    replace hmx := Formulas.eq_or_mem_dependencies_iff.1 hmx
    obtain ⟨hsettings, hlisteners⟩ := hcases.frame
    have hstale : x ∈ reply.solver.stale := by
      rw [(hcases.of_change hm).2]
      exact (hmx.imp_left Eq.symm).imp_right .inl
    -- the solve is the last exchange of a longer run, and it is no change
    have hlonger := hrun.perform tables' (.solve x)
    have hspares : reply.solver.SparesBelow x
        (log ++ [⟨.solve x, s'.perform tables' depth (.solve x)⟩]) := by
      intro e he n hn
      rcases List.mem_append.mp he with he | he
      · exact fun hnx => hno e he n hn (Formulas.eq_or_mem_dependencies_iff.2 hnx)
      · rw [List.mem_singleton.mp he, Exchange.change?_solve] at hn
        cases hn
    have hannounces : reply.solver.settings.announces = true := by
      rw [hsettings, h.settings_eq]
      exact hs
    have hcurrent : x ∉ (s'.perform tables' depth (.solve x)).solver.stale :=
      not_stale_of_solved (hrun.reachable hreachable).marks hv
    obtain ⟨_, hcount⟩ := hlonger.count_events hannounces (hlisteners ▸ hi) hf hstale hspares
    rw [if_neg hcurrent, List.flatMap_append, List.flatMap_singleton] at hcount
    exact hcount

/-- A solver with a listener, two formulas and one that fails on top of them. -/
def watched : Solver StandardHost :=
  performAll .empty 8 (listen (.empty {} 0))
    [.define "b = a + 1", .define "c = b * 2", .define "broken = c(1)", .assign "a" (.number 1)]

/-- `a` is assigned, and then a solve of another symbol fails that recomputes `c` on its way. -/
def watchedAssigned : Reply StandardHost (Option (Value StandardHost)) :=
  watched.perform .empty 8 (.assign "a" (.number 5))

def afterAssigned : List (Request StandardHost) := [.solve "broken", .assign "d" (.number 1)]

/-- Or `c` is recomputed first, and then `a` is assigned. -/
def watchedRecomputed : Reply StandardHost (Option (Value StandardHost)) :=
  watched.perform .empty 8 (.solve "broken")

def afterRecomputed : List (Request StandardHost) := [.define "e = c", .assign "a" (.number 7)]

theorem recomputed_once_per_change_watched :
    ((watchedAssigned.solver.exchanges .empty 8 afterAssigned).flatMap (fun e => e.reply.events) ++
      ((watchedAssigned.solver.performAll .empty 8 afterAssigned).solve .empty 8 "c").events).count
        ⟨0, "c"⟩ = 1 ∧
    ∃ e ∈ watchedRecomputed.solver.exchanges .empty 8 afterRecomputed, ∃ m, e.change? = some m ∧
      (m = "c" ∨
        m ∈ (watchedRecomputed.solver.performAll .empty 8 afterRecomputed).dependencies "c") := by
  have h : Reachable {} 8 watched := .performAll .empty _ (.listen (.empty 0)) (by decide +kernel)
  constructor
  · obtain ⟨_, _, hafter⟩ := recomputed_once_per_change h
      (show watched.perform .empty 8 (.assign "a" (.number 5)) = watchedAssigned from rfl) "c"
    obtain ⟨f, hf⟩ : ∃ f, watchedAssigned.solver.formula? "c" = some f :=
      Option.isSome_iff_exists.1 (by decide +kernel)
    have hv : ((watchedAssigned.solver.performAll .empty 8 afterAssigned).solve .empty 8
        "c").answer = .value (.number 12) := by decide +kernel
    have hspares : ∀ e ∈ watchedAssigned.solver.exchanges .empty 8 afterAssigned, ∀ n ∈ e.change?,
        ¬ (n = "c" ∨ n ∈ watchedAssigned.solver.dependencies "c") := by decide +kernel
    exact hafter "a" f rfl (by decide +kernel) hf (by decide +kernel) _ _ .empty _
      (.exchanges .empty _ _) hspares hv 0 (by decide +kernel)
  · obtain ⟨_, hbetween, _⟩ := recomputed_once_per_change h
      (show watched.perform .empty 8 (.solve "broken") = watchedRecomputed from rfl) "c"
    exact hbetween 0 0 _ _ .empty (.solve "c") (by decide +kernel) (.exchanges .empty _ _)
      (by decide +kernel)

end Solver

end Recalc

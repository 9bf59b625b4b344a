import Recalc.Proofs.Acyclic
import Recalc.Proofs.Confluence

/-!
# Two reports of one circle

A circle can be reported when it is defined or when a solve runs into it. Two different searches
find it: `cycle?` looks for a way back among the formulas there were before, and marks what it has
read; a pass walks the formulas with the new one among them, knows what is finished and what is on
its path, and evaluates on the way. They report the same circle.

* The formulas there were make no circle, so every circle leads through the new formula, and a pass
  that begins with the new formula comes upon no other part of its path.
* Up to then **what the search has read is what the pass has finished or has on its path**. So both
  go the same way, and both turn back at the same places.

An evaluation that fails stops the pass and not the search. Then the pass reports no circle at all.
-/

namespace Recalc

/-! ## The search beside the pass -/

namespace Pass

open Formulas (WaySearch)

variable {H : Type}

/-- The search for a way to `t` has come as far as the pass with this path. -/
structure Alongside (fs : Formulas) (t : String) (path : List String) (s : WaySearch)
    (p : Pass H) : Prop where
  searching : s.way? = none
  open_goal : t ∉ p.finished
  unread : ∀ (y : String) (g : Formula), y ≠ t →
    (s.unread[y]? = some g ↔ fs[y]? = some g ∧ y ∉ p.finished ∧ y ∉ path)

/-- After a step the search is still as far as the pass, or both have found the same circle, or the
pass has stopped for another reason. -/
structure Concurs (fs : Formulas) (t : String) (path : List String) (s : WaySearch)
    (r : Step H) : Prop where
  alongside : r.2 = .value () → Alongside fs t path s r.1
  circle : ∀ y way, r.2 = .error (.circular y way) → y = t ∧ s.way? = some way

variable {fs : Formulas} {t : String} {path : List String} {s : WaySearch} {p : Pass H}

/-- What is finished has been read. -/
theorem Alongside.unread_none (h : Alongside fs t path s p) {y : String} (hy : y ≠ t)
    (hdone : fs[y]? = none ∨ y ∈ p.finished) : s.unread[y]? = none := by
  cases hu : s.unread[y]? with
  | none => rfl
  | some g =>
    obtain ⟨hg, hfin, _⟩ := (h.unread y g hy).1 hu
    rcases hdone with hdone | hdone
    · rw [hdone] at hg
      cases hg
    · exact absurd hdone hfin

/-- The pass finishes a symbol without formula; the search has nothing to read there. -/
theorem Alongside.finishLeaf (h : Alongside fs t path s p) {x : String} (hx : x ≠ t)
    (hf : fs[x]? = none) : Alongside fs t path s (p.finishLeaf x) := by
  refine ⟨h.searching, ?_, ?_⟩
  · intro hmem
    rcases NameSet.mem_insert_iff.1 hmem with he | hmem
    · exact hx he.symm
    · exact h.open_goal hmem
  · intro y g hy
    have hfinished : fs[y]? = some g → (y ∉ (p.finishLeaf x).finished ↔ y ∉ p.finished) := by
      intro hg
      refine not_congr (NameSet.mem_insert_iff.trans (or_iff_right ?_))
      rintro rfl
      rw [hf] at hg
      cases hg
    rw [h.unread y g hy]
    exact and_congr_right fun hg => and_congr_left' (hfinished hg).symm

/-- The search reads a formula, and the pass puts it on its path. -/
theorem Alongside.enter (h : Alongside fs t path s p) (x : String) :
    Alongside fs t (path ++ [x]) { s with unread := s.unread.erase x } p := by
  refine ⟨h.searching, h.open_goal, ?_⟩
  intro y g hy
  rw [Formulas.getElem?_erase_iff, h.unread y g hy, List.mem_append, List.mem_singleton, not_or]
  constructor
  · rintro ⟨hne, hg, hfin, hpath⟩
    exact ⟨hg, hfin, hpath, hne⟩
  · rintro ⟨hg, hfin, hpath, hne⟩
    exact ⟨hne, hg, hfin, hpath⟩

/-- The pass takes a formula from its path when it finishes it. -/
theorem Alongside.leave {x : String} (h : Alongside fs t (path ++ [x]) s p) (hx : x ≠ t)
    {q : Pass H} (hq : q.finished = p.finished.insert x) : Alongside fs t path s q := by
  refine ⟨h.searching, ?_, ?_⟩
  · rw [hq, NameSet.mem_insert_iff, not_or]
    exact ⟨fun he => hx he.symm, h.open_goal⟩
  · intro y g hy
    rw [h.unread y g hy, hq, NameSet.mem_insert_iff, List.mem_append, List.mem_singleton, not_or,
      not_or]
    constructor
    · rintro ⟨hg, hfin, hpath, hne⟩
      exact ⟨hg, ⟨hne, hfin⟩, hpath⟩
    · rintro ⟨hg, ⟨hne, hfin⟩, hpath⟩
      exact ⟨hg, hfin, hpath, hne⟩

/-- Symbols in order are gone through alike if each of them is. -/
theorem Alongside.each {n : Nat} {one : String → Pass H → Step H} :
    ∀ (xs : List String) {s : WaySearch} {p : Pass H},
      (∀ x ∈ xs, ∀ s p, s.unread.size ≤ n → Alongside fs t path s p →
        Concurs fs t path (WaySearch.visit t n path s x) (one x p)) →
      s.unread.size ≤ n → Alongside fs t path s p →
      Concurs fs t path (xs.foldl (WaySearch.visit t n path) s) (refreshEach one xs p) := by
  intro xs
  induction xs with
  | nil => exact fun _ _ h => ⟨fun _ => h, fun _ _ he => by cases he⟩
  | cons x xs ih =>
    intro s p hone hsize h
    have hx := hone x List.mem_cons_self s p hsize h
    by_cases hv : (one x p).2 = .value ()
    · have hnext := hx.alongside hv
      obtain ⟨hmiss, _⟩ := WaySearch.visit_misses n path s x hsize h.searching hnext.searching
      rw [refreshEach_of_value hv]
      exact ih (fun y hy => hone y (List.mem_cons_of_mem x hy)) (Nat.le_trans hmiss.size hsize)
        hnext
    · rw [refreshEach_of_stop hv]
      refine ⟨fun he => absurd he hv, ?_⟩
      intro y way he
      obtain ⟨hy, hway⟩ := hx.circle y way he
      have hfound : (WaySearch.visit t n path s x).way?.isSome = true := by rw [hway]; rfl
      exact ⟨hy, by rw [List.foldl_cons, WaySearch.foldl_visit_of_found hfound, hway]⟩

variable [HostLibrary H] {tables : Tables H} {depth : Nat}

/-- **The search and the pass go on alike**, where the formulas make no circle without the one for
`t`, and everything on the path reaches the symbol. -/
theorem visit_concurs (hfree : fs.CircleFree) {f : Formula} (hcalm : f.isSelfCalling = false)
    (levels n : Nat) (path : List String) (s : WaySearch) (p : Pass H) (x : String)
    (hsize : s.unread.size ≤ n) (hhead : path.head? = some t)
    (hpath : ∀ z ∈ path, z ≠ t → fs.Reaches z x) (h : Alongside fs t path s p) :
    Concurs fs t path (WaySearch.visit t n path s x)
      (refresh tables depth (fs.insert t f) levels path x p) := by
  by_cases hx : x = t
  · -- both are back at the beginning of the path
    subst hx
    have hmem : x ∈ path := List.mem_of_head? hhead
    have hall : path.dropWhile (· != x) = path := by
      obtain ⟨rest, rfl⟩ := List.head?_eq_some_iff.1 hhead
      simp
    rw [refresh_of_mem_path h.open_goal Std.ExtTreeMap.getElem?_insert_self hcalm hmem, hall,
      WaySearch.visit_goal h.searching]
    refine ⟨fun he => (by cases he), ?_⟩
    intro y way he
    cases he
    exact ⟨rfl, rfl⟩
  by_cases hfin : x ∈ p.finished
  · rw [refresh_of_finished hfin,
      WaySearch.visit_of_none h.searching hx (h.unread_none hx (.inr hfin))]
    exact ⟨fun _ => h, fun _ _ he => by cases he⟩
  have hsame : (fs.insert t f)[x]? = fs[x]? := Formulas.getElem?_insert_ne hx
  cases hg : fs[x]? with
  | none =>
    rw [refresh_of_leaf hfin (hsame.trans hg),
      WaySearch.visit_of_none h.searching hx (h.unread_none hx (.inl hg))]
    exact ⟨fun _ => h.finishLeaf hx hg, fun _ _ he => by cases he⟩
  | some g =>
    have hnew : x ∉ path := fun hp => hfree.acyclic x (hpath x hp hx)
    have hgcalm := hfree.calm x g hg
    cases levels with
    | zero =>
      rw [refresh_of_no_level hfin (hsame.trans hg) hgcalm hnew]
      exact ⟨fun he => (by cases he), fun _ _ he => by cases he⟩
    | succ levels =>
      have hread : s.unread[x]? = some g := (h.unread x g hx).2 ⟨hg, hfin, hnew⟩
      have hless := Formulas.size_erase_add_one hread
      obtain ⟨m, rfl⟩ : ∃ m, n = m + 1 := ⟨n - 1, by omega⟩
      have hone : ∀ d ∈ g.dependsOn, ∀ s p, s.unread.size ≤ m →
          Alongside fs t (path ++ [x]) s p →
          Concurs fs t (path ++ [x]) (WaySearch.visit t m (path ++ [x]) s d)
            (refresh tables depth (fs.insert t f) levels (path ++ [x]) d p) := by
        intro d hd s p hsize h
        have hxd : fs.Edge x d := Formulas.edge_of_some hg hd
        refine visit_concurs hfree hcalm levels m (path ++ [x]) s p d hsize ?_ ?_ h
        · rw [List.head?_append, hhead]
          rfl
        · intro z hz hzt
          rcases List.mem_append.mp hz with hz | hz
          · exact (hpath z hz hzt).tail hxd
          · rw [List.mem_singleton] at hz
            exact hz ▸ .single hxd
      have hdeps := (h.enter x).each g.dependsOn hone
        (show (s.unread.erase x).size ≤ m by omega)
      rw [WaySearch.visit_of_some h.searching hx hread]
      by_cases hv : (refreshEach (refresh tables depth (fs.insert t f) levels (path ++ [x]))
          g.dependsOn p).2 = .value ()
      · rw [refresh_of_deps hfin (hsame.trans hg) hgcalm hnew hv]
        exact ⟨fun he => (hdeps.alongside hv).leave hx (finishFormula_finished he),
          fun _ _ he => absurd he finishFormula_ne_circular⟩
      · rw [refresh_of_deps_stop hfin (hsame.trans hg) hgcalm hnew hv]
        exact ⟨fun he => absurd he hv, hdeps.circle⟩

end Pass

/-! ## Solvers -/

namespace Solver

variable {H : Type}

/-- The solver with another choice of when to report circles. -/
def reporting (s : Solver H) (circles : CircleReport) : Solver H :=
  { s with settings := { s.settings with circles } }

theorem define_atSolve (s : Solver H) {text : String} {f : Formula}
    (hf : Formula.parse text = .ok f) :
    (s.reporting .atSolve).define text = .ok ((s.install f).reporting .atSolve) :=
  define_eq_install rfl hf

theorem read_ne_circular (s : Solver H) (x y : String) (way : List String) :
    s.read x ≠ .error (.circular y way) := by
  rw [read]
  split
  · intro h; cases h
  · intro h; cases h

variable [HostLibrary H]

/--
**A pass for a symbol whose formula has been put in place reports the circle that the formula
makes**, or stops for another reason. It succeeds only if the formula makes none. Nothing is asked
of the table and of the symbols that are stale.
-/
theorem pass_circle {s s' : Solver H} (hfree : s.formulas.CircleFree) {f : Formula}
    (hs : s'.formulas = s.formulas.insert f.target f) (tables : Tables H) (depth : Nat) :
    ((s'.pass tables depth f.target).2 = .value () → s.circle? f = none) ∧
    (∀ y way, (s'.pass tables depth f.target).2 = .error (.circular y way) →
      y = f.target ∧ s.circle? f = some way) := by
  have hfin : f.target ∉ (Pass.start s'.table s'.stale : Pass H).finished :=
    Std.ExtTreeSet.not_mem_empty
  have hself : s'.formulas[f.target]? = some f := by
    rw [hs]
    exact Std.ExtTreeMap.getElem?_insert_self
  rw [pass, circle?]
  cases hcalm : f.isSelfCalling with
  | true =>
    rw [Pass.refresh_of_selfCalling hfin hself hcalm]
    refine ⟨fun he => (by cases he), ?_⟩
    intro y way he
    cases he
    exact ⟨rfl, rfl⟩
  | false =>
    rw [if_neg Bool.false_ne_true]
    have hnil : f.target ∉ ([] : List String) := List.not_mem_nil
    cases hsize : s'.formulas.size with
    | zero =>
      rw [Pass.refresh_of_no_level hfin hself hcalm hnil]
      exact ⟨fun he => (by cases he), fun _ _ he => by cases he⟩
    | succ n =>
      have hstart : Pass.Alongside s.formulas f.target [f.target] ⟨s.formulas, none⟩
          (Pass.start s'.table s'.stale : Pass H) := by
        refine ⟨rfl, hfin, ?_⟩
        intro y g hy
        refine (and_iff_left ⟨Std.ExtTreeSet.not_mem_empty, ?_⟩).symm
        rwa [List.mem_singleton]
      have hone : ∀ d ∈ f.dependsOn, ∀ (w : Formulas.WaySearch) (p : Pass H),
          w.unread.size ≤ s.formulas.size → Pass.Alongside s.formulas f.target [f.target] w p →
          Pass.Concurs s.formulas f.target [f.target]
            (.visit f.target s.formulas.size [f.target] w d)
            (Pass.refresh tables depth s'.formulas n [f.target] d p) := by
        intro d _ w p hsize h
        rw [hs]
        refine Pass.visit_concurs hfree hcalm n _ [f.target] w p d hsize rfl ?_ h
        intro z hz hzt
        exact absurd (List.mem_singleton.1 hz) hzt
      have hdeps := hstart.each f.dependsOn hone (Nat.le_refl _)
      by_cases hv : (Pass.refreshEach (Pass.refresh tables depth s'.formulas n [f.target])
          f.dependsOn (Pass.start s'.table s'.stale : Pass H)).2 = .value ()
      · rw [Pass.refresh_of_deps hfin hself hcalm hnil hv]
        exact ⟨fun _ => (hdeps.alongside hv).searching,
          fun _ _ he => absurd he Pass.finishFormula_ne_circular⟩
      · rw [Pass.refresh_of_deps_stop hfin hself hcalm hnil hv]
        exact ⟨fun he => absurd he hv, hdeps.circle⟩

/-- Whatever has been solved, the formulas are what they were and the stale symbols are marked. -/
theorem solveEach_marks (tables : Tables H) (depth : Nat) (xs : List String) {s : Solver H}
    (hm : s.formulas.Marks s.stale) :
    (s.solveEach tables depth xs).1.formulas = s.formulas ∧
      (s.solveEach tables depth xs).1.formulas.Marks (s.solveEach tables depth xs).1.stale := by
  induction xs generalizing s with
  | nil => exact ⟨rfl, hm⟩
  | cons x xs ih =>
    have hsame := solve_formulas tables depth s x
    have hone : s.formulas.Marks (s.solve tables depth x).solver.stale := by
      by_cases hx : s.contains x = true ∧ s.isStale x = true
      · rw [solve_of_stale tables depth hx.1 hx.2]
        exact ((Pass.Marked.start hm).progress (s.pass_progress tables depth x)).marks
      · rw [solve_of_not_stale tables depth hx]
        exact hm
    rw [← hsame] at hone
    obtain ⟨hformulas, hmarks⟩ := ih hone
    exact ⟨hformulas.trans hsame, hmarks⟩

/-- A circle that is answered with is one that the pass has met. -/
theorem pass_of_circular {s : Solver H} (hm : s.formulas.Marks s.stale) {tables : Tables H}
    {depth : Nat} {x y : String} {way : List String}
    (h : (s.solve tables depth x).answer = .error (.circular y way)) :
    (s.pass tables depth x).2 = .error (.circular y way) := by
  by_cases hx : s.contains x = true
  · rw [solve_eq_pass hm tables depth hx] at h
    cases hpass : (s.pass tables depth x).2 with
    | value u =>
      rw [hpass] at h
      exact absurd h (read_ne_circular _ x y way)
    | error e =>
      rw [hpass] at h
      injection h with he
      rw [he]
    | exhausted => rw [hpass] at h; cases h
  · rw [solve_of_unknown tables depth hx] at h
    cases h

/-- The answer to a solve made after others. -/
def answerAfter (tables : Tables H) (depth : Nat) (s : Solver H) (xs : List String) (x : String) :
    Outcome SolverError (Value H) :=
  ((s.solveEach tables depth xs).1.solve tables depth x).answer

/-- What the answers tell of the formula that a solver without circles got last. -/
theorem answerAfter_install {s : Solver H} (hfree : s.formulas.CircleFree)
    (hm : s.formulas.Marks s.stale) (f : Formula) (tables : Tables H) (depth : Nat)
    (xs : List String) :
    (∀ v, ((s.install f).reporting .atSolve).answerAfter tables depth xs f.target = .value v →
      s.circle? f = none) ∧
    (∀ y way, ((s.install f).reporting .atSolve).answerAfter tables depth xs f.target =
      .error (.circular y way) → y = f.target ∧ s.circle? f = some way) := by
  have hmarks : Formulas.Marks ((s.install f).reporting .atSolve).formulas
      ((s.install f).reporting .atSolve).stale :=
    hm.mark (fun y hy => Formulas.getElem?_insert_ne hy) fun y => mem_stale_install
  obtain ⟨hformulas, hm'⟩ := solveEach_marks tables depth xs hmarks
  obtain ⟨hvalue, hcircle⟩ := pass_circle hfree hformulas tables depth
  exact ⟨fun v he => hvalue (pass_of_solved hm' he).2,
    fun y way he => hcircle y way (pass_of_circular hm' he)⟩

/--
**A circle is the same whether it is reported at the definition or at the solve.**

Take a solver that reports circles at definition and the same solver made to report them at solves,
and define a symbol in both.

* If the first accepts the definition, so does the second, and all but their settings is the same
  afterwards.
* If the first reports a circle, the second accepts the definition. After that, whatever else is
  solved, solving the symbol never yields a value, and if it reports a circle, it reports the same
  symbol and the same path.
* If solving the symbol in the second reports a circle after the definition, the first has reported
  it.
-/
theorem circle_reports_agree {settings : Settings} {depth : Nat} {s : Solver H}
    (h : Reachable settings depth s) (hs : settings.circles = .atDefinition) {text : String}
    {f : Formula} (hf : Formula.parse text = .ok f) :
    (∀ s', s.define text = .ok s' →
      (s.reporting .atSolve).define text = .ok (s'.reporting .atSolve)) ∧
    (∀ x way, s.define text = .error (.circular x way) →
      ∃ t, (s.reporting .atSolve).define text = .ok t ∧ ∀ tables depth xs,
        (∀ v, t.answerAfter tables depth xs f.target ≠ .value v) ∧
        ∀ y way', t.answerAfter tables depth xs f.target = .error (.circular y way') →
          y = x ∧ way' = way) ∧
    (∀ t, (s.reporting .atSolve).define text = .ok t → ∀ tables depth xs y way,
      t.answerAfter tables depth xs f.target = .error (.circular y way) →
        s.define text = .error (.circular y way)) := by
  have hs' : s.settings.circles = .atDefinition := by rw [h.settings_eq, hs]
  have hdefine := define_atDefinition hs' hf
  have hsecond := s.define_atSolve hf
  have hlater := answerAfter_install (h.circleFree hs) h.marks f
  refine ⟨?accepted, ?refused, ?reported⟩
  case accepted =>
    intro s' hok
    rw [hdefine] at hok
    cases hc : s.circle? f with
    | none =>
      rw [hc] at hok
      cases hok
      exact hsecond
    | some way =>
      rw [hc] at hok
      cases hok
  case refused =>
    intro x way herror
    rw [hdefine] at herror
    cases hc : s.circle? f with
    | none =>
      rw [hc] at herror
      cases herror
    | some way' =>
      rw [hc] at herror
      cases herror
      refine ⟨_, hsecond, ?_⟩
      intro tables depth xs
      obtain ⟨hvalue, hcircle⟩ := hlater tables depth xs
      refine ⟨?_, ?_⟩
      · intro v he
        cases hc.symm.trans (hvalue v he)
      · intro y way'' he
        obtain ⟨hy, hway⟩ := hcircle y way'' he
        exact ⟨hy, Option.some.inj (hway.symm.trans hc)⟩
  case reported =>
    intro t ht tables depth xs y way he
    rw [hsecond] at ht
    cases ht
    obtain ⟨rfl, hc⟩ := (hlater tables depth xs).2 y way he
    rw [hdefine, hc]

/-- A solver whose next formula will close a circle, behind a symbol that leads nowhere. -/
def nearlyRound : Solver StandardHost :=
  performAll .empty 8 (.empty {} 0)
    [.define "c = 5", .define "d = e", .define "a = d + b", .define "b = d + c", .solve "a"]

/-- The formula that closes it. -/
def closingFormula : Formula where
  raw := "c = d + a"
  target := "c"
  params? := none
  dependsOn := ["d", "a"]
  body := .binary .add (.name "d") (.name "a")

theorem circle_reports_agree_nearlyRound :
    Reachable {} 8 nearlyRound ∧ Formula.parse "c = d + a" = .ok closingFormula ∧
      nearlyRound.define "c = d + a" = .error (.circular "c" ["c", "a", "b", "c"]) ∧
      ∃ t, (nearlyRound.reporting .atSolve).define "c = d + a" = .ok t ∧
        (∀ v, t.answerAfter .empty 8 ["b", "d"] "c" ≠ .value v) ∧
        t.answerAfter .empty 8 ["b", "d"] "c" = .error (.circular "c" ["c", "a", "b", "c"]) := by
  have h : Reachable {} 8 nearlyRound := .performAll .empty _ (.empty 0) (by decide +kernel)
  have hf : Formula.parse "c = d + a" = .ok closingFormula := by decide +kernel
  have hcircle : nearlyRound.circle? closingFormula = some ["c", "a", "b", "c"] := by decide +kernel
  have hdefine : nearlyRound.define "c = d + a" = .error (.circular "c" ["c", "a", "b", "c"]) := by
    rw [define_atDefinition (by decide +kernel) hf, hcircle]
    rfl
  obtain ⟨_, hrefused, _⟩ := circle_reports_agree h rfl hf
  obtain ⟨t, ht, hlater⟩ := hrefused "c" ["c", "a", "b", "c"] hdefine
  refine ⟨h, hf, hdefine, t, ht, (hlater .empty 8 ["b", "d"]).1, ?_⟩
  rw [nearlyRound.define_atSolve hf] at ht
  cases ht
  decide +kernel

end Solver

end Recalc

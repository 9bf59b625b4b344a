import Recalc.Equality
import Recalc.Proofs.Known
import Recalc.Proofs.Searches
import Recalc.Proofs.Staleness

/-!
# What a change makes stale

A definition and an assignment end in the same step: they mark a name and the names whose formulas
depend on it. Which these are is found out from the formulas as they are then, so a definition goes
by the edges of its own formula, and not by those of the formula that it takes the place of.

**A change makes stale what reaches the changed name, and nothing else**, also where there are
circles. The search for what a name reaches drops the name itself at its end only, so on a circle
it comes through the name a second time, and it is over all the same.
-/

namespace Recalc

/-- Only names with formulas depend on another one. -/
theorem Formulas.mem_dependents_iff_formula {fs : Formulas} {x y : String} :
    y ∈ fs.dependents x ↔ (∃ f, fs[y]? = some f) ∧ y ≠ x ∧ fs.Reaches y x := by
  rw [mem_dependents_iff, ne_comm]
  exact (and_iff_right_of_imp fun h => exists_formula_of_reaches h.2).symm

namespace Solver

variable {H : Type}

/-- `after` has the stale symbols of `s`, and `x` and the symbols whose formulas lead to `x`. -/
def Invalidates (s : Solver H) (x : String) (after : Solver H) : Prop :=
  ∀ y, after.isStale y = true ↔ s.isStale y = true ∨ y = x ∨
    (∃ f, after.formula? y = some f) ∧ after.formulas.Reaches y x

/-- **Marking a name is marking what reaches it**, and only formulas do. -/
theorem invalidates_markStale (s : Solver H) (x : String) : s.Invalidates x (s.markStale x) := by
  intro y
  have hreaches : s.formulas.Reaches y x ↔
      (∃ f, s.formula? y = some f) ∧ s.formulas.Reaches y x :=
    (and_iff_right_of_imp Formulas.exists_formula_of_reaches).symm
  rw [isStale_iff, isStale_iff, mem_stale_markStale_iff, ← or_assoc, or_comm, hreaches]
  rfl

theorem invalidates_install (s : Solver H) (f : Formula) :
    s.Invalidates f.target (s.install f) :=
  invalidates_markStale { s with
    table := (f.target :: f.dependsOn).foldl .ensure s.table
    formulas := s.formulas.insert f.target f } f.target

theorem invalidates_withValue (s : Solver H) (x : String) (v : Value H) :
    s.Invalidates x (s.withValue x v) :=
  invalidates_markStale { s with table := s.table.set x v } x

/--
**What a name depends on, what depends on it, and what a change of it makes stale are what can be
reached**, whatever circles the formulas make.

The search for the dependencies of a name comes to its end; they are the other names that it
reaches, and its dependents are the other names with formulas that reach it. A definition that is
accepted puts its formula in place and makes stale its target and the symbols whose formulas, the
new one among them, lead there. It changes no value, and what it mentions and was not known becomes
a symbol of unknown value. An assignment that is accepted changes the value of its symbol and no
other one, and makes stale the symbol and those whose formulas lead there.
-/
theorem change_invalidates_reachable (s : Solver H) :
    (∀ x, ∃ all, (∀ found, s.formulas.Gathers ∅ (s.formulas.directDeps x) found ↔ found = all) ∧
      s.dependencies x = all.erase x) ∧
    (∀ x y, y ∈ s.dependencies x ↔ y ≠ x ∧ s.formulas.Reaches x y) ∧
    (∀ x y, y ∈ s.dependents x ↔
      (∃ f, s.formula? y = some f) ∧ y ≠ x ∧ s.formulas.Reaches y x) ∧
    (∀ text after, s.define text = .ok after → ∃ f, Formula.parse text = .ok f ∧
      after.formulas = s.formulas.insert f.target f ∧ s.Invalidates f.target after ∧
      (∀ y v, s.table.value? y = some v → after.table.value? y = some v) ∧
      ∀ y, s.table.value? y = none → after.table.value? y =
        if y = f.target ∨ y ∈ f.dependsOn then some .unknown else none) ∧
    ∀ x v after, s.assign x v = .ok after →
      after.formulas = s.formulas ∧ s.Invalidates x after ∧ after.table.value? x = some v ∧
      ∀ y, y ≠ x → after.table.value? y = s.table.value? y := by
  refine ⟨s.formulas.gathers_dependencies, fun x y => Formulas.mem_dependencies_iff,
    fun x y => Formulas.mem_dependents_iff_formula, ?definition, ?assignment⟩
  case definition =>
    intro text after hdefine
    obtain ⟨f, hf, _, rfl⟩ := define_eq_ok hdefine
    exact ⟨f, hf, rfl, s.invalidates_install f, fun y v => value?_install_of_some,
      fun y => value?_install_of_new⟩
  case assignment =>
    intro x v after hassign
    obtain ⟨_, rfl⟩ := assign_eq_ok hassign
    refine ⟨rfl, s.invalidates_withValue x v, ?_, fun y hy => ?_⟩
    · rw [value?_withValue, if_pos rfl]
    · rw [value?_withValue, if_neg hy.symm]

/-- Two symbols that are current, and neither leads to the other. -/
def sideBySide : Solver StandardHost :=
  performAll .empty 8 (.empty { circles := .atSolve } 0)
    [.define "top = leaf * 2", .define "other = e", .assign "leaf" (.number 1),
      .assign "e" (.number 0), .solve "top", .solve "other"]

/-- A formula that closes a circle with one of them. -/
def roundTop : Formula where
  raw := "leaf = top + new"
  target := "leaf"
  params? := none
  dependsOn := ["top", "new"]
  body := .binary .add (.name "top") (.name "new")

/-- The symbol on the circle becomes stale and keeps its value, the one beside it stays current. -/
theorem change_invalidates_reachable_sideBySide :
    ∃ after, sideBySide.define "leaf = top + new" = .ok after ∧
      sideBySide.isStale "top" = false ∧ after.isStale "top" = true ∧
      after.isStale "other" = false ∧ after.table.value? "top" = some (.number 2) ∧
      after.table.value? "new" = some .unknown := by
  have hparse : Formula.parse "leaf = top + new" = .ok roundTop := by decide +kernel
  have hdefine : sideBySide.define "leaf = top + new" = .ok (sideBySide.install roundTop) :=
    define_eq_install (by decide +kernel) hparse
  obtain ⟨_, _, _, hdefinition, _⟩ := change_invalidates_reachable sideBySide
  obtain ⟨f, hf, hformulas, hstale, hkept, hnew⟩ := hdefinition _ _ hdefine
  obtain rfl := Except.ok.inj (hparse.symm.trans hf)
  refine ⟨_, hdefine, by decide +kernel, ?top, ?other, hkept "top" _ (by decide +kernel), ?new⟩
  case top =>
    have hleaf : "leaf" ∈ (sideBySide.install roundTop).dependencies "top" := by decide +kernel
    have hformula : ((sideBySide.install roundTop).formula? "top").isSome = true := by
      decide +kernel
    have hreach := (Formulas.mem_dependencies_iff.1 hleaf).2
    exact (hstale "top").2 (.inr (.inr ⟨Option.isSome_iff_exists.1 hformula, hreach⟩))
  case other =>
    have hleaf : "leaf" ∉ (sideBySide.install roundTop).dependencies "other" := by decide +kernel
    rw [Bool.eq_false_iff]
    intro hother
    rcases (hstale "other").1 hother with hother | hother | ⟨_, hother⟩
    · exact absurd hother (by decide +kernel)
    · exact absurd hother (by decide +kernel)
    · exact hleaf (Formulas.mem_dependencies_iff.2 ⟨by decide +kernel, hother⟩)
  case new =>
    rw [hnew "new" (by decide +kernel), if_pos (by decide +kernel)]

end Solver

end Recalc

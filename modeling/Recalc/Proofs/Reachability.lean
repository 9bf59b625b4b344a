import Mathlib.Logic.Relation
import Recalc.Dependency

/-!
# What a name reaches

`dependencies` is computed by a search that reads each formula at most once. Here the graph it
searches is a relation, and what it finds is exactly what can be reached:

* an **edge** leads from a name to each name that its formula depends on;
* a name **reaches** another by one or more edges;
* a name is **grounded** if it reaches no circle and no function that calls itself. Being
  grounded is inductive, so it is also what the proofs about passes recurse on.

The search keeps the formulas not yet read. What makes it complete is that a formula, once taken
out, has all its dependencies found by the time the search comes back.
-/

namespace Recalc

namespace NameSet

theorem mem_insert_iff {set : NameSet} {x y : String} : y ∈ set.insert x ↔ y = x ∨ y ∈ set := by
  rw [Std.ExtTreeSet.mem_insert, Std.LawfulEqCmp.compare_eq_iff_eq]
  exact or_congr_left eq_comm

theorem mem_erase_iff {set : NameSet} {x y : String} : y ∈ set.erase x ↔ y ≠ x ∧ y ∈ set := by
  rw [Std.ExtTreeSet.mem_erase, ne_eq, Std.LawfulEqCmp.compare_eq_iff_eq]
  exact and_congr_left' (not_congr eq_comm)

end NameSet

namespace Formulas

theorem getElem?_insert_ne {fs : Formulas} {x y : String} {f : Formula} (h : y ≠ x) :
    (fs.insert x f)[y]? = fs[y]? := by
  rw [Std.ExtTreeMap.getElem?_insert, if_neg]
  rw [Std.LawfulEqCmp.compare_eq_iff_eq]
  exact fun he => h he.symm

theorem getElem?_erase_iff {fs : Formulas} {x y : String} {f : Formula} :
    (fs.erase x)[y]? = some f ↔ y ≠ x ∧ fs[y]? = some f := by
  rw [Std.ExtTreeMap.getElem?_erase]
  by_cases h : x = y
  · subst h; simp
  · rw [if_neg (by rw [Std.LawfulEqCmp.compare_eq_iff_eq]; exact h)]
    exact ⟨fun hf => ⟨fun he => h he.symm, hf⟩, fun hf => hf.2⟩

theorem directDeps_of_some {fs : Formulas} {x : String} {f : Formula} (h : fs[x]? = some f) :
    fs.directDeps x = f.dependsOn := by
  rw [directDeps, h]

theorem getElem?_of_size_le_zero {fs : Formulas} (h : fs.size ≤ 0) (x : String) :
    fs[x]? = none := by
  rw [Std.ExtTreeMap.eq_empty_iff_size_eq_zero.2 (Nat.le_zero.mp h)]
  exact Std.ExtTreeMap.getElem?_empty

/-! ## The graph -/

/-- The formula of `x` depends on `y`. -/
def Edge (fs : Formulas) (x y : String) : Prop := y ∈ fs.directDeps x

/-- `y` is reached from `x` by one or more edges. -/
def Reaches (fs : Formulas) : String → String → Prop := Relation.TransGen fs.Edge

/-- No name reaches itself. -/
def Acyclic (fs : Formulas) : Prop := ∀ x, ¬ fs.Reaches x x

/-- Only a name with a formula has edges. -/
theorem edge_iff {fs : Formulas} {x y : String} :
    fs.Edge x y ↔ ∃ f, fs[x]? = some f ∧ y ∈ f.dependsOn := by
  rw [Edge, directDeps]
  cases h : fs[x]? with
  | none => simp
  | some f => simp

theorem edge_of_some {fs : Formulas} {x y : String} {f : Formula} (h : fs[x]? = some f)
    (hy : y ∈ f.dependsOn) : fs.Edge x y := edge_iff.2 ⟨f, h, hy⟩

/-- What has no formula reaches nothing. -/
theorem exists_formula_of_reaches {fs : Formulas} {x y : String} (h : fs.Reaches x y) :
    ∃ f, fs[x]? = some f := by
  obtain ⟨d, hd, _⟩ := Relation.TransGen.head'_iff.1 h
  obtain ⟨f, hf, _⟩ := edge_iff.1 hd
  exact ⟨f, hf⟩

/-- A set of names that edges do not leave is not left by longer ways either. -/
theorem Reaches.mem_of_closed {fs : Formulas} {P : String → Prop}
    (hP : ∀ a b, P a → fs.Edge a b → P b) {x y : String} (h : fs.Reaches x y) (hx : P x) :
    P y := by
  induction h with
  | single h => exact hP _ _ hx h
  | tail _ h ih => exact hP _ _ ih h

/-! ## Graphs that differ at one name -/

section

variable {fs gs : Formulas} {t : String}

theorem edge_of_agree (hgs : ∀ y, y ≠ t → gs[y]? = fs[y]?) {x y : String} (hx : x ≠ t)
    (h : fs.Edge x y) : gs.Edge x y := by
  rw [edge_iff] at h ⊢
  rwa [hgs x hx]

/-- A way to the changed name is a way in both graphs up to where it first arrives there. -/
theorem reaches_changed_of_agree (hgs : ∀ y, y ≠ t → gs[y]? = fs[y]?) {x : String} (hx : x ≠ t)
    (h : fs.Reaches x t) : gs.Reaches x t := by
  induction h using Relation.TransGen.head_induction_on with
  | single hxt => exact .single (edge_of_agree hgs hx hxt)
  | head hxz _ ih =>
    rename_i z _
    by_cases hz : z = t
    · subst hz
      exact .single (edge_of_agree hgs hx hxz)
    · exact .head (edge_of_agree hgs hx hxz) (ih hz)

/-- What does not reach the changed name reaches the same names as before. -/
theorem reaches_iff_of_agree (hgs : ∀ y, y ≠ t → gs[y]? = fs[y]?) {x : String} (hx : x ≠ t)
    (hno : ¬ fs.Reaches x t) {y : String} : gs.Reaches x y ↔ fs.Reaches x y := by
  have hstep : ∀ {as bs : Formulas}, (∀ y, y ≠ t → bs[y]? = as[y]?) → ¬ as.Reaches x t →
      as.Reaches x y → bs.Reaches x y := by
    intro as bs hbs hnot h
    induction h with
    | single h => exact .single (edge_of_agree hbs hx h)
    | @tail b c hxb hbc ih =>
      have hbt : b ≠ t := fun he => hnot (he ▸ hxb)
      exact ih.tail (edge_of_agree hbs hbt hbc)
  have hfs : ∀ y, y ≠ t → fs[y]? = gs[y]? := fun y hy => (hgs y hy).symm
  refine ⟨hstep hfs fun h => hno (reaches_changed_of_agree hfs hx h), hstep hgs hno⟩

end

/-! ## Grounded names -/

/-- `x` and all that it reaches are free of circles and of functions that call themselves. -/
inductive Grounded (fs : Formulas) : String → Prop where
  | intro {x : String}
      (calm : ∀ f, fs[x]? = some f → f.isSelfCalling = false)
      (deps : ∀ y, fs.Edge x y → Grounded fs y) : Grounded fs x

theorem Grounded.calm {fs : Formulas} {x : String} (h : fs.Grounded x) {f : Formula}
    (hf : fs[x]? = some f) : f.isSelfCalling = false := by
  cases h with
  | intro calm _ => exact calm f hf

theorem Grounded.of_edge {fs : Formulas} {x y : String} (h : fs.Grounded x)
    (hxy : fs.Edge x y) : fs.Grounded y := by
  cases h with
  | intro _ deps => exact deps y hxy

theorem Grounded.of_reaches {fs : Formulas} {x y : String} (h : fs.Grounded x)
    (hxy : fs.Reaches x y) : fs.Grounded y :=
  hxy.mem_of_closed (fun _ _ ha hab => ha.of_edge hab) h

theorem Grounded.of_leaf {fs : Formulas} {x : String} (h : fs[x]? = none) : fs.Grounded x := by
  constructor
  · intro f hf
    rw [h] at hf; cases hf
  · intro y hy
    obtain ⟨f, hf, _⟩ := edge_iff.1 hy
    rw [h] at hf; cases hf

/-- To show something of a grounded name, show it where it holds of all that the name reaches. -/
theorem Grounded.induction {fs : Formulas} {P : String → Prop}
    (step : ∀ x, fs.Grounded x → (∀ y, fs.Reaches x y → P y) → P x) {x : String}
    (h : fs.Grounded x) : P x := by
  -- edges from a grounded name do not lead on for ever, and then longer ways do not either
  have hacc : Acc (fun b a => fs.Edge a b) x := by
    induction h with
    | intro _ _ ih => exact ⟨_, ih⟩
  have htrans : Acc (Relation.TransGen fun b a => fs.Edge a b) x := hacc.transGen
  induction htrans with
  | intro x _ ih =>
    refine step x h ?_
    intro y hxy
    have hyx : Relation.TransGen (fun b a => fs.Edge a b) y x := Relation.transGen_swap.2 hxy
    exact ih y hyx (h.of_reaches hxy) (hacc.inv_of_transGen hyx)

/-- A grounded name does not reach itself. -/
theorem Grounded.not_reaches_self {fs : Formulas} {x : String} (h : fs.Grounded x) :
    ¬ fs.Reaches x x := by
  refine h.induction (P := fun x => ¬ fs.Reaches x x) ?_
  intro x _ ih hxx
  exact ih x hxx hxx

/-! ## The search finds what is reached -/

/-- A visit of a name without an unread formula only finds the name. -/
theorem Gathering.visit_of_none {n : Nat} {g : Gathering} {x : String}
    (hx : g.unread[x]? = none) : visit n g x = { g with found := g.found.insert x } := by
  rw [visit.eq_def]
  simp only [hx]

/-- A visit that reads a formula goes on with its dependencies. -/
theorem Gathering.visit_of_some {n : Nat} {g : Gathering} {x : String} {f : Formula}
    (hx : g.unread[x]? = some f) : visit (n + 1) g x =
      f.dependsOn.foldl (visit n) ⟨g.unread.erase x, g.found.insert x⟩ := by
  rw [visit.eq_def]
  simp only [hx]

/-- What a search for names has done between `g` and `g'`. -/
structure Gathering.Grows (g g' : Gathering) : Prop where
  /-- No formula comes back. -/
  unread : ∀ (y : String) (f : Formula), g'.unread[y]? = some f → g.unread[y]? = some f
  /-- So the levels that were enough stay enough. -/
  size : g'.unread.size ≤ g.unread.size
  /-- No name is lost. -/
  found : ∀ y, y ∈ g.found → y ∈ g'.found
  /-- A name is found for good only with its formula read. -/
  read : ∀ (y : String), y ∈ g'.found → y ∈ g.found ∨ g'.unread[y]? = none
  /-- A formula that has been read has its dependencies found. -/
  closed : ∀ (y : String) (f : Formula), g.unread[y]? = some f → g'.unread[y]? = none →
    ∀ d ∈ f.dependsOn, d ∈ g'.found

theorem Gathering.Grows.refl (g : Gathering) : g.Grows g where
  unread _ _ h := h
  size := Nat.le_refl _
  found _ h := h
  read _ h := .inl h
  closed y f h h' := by rw [h] at h'; cases h'

theorem Gathering.Grows.unread_none {g g' : Gathering} (h : g.Grows g') {y : String}
    (hy : g.unread[y]? = none) : g'.unread[y]? = none := by
  cases hy' : g'.unread[y]? with
  | none => rfl
  | some f => rw [h.unread y f hy'] at hy; cases hy

theorem Gathering.Grows.trans {g g' g'' : Gathering} (h : g.Grows g') (h' : g'.Grows g'') :
    g.Grows g'' where
  unread y f hy := h.unread y f (h'.unread y f hy)
  size := Nat.le_trans h'.size h.size
  found y hy := h'.found y (h.found y hy)
  read y hy := by
    rcases h'.read y hy with hy | hy
    · rcases h.read y hy with hy | hy
      · exact .inl hy
      · exact .inr (h'.unread_none hy)
    · exact .inr hy
  closed y f hy hy'' d hd := by
    cases hy' : g'.unread[y]? with
    | none => exact h'.found d (h.closed y f hy hy' d hd)
    | some f' =>
      have hff : some f' = some f := (h.unread y f' hy').symm.trans hy
      rw [Option.some.inj hff] at hy'
      exact h'.closed y f hy' hy'' d hd

/-- Finding a name that has no unread formula is progress. -/
theorem Gathering.Grows.insert_found {g : Gathering} {x : String} (hx : g.unread[x]? = none) :
    g.Grows { g with found := g.found.insert x } where
  unread _ _ h := h
  size := Nat.le_refl _
  found y hy := NameSet.mem_insert_iff.2 (.inr hy)
  read y hy := by
    rcases NameSet.mem_insert_iff.1 hy with rfl | hy
    · exact .inr hx
    · exact .inl hy
  closed y f h h' := by
    have h' : g.unread[y]? = none := h'
    rw [h] at h'; cases h'

/-- Visiting names in order does for each of them what visiting one does. -/
theorem Gathering.foldl_visit_grows {n : Nat}
    (one : ∀ g x, g.unread.size ≤ n → g.Grows (visit n g x) ∧ x ∈ (visit n g x).found) :
    ∀ (xs : List String) (g : Gathering), g.unread.size ≤ n →
      g.Grows (xs.foldl (visit n) g) ∧ ∀ x ∈ xs, x ∈ (xs.foldl (visit n) g).found := by
  intro xs
  induction xs with
  | nil => intro g _; exact ⟨.refl g, by simp⟩
  | cons x xs ih =>
    intro g hg
    obtain ⟨hgrows, hx⟩ := one g x hg
    obtain ⟨hrest, hxs⟩ := ih (visit n g x) (Nat.le_trans hgrows.size hg)
    refine ⟨hgrows.trans hrest, ?_⟩
    intro y hy
    rcases List.mem_cons.mp hy with rfl | hy
    · exact hrest.found _ hx
    · exact hxs y hy

/-- A visit with as many levels as there are unread formulas reads all that it should. -/
theorem Gathering.visit_grows : ∀ (n : Nat) (g : Gathering) (x : String), g.unread.size ≤ n →
    g.Grows (visit n g x) ∧ x ∈ (visit n g x).found := by
  intro n
  induction n with
  | zero =>
    intro g x hg
    have hx : g.unread[x]? = none := getElem?_of_size_le_zero hg x
    rw [visit_of_none hx]
    exact ⟨.insert_found hx, NameSet.mem_insert_iff.2 (.inl rfl)⟩
  | succ n ih =>
    intro g x hg
    cases hx : g.unread[x]? with
    | none =>
      rw [visit_of_none hx]
      exact ⟨.insert_found hx, NameSet.mem_insert_iff.2 (.inl rfl)⟩
    | some f =>
      rw [visit_of_some hx]
      have hsize := size_erase_add_one hx
      have hlevels : (g.unread.erase x).size ≤ n := by omega
      obtain ⟨hrest, hdeps⟩ := foldl_visit_grows ih f.dependsOn
        ⟨g.unread.erase x, g.found.insert x⟩ hlevels
      -- the formula of `x` is taken out, and nothing puts it back
      have hxread := hrest.unread_none (y := x) Std.ExtTreeMap.getElem?_erase_self
      have hxfound := hrest.found x (NameSet.mem_insert_iff.2 (.inl rfl))
      refine ⟨⟨?unread, ?size, ?found, ?read, ?closed⟩, hxfound⟩
      case unread =>
        intro y e hy
        exact (getElem?_erase_iff.1 (hrest.unread y e hy)).2
      case size =>
        have hle : _ ≤ (g.unread.erase x).size := hrest.size
        omega
      case found =>
        intro y hy
        exact hrest.found y (NameSet.mem_insert_iff.2 (.inr hy))
      case read =>
        intro y hy
        rcases hrest.read y hy with hy | hy
        · rcases NameSet.mem_insert_iff.1 hy with rfl | hy
          · exact .inr hxread
          · exact .inl hy
        · exact .inr hy
      case closed =>
        intro y e hy hy'
        by_cases hyx : y = x
        · subst hyx
          rw [hx] at hy
          obtain rfl := Option.some.inj hy
          exact hdeps
        · exact hrest.closed y e (getElem?_erase_iff.2 ⟨hyx, hy⟩) hy'

/-- A search that reads formulas of `fs` only. -/
def Gathering.Within (fs : Formulas) (g : Gathering) : Prop :=
  ∀ (y : String) (f : Formula), g.unread[y]? = some f → fs[y]? = some f

theorem Gathering.mem_insert_found (fs : Formulas) {g : Gathering} {x y : String}
    (hy : y ∈ g.found.insert x) : y ∈ g.found ∨ y = x ∨ fs.Reaches x y := by
  rcases NameSet.mem_insert_iff.1 hy with hy | hy
  · exact .inr (.inl hy)
  · exact .inl hy

/-- Visits find nothing but what the visited names are or reach. -/
theorem Gathering.foldl_visit_sound {fs : Formulas} {n : Nat}
    (one : ∀ g x, g.Within fs → (visit n g x).Within fs ∧
      ∀ y ∈ (visit n g x).found, y ∈ g.found ∨ y = x ∨ fs.Reaches x y) :
    ∀ (xs : List String) (g : Gathering), g.Within fs → (xs.foldl (visit n) g).Within fs ∧
      ∀ y ∈ (xs.foldl (visit n) g).found, y ∈ g.found ∨ ∃ x ∈ xs, y = x ∨ fs.Reaches x y := by
  intro xs
  induction xs with
  | nil => intro g hg; exact ⟨hg, fun y hy => .inl hy⟩
  | cons x xs ih =>
    intro g hg
    obtain ⟨hwithin, hx⟩ := one g x hg
    obtain ⟨hrest, hxs⟩ := ih _ hwithin
    refine ⟨hrest, ?_⟩
    intro y hy
    rcases hxs y hy with hy | ⟨x', hx', hy⟩
    · rcases hx y hy with hy | hy
      · exact .inl hy
      · exact .inr ⟨x, List.mem_cons_self, hy⟩
    · exact .inr ⟨x', List.mem_cons_of_mem x hx', hy⟩

theorem Gathering.visit_sound (fs : Formulas) : ∀ (n : Nat) (g : Gathering) (x : String),
    g.Within fs → (visit n g x).Within fs ∧
      ∀ y ∈ (visit n g x).found, y ∈ g.found ∨ y = x ∨ fs.Reaches x y := by
  intro n
  induction n with
  | zero =>
    intro g x hg
    rw [visit.eq_def]
    exact ⟨hg, fun y hy => mem_insert_found fs hy⟩
  | succ n ih =>
    intro g x hg
    cases hx : g.unread[x]? with
    | none =>
      rw [visit_of_none hx]
      exact ⟨hg, fun y hy => mem_insert_found fs hy⟩
    | some f =>
      rw [visit_of_some hx]
      have herase : Within fs ⟨g.unread.erase x, g.found.insert x⟩ := by
        intro y e hy
        exact hg y e (getElem?_erase_iff.1 hy).2
      obtain ⟨hwithin, hfound⟩ := foldl_visit_sound ih f.dependsOn _ herase
      refine ⟨hwithin, ?_⟩
      intro y hy
      rcases hfound y hy with hy | ⟨d, hd, hy⟩
      · exact mem_insert_found fs hy
      · have hxd : fs.Edge x d := edge_of_some (hg x f hx) hd
        rcases hy with rfl | hy
        · exact .inr (.inr (.single hxd))
        · exact .inr (.inr (.head hxd hy))

/-- **The dependencies of a name are the other names that it reaches.** -/
theorem mem_dependencies_iff {fs : Formulas} {x y : String} :
    y ∈ fs.dependencies x ↔ y ≠ x ∧ fs.Reaches x y := by
  obtain ⟨hgrows, hdeps⟩ := Gathering.foldl_visit_grows (Gathering.visit_grows fs.size)
    (fs.directDeps x) ⟨fs, ∅⟩ (Nat.le_refl _)
  obtain ⟨_, hsound⟩ := Gathering.foldl_visit_sound (Gathering.visit_sound fs fs.size)
    (fs.directDeps x) ⟨fs, ∅⟩ fun _ _ h => h
  rw [dependencies, NameSet.mem_erase_iff]
  refine and_congr_right fun _ => ⟨?sound, ?complete⟩
  case sound =>
    intro hy
    rcases hsound y hy with hy | ⟨d, hd, rfl | hy⟩
    · exact absurd hy Std.ExtTreeSet.not_mem_empty
    · exact .single hd
    · exact .head hd hy
  case complete =>
    intro hy
    obtain ⟨d, hd, hdy⟩ := Relation.TransGen.head'_iff.1 hy
    rcases Relation.reflTransGen_iff_eq_or_transGen.1 hdy with rfl | hdy
    · exact hdeps _ hd
    · -- what has been found is closed under edges, so it holds all that its members reach
      refine Reaches.mem_of_closed ?_ hdy (hdeps d hd)
      intro a b ha hab
      obtain ⟨f, hf, hb⟩ := edge_iff.1 hab
      rcases hgrows.read a ha with ha | ha
      · exact absurd ha Std.ExtTreeSet.not_mem_empty
      · exact hgrows.closed a f hf ha b hb

theorem eq_or_mem_dependencies_iff {fs : Formulas} {x y : String} :
    y = x ∨ y ∈ fs.dependencies x ↔ y = x ∨ fs.Reaches x y := by
  rw [mem_dependencies_iff, or_and_left, and_iff_right (Classical.em (y = x))]

/-- **The dependents of a name are the other names that reach it.** -/
theorem mem_dependents_iff {fs : Formulas} {x y : String} :
    y ∈ fs.dependents x ↔ x ≠ y ∧ fs.Reaches y x := by
  rw [dependents, List.mem_filter, ← Std.ExtTreeSet.mem_iff_contains, mem_dependencies_iff]
  refine and_iff_right_of_imp ?_
  intro h
  obtain ⟨f, hf⟩ := exists_formula_of_reaches h.2
  rw [Std.ExtTreeMap.mem_keys, Std.ExtTreeMap.mem_iff_isSome_getElem?, hf]
  rfl

end Formulas

end Recalc

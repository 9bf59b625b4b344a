import Recalc.Host
import Recalc.Proofs.Progress

/-!
# Stale symbols

A symbol is stale when its value may be out of date. Two facts make that enough to go by, and they
hold in every reachable solver, whatever values are assigned and however passes end:

* **What depends on a stale symbol is stale.** So the dependencies of a current symbol are current.
* **A current symbol is grounded.** It reaches no circle and no function that calls itself, even
  where circular formulas are accepted.

Inside a pass a third fact carries these two: a finished symbol is current.
-/

namespace Recalc

theorem NameSet.erase_of_not_mem {set : NameSet} {x : String} (h : x ∉ set) :
    set.erase x = set := by
  refine Std.ExtTreeSet.ext_mem ?_
  intro y
  rw [NameSet.mem_erase_iff]
  exact ⟨fun hy => hy.2, fun hy => ⟨fun he => h (he ▸ hy), hy⟩⟩

/-- The stale names are marked as they should be. -/
structure Formulas.Marks (fs : Formulas) (stale : NameSet) : Prop where
  /-- What depends on a stale name is stale. -/
  upward : ∀ x y, fs.Edge x y → y ∈ stale → x ∈ stale
  /-- What is not stale reaches no circle. -/
  grounded : ∀ x, x ∉ stale → fs.Grounded x

namespace Formulas.Marks

variable {fs : Formulas} {stale : NameSet}

theorem not_mem_of_edge (h : fs.Marks stale) {x y : String} (hx : x ∉ stale)
    (hxy : fs.Edge x y) : y ∉ stale := fun hy => hx (h.upward x y hxy hy)

theorem not_mem_of_reaches (h : fs.Marks stale) {x y : String} (hx : x ∉ stale)
    (hxy : fs.Reaches x y) : y ∉ stale :=
  hxy.mem_of_closed (P := fun y => y ∉ stale) (fun _ _ ha hab => h.not_mem_of_edge ha hab) hx

/-- Marking a name and all that reaches it makes up for a change of its formula. -/
theorem mark (h : fs.Marks stale) {gs : Formulas} {t : String}
    (hgs : ∀ y, y ≠ t → gs[y]? = fs[y]?) {stale' : NameSet}
    (hstale : ∀ y, y ∈ stale' ↔ y = t ∨ gs.Reaches y t ∨ y ∈ stale) : gs.Marks stale' := by
  have hedge : ∀ x y, x ≠ t → gs.Edge x y → fs.Edge x y := by
    intro x y hx hxy
    rw [edge_iff, hgs x hx] at hxy
    exact edge_iff.2 hxy
  have hup : ∀ x y, gs.Edge x y → y ∈ stale' → x ∈ stale' := by
    intro x y hxy hy
    rw [hstale] at hy ⊢
    rcases hy with rfl | hyt | hy
    · exact .inr (.inl (.single hxy))
    · exact .inr (.inl (.head hxy hyt))
    · by_cases hx : x = t
      · exact .inl hx
      · exact .inr (.inr (h.upward x y (hedge x y hx hxy) hy))
  refine ⟨hup, ?_⟩
  intro x hx
  have hxt : x ≠ t := fun he => hx ((hstale x).2 (.inl he))
  have hxs : x ∉ stale := fun hs => hx ((hstale x).2 (.inr (.inr hs)))
  have hg := h.grounded x hxs
  clear hxs
  -- along edges from `x` nothing is marked, so the formulas there are the old ones
  induction hg with
  | @intro x calm _ ih =>
    refine ⟨fun f hf => calm f (hgs x hxt ▸ hf), ?_⟩
    intro y hxy
    have hy : y ∉ stale' := fun hy => hx (hup x y hxy hy)
    exact ih y (hedge x y hxt hxy) hy fun he => hy ((hstale y).2 (.inl he))

end Formulas.Marks

/-! ## Passes -/

namespace Pass

variable {H : Type}

/-- The stale names are marked, and nothing finished is among them. -/
structure Marked (fs : Formulas) (p : Pass H) : Prop where
  marks : fs.Marks p.stale
  current : ∀ x ∈ p.finished, x ∉ p.stale

theorem Marked.start {fs : Formulas} {table : Table H} {stale : NameSet} (h : fs.Marks stale) :
    Marked fs (.start table stale) :=
  ⟨h, fun _ hx => absurd hx Std.ExtTreeSet.not_mem_empty⟩

/-- What a symbol with finished dependencies reaches is current. -/
theorem Marked.not_stale_of_reaches {fs : Formulas} {p : Pass H} (h : Marked fs p) {x : String}
    (hdeps : ∀ y, fs.Edge x y → y ∈ p.finished) {y : String} (hy : fs.Reaches x y) :
    y ∉ p.stale := by
  obtain ⟨d, hd, hdy⟩ := Relation.TransGen.head'_iff.1 hy
  have hcurrent := h.current d (hdeps d hd)
  rcases Relation.reflTransGen_iff_eq_or_transGen.1 hdy with rfl | hdy
  · exact hcurrent
  · exact h.marks.not_mem_of_reaches hcurrent hdy

/-- Refreshing current symbols one by one finishes them and does nothing else. -/
theorem refreshEach_of_current {table : Table H} {stale : NameSet} {recomputed : List String}
    {one : String → Pass H → Step H} : ∀ (xs : List String) (finished : NameSet),
    (∀ x ∈ xs, ∀ finished, ∃ finished',
      one x ⟨table, stale, finished, recomputed⟩ =
        (⟨table, stale, finished', recomputed⟩, .value ())) →
    ∃ finished', refreshEach one xs ⟨table, stale, finished, recomputed⟩ =
      (⟨table, stale, finished', recomputed⟩, .value ()) := by
  intro xs
  induction xs with
  | nil => intro finished _; exact ⟨finished, rfl⟩
  | cons x xs ih =>
    intro finished hone
    obtain ⟨finished', hx⟩ := hone x List.mem_cons_self finished
    rw [refreshEach_of_value (by rw [hx]), hx]
    exact ih finished' fun y hy => hone y (List.mem_cons_of_mem x hy)

variable [HostLibrary H] {tables : Tables H} {depth : Nat} {fs : Formulas}

theorem Marked.finishes {p q : Pass H} {x : String} (h : Marked fs p)
    (hq : Finishes tables depth fs p x q) : Marked fs q := by
  have hdeps : ∀ y, fs.Edge x y → y ∉ p.stale := fun y hy => h.current y (hq.deps_finished hy)
  refine ⟨⟨?upward, ?grounded⟩, ?current⟩
  case upward =>
    intro a b hab hb
    rw [hq.mem_stale_iff] at hb ⊢
    refine ⟨?_, h.marks.upward a b hab hb.2⟩
    rintro rfl
    exact hdeps b hab hb.2
  case grounded =>
    intro a ha
    by_cases hax : a = x
    · subst hax
      exact ⟨fun f hf => hq.calm hf, fun y hy => h.marks.grounded y (hdeps y hy)⟩
    · exact h.marks.grounded a fun has => ha (hq.mem_stale_iff.2 ⟨hax, has⟩)
  case current =>
    intro y hy
    rw [hq.finished_eq] at hy
    rw [hq.mem_stale_iff]
    rintro ⟨hyx, hys⟩
    rcases NameSet.mem_insert_iff.1 hy with rfl | hy
    · exact hyx rfl
    · exact h.current y hy hys

/-- **A pass keeps the marks**, however it ends. -/
theorem Marked.progress {p q : Pass H} (h : Marked fs p) (hq : Progress tables depth fs p q) :
    Marked fs q := by
  induction hq with
  | refl => exact h
  | tail _ hx ih => exact ih.finishes hx

/--
**A pass over a current symbol succeeds and does nothing**: it finishes the symbol and what the
symbol reaches, and recomputes none of it.
-/
theorem refresh_of_current {table : Table H} {stale : NameSet} {recomputed : List String}
    (h : fs.Marks stale) (n : Nat) (path : List String) (x : String) (hx : x ∉ stale)
    (hroom : fs.HasRoom n path) (hpath : ∀ y ∈ path, fs.Reaches y x) (finished : NameSet) :
    ∃ finished', refresh tables depth fs n path x ⟨table, stale, finished, recomputed⟩ =
      (⟨table, stale, finished', recomputed⟩, .value ()) := by
  by_cases hfin : x ∈ finished
  · rw [refresh_of_finished hfin]
    exact ⟨finished, rfl⟩
  have hground := h.grounded x hx
  cases hf : fs[x]? with
  | none =>
    rw [refresh_of_leaf hfin hf, finishLeaf, NameSet.erase_of_not_mem hx]
    exact ⟨finished.insert x, rfl⟩
  | some f =>
    -- coming upon the path would make a circle through `x`
    have hnew : x ∉ path := hground.not_mem_path hpath
    obtain ⟨m, rfl, hroom'⟩ := hroom.enter hf hnew
    have hdeps : ∀ y ∈ f.dependsOn, ∀ finished, ∃ finished',
        refresh tables depth fs m (path ++ [x]) y ⟨table, stale, finished, recomputed⟩ =
          (⟨table, stale, finished', recomputed⟩, .value ()) := by
      intro y hy finished
      have hxy : fs.Edge x y := Formulas.edge_of_some hf hy
      exact refresh_of_current h m (path ++ [x]) y (h.not_mem_of_edge hx hxy) hroom'
        (Formulas.reaches_of_mem_path hpath hxy) finished
    obtain ⟨finished', hd⟩ := refreshEach_of_current f.dependsOn finished hdeps
    rw [refresh_of_deps hfin hf (hground.calm hf) hnew (by rw [hd]), hd, finishFormula, if_neg]
    · exact ⟨finished'.insert x, rfl⟩
    · rw [← Std.ExtTreeSet.mem_iff_contains]
      exact hx

end Pass

/-! ## Solvers -/

namespace Solver

variable {H : Type}

/-- Marking a name makes stale the name and what reaches it. -/
theorem mem_stale_markStale_iff {s : Solver H} {x y : String} :
    y ∈ (s.markStale x).stale ↔ y = x ∨ s.formulas.Reaches y x ∨ y ∈ s.stale := by
  rw [mem_stale_markStale, dependents, Formulas.mem_dependents_iff]
  by_cases hy : y = x
  · simp [hy]
  · rw [and_iff_right fun he => hy he.symm]

/-- A definition makes stale its target and what reaches that along the new edges. -/
theorem mem_stale_install {s : Solver H} {f : Formula} {y : String} :
    y ∈ (s.install f).stale ↔
      y = f.target ∨ Formulas.Reaches (s.formulas.insert f.target f) y f.target ∨ y ∈ s.stale :=
  mem_stale_markStale_iff

/-- An assignment makes stale its symbol and what reaches that. -/
theorem mem_stale_withValue {s : Solver H} {x : String} {v : Value H} {y : String} :
    y ∈ (s.withValue x v).stale ↔ y = x ∨ s.formulas.Reaches y x ∨ y ∈ s.stale :=
  mem_stale_markStale_iff

theorem eventsFor_nil (s : Solver H) : s.eventsFor [] = [] := by
  rw [eventsFor]
  split <;> rfl

theorem isStale_iff {s : Solver H} {x : String} : s.isStale x = true ↔ x ∈ s.stale :=
  Std.ExtTreeSet.mem_iff_contains.symm

theorem isStale_eq_false {s : Solver H} {x : String} : s.isStale x = false ↔ x ∉ s.stale := by
  rw [← isStale_iff, Bool.not_eq_true]

theorem not_mem_stale {s : Solver H} {x : String} (h : s.isStale x = false) : x ∉ s.stale :=
  isStale_eq_false.1 h

variable [HostLibrary H] {ok : Request H → Solver H → Prop} {settings : Settings} {depth : Nat}

/-- **In a reachable solver the stale symbols are marked as they should be.** -/
theorem ReachableBy.marks {s : Solver H} (h : ReachableBy ok settings depth s) :
    s.formulas.Marks s.stale := by
  refine h.induction (P := fun s => s.formulas.Marks s.stale) ?empty ?listen ?install ?assign ?pass
  case empty =>
    intro id
    refine ⟨?_, fun x _ => .of_leaf Std.ExtTreeMap.getElem?_empty⟩
    intro x y hxy
    obtain ⟨f, hf, _⟩ := Formulas.edge_iff.1 hxy
    cases Std.ExtTreeMap.getElem?_empty.symm.trans hf
  case listen => exact fun s ih => ih
  case install =>
    intro s text f ih _ _ _
    exact ih.mark (fun y hy => Formulas.getElem?_insert_ne hy) fun y => mem_stale_install
  case assign =>
    intro s x v ih _ _
    exact ih.mark (fun y _ => rfl) fun y => mem_stale_withValue
  case pass =>
    intro s tables x ih
    exact ((Pass.Marked.start ih).progress (Pass.refresh_progress _ _ _ _).1).marks

/-- A pass over a current symbol only finishes symbols. -/
theorem pass_of_current {s : Solver H} (hm : s.formulas.Marks s.stale) (tables : Tables H)
    (depth : Nat) {x : String} (hx : s.isStale x = false) :
    ∃ finished, s.pass tables depth x = (⟨s.table, s.stale, finished, []⟩, .value ()) :=
  Pass.refresh_of_current hm _ _ x (not_mem_stale hx) (.start _)
    (fun _ hy => absurd hy List.not_mem_nil) ∅

/-- Where all dependencies are current, a pass over a stale symbol runs its formula over the table
as it is. -/
theorem pass_of_current_deps {s : Solver H} (hm : s.formulas.Marks s.stale) (tables : Tables H)
    (depth : Nat) {x : String} {f : Formula} (hf : s.formulas[x]? = some f)
    (hcalm : f.isSelfCalling = false) (hdeps : ∀ d ∈ f.dependsOn, d ∉ s.stale) :
    ∃ finished, s.pass tables depth x =
      Pass.finishFormula tables depth ⟨s.table, s.stale, finished, []⟩ x f := by
  obtain ⟨n, hsize, hroom⟩ := (Formulas.HasRoom.start s.formulas).enter hf List.not_mem_nil
  have hone : ∀ d ∈ f.dependsOn, ∀ finished, ∃ finished',
      Pass.refresh tables depth s.formulas n ([] ++ [x]) d ⟨s.table, s.stale, finished, []⟩ =
        (⟨s.table, s.stale, finished', []⟩, .value ()) := by
    intro d hd finished
    refine Pass.refresh_of_current hm n _ d (hdeps d hd) hroom ?_ finished
    intro y hy
    rw [List.mem_singleton.mp hy]
    exact .single (Formulas.edge_of_some hf hd)
  obtain ⟨finished, hdone⟩ := Pass.refreshEach_of_current f.dependsOn ∅ hone
  have hfree : x ∉ (Pass.start s.table s.stale).finished := Std.ExtTreeSet.not_mem_empty
  refine ⟨finished, ?_⟩
  rw [pass, hsize, Pass.refresh_of_deps hfree hf hcalm List.not_mem_nil]
  · rw [Pass.start, hdone]
  · rw [Pass.start, hdone]

/--
**Solving a known symbol is making a pass and reading the symbol**, also where it is current and
no pass is made: the pass would do nothing.
-/
theorem solve_eq_pass {s : Solver H} (hm : s.formulas.Marks s.stale) (tables : Tables H)
    (depth : Nat) {x : String} (hx : s.contains x = true) :
    s.solve tables depth x =
      ⟨s.afterPass (s.pass tables depth x).1, s.eventsFor (s.pass tables depth x).1.recomputed,
        (s.pass tables depth x).2 >>= fun _ => (s.afterPass (s.pass tables depth x).1).read x⟩ := by
  cases hstale : s.isStale x with
  | true => exact solve_of_stale tables depth hx hstale
  | false =>
    obtain ⟨finished, hpass⟩ := pass_of_current hm tables depth hstale
    rw [solve_of_not_stale tables depth (by simp [hstale]), hpass, eventsFor_nil]
    rfl

/--
**Staleness is closed under dependents, and answering without a pass agrees with the pass.**

In every reachable solver a symbol that depends on a stale one, directly or not, is stale; a
current symbol and all that it depends on lie on no circle and call themselves nowhere; and a
pass over a current symbol would succeed, recompute nothing and leave the table and the stale
symbols as they are.
-/
theorem stale_closed_and_current_idle {s : Solver H} (h : Reachable settings depth s) :
    (∀ d x, s.isStale d = true → d ∈ s.dependencies x → s.isStale x = true) ∧
    (∀ x f, s.formula? x = some f → s.isStale x = false →
      ∀ y, y = x ∨ y ∈ s.dependencies x →
        ¬ s.formulas.Reaches y y ∧ ∀ g, s.formula? y = some g → g.isSelfCalling = false) ∧
    (∀ x, s.isStale x = false → ∀ (tables : Tables H) (depth : Nat), ∃ finished,
      s.pass tables depth x = (⟨s.table, s.stale, finished, []⟩, .value ())) := by
  have hm := h.marks
  refine ⟨?upward, ?grounded, ?idle⟩
  case upward =>
    intro d x hd hdx
    have hreach := (Formulas.mem_dependencies_iff.1 hdx).2
    cases hx : s.isStale x with
    | true => rfl
    | false =>
      have hd' : d ∉ s.stale := hm.not_mem_of_reaches (not_mem_stale hx) hreach
      exact absurd (Std.ExtTreeSet.mem_iff_contains.2 hd) hd'
  case grounded =>
    intro x f _ hx y hy
    have hg : s.formulas.Grounded y := by
      rcases hy with rfl | hy
      · exact hm.grounded y (not_mem_stale hx)
      · exact (hm.grounded x (not_mem_stale hx)).of_reaches (Formulas.mem_dependencies_iff.1 hy).2
    exact ⟨hg.not_reaches_self, fun g hg' => hg.calm hg'⟩
  case idle =>
    intro x hx tables depth
    exact pass_of_current hm tables depth hx

/-- One formula solved, and then another one put on top of it. -/
def halfSolved : Solver StandardHost :=
  performAll .empty 8 (.empty {} 0)
    [.define "b = a + 1", .assign "a" (.number 2), .solve "b", .define "c = b * b"]

theorem stale_closed_and_current_idle_halfSolved :
    Reachable {} 8 halfSolved ∧ halfSolved.isStale "c" = true ∧
      halfSolved.isStale "b" = false ∧ ∃ finished, halfSolved.pass .empty 8 "b" =
        (⟨halfSolved.table, halfSolved.stale, finished, []⟩, .value ()) := by
  have h : Reachable {} 8 halfSolved := .performAll .empty _ (.empty 0) (by decide +kernel)
  have hb : halfSolved.isStale "b" = false := by decide +kernel
  exact ⟨h, by decide +kernel, hb, (stale_closed_and_current_idle h).2.2 "b" hb .empty 8⟩

end Solver

end Recalc

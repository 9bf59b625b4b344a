import Recalc.Proofs.Invalidation
import Recalc.Proofs.WayBack

/-!
# The order of definitions

A definition is checked against the formulas that are there, and it makes stale what reaches its
target along these. In another order neither the check nor the marks see the same formulas. Yet if
no two of the formulas have one target, the order is of no importance to a solver that looks for
circles at definition and starts without formulas.

* **What a solver is after definitions depends on which they were.** `Defined` says all of it, and
  it asks only which formulas are in the list.
* **A list of formulas with a circle is not accepted in full, in any order, and one without is.**
  Some formulas of a list make no circle if all of them make none, so no formula of a list without
  circle is refused on the way. And what has been accepted in full makes no circle.
-/

namespace Recalc

namespace Formula

/-- The formulas that some texts are read as; a text that is none is left out. -/
def readAll (texts : List String) : List Formula :=
  texts.filterMap fun text => (parse text).toOption

theorem readAll_cons {text : String} {f : Formula} (h : parse text = .ok f)
    (texts : List String) : readAll (text :: texts) = f :: readAll texts :=
  List.filterMap_cons_some (by rw [h]; rfl)

/-- The formulas define the name or depend on it. -/
def Mention (fs : List Formula) (y : String) : Prop := ∃ f ∈ fs, y = f.target ∨ y ∈ f.dependsOn

theorem mention_append {fs : List Formula} {f : Formula} {y : String} :
    Mention (fs ++ [f]) y ↔ Mention fs y ∨ y ∈ f.target :: f.dependsOn := by
  rw [List.mem_cons]
  constructor
  · rintro ⟨g, hg, hy⟩
    rcases List.mem_append.mp hg with hg | hg
    · exact .inl ⟨g, hg, hy⟩
    · rw [List.mem_singleton.mp hg] at hy
      exact .inr hy
  · rintro (⟨g, hg, hy⟩ | hy)
    · exact ⟨g, List.mem_append_left [f] hg, hy⟩
    · exact ⟨f, List.mem_append_right fs List.mem_cons_self, hy⟩

/-! ## The graph of a list -/

/-- Among the formulas, one for `x` depends on `y`. -/
def Links (fs : List Formula) (x y : String) : Prop := ∃ f ∈ fs, f.target = x ∧ y ∈ f.dependsOn

/-- The formulas make no circle, and no function among them calls itself. -/
structure NoCircle (fs : List Formula) : Prop where
  acyclic : ∀ x, ¬ Relation.TransGen (Links fs) x x
  calm : ∀ f ∈ fs, f.isSelfCalling = false

variable {fs gs : List Formula}

theorem Links.mono (hfs : ∀ f ∈ fs, f ∈ gs) : Links fs ≤ Links gs := by
  rintro x y ⟨f, hf, hxy⟩
  exact ⟨f, hfs f hf, hxy⟩

/-- Some of the formulas make no circle if all of them make none. -/
theorem NoCircle.mono (h : NoCircle gs) (hfs : ∀ f ∈ fs, f ∈ gs) : NoCircle fs where
  acyclic x hx := h.acyclic x (Relation.TransGen.mono (Links.mono hfs) x x hx)
  calm f hf := h.calm f (hfs f hf)

end Formula

namespace Solver

open Formula (Mention Links NoCircle readAll)

variable {H : Type}

/-- `s` has been given the formulas, each under its own target, and nothing else. -/
structure Defined (settings : Settings) (id : TableId) (fs : List Formula) (s : Solver H) :
    Prop where
  settings : s.settings = settings
  listeners : s.listeners = 0
  table : s.table.id = id ∧ s.table.compiled = 0
  formula : ∀ x f, s.formula? x = some f ↔ f ∈ fs ∧ f.target = x
  /-- What is mentioned is known, and no value is. -/
  value : ∀ y v, s.table.value? y = some v ↔ Mention fs y ∧ v = .unknown
  /-- What has a formula is stale. -/
  stale : ∀ y, s.isStale y = true ↔ ∃ f ∈ fs, f.target = y

namespace Defined

variable {settings : Settings} {id : TableId} {fs gs : List Formula} {s s' : Solver H}

theorem empty (settings : Settings) (id : TableId) :
    Defined settings id [] (Solver.empty settings id : Solver H) where
  settings := rfl
  listeners := rfl
  table := ⟨rfl, rfl⟩
  formula x f := by simp [Solver.empty, formula?]
  value y v := by simp [Solver.empty, Mention]
  stale y := by simp [Solver.empty, isStale]

/-- **Solvers that have been given the same formulas are the same.** -/
theorem unique (h : Defined settings id fs s) (h' : Defined settings id gs s')
    (hgs : ∀ f, f ∈ fs ↔ f ∈ gs) : s = s' := by
  have hmention : ∀ y, Mention fs y ↔ Mention gs y :=
    fun y => exists_congr fun f => and_congr_left' (hgs f)
  have hcells : s.table.cells = s'.table.cells := by
    refine Std.ExtTreeMap.ext_getElem? fun y => Option.ext fun v => ?_
    exact (h.value y v).trans ((and_congr_left' (hmention y)).trans (h'.value y v).symm)
  have hformulas : s.formulas = s'.formulas := by
    refine Std.ExtTreeMap.ext_getElem? fun x => Option.ext fun f => ?_
    exact (h.formula x f).trans ((and_congr_left' (hgs f)).trans (h'.formula x f).symm)
  have hstale : s.stale = s'.stale := by
    refine Std.ExtTreeSet.ext_mem fun y => ?_
    rw [← isStale_iff, ← isStale_iff, h.stale, h'.stale]
    exact exists_congr fun f => and_congr_left' (hgs f)
  obtain ⟨_, ⟨_, _, _⟩, _, _, _⟩ := s
  obtain ⟨_, ⟨_, _, _⟩, _, _, _⟩ := s'
  simp only [Solver.mk.injEq, Table.mk.injEq]
  exact ⟨h.settings.trans h'.settings.symm,
    ⟨h.table.1.trans h'.table.1.symm, hcells, h.table.2.trans h'.table.2.symm⟩,
    hformulas, hstale, h.listeners.trans h'.listeners.symm⟩

/-! ## One more formula -/

/-- The edges are the links of the list. -/
theorem edge_eq (h : Defined settings id fs s) : s.formulas.Edge = Links fs := by
  funext x y
  refine propext (Formulas.edge_iff.trans ⟨?_, ?_⟩)
  · rintro ⟨f, hf, hy⟩
    obtain ⟨hmem, htarget⟩ := (h.formula x f).1 hf
    exact ⟨f, hmem, htarget, hy⟩
  · rintro ⟨f, hmem, htarget, hy⟩
    exact ⟨f, (h.formula x f).2 ⟨hmem, htarget⟩, hy⟩

theorem reaches_eq (h : Defined settings id fs s) :
    s.formulas.Reaches = Relation.TransGen (Links fs) := by
  rw [← h.edge_eq]
  rfl

theorem noCircle (h : Defined settings id fs s) (hfree : s.formulas.CircleFree) : NoCircle fs where
  acyclic := h.reaches_eq ▸ hfree.acyclic
  calm f hf := hfree.calm f.target f ((h.formula f.target f).2 ⟨hf, rfl⟩)

/-- A formula that makes no circle with the others closes none. -/
theorem circle?_eq_none (h : Defined settings id fs s) {f : Formula}
    (hno : NoCircle (fs ++ [f])) : s.circle? f = none := by
  have hmem : f ∈ fs ++ [f] := List.mem_append_right fs List.mem_cons_self
  rw [← Option.not_isSome_iff_eq_none, isSome_circle?_iff, h.reaches_eq]
  rintro (hself | ⟨d, hd, hback⟩)
  · rw [hno.calm f hmem] at hself
    cases hself
  · have hfd : Links (fs ++ [f]) f.target d := ⟨f, hmem, rfl, hd⟩
    rcases hback with rfl | hback
    · exact hno.acyclic _ (.single hfd)
    · have hlinks : Links fs ≤ Links (fs ++ [f]) :=
        .mono fun g hg => List.mem_append_left [f] hg
      exact hno.acyclic _ (.head hfd (Relation.TransGen.mono hlinks d f.target hback))

theorem formula?_install (h : Defined settings id fs s) {f : Formula}
    (hnew : ∀ g ∈ fs, g.target ≠ f.target) (x : String) (g : Formula) :
    (s.install f).formula? x = some g ↔ g ∈ fs ++ [f] ∧ g.target = x := by
  have hformula : (s.install f).formula? x = (s.formulas.insert f.target f)[x]? := rfl
  rw [hformula, List.mem_append, List.mem_singleton]
  by_cases hx : x = f.target
  · subst hx
    rw [Std.ExtTreeMap.getElem?_insert_self]
    constructor
    · intro hg
      obtain rfl := Option.some.inj hg
      exact ⟨.inr rfl, rfl⟩
    · rintro ⟨hg | rfl, htarget⟩
      · exact absurd htarget (hnew g hg)
      · rfl
  · rw [Formulas.getElem?_insert_ne hx]
    refine (h.formula x g).trans (and_congr_left fun htarget => (or_iff_left ?_).symm)
    rintro rfl
    exact hx htarget.symm

theorem value?_install_iff (h : Defined settings id fs s) (f : Formula) (y : String)
    (v : Value H) :
    (s.install f).table.value? y = some v ↔ Mention (fs ++ [f]) y ∧ v = .unknown := by
  rw [value?_install, Formula.mention_append]
  split
  · next hy =>
    have hunknown : (s.table.value? y).getD .unknown = .unknown := by
      cases hv : s.table.value? y with
      | none => rfl
      | some w => exact ((h.value y w).1 hv).2
    rw [hunknown, Option.some_inj, eq_comm]
    exact (and_iff_right (.inr hy)).symm
  · next hy => rw [h.value, or_iff_left hy]

/-- What a definition makes stale has a formula, and what has one is stale already. -/
theorem isStale_install (h : Defined settings id fs s) {f : Formula}
    (hnew : ∀ g ∈ fs, g.target ≠ f.target) (y : String) :
    (s.install f).isStale y = true ↔ ∃ g ∈ fs ++ [f], g.target = y := by
  rw [s.invalidates_install f y, h.stale]
  constructor
  · rintro (⟨g, hg, rfl⟩ | rfl | ⟨⟨g, hg⟩, _⟩)
    · exact ⟨g, List.mem_append_left [f] hg, rfl⟩
    · exact ⟨f, List.mem_append_right fs List.mem_cons_self, rfl⟩
    · exact ⟨g, (h.formula?_install hnew y g).1 hg⟩
  · rintro ⟨g, hg, rfl⟩
    rcases List.mem_append.mp hg with hg | hg
    · exact .inl ⟨g, hg, rfl⟩
    · rw [List.mem_singleton.mp hg]
      exact .inr (.inl rfl)

/-- **One more formula is put in place.** -/
theorem install (h : Defined settings id fs s) {f : Formula}
    (hnew : ∀ g ∈ fs, g.target ≠ f.target) : Defined settings id (fs ++ [f]) (s.install f) where
  settings := h.settings
  listeners := h.listeners
  table := by
    obtain ⟨hid, hcompiled⟩ := s.table.foldl_ensure_frame (f.target :: f.dependsOn)
    exact ⟨hid.trans h.table.1, hcompiled.trans h.table.2⟩
  formula := h.formula?_install hnew
  value := h.value?_install_iff f
  stale := h.isStale_install hnew

/-! ## All formulas in order -/

variable [HostLibrary H]

/--
**Formulas are accepted one after the other, or one of them is refused for a circle.**

They are refused only if the list makes a circle, since those before and the refused one make it.
-/
theorem defineAll (hs : settings.circles = .atDefinition) (tables : Tables H) (depth : Nat)
    (texts : List String) (h : Defined settings id fs s)
    (hparse : ∀ text ∈ texts, (Formula.parse text).isOk = true)
    (hdistinct : ((fs ++ readAll texts).map Formula.target).Nodup) :
    (∀ reply ∈ s.replies tables depth (texts.map .define), reply.answer = .value none) ∧
      Defined settings id (fs ++ readAll texts)
        (s.performAll tables depth (texts.map .define)) ∨
    (∃ reply ∈ s.replies tables depth (texts.map .define),
      ∃ x way, reply.answer = .error (.circular x way)) ∧ ¬ NoCircle (fs ++ readAll texts) := by
  induction texts generalizing fs s with
  | nil =>
    refine .inl ⟨fun _ hreply => absurd hreply List.not_mem_nil, ?_⟩
    rw [show readAll [] = [] from rfl, List.append_nil]
    exact h
  | cons text texts ih =>
    cases hf : Formula.parse text with
    | error e =>
      have hok := hparse text List.mem_cons_self
      rw [hf] at hok
      cases hok
    | ok f =>
      have happend : fs ++ readAll (text :: texts) = (fs ++ [f]) ++ readAll texts := by
        rw [Formula.readAll_cons hf, List.append_cons]
      rw [happend] at hdistinct ⊢
      have hdefine := define_atDefinition (h.settings ▸ hs) hf
      rw [List.map_cons, replies, performAll, List.foldl_cons, perform, hdefine]
      cases hc : s.circle? f with
      | some way =>
        refine .inr ⟨⟨_, List.mem_cons_self, f.target, way, rfl⟩, fun hno => ?_⟩
        have hno : NoCircle (fs ++ [f]) := hno.mono fun g hg => List.mem_append_left _ hg
        rw [h.circle?_eq_none hno] at hc
        cases hc
      | none =>
        have hnew : ∀ g ∈ fs, g.target ≠ f.target := by
          rw [List.map_append, List.map_append] at hdistinct
          intro g hg
          exact (List.nodup_append.1 (List.nodup_append.1 hdistinct).1).2.2 _
            (List.mem_map_of_mem hg) _ List.mem_cons_self
        rcases ih (h.install hnew) (fun t ht => hparse t (List.mem_cons_of_mem text ht))
          hdistinct with ⟨haccepted, hafter⟩ | ⟨⟨reply, hreply, hrefused⟩, hcircle⟩
        · refine .inl ⟨fun reply hreply => ?_, hafter⟩
          rcases List.mem_cons.mp hreply with rfl | hreply
          · rfl
          · exact haccepted reply hreply
        · exact .inr ⟨⟨reply, List.mem_cons_of_mem _ hreply, hrefused⟩, hcircle⟩

/-- **Formulas are accepted one and all if they make no circle, and only then.** -/
theorem defineAll_empty (hs : settings.circles = .atDefinition) (id : TableId)
    (tables : Tables H) (depth : Nat) {texts : List String}
    (hparse : ∀ text ∈ texts, (Formula.parse text).isOk = true)
    (hdistinct : ((readAll texts).map Formula.target).Nodup) :
    (NoCircle (readAll texts) →
      (∀ reply ∈ (Solver.empty settings id).replies tables depth (texts.map .define),
        reply.answer = .value none) ∧
      Defined settings id (readAll texts)
        ((Solver.empty settings id).performAll tables depth (texts.map .define))) ∧
    (¬ NoCircle (readAll texts) →
      ∃ reply ∈ (Solver.empty settings id).replies tables depth (texts.map .define),
        ∃ x way, reply.answer = .error (.circular x way)) := by
  rcases defineAll hs tables depth texts (.empty settings id) hparse hdistinct with
    haccepted | ⟨hrefused, hcircle⟩
  · -- a solver that looks for circles holds none
    have hreachable : Reachable settings depth
        ((Solver.empty settings id).performAll tables depth (texts.map .define)) :=
      .afterAll tables _ (.empty id)
    have hno : NoCircle (readAll texts) := haccepted.2.noCircle (hreachable.circleFree hs)
    exact ⟨fun _ => haccepted, fun hcircle => absurd hno hcircle⟩
  · exact ⟨fun hno => absurd hno hcircle, fun _ => hrefused⟩

end Defined

variable [HostLibrary H]

/--
**The order of definitions does not matter.**

Let texts be read as formulas of which no two have one target, and be given to a solver without
formulas that looks for circles at definition. If the formulas make no circle and no function among
them calls itself, all definitions are accepted in every order, and every order leads to the same
solver: it holds just these formulas, what they mention is known and of unknown value, and their
targets are stale. Otherwise, in every order, a definition is refused for a circle.
-/
theorem definition_order_irrelevant {settings : Settings} (hs : settings.circles = .atDefinition)
    (id : TableId) (tables : Tables H) (depth : Nat) {texts : List String}
    (hparse : ∀ text ∈ texts, (Formula.parse text).isOk = true)
    (hdistinct : ((readAll texts).map Formula.target).Nodup) :
    (NoCircle (readAll texts) → ∃ after : Solver H, Defined settings id (readAll texts) after ∧
      ∀ order : List String, order.Perm texts →
        (∀ reply ∈ (Solver.empty settings id).replies tables depth (order.map .define),
          reply.answer = .value none) ∧
        (Solver.empty settings id).performAll tables depth (order.map .define) = after) ∧
    (¬ NoCircle (readAll texts) → ∀ order : List String, order.Perm texts →
      ∃ reply ∈ (Solver.empty settings id : Solver H).replies tables depth (order.map .define),
        ∃ x way, reply.answer = .error (.circular x way)) := by
  have hmem : ∀ order : List String, order.Perm texts →
      ∀ f, f ∈ readAll order ↔ f ∈ readAll texts := fun order horder f =>
    (horder.filterMap _).mem_iff
  have hinOrder := fun (order : List String) (horder : order.Perm texts) =>
    Defined.defineAll_empty (H := H) hs id tables depth
      (fun text htext => hparse text (horder.mem_iff.1 htext))
      (((horder.filterMap _).map _).nodup_iff.2 hdistinct)
  constructor
  · intro hno
    obtain ⟨_, hafter⟩ := (hinOrder texts (.refl texts)).1 hno
    refine ⟨_, hafter, fun order horder => ?_⟩
    have hno' : NoCircle (readAll order) := hno.mono fun f hf => (hmem order horder f).1 hf
    obtain ⟨haccepted, hafter'⟩ := (hinOrder order horder).1 hno'
    exact ⟨haccepted, hafter'.unique hafter (hmem order horder)⟩
  · intro hcircle order horder
    refine (hinOrder order horder).2 fun hno => hcircle ?_
    exact hno.mono fun f hf => (hmem order horder f).2 hf

/-- A function, what it reads, and what that is computed from. -/
def bundle : List String := ["f(x) = x + c", "c = a * b", "a = b + 1"]

/-- The same with a function behind them that leads back. -/
def ring : List String := bundle ++ ["b = f(2)"]

theorem definition_order_irrelevant_bundle :
    (∃ after : Solver StandardHost, Defined {} 0 (readAll bundle) after ∧
      performAll .empty 8 (.empty {} 0) (bundle.map .define) = after ∧
      performAll .empty 8 (.empty {} 0) (bundle.reverse.map .define) = after) ∧
    ∃ reply ∈ (Solver.empty {} 0 : Solver StandardHost).replies .empty 8 (ring.reverse.map .define),
      ∃ x way, reply.answer = .error (.circular x way) := by
  have hbundle := @definition_order_irrelevant StandardHost _ {} rfl 0 .empty 8 bundle
    (by decide +kernel) (by decide +kernel)
  have hring := @definition_order_irrelevant StandardHost _ {} rfl 0 .empty 8 ring
    (by decide +kernel) (by decide +kernel)
  constructor
  · have hno : NoCircle (readAll bundle) := by
      by_contra hcircle
      obtain ⟨reply, hreply, x, way, hrefused⟩ := hbundle.2 hcircle bundle (.refl bundle)
      have haccepted : ∀ reply ∈ (Solver.empty {} 0 : Solver StandardHost).replies .empty 8
          (bundle.map .define), reply.answer = .value none := by decide +kernel
      cases hrefused.symm.trans (haccepted reply hreply)
    obtain ⟨after, hafter, horders⟩ := hbundle.1 hno
    exact ⟨after, hafter, (horders bundle (.refl bundle)).2,
      (horders bundle.reverse bundle.reverse_perm).2⟩
  · have hcircle : ¬ NoCircle (readAll ring) := by
      intro hno
      obtain ⟨after, _, horders⟩ := hring.1 hno
      have hrefused : ¬ ∀ reply ∈ (Solver.empty {} 0 : Solver StandardHost).replies .empty 8
          (ring.map .define), reply.answer = .value none := by decide +kernel
      exact hrefused (horders ring (.refl ring)).1
    exact hring.2 hcircle ring.reverse ring.reverse_perm

end Solver

end Recalc

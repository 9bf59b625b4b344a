import Recalc.Proofs.CircleReports
import Recalc.Proofs.Searches

/-!
# The way that is found

A search for a way gives up a name for good once it has entered it, and takes its way back from
every dead end. Neither makes it miss a way or find a wrong one.

* **A way that is found leads back**: each name on it depends on the next one, and no name stands on
  it twice but the goal at its ends, because what a search enters it has not entered before.
* If there is a way, one is found, because a search that misses the goal has missed it everywhere.

So a solver that looks for circles at definition refuses exactly the formulas that close one.
-/

namespace Recalc

namespace Formulas

/-! ## Ways and circles -/

/-- `way` leads from `target` to one of `names` and from there along edges to `target` again. No
name stands on it twice but `target` at its ends. -/
def LeadsBack (fs : Formulas) (target : String) (names way : List String) : Prop :=
  ∃ between, way = target :: (between ++ [target]) ∧
    (∃ x ∈ names, (between ++ [target]).head? = some x) ∧
    (between ++ [target]).IsChain fs.Edge ∧ (target :: between).Nodup

/-- `way` leads from `x` along edges to `x` again. No name stands on it twice but `x` at its
ends. -/
def IsCircle (fs : Formulas) (x : String) (way : List String) : Prop :=
  ∃ between, way = x :: (between ++ [x]) ∧ way.IsChain fs.Edge ∧ (x :: between).Nodup

/-- `way` shows why `x` cannot be computed: it is a circle, or `x` is a function that calls
itself. -/
def ShowsCircle (fs : Formulas) (x : String) (way : List String) : Prop :=
  (∃ f, fs[x]? = some f ∧ f.isSelfCalling = true ∧ way = [x, x]) ∨ fs.IsCircle x way

variable {fs : Formulas}

theorem reaches_of_isChain {x y : String} {xs : List String} (h : (x :: xs).IsChain fs.Edge)
    (hy : y ∈ xs) : fs.Reaches x y := by
  have h : (x :: xs).IsChain (Relation.TransGen fs.Edge) := h.imp fun _ _ => .single
  exact h.rel_cons hy

theorem IsCircle.reaches {x y : String} {way : List String} (h : fs.IsCircle x way)
    (hy : y ∈ way) : fs.Reaches x y := by
  obtain ⟨between, rfl, hchain, _⟩ := h
  rcases List.mem_cons.mp hy with rfl | hy
  · exact reaches_of_isChain hchain (List.mem_append_right _ List.mem_cons_self)
  · exact reaches_of_isChain hchain hy

theorem LeadsBack.reaches {target : String} {names way : List String}
    (h : fs.LeadsBack target names way) : ∃ x ∈ names, x = target ∨ fs.Reaches x target := by
  obtain ⟨between, _, ⟨x, hx, hhead⟩, hchain, _⟩ := h
  refine ⟨x, hx, ?_⟩
  cases between with
  | nil => exact .inl (Option.some.inj hhead).symm
  | cons y ys =>
    obtain rfl : y = x := Option.some.inj hhead
    exact .inr (reaches_of_isChain hchain (List.mem_append_right _ List.mem_cons_self))

/-- A chain uses the edges of all its names but the last. -/
theorem isChain_of_agree {gs : Formulas} {t y : String} {xs : List String}
    (hgs : ∀ z, z ≠ t → gs[z]? = fs[z]?) (ht : t ∉ xs) (h : (xs ++ [y]).IsChain fs.Edge) :
    (xs ++ [y]).IsChain gs.Edge := by
  induction xs with
  | nil => exact .singleton y
  | cons x xs ih =>
    rw [List.mem_cons, not_or] at ht
    obtain ⟨hx, hxs⟩ := List.isChain_cons.1 h
    refine List.isChain_cons.2 ⟨fun z hz => ?_, ih ht.2 hxs⟩
    exact edge_of_agree hgs (Ne.symm ht.1) (hx z hz)

/-- With a formula that depends on the names, a way that leads back is a circle. -/
theorem LeadsBack.isCircle {f : Formula} {way : List String}
    (h : fs.LeadsBack f.target f.dependsOn way) :
    IsCircle (fs.insert f.target f) f.target way := by
  obtain ⟨between, rfl, ⟨x, hx, hhead⟩, hchain, hnodup⟩ := h
  refine ⟨between, rfl, List.isChain_cons.2 ⟨?_, ?_⟩, hnodup⟩
  · intro y hy
    obtain rfl : x = y := Option.some.inj (hhead.symm.trans hy)
    exact edge_of_some Std.ExtTreeMap.getElem?_insert_self hx
  · -- the names in between are other ones, and the formula changes the edges of none of these
    have htarget : f.target ∉ between := (List.nodup_cons.1 hnodup).1
    exact isChain_of_agree (fun z hz => getElem?_insert_ne hz) htarget hchain

/-! ## The way that a search finds -/

namespace Search

variable {goal : String} {way names : List String} {visited visited' : NameSet}
  {way? : Option (List String)}

theorem subset_visited (h : fs.Search goal way visited names visited' way?) {y : String}
    (hy : y ∈ visited) : y ∈ visited' := by
  induction h with
  | nil | arrived => exact hy
  | seen _ _ _ ih => exact ih hy
  | found _ _ _ ih => exact ih (NameSet.mem_insert_iff.2 (.inr hy))
  | missed _ _ _ _ ih ihothers => exact ihothers (ih (NameSet.mem_insert_iff.2 (.inr hy)))

/-- **What a search adds to its way leads from one of the names to the goal**, over names that are
different ones and have not been entered before. -/
theorem sound {found : List String}
    (h : fs.Search goal way visited names visited' (some found)) :
    ∃ between, found = way ++ (between ++ [goal]) ∧
      (∃ x ∈ names, (between ++ [goal]).head? = some x) ∧
      (between ++ [goal]).IsChain fs.Edge ∧ (goal :: between).Nodup ∧
      ∀ y ∈ between, y ∉ visited := by
  generalize hfound : some found = way? at h
  induction h with
  | nil => cases hfound
  | arrived =>
    cases hfound
    exact ⟨[], rfl, ⟨goal, List.mem_cons_self, rfl⟩, .singleton goal, List.nodup_singleton goal,
      fun _ hy => absurd hy List.not_mem_nil⟩
  | seen _ _ _ ih =>
    obtain ⟨between, hway, ⟨y, hy, hhead⟩, hrest⟩ := ih hfound
    exact ⟨between, hway, ⟨y, List.mem_cons_of_mem _ hy, hhead⟩, hrest⟩
  | @found way names found visited visited' x hne hnew _ ih =>
    obtain ⟨between, hway, ⟨y, hy, hhead⟩, hchain, hnodup, hunseen⟩ := ih hfound
    cases hfound
    obtain ⟨hgoal, hnodup⟩ := List.nodup_cons.1 hnodup
    refine ⟨x :: between, ?way, ⟨x, List.mem_cons_self, rfl⟩, ?chain, ?nodup, ?unseen⟩
    case way => rw [hway, List.append_assoc]; rfl
    case chain =>
      refine List.isChain_cons.2 ⟨fun z hz => ?_, hchain⟩
      obtain rfl : y = z := Option.some.inj (hhead.symm.trans hz)
      exact hy
    case nodup =>
      -- `x` has been entered before anything behind it
      have hx : x ∉ between := fun hx => hunseen x hx (NameSet.mem_insert_iff.2 (.inl rfl))
      refine List.nodup_cons.2 ⟨?_, List.nodup_cons.2 ⟨hx, hnodup⟩⟩
      rw [List.mem_cons, not_or]
      exact ⟨hne.symm, hgoal⟩
    case unseen =>
      intro z hz
      rcases List.mem_cons.mp hz with rfl | hz
      · exact hnew
      · exact fun hseen => hunseen z hz (NameSet.mem_insert_iff.2 (.inr hseen))
  | @missed way names visited visited' visited'' x way? _ _ hinside _ _ ih =>
    obtain ⟨between, hway, ⟨y, hy, hhead⟩, hchain, hnodup, hunseen⟩ := ih hfound
    refine ⟨between, hway, ⟨y, List.mem_cons_of_mem _ hy, hhead⟩, hchain, hnodup, ?_⟩
    intro z hz hseen
    exact hunseen z hz (hinside.subset_visited (NameSet.mem_insert_iff.2 (.inr hseen)))

end Search

/-- **A way that is found leads back.** -/
theorem leadsBack_of_cycle? {target : String} {names way : List String}
    (h : fs.cycle? target names = some way) : fs.LeadsBack target names way := by
  obtain ⟨visited, hsearch⟩ := search_iff_cycle?.2 h
  obtain ⟨between, hway, hhead, hchain, hnodup, _⟩ := hsearch.sound
  exact ⟨between, hway, hhead, hchain, hnodup⟩

/-- **A way is found if there is one.** -/
theorem isSome_cycle?_iff {target : String} {names : List String} :
    (fs.cycle? target names).isSome = true ↔
      ∃ x ∈ names, x = target ∨ fs.Reaches x target := by
  cases hway : fs.cycle? target names with
  | none =>
    refine ⟨fun h => (by cases h), ?_⟩
    rintro ⟨x, hx, hback⟩
    obtain ⟨hne, hno⟩ := not_reaches_of_cycle?_eq_none hway hx
    rcases hback with rfl | hback
    · exact absurd rfl hne
    · exact absurd hback hno
  | some way => exact ⟨fun _ => (leadsBack_of_cycle? hway).reaches, fun _ => rfl⟩

end Formulas

/-! ## Definitions -/

namespace Solver

variable {H : Type}

/-- A formula closes a circle if it calls itself or depends on what leads back to its target. -/
theorem isSome_circle?_iff {s : Solver H} {f : Formula} :
    (s.circle? f).isSome = true ↔ f.isSelfCalling = true ∨
      ∃ x ∈ f.dependsOn, x = f.target ∨ s.formulas.Reaches x f.target := by
  rw [circle?]
  split
  · next hself => exact ⟨fun _ => .inl hself, fun _ => rfl⟩
  · next hself => rw [Formulas.isSome_cycle?_iff, or_iff_right hself]

/-- The circle that a formula closes is one among the formulas with it. -/
theorem showsCircle_of_circle? {s : Solver H} {f : Formula} {way : List String}
    (h : s.circle? f = some way) :
    Formulas.ShowsCircle (s.formulas.insert f.target f) f.target way := by
  rw [circle?] at h
  split at h
  · next hself =>
    cases h
    exact .inl ⟨f, Std.ExtTreeMap.getElem?_insert_self, hself, rfl⟩
  · exact .inr (Formulas.leadsBack_of_cycle? h).isCircle

/-- What a definition says if it is refused for a circle. -/
theorem define_eq_circular_iff {s : Solver H} (hs : s.settings.circles = .atDefinition)
    {text : String} {f : Formula} (hf : Formula.parse text = .ok f) {x : String}
    {way : List String} :
    s.define text = .error (.circular x way) ↔ x = f.target ∧ s.circle? f = some way := by
  rw [define_atDefinition hs hf]
  cases hc : s.circle? f with
  | none => simp
  | some way' => simp [eq_comm]

/--
**Exactly the formulas that close a circle are refused, and the circle is shown.**

For whatever formulas there are, in circles or not, the search for a way from some names back to a
target comes to its end. It finds a way if and only if the target is one of the names or is reached
from one, and what it finds is such a way: from the target to one of the names, from there along
edges to the target, over names that are different ones.

So where circles are looked for at definition, a formula is refused for a circle if and only if it
is a function that calls itself or its target is reached from what it depends on. The message names
the target and shows a circle among the formulas with this one.
-/
theorem definition_refused_iff_circle :
    (∀ (fs : Formulas) (target : String) (names : List String),
      (∀ way?, (∃ visited, fs.Search target [target] ∅ names visited way?) ↔
        fs.cycle? target names = way?) ∧
      ((fs.cycle? target names).isSome = true ↔
        ∃ x ∈ names, x = target ∨ fs.Reaches x target) ∧
      ∀ way, fs.cycle? target names = some way → fs.LeadsBack target names way) ∧
    ∀ (s : Solver H) (text : String) (f : Formula), s.settings.circles = .atDefinition →
      Formula.parse text = .ok f →
      ((∃ x way, s.define text = .error (.circular x way)) ↔ f.isSelfCalling = true ∨
        ∃ x ∈ f.dependsOn, x = f.target ∨ s.formulas.Reaches x f.target) ∧
      ∀ x way, s.define text = .error (.circular x way) → x = f.target ∧
        Formulas.ShowsCircle (s.formulas.insert x f) x way ∧
        (SolverError.circular x way).message = "Circular reference detected involving symbol " ++
          x ++ ": " ++ String.intercalate " -> " way := by
  refine ⟨?search, ?definition⟩
  case search =>
    intro fs target names
    exact ⟨fun way? => Formulas.search_iff_cycle?, Formulas.isSome_cycle?_iff,
      fun way hway => Formulas.leadsBack_of_cycle? hway⟩
  case definition =>
    intro s text f hs hf
    constructor
    · rw [← isSome_circle?_iff, Option.isSome_iff_exists]
      constructor
      · rintro ⟨x, way, hrefused⟩
        exact ⟨way, ((define_eq_circular_iff hs hf).1 hrefused).2⟩
      · rintro ⟨way, hway⟩
        exact ⟨f.target, way, (define_eq_circular_iff hs hf).2 ⟨rfl, hway⟩⟩
    · intro x way hrefused
      obtain ⟨rfl, hway⟩ := (define_eq_circular_iff hs hf).1 hrefused
      exact ⟨rfl, showsCircle_of_circle? hway, rfl⟩

/-- A solver in which the way back passes several dead ends. -/
def deadEnds : Solver StandardHost :=
  performAll .empty 8 (.empty {} 0)
    [.define "a = b + c", .define "b = d + g(1)", .define "c = b + e", .define "g(x) = x + d"]

/-- The formula whose way back that is. -/
def throughDeadEnds : Formula where
  raw := "e = d + b + a"
  target := "e"
  params? := none
  dependsOn := ["d", "b", "a"]
  body := .binary .add (.binary .add (.name "d") (.name "b")) (.name "a")

theorem definition_refused_iff_circle_deadEnds :
    deadEnds.define "e = d + b + a" = .error (.circular "e" ["e", "a", "c", "e"]) ∧
    (∃ x ∈ throughDeadEnds.dependsOn, x = "e" ∨ deadEnds.formulas.Reaches x "e") ∧
    Formulas.ShowsCircle (deadEnds.formulas.insert "e" throughDeadEnds) "e"
      ["e", "a", "c", "e"] := by
  have hf : Formula.parse "e = d + b + a" = .ok throughDeadEnds := by decide +kernel
  have hcircle : deadEnds.circle? throughDeadEnds = some ["e", "a", "c", "e"] := by decide +kernel
  have hrefused : deadEnds.define "e = d + b + a" =
      .error (.circular "e" ["e", "a", "c", "e"]) := by
    rw [define_atDefinition (by decide +kernel) hf, hcircle]
    rfl
  obtain ⟨hiff, hshown⟩ := definition_refused_iff_circle.2 deadEnds _ _ (by decide +kernel) hf
  refine ⟨hrefused, ?_, (hshown _ _ hrefused).2.1⟩
  exact (hiff.1 ⟨_, _, hrefused⟩).resolve_left (by decide +kernel)

end Solver

end Recalc

import Recalc.Proofs.Reachability

/-!
# Looking for the way back

`cycle?` looks for a way from the names that a new formula depends on to the formula's own target,
among the formulas there are. If it finds none, there is none, so putting the formula in place of
what the target had before keeps the graph free of circles.

The old formula of the target plays no part: a way that comes to the target has come to its end.
-/

namespace Recalc

namespace Formulas

/-- What a search has done between `s` and `s'` without coming to `goal`. -/
structure WaySearch.Misses (goal : String) (s s' : WaySearch) : Prop where
  /-- No formula comes back. -/
  unread : ∀ (y : String) (f : Formula), s'.unread[y]? = some f → s.unread[y]? = some f
  /-- So the levels that were enough stay enough. -/
  size : s'.unread.size ≤ s.unread.size
  /-- A formula that has been read has only dependencies from where the goal was missed too. -/
  closed : ∀ (y : String) (f : Formula), s.unread[y]? = some f → s'.unread[y]? = none →
    ∀ d ∈ f.dependsOn, d ≠ goal ∧ s'.unread[d]? = none

theorem WaySearch.Misses.refl (goal : String) (s : WaySearch) : s.Misses goal s where
  unread _ _ h := h
  size := Nat.le_refl _
  closed y f h h' := by rw [h] at h'; cases h'

theorem WaySearch.Misses.unread_none {goal : String} {s s' : WaySearch} (h : s.Misses goal s')
    {y : String} (hy : s.unread[y]? = none) : s'.unread[y]? = none := by
  cases hy' : s'.unread[y]? with
  | none => rfl
  | some f => rw [h.unread y f hy'] at hy; cases hy

theorem WaySearch.Misses.trans {goal : String} {s s' s'' : WaySearch} (h : s.Misses goal s')
    (h' : s'.Misses goal s'') : s.Misses goal s'' where
  unread y f hy := h.unread y f (h'.unread y f hy)
  size := Nat.le_trans h'.size h.size
  closed y f hy hy'' d hd := by
    cases hy' : s'.unread[y]? with
    | none =>
      obtain ⟨hne, hd'⟩ := h.closed y f hy hy' d hd
      exact ⟨hne, h'.unread_none hd'⟩
    | some f' =>
      have hff : some f' = some f := (h.unread y f' hy').symm.trans hy
      rw [Option.some.inj hff] at hy'
      exact h'.closed y f hy' hy'' d hd

/-- A search that has found its way keeps it. -/
theorem WaySearch.visit_of_found {goal : String} {n : Nat} {way : List String} {s : WaySearch}
    {x : String} (hs : s.way?.isSome = true) : visit goal n way s x = s := by
  rw [visit.eq_def]
  exact if_pos hs

/-- So it goes through further names without looking at them. -/
theorem WaySearch.foldl_visit_of_found {goal : String} {n : Nat} {way : List String}
    {s : WaySearch} (hs : s.way?.isSome = true) (xs : List String) :
    xs.foldl (visit goal n way) s = s := by
  induction xs with
  | nil => rfl
  | cons x xs ih => rw [List.foldl_cons, visit_of_found hs, ih]

/-- At the goal the way is found. -/
theorem WaySearch.visit_goal {goal : String} {n : Nat} {way : List String} {s : WaySearch}
    (hs : s.way? = none) :
    visit goal n way s goal = { s with way? := some (way ++ [goal]) } := by
  rw [visit.eq_def]
  simp [hs]

/-- A visit that ends without a way was not to the goal. -/
theorem WaySearch.ne_goal_of_way_none {goal : String} {n : Nat} {way : List String}
    {s : WaySearch} {x : String} (hs : s.way? = none) (h : (visit goal n way s x).way? = none) :
    x ≠ goal := by
  rintro rfl
  rw [visit_goal hs] at h
  cases h

/-- A visit elsewhere that has no formula to read does nothing. -/
theorem WaySearch.visit_of_none {goal : String} {n : Nat} {way : List String} {s : WaySearch}
    {x : String} (hs : s.way? = none) (hx : x ≠ goal) (hu : s.unread[x]? = none) :
    visit goal n way s x = s := by
  rw [visit.eq_def]
  simp [hs, hx, hu]

/-- A visit elsewhere that reads a formula goes on with its dependencies. -/
theorem WaySearch.visit_of_some {goal : String} {n : Nat} {way : List String} {s : WaySearch}
    {x : String} {f : Formula} (hs : s.way? = none) (hx : x ≠ goal) (hu : s.unread[x]? = some f) :
    visit goal (n + 1) way s x =
      f.dependsOn.foldl (visit goal n (way ++ [x])) { s with unread := s.unread.erase x } := by
  rw [visit.eq_def]
  simp [hs, hx, hu]

/-- Visits that end without a way have begun without one. -/
theorem WaySearch.way_none_of_foldl {goal : String} {n : Nat} {way : List String} :
    ∀ (xs : List String) (s : WaySearch),
      (xs.foldl (visit goal n way) s).way? = none → s.way? = none := by
  intro xs
  induction xs with
  | nil => intro s h; exact h
  | cons x xs ih =>
    intro s h
    cases hs : s.way? with
    | none => rfl
    | some w =>
      have h := ih _ h
      rw [visit_of_found (by rw [hs]; rfl), hs] at h
      cases h

/-- Visits in order that end without a way have all missed the goal. -/
theorem WaySearch.foldl_visit_misses {goal : String} {n : Nat} {way : List String}
    (one : ∀ s x, s.unread.size ≤ n → s.way? = none → (visit goal n way s x).way? = none →
      s.Misses goal (visit goal n way s x) ∧ x ≠ goal ∧
        (visit goal n way s x).unread[x]? = none) :
    ∀ (xs : List String) (s : WaySearch), s.unread.size ≤ n →
      (xs.foldl (visit goal n way) s).way? = none →
        s.Misses goal (xs.foldl (visit goal n way) s) ∧
        ∀ x ∈ xs, x ≠ goal ∧ (xs.foldl (visit goal n way) s).unread[x]? = none := by
  intro xs
  induction xs with
  | nil => intro s _ _; exact ⟨.refl goal s, by simp⟩
  | cons x xs ih =>
    intro s hs h
    have hx := way_none_of_foldl xs (visit goal n way s x) h
    obtain ⟨hmiss, hne, hread⟩ := one s x hs (way_none_of_foldl [x] s hx) hx
    obtain ⟨hrest, hxs⟩ := ih (visit goal n way s x) (Nat.le_trans hmiss.size hs) h
    refine ⟨hmiss.trans hrest, ?_⟩
    intro y hy
    rcases List.mem_cons.mp hy with rfl | hy
    · exact ⟨hne, hrest.unread_none hread⟩
    · exact hxs y hy

/-- A visit with enough levels that ends without a way has missed the goal everywhere. -/
theorem WaySearch.visit_misses {goal : String} : ∀ (n : Nat) (way : List String) (s : WaySearch)
    (x : String), s.unread.size ≤ n → s.way? = none → (visit goal n way s x).way? = none →
    s.Misses goal (visit goal n way s x) ∧ x ≠ goal ∧
      (visit goal n way s x).unread[x]? = none := by
  intro n
  induction n with
  | zero =>
    intro way s x hn hs h
    have hne : x ≠ goal := ne_goal_of_way_none hs h
    have hx : s.unread[x]? = none := getElem?_of_size_le_zero hn x
    rw [visit_of_none hs hne hx]
    exact ⟨.refl goal s, hne, hx⟩
  | succ n ih =>
    intro way s x hn hs h
    have hne : x ≠ goal := ne_goal_of_way_none hs h
    cases hx : s.unread[x]? with
    | none =>
      rw [visit_of_none hs hne hx]
      exact ⟨.refl goal s, hne, hx⟩
    | some f =>
      rw [visit_of_some hs hne hx] at h ⊢
      have hsize := size_erase_add_one hx
      have hlevels : (s.unread.erase x).size ≤ n := by omega
      obtain ⟨hrest, hdeps⟩ := foldl_visit_misses (ih (way ++ [x])) f.dependsOn
        { s with unread := s.unread.erase x } hlevels h
      -- the formula of `x` is taken out, and nothing puts it back
      have hxread := hrest.unread_none (y := x) Std.ExtTreeMap.getElem?_erase_self
      refine ⟨⟨?unread, ?size, ?closed⟩, hne, hxread⟩
      case unread =>
        intro y e hy
        exact (getElem?_erase_iff.1 (hrest.unread y e hy)).2
      case size =>
        have hle : _ ≤ (s.unread.erase x).size := hrest.size
        omega
      case closed =>
        intro y e hy hy'
        by_cases hyx : y = x
        · subst hyx
          rw [hx] at hy
          obtain rfl := Option.some.inj hy
          exact hdeps
        · exact hrest.closed y e (getElem?_erase_iff.2 ⟨hyx, hy⟩) hy'

/-- **A search without result means that there is no way back.** -/
theorem not_reaches_of_cycle?_eq_none {fs : Formulas} {target : String} {names : List String}
    (h : fs.cycle? target names = none) {x : String} (hx : x ∈ names) :
    x ≠ target ∧ ¬ fs.Reaches x target := by
  obtain ⟨hmiss, hnames⟩ := WaySearch.foldl_visit_misses
    (WaySearch.visit_misses fs.size [target]) names ⟨fs, none⟩ (Nat.le_refl _) h
  -- the names where the search has been and missed are closed under edges
  have hclosed : ∀ a b, a ≠ target ∧ (names.foldl (WaySearch.visit target fs.size [target])
      ⟨fs, none⟩).unread[a]? = none → fs.Edge a b → b ≠ target ∧
      (names.foldl (WaySearch.visit target fs.size [target]) ⟨fs, none⟩).unread[b]? = none := by
    intro a b ha hab
    obtain ⟨f, hf, hb⟩ := edge_iff.1 hab
    exact hmiss.closed a f hf ha.2 b hb
  refine ⟨(hnames x hx).1, ?_⟩
  intro hxt
  exact (hxt.mem_of_closed hclosed (hnames x hx)).1 rfl

/-! ## Putting a formula in place -/

/-- The change touches no edge from elsewhere. -/
theorem edge_of_edge_insert {fs : Formulas} {t : String} {f : Formula} {x y : String}
    (hx : x ≠ t) (h : Edge (fs.insert t f) x y) : fs.Edge x y := by
  rw [edge_iff, getElem?_insert_ne hx] at h
  exact edge_iff.2 h

/-- A way after the change either is a way before it or passes the changed name. -/
theorem reaches_insert {fs : Formulas} {t : String} {f : Formula} {x y : String}
    (h : Reaches (fs.insert t f) x y) :
    fs.Reaches x y ∨ (x = t ∨ Reaches (fs.insert t f) x t) ∧ Reaches (fs.insert t f) t y := by
  induction h using Relation.TransGen.head_induction_on with
  | single hxy =>
    rename_i x
    by_cases hx : x = t
    · subst hx; exact .inr ⟨.inl rfl, .single hxy⟩
    · exact .inl (.single (edge_of_edge_insert hx hxy))
  | head hxz hzy ih =>
    rename_i x z
    by_cases hx : x = t
    · subst hx; exact .inr ⟨.inl rfl, .head hxz hzy⟩
    rcases ih with ih | ⟨hzt, hty⟩
    · exact .inl (.head (edge_of_edge_insert hx hxz) ih)
    · refine .inr ⟨.inr ?_, hty⟩
      rcases hzt with rfl | hzt
      · exact .single hxz
      · exact .head hxz hzt

/-- The first way from elsewhere to the changed name does not use its new formula. -/
theorem reaches_of_reaches_insert_self {fs : Formulas} {t : String} {f : Formula} {x : String}
    (hx : x ≠ t) (h : Reaches (fs.insert t f) x t) : fs.Reaches x t := by
  induction h using Relation.TransGen.head_induction_on with
  | single hxt => exact .single (edge_of_edge_insert hx hxt)
  | head hxz _ ih =>
    rename_i z _
    by_cases hz : z = t
    · subst hz; exact .single (edge_of_edge_insert hx hxz)
    · exact .head (edge_of_edge_insert hx hxz) (ih hz)

/-- **A formula that makes no way back leaves the graph acyclic.** -/
theorem Acyclic.insert {fs : Formulas} (h : fs.Acyclic) {t : String} {f : Formula}
    (ht : fs.cycle? t f.dependsOn = none) : Acyclic (fs.insert t f) := by
  have hself : ¬ Reaches (fs.insert t f) t t := by
    intro htt
    obtain ⟨d, htd, hdt⟩ := Relation.TransGen.head'_iff.1 htt
    obtain ⟨e, he, hd⟩ := edge_iff.1 htd
    rw [Std.ExtTreeMap.getElem?_insert_self] at he
    rw [← Option.some.inj he] at hd
    obtain ⟨hne, hno⟩ := not_reaches_of_cycle?_eq_none ht hd
    rcases Relation.reflTransGen_iff_eq_or_transGen.1 hdt with rfl | hdt
    · exact hne rfl
    · exact hno (reaches_of_reaches_insert_self hne hdt)
  intro x hxx
  rcases reaches_insert hxx with hxx | ⟨rfl | hxt, htx⟩
  · exact h x hxx
  · exact hself htx
  · exact hself (htx.trans hxt)

end Formulas

end Recalc

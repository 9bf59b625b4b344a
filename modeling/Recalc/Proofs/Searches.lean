import Recalc.Proofs.Circle

/-!
# Searches without levels

Both searches go through names in order, enter each name that they have not entered, and go on with
what its formula depends on. How the model keeps book is another matter: it takes the formulas that
it has read out of a supply, and it has levels to go down. `Gathers` and `Search` keep the names
that have been entered, and nothing else. A derivation is a search that has come to its end.

**Every search comes to its end**, whatever circles there are, it comes to one end only, and that is
what `dependencies` and `cycle?` answer: the formulas in supply are those of the names not entered,
and there are always levels left for them.
-/

namespace Recalc

theorem NameSet.insert_of_mem {set : NameSet} {x : String} (h : x ∈ set) : set.insert x = set := by
  refine Std.ExtTreeSet.ext_mem ?_
  intro y
  rw [NameSet.mem_insert_iff]
  exact or_iff_right_of_imp fun he => he ▸ h

namespace Formulas

variable {fs : Formulas}

theorem directDeps_of_none {x : String} (h : fs[x]? = none) : fs.directDeps x = [] := by
  rw [directDeps, h]

/-! ## The formulas in supply -/

/-- What is in supply are the formulas of the names that have not been entered. -/
def AllBut (fs : Formulas) (entered : NameSet) (supply : Formulas) : Prop :=
  ∀ (y : String) (f : Formula), supply[y]? = some f ↔ fs[y]? = some f ∧ y ∉ entered

namespace AllBut

variable {entered : NameSet} {supply : Formulas} {x : String}

theorem refl (fs : Formulas) : fs.AllBut ∅ fs :=
  fun _ _ => (and_iff_left Std.ExtTreeSet.not_mem_empty).symm

/-- Entering a name is taking its formula out. -/
theorem enter (h : fs.AllBut entered supply) (x : String) :
    fs.AllBut (entered.insert x) (supply.erase x) := by
  intro y f
  rw [getElem?_erase_iff, h y f, NameSet.mem_insert_iff, not_or]
  exact and_left_comm

/-- Where there is no formula there is none to take out. -/
theorem enter_leaf (h : fs.AllBut entered supply) (hx : fs[x]? = none) :
    fs.AllBut (entered.insert x) supply := by
  intro y f
  rw [h y f, NameSet.mem_insert_iff, not_or]
  refine and_congr_right fun hy => (and_iff_right ?_).symm
  rintro rfl
  cases hx.symm.trans hy

/-- What is not in supply has been entered or has no formula. -/
theorem eq_none (h : fs.AllBut entered supply) (hx : supply[x]? = none) (hnew : x ∉ entered) :
    fs[x]? = none := by
  cases hf : fs[x]? with
  | none => rfl
  | some f => cases hx.symm.trans ((h x f).2 ⟨hf, hnew⟩)

end AllBut

/-! ## All that names reach -/

/-- Going through `names` with `found` entered before comes to its end with `found'` entered. -/
inductive Gathers (fs : Formulas) : NameSet → List String → NameSet → Prop where
  | nil {found : NameSet} : Gathers fs found [] found
  | seen {found found' : NameSet} {x : String} {names : List String} (seen : x ∈ found)
      (others : Gathers fs found names found') : Gathers fs found (x :: names) found'
  | enter {found found' found'' : NameSet} {x : String} {names : List String} (new : x ∉ found)
      (inside : Gathers fs (found.insert x) (fs.directDeps x) found')
      (others : Gathers fs found' names found'') : Gathers fs found (x :: names) found''

namespace Gathers

variable {found found' found'' : NameSet} {names : List String}

/-- It comes to one end only. -/
theorem unique (h : fs.Gathers found names found') (h' : fs.Gathers found names found'') :
    found' = found'' := by
  induction h generalizing found'' with
  | nil => cases h'; rfl
  | seen hseen _ ih =>
    cases h' with
    | seen _ hothers => exact ih hothers
    | enter hnew => exact absurd hseen hnew
  | enter hnew _ _ ih ihothers =>
    cases h' with
    | seen hseen => exact absurd hseen hnew
    | enter _ hinside hothers =>
      obtain rfl := ih hinside
      exact ihothers hothers

/-- Going through the first name and then through the others is going through all. -/
theorem cons {x : String} (h : fs.Gathers found [x] found')
    (h' : fs.Gathers found' names found'') : fs.Gathers found (x :: names) found'' := by
  cases h with
  | seen hseen hothers =>
    cases hothers
    exact .seen hseen h'
  | enter hnew hinside hothers =>
    cases hothers
    exact .enter hnew hinside h'

end Gathers

namespace Gathering

theorem foldl_visit_gathers {n : Nat}
    (one : ∀ g x, g.unread.size ≤ n → fs.AllBut g.found g.unread →
      fs.Gathers g.found [x] (visit n g x).found ∧
        fs.AllBut (visit n g x).found (visit n g x).unread) :
    ∀ (xs : List String) (g : Gathering), g.unread.size ≤ n → fs.AllBut g.found g.unread →
      fs.Gathers g.found xs (xs.foldl (visit n) g).found ∧
        fs.AllBut (xs.foldl (visit n) g).found (xs.foldl (visit n) g).unread := by
  intro xs
  induction xs with
  | nil => exact fun g _ hunread => ⟨.nil, hunread⟩
  | cons x xs ih =>
    intro g hsize hunread
    obtain ⟨hx, hnext⟩ := one g x hsize hunread
    have hsize' := Nat.le_trans (visit_grows n g x hsize).1.size hsize
    obtain ⟨hxs, hrest⟩ := ih (visit n g x) hsize' hnext
    exact ⟨hx.cons hxs, hrest⟩

/-- **A visit with enough levels comes to the end of the search.** -/
theorem visit_gathers (n : Nat) (g : Gathering) (x : String) (hsize : g.unread.size ≤ n)
    (hunread : fs.AllBut g.found g.unread) :
    fs.Gathers g.found [x] (visit n g x).found ∧
      fs.AllBut (visit n g x).found (visit n g x).unread := by
  cases hu : g.unread[x]? with
  | none =>
    rw [visit_of_none hu]
    by_cases hseen : x ∈ g.found
    · dsimp only
      rw [NameSet.insert_of_mem hseen]
      exact ⟨.seen hseen .nil, hunread⟩
    · have hf : fs[x]? = none := hunread.eq_none hu hseen
      refine ⟨.enter hseen ?_ .nil, hunread.enter_leaf hf⟩
      rw [directDeps_of_none hf]
      exact .nil
  | some f =>
    cases n with
    | zero => cases hu.symm.trans (getElem?_of_size_le_zero hsize x)
    | succ n =>
      obtain ⟨hf, hnew⟩ := (hunread x f).1 hu
      have hlevels : (g.unread.erase x).size ≤ n := by
        have hless := size_erase_add_one hu
        omega
      obtain ⟨hinside, hrest⟩ := foldl_visit_gathers (visit_gathers n) f.dependsOn
        ⟨g.unread.erase x, g.found.insert x⟩ hlevels (hunread.enter x)
      rw [visit_of_some hu]
      rw [← directDeps_of_some hf] at hinside hrest ⊢
      exact ⟨.enter hnew hinside .nil, hrest⟩

end Gathering

/-- **The search for what a name reaches comes to its end**, and the dependencies are what has been
entered then, without the name itself. -/
theorem gathers_dependencies (fs : Formulas) (x : String) :
    ∃ all, (∀ found, fs.Gathers ∅ (fs.directDeps x) found ↔ found = all) ∧
      fs.dependencies x = all.erase x := by
  obtain ⟨hgathers, _⟩ := Gathering.foldl_visit_gathers (Gathering.visit_gathers fs.size)
    (fs.directDeps x) ⟨fs, ∅⟩ (Nat.le_refl _) (.refl fs)
  refine ⟨_, fun found => ⟨fun h => h.unique hgathers, ?_⟩, rfl⟩
  rintro rfl
  exact hgathers

/-! ## The way back -/

/--
The search for `goal` that goes through `names` from the end of `way`, with the names in `visited`
entered before, comes to its end: with `visited'` entered, and with the way if it has found one.
-/
inductive Search (fs : Formulas) (goal : String) :
    List String → NameSet → List String → NameSet → Option (List String) → Prop where
  /-- No name is left. -/
  | nil {way : List String} {visited : NameSet} : Search fs goal way visited [] visited none
  /-- The next name is the goal. -/
  | arrived {way names : List String} {visited : NameSet} :
      Search fs goal way visited (goal :: names) visited (some (way ++ [goal]))
  /-- The next name has been entered before. -/
  | seen {way names : List String} {visited visited' : NameSet} {x : String}
      {way? : Option (List String)} (ne : x ≠ goal) (seen : x ∈ visited)
      (others : Search fs goal way visited names visited' way?) :
      Search fs goal way visited (x :: names) visited' way?
  /-- The next name is entered, and the way is found from there. -/
  | found {way names found : List String} {visited visited' : NameSet} {x : String}
      (ne : x ≠ goal) (new : x ∉ visited)
      (inside : Search fs goal (way ++ [x]) (visited.insert x) (fs.directDeps x) visited'
        (some found)) :
      Search fs goal way visited (x :: names) visited' (some found)
  /-- The next name is entered in vain, and the search goes on with the others. -/
  | missed {way names : List String} {visited visited' visited'' : NameSet} {x : String}
      {way? : Option (List String)} (ne : x ≠ goal) (new : x ∉ visited)
      (inside : Search fs goal (way ++ [x]) (visited.insert x) (fs.directDeps x) visited' none)
      (others : Search fs goal way visited' names visited'' way?) :
      Search fs goal way visited (x :: names) visited'' way?

namespace Search

variable {goal : String} {way names : List String} {visited visited' visited'' : NameSet}
  {way? : Option (List String)}

/-- A search comes to one end only. -/
theorem unique (h : fs.Search goal way visited names visited' way?)
    {way?' : Option (List String)} (h' : fs.Search goal way visited names visited'' way?') :
    visited' = visited'' ∧ way? = way?' := by
  induction h generalizing visited'' way?' with
  | nil => cases h'; exact ⟨rfl, rfl⟩
  | arrived =>
    cases h' with
    | arrived => exact ⟨rfl, rfl⟩
    | seen hne | found hne | missed hne => exact absurd rfl hne
  | seen hne hseen _ ih =>
    cases h' with
    | arrived => exact absurd rfl hne
    | seen _ _ hothers => exact ih hothers
    | found _ hnew | missed _ hnew => exact absurd hseen hnew
  | found hne hnew _ ih =>
    cases h' with
    | arrived => exact absurd rfl hne
    | seen _ hseen => exact absurd hseen hnew
    | found _ _ hinside => exact ih hinside
    | missed _ _ hinside => cases (ih hinside).2
  | missed hne hnew _ _ ih ihothers =>
    cases h' with
    | arrived => exact absurd rfl hne
    | seen _ hseen => exact absurd hseen hnew
    | found _ _ hinside => cases (ih hinside).2
    | missed _ _ hinside hothers =>
      obtain ⟨rfl, _⟩ := ih hinside
      exact ihothers hothers

/-- What is found from the first name is found. -/
theorem cons_of_some {x : String} {found : List String}
    (h : fs.Search goal way visited [x] visited' (some found)) (names : List String) :
    fs.Search goal way visited (x :: names) visited' (some found) := by
  cases h with
  | arrived => exact .arrived
  | seen _ _ hothers | missed _ _ _ hothers => cases hothers
  | found hne hnew hinside => exact .found hne hnew hinside

/-- From a first name that does not lead to the goal, the search goes on. -/
theorem cons_of_none {x : String} (h : fs.Search goal way visited [x] visited' none)
    (h' : fs.Search goal way visited' names visited'' way?) :
    fs.Search goal way visited (x :: names) visited'' way? := by
  cases h with
  | seen hne hseen hothers =>
    cases hothers
    exact .seen hne hseen h'
  | missed hne hnew hinside hothers =>
    cases hothers
    exact .missed hne hnew hinside h'

end Search

namespace WaySearch

variable {visited : NameSet} {s : WaySearch} {x : String}

/-- A search of `names` comes to the end that `s` is at. -/
def EndsSearch (fs : Formulas) (goal : String) (way : List String) (visited : NameSet)
    (names : List String) (s : WaySearch) : Prop :=
  ∃ visited', fs.Search goal way visited names visited' s.way? ∧
    (s.way? = none → fs.AllBut visited' s.unread)

/-- A name that is neither the goal nor has an unread formula leads nowhere. -/
theorem endsSearch_of_none {goal : String} {way : List String} (hs : s.way? = none)
    (h : fs.AllBut visited s.unread) (hne : x ≠ goal) (hx : s.unread[x]? = none) :
    s.EndsSearch fs goal way visited [x] := by
  rw [EndsSearch, hs]
  by_cases hseen : x ∈ visited
  · exact ⟨visited, .seen hne hseen .nil, fun _ => h⟩
  · have hf : fs[x]? = none := h.eq_none hx hseen
    refine ⟨visited.insert x, .missed hne hseen ?_ .nil, fun _ => h.enter_leaf hf⟩
    rw [directDeps_of_none hf]
    exact .nil

theorem foldl_visit_ends {goal : String} {n : Nat} {way : List String}
    (one : ∀ s x visited, s.unread.size ≤ n → s.way? = none → fs.AllBut visited s.unread →
      EndsSearch fs goal way visited [x] (visit goal n way s x)) :
    ∀ (xs : List String) (s : WaySearch) (visited : NameSet), s.unread.size ≤ n →
      s.way? = none → fs.AllBut visited s.unread →
      EndsSearch fs goal way visited xs (xs.foldl (visit goal n way) s) := by
  intro xs
  induction xs with
  | nil =>
    intro s visited _ hs hunread
    exact ⟨visited, by rw [List.foldl_nil, hs]; exact .nil, fun _ => hunread⟩
  | cons x xs ih =>
    intro s visited hsize hs hunread
    obtain ⟨visited', hsearch, hunread'⟩ := one s x visited hsize hs hunread
    rw [List.foldl_cons]
    cases hway : (visit goal n way s x).way? with
    | none =>
      obtain ⟨hmiss, _⟩ := visit_misses n way s x hsize hs hway
      obtain ⟨visited'', hothers, hrest⟩ := ih (visit goal n way s x) visited'
        (Nat.le_trans hmiss.size hsize) hway (hunread' hway)
      rw [hway] at hsearch
      exact ⟨visited'', hsearch.cons_of_none hothers, hrest⟩
    | some found =>
      rw [foldl_visit_of_found (by rw [hway]; rfl)]
      rw [hway] at hsearch
      refine ⟨visited', by rw [hway]; exact hsearch.cons_of_some xs, fun hnone => ?_⟩
      cases hway.symm.trans hnone

/-- **A visit with enough levels comes to the end of the search.** -/
theorem visit_ends {goal : String} (n : Nat) (way : List String) (s : WaySearch) (x : String)
    (visited : NameSet) (hsize : s.unread.size ≤ n) (hs : s.way? = none)
    (hunread : fs.AllBut visited s.unread) :
    EndsSearch fs goal way visited [x] (visit goal n way s x) := by
  by_cases hx : x = goal
  · subst hx
    rw [visit_goal hs]
    exact ⟨visited, .arrived, fun h => by cases h⟩
  cases hu : s.unread[x]? with
  | none =>
    rw [visit_of_none hs hx hu]
    exact endsSearch_of_none hs hunread hx hu
  | some f =>
    cases n with
    | zero => cases hu.symm.trans (getElem?_of_size_le_zero hsize x)
    | succ n =>
      obtain ⟨hf, hnew⟩ := (hunread x f).1 hu
      have hlevels : (s.unread.erase x).size ≤ n := by
        have hless := size_erase_add_one hu
        omega
      obtain ⟨visited', hinside, hrest⟩ := foldl_visit_ends (visit_ends n (way ++ [x]))
        f.dependsOn { s with unread := s.unread.erase x } (visited.insert x) hlevels hs
        (hunread.enter x)
      rw [visit_of_some hs hx hu]
      rw [← directDeps_of_some hf] at hinside hrest ⊢
      refine ⟨visited', ?_, hrest⟩
      generalize (fs.directDeps x).foldl (visit goal n (way ++ [x]))
        { s with unread := s.unread.erase x } = after at hinside
      cases hway : after.way? with
      | none => exact .missed hx hnew (hway ▸ hinside) .nil
      | some found => exact .found hx hnew (hway ▸ hinside)

end WaySearch

/-- **The search comes to its end, and `cycle?` answers as it does.** -/
theorem search_iff_cycle? {target : String} {names : List String} {way? : Option (List String)} :
    (∃ visited, fs.Search target [target] ∅ names visited way?) ↔
      fs.cycle? target names = way? := by
  obtain ⟨visited, hsearch, _⟩ := WaySearch.foldl_visit_ends
    (WaySearch.visit_ends fs.size [target]) names ⟨fs, none⟩ ∅ (Nat.le_refl _) rfl (.refl fs)
  have hsearch : fs.Search target [target] ∅ names visited (fs.cycle? target names) := hsearch
  constructor
  · rintro ⟨visited', h⟩
    exact (hsearch.unique h).2
  · rintro rfl
    exact ⟨visited, hsearch⟩

end Formulas

end Recalc

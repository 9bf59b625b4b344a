import Std.Data.ExtTreeMap
import Std.Data.ExtTreeSet
import Recalc.Formula

/-!
# Dependencies

Formulas under the names they define form a graph: an edge leads from a formula's target to
each name that the formula depends on. `dependencies` is what a name reaches by one or more
edges, `dependents` are the targets that reach a name, and `cycle?` looks for the way by which
a new formula would come back to its own target.

Both searches go depth first and keep the formulas not yet read. Reading a formula takes it out,
so no formula is read twice, whatever cycles there are. A search entered with `n` levels to go
has at most `n` formulas to read, so it never runs out of levels.
-/

namespace Recalc

/-- A set of names. -/
abbrev NameSet : Type := Std.ExtTreeSet String

namespace NameSet

/-- The set with some more names. -/
def insertAll (set : NameSet) (xs : List String) : NameSet := xs.foldl .insert set

theorem mem_insertAll (set : NameSet) (xs : List String) (x : String) :
    x ∈ set.insertAll xs ↔ x ∈ xs ∨ x ∈ set := by
  induction xs generalizing set with
  | nil => simp [insertAll]
  | cons y ys ih =>
    show x ∈ insertAll (set.insert y) ys ↔ _
    rw [ih, Std.ExtTreeSet.mem_insert, List.mem_cons]
    constructor
    · rintro (h | h | h)
      · exact .inl (.inr h)
      · exact .inl (.inl (Std.LawfulEqCmp.eq_of_compare h).symm)
      · exact .inr h
    · rintro ((rfl | h) | h)
      · exact .inr (.inl Std.ReflCmp.compare_self)
      · exact .inl h
      · exact .inr (.inr h)

end NameSet

/-- Formulas under the names they define. -/
abbrev Formulas : Type := Std.ExtTreeMap String Formula

namespace Formulas

/-- Taking out a formula that is there leaves one fewer. -/
theorem size_erase_add_one {fs : Formulas} {x : String} {f : Formula} (h : fs[x]? = some f) :
    (fs.erase x).size + 1 = fs.size := by
  have hx : fs.contains x = true := by
    rw [Std.ExtTreeMap.contains_eq_isSome_getElem?, h]; rfl
  have hpos : fs.size ≠ 0 := by
    intro h0
    simp [Std.ExtTreeMap.eq_empty_iff_size_eq_zero.2 h0] at hx
  rw [Std.ExtTreeMap.size_erase, if_pos hx]
  omega

/-- The names that the formula of `x` depends on directly. -/
def directDeps (fs : Formulas) (x : String) : List String :=
  match fs[x]? with
  | some f => f.dependsOn
  | none => []

/-! ## All that a name reaches -/

/-- A search for all names that can be reached. -/
structure Gathering where
  unread : Formulas
  found : NameSet

/-- Add `x` and, with at most `n` formulas to read on one way, all that it reaches. -/
def Gathering.visit : Nat → Gathering → String → Gathering
  | n, g, x =>
    match n, g.unread[x]? with
    | n + 1, some f => f.dependsOn.foldl (visit n) ⟨g.unread.erase x, g.found.insert x⟩
    | _, _ => { g with found := g.found.insert x }

/-- The names other than `x` that `x` depends on, directly or not. -/
def dependencies (fs : Formulas) (x : String) : NameSet :=
  ((fs.directDeps x).foldl (Gathering.visit fs.size) ⟨fs, ∅⟩).found.erase x

/-- The names of the formulas that depend on `x`, directly or not, sorted. -/
def dependents (fs : Formulas) (x : String) : List String :=
  fs.keys.filter fun target => (fs.dependencies target).contains x

/-! ## The way back to a name -/

/-- A search for a way to one name. -/
structure WaySearch where
  unread : Formulas
  /-- The way, once it is found. -/
  way? : Option (List String)

/--
Go from the end of `way` to `x` and look for `goal` there and, with at most `n` formulas to
read on one way, in all that `x` reaches.
-/
def WaySearch.visit (goal : String) : Nat → List String → WaySearch → String → WaySearch
  | n, way, s, x =>
    if s.way?.isSome then s
    else if x = goal then { s with way? := some (way ++ [x]) }
    else
      match n, s.unread[x]? with
      | n + 1, some f =>
        f.dependsOn.foldl (visit goal n (way ++ [x])) { s with unread := s.unread.erase x }
      | _, _ => s

/-- The way from `target` back to it, if a formula for it that depends on these names makes one. -/
def cycle? (fs : Formulas) (target : String) (names : List String) : Option (List String) :=
  (names.foldl (WaySearch.visit target fs.size [target]) ⟨fs, none⟩).way?

end Formulas

end Recalc

import Recalc.Proofs.Known

/-!
# What is written to tables

A `Write` is a value under a name of a table, and a log has the writes in order. All that happens to
a table can be said by a log: the table holds under a name **what was last written there**.

Editing a table through a handle writes at most one value. A definition writes unknown values to the
names that it makes known, an assignment writes its value, and a solve writes the values of the
symbols that it recomputes.
-/

namespace Recalc

/-- A value that is written under a name of a table. -/
structure Write (H : Type) where
  table : TableId
  name : String
  value : Value H

section

variable {H : Type}

/-- The value last written under a name of a table, if there is one. -/
def lastWritten (log : List (Write H)) (id : TableId) (x : String) : Option (Value H) :=
  (log.filter fun e => e.table == id && e.name == x).getLast?.map Write.value

theorem lastWritten_append (log ws : List (Write H)) (id : TableId) (x : String) :
    lastWritten (log ++ ws) id x = (lastWritten ws id x).or (lastWritten log id x) := by
  rw [lastWritten, List.filter_append, List.getLast?_append, Option.map_or]
  rfl

theorem lastWritten_singleton (e : Write H) (id : TableId) (x : String) :
    lastWritten [e] id x = if e.table = id ∧ e.name = x then some e.value else none := by
  rw [lastWritten]
  by_cases h : e.table = id ∧ e.name = x
  · simp [h]
  · rw [List.filter_cons_of_neg (by simpa using h), if_neg h]
    rfl

/-- Nothing is written to a table that the log does not mention. -/
theorem lastWritten_eq_none {log : List (Write H)} {id : TableId}
    (h : ∀ e ∈ log, e.table ≠ id) (x : String) : lastWritten log id x = none := by
  rw [lastWritten, List.filter_eq_nil_iff.2]
  · rfl
  · intro e he
    simp [h e he]

/-! ## Tables after writes -/

/-- `t'` is `t` after the writes. -/
structure Table.Written (t : Table H) (ws : List (Write H)) (t' : Table H) : Prop where
  id : t'.id = t.id
  own : ∀ e ∈ ws, e.table = t.id
  value? : ∀ x, t'.value? x = (lastWritten ws t.id x).or (t.value? x)

namespace Table.Written

variable {t t' t'' : Table H} {ws ws' : List (Write H)}

theorem refl (t : Table H) : t.Written [] t :=
  ⟨rfl, fun _ he => absurd he List.not_mem_nil, fun _ => rfl⟩

theorem trans (h : t.Written ws t') (h' : t'.Written ws' t'') : t.Written (ws ++ ws') t'' := by
  refine ⟨h'.id.trans h.id, ?own, ?value⟩
  case own =>
    intro e he
    rcases List.mem_append.mp he with he | he
    · exact h.own e he
    · exact (h'.own e he).trans h.id
  case value =>
    intro x
    rw [h'.value?, h.value?, h.id, lastWritten_append, Option.or_assoc]

/-- A table that holds one more value. -/
theorem of_value? {x : String} {v : Value H} (hid : t'.id = t.id)
    (h : ∀ y, t'.value? y = if x = y then some v else t.value? y) :
    t.Written [⟨t.id, x, v⟩] t' := by
  refine ⟨hid, fun e he => by rw [List.mem_singleton.mp he], ?_⟩
  intro y
  rw [h, lastWritten_singleton]
  by_cases hx : x = y
  · simp [hx]
  · simp [hx]

theorem set (t : Table H) (x : String) (v : Value H) : t.Written [⟨t.id, x, v⟩] (t.set x v) :=
  .of_value? rfl fun y => Table.value?_set t x y v

end Table.Written

/-! ## Edits -/

/-- What can be done to a table through a handle. -/
inductive Edit (H : Type) where
  | ensure (x : String)
  | set (x : String) (v : Value H)
  | insert (s : Symbol H)

namespace Edit

def apply (t : Table H) : Edit H → Table H
  | ensure x => t.ensure x
  | set x v => t.set x v
  | insert s => t.insert s

/-- What an edit writes; a name that is there already is left alone by `ensure`. -/
def writes (t : Table H) : Edit H → List (Write H)
  | ensure x => if t.contains x then [] else [⟨t.id, x, .unknown⟩]
  | set x v => [⟨t.id, x, v⟩]
  | insert s => [⟨t.id, s.name, s.value⟩]

/-- The table after edits, one after the other. -/
def applyAll (t : Table H) (edits : List (Edit H)) : Table H := edits.foldl apply t

def writesAll (t : Table H) : List (Edit H) → List (Write H)
  | [] => []
  | e :: es => e.writes t ++ writesAll (e.apply t) es

theorem written (t : Table H) (e : Edit H) : t.Written (e.writes t) (e.apply t) := by
  cases e with
  | ensure x =>
    rw [apply, writes, Table.ensure]
    split
    · exact .refl t
    · exact .set t x .unknown
  | set x v => exact .set t x v
  | insert s => exact .set t s.name s.value

theorem writtenAll (t : Table H) (edits : List (Edit H)) :
    t.Written (writesAll t edits) (applyAll t edits) := by
  induction edits generalizing t with
  | nil => exact .refl t
  | cons e es ih => exact (e.written t).trans (ih (e.apply t))

end Edit

/-- A table of symbols is made by inserting them. -/
theorem Table.ofSymbols_eq (id : TableId) (symbols : List (Symbol H)) :
    Table.ofSymbols id symbols = Edit.applyAll (.empty id) (symbols.map .insert) := by
  rw [Edit.applyAll, List.foldl_map]
  rfl

/-- What is under the names of a table, as writes. -/
def Table.snapshot (t : Table H) (names : List String) : List (Write H) :=
  names.flatMap fun x => (t.value? x).toList.map fun v => ⟨t.id, x, v⟩

theorem Table.lastWritten_snapshot (t : Table H) (names : List String) (x : String) :
    lastWritten (t.snapshot names) t.id x = if x ∈ names then t.value? x else none := by
  induction names with
  | nil => rfl
  | cons y names ih =>
    have hone : lastWritten ((t.value? y).toList.map fun v => ⟨t.id, y, v⟩) t.id x =
        if x = y then t.value? x else none := by
      by_cases hxy : x = y
      · subst hxy
        cases t.value? x with
        | none => simp [lastWritten]
        | some v => simp [lastWritten]
      · cases t.value? y with
        | none => simp [lastWritten, hxy]
        | some v => simp [lastWritten, Ne.symm hxy, hxy]
    rw [snapshot, List.flatMap_cons, lastWritten_append, hone]
    rw [snapshot] at ih
    rw [ih]
    by_cases hxy : x = y
    · subst hxy
      by_cases hx : x ∈ names
      · simp [hx]
      · simp [hx]
    · by_cases hx : x ∈ names
      · simp [hx, hxy]
      · simp [hx, hxy]

theorem Table.mem_snapshot {t : Table H} {names : List String} {e : Write H} :
    e ∈ t.snapshot names ↔ e.table = t.id ∧ e.name ∈ names ∧ t.value? e.name = some e.value := by
  obtain ⟨id, x, v⟩ := e
  simp only [snapshot, List.mem_flatMap, List.mem_map, Option.mem_toList]
  constructor
  · rintro ⟨y, hy, w, hw, he⟩
    cases he
    exact ⟨rfl, hy, hw⟩
  · rintro ⟨rfl, hx, hv⟩
    exact ⟨x, hx, v, hv, rfl⟩

/-- A table that differs only under the names is the other one with what is under them written. -/
theorem Table.Written.of_snapshot {t t' : Table H} {names : List String} (hid : t'.id = t.id)
    (hother : ∀ x, x ∉ names → t'.value? x = t.value? x)
    (hkeep : ∀ x, (∃ v, t.value? x = some v) → ∃ v, t'.value? x = some v) :
    t.Written (t'.snapshot names) t' := by
  refine ⟨hid, ?own, ?value⟩
  case own => exact fun e he => (Table.mem_snapshot.1 he).1.trans hid
  case value =>
    intro x
    rw [← hid, lastWritten_snapshot]
    by_cases hx : x ∈ names
    · rw [if_pos hx]
      cases hv' : t'.value? x with
      | some v => rfl
      | none =>
        -- a name that has no value had none before
        cases hv : t.value? x with
        | none => rfl
        | some v =>
          obtain ⟨w, hw⟩ := hkeep x ⟨v, hv⟩
          cases hv'.symm.trans hw
    · rw [if_neg hx, hother x hx]
      rfl

end

variable {H : Type} [HostLibrary H] {tables : Tables H} {depth : Nat}

/-- A formula that was run wrote one value. -/
theorem Formula.Sets.written {f : Formula} {v : Value H} {t t' : Table H}
    (h : f.Sets tables depth v t t') : t.Written [⟨t.id, f.target, v⟩] t' :=
  .of_value? h.id h.value?

/-! ## Requests to a solver -/

/-- A symbol that is not recomputed keeps its value. -/
theorem Pass.Progress.value?_of_not_recomputed {fs : Formulas} {p q : Pass H}
    (h : Progress tables depth fs p q) (ht : fs.Tracked) {y : String} (hy : y ∉ q.recomputed) :
    q.table.value? y = p.table.value? y := by
  induction h with
  | refl => rfl
  | @tail q r x _ hx ih =>
    cases hx with
    | leaf => exact ih hy
    | current => exact ih hy
    | @recomputed f table hf hcalm hdeps hstale ha =>
      have hy : y ∉ q.recomputed ++ [x] := hy
      rw [List.mem_append, List.mem_singleton, not_or] at hy
      have hone := Finishes.value?_of_ne ht (.recomputed hf hcalm hdeps hstale ha) hy.2
      rw [hone, ih hy.1]

/-- A formula for a function that is recomputed is compiled on the table of the pass. -/
theorem Pass.Progress.compiled_of_recomputed {fs : Formulas} {p q : Pass H}
    (h : Progress tables depth fs p q) (ht : fs.Tracked) {y : String} {f : Formula}
    (hf : fs[y]? = some f) (hfun : f.isFunction = true) (hp : y ∉ p.recomputed)
    (hy : y ∈ q.recomputed) :
    ∃ serial, q.table.value? y = some (.callable (.compiled (f.compile p.table.id serial))) := by
  induction h with
  | refl => exact absurd hy hp
  | @tail q r x hq hx ih =>
    by_cases hyx : y = x
    · subst hyx
      cases hx with
      | leaf => exact ih hy
      | current => exact ih hy
      | recomputed hg _ _ _ ha =>
        obtain rfl := Option.some.inj (hf.symm.trans hg)
        obtain ⟨v, hv⟩ := Formula.sets_of_assignIn ha
        have hvalue := hv.value? y
        rw [if_pos (ht y f hf).1, hv.function hfun, hq.id_eq] at hvalue
        exact ⟨_, hvalue⟩
    · rw [hx.value?_of_ne ht hyx]
      refine ih ?_
      cases hx with
      | leaf => exact hy
      | current => exact hy
      | recomputed => exact (List.mem_append.mp hy).resolve_right (by simpa using hyx)

theorem Formulas.Tracked.insert {fs : Formulas} (h : fs.Tracked) {text : String} {f : Formula}
    (hf : Formula.parse text = .ok f) : Formulas.Tracked (fs.insert f.target f) := by
  intro x g hg
  by_cases hx : x = f.target
  · subst hx
    rw [Std.ExtTreeMap.getElem?_insert_self] at hg
    obtain rfl := Option.some.inj hg
    exact ⟨rfl, fun y hy => Formula.tracked hf hy⟩
  · rw [Formulas.getElem?_insert_ne hx] at hg
    exact h x g hg

namespace Solver

/-- What a request writes: the unknown values of a definition, the value of an assignment, and the
values of the symbols that a solve recomputes. -/
def writes (tables : Tables H) (depth : Nat) (s : Solver H) : Request H → List (Write H)
  | .define text =>
    match Formula.parse text, s.define text with
    | .ok f, .ok _ => Edit.writesAll s.table ((f.target :: f.dependsOn).map .ensure)
    | _, _ => []
  | .assign x v =>
    match s.assign x v with
    | .ok _ => [⟨s.table.id, x, v⟩]
    | .error _ => []
  | .solve x =>
    if s.contains x && s.isStale x then
      (s.pass tables depth x).1.table.snapshot (s.pass tables depth x).1.recomputed
    else []

/-- What solving symbols in order writes. -/
def writesEach (tables : Tables H) (depth : Nat) (s : Solver H) : List String → List (Write H)
  | [] => []
  | x :: xs => s.writes tables depth (.solve x) ++
      writesEach tables depth (s.solve tables depth x).solver xs

variable {s : Solver H}

/-- What a solve writes for a formula for a function is that function, compiled on its table. -/
theorem compiled_of_mem_writes (ht : s.formulas.Tracked) {x : String} {e : Write H}
    (he : e ∈ s.writes tables depth (.solve x)) {f : Formula} (hf : s.formula? e.name = some f)
    (hfun : f.isFunction = true) : ∃ serial,
      e = ⟨s.table.id, f.target, .callable (.compiled (f.compile s.table.id serial))⟩ := by
  have hpass := s.pass_progress tables depth x
  rw [writes] at he
  split at he
  · obtain ⟨hid, hrecomputed, hvalue⟩ := Table.mem_snapshot.1 he
    obtain ⟨serial, hmade⟩ :=
      hpass.compiled_of_recomputed ht hf hfun List.not_mem_nil hrecomputed
    refine ⟨serial, ?_⟩
    show (⟨e.table, e.name, e.value⟩ : Write H) = _
    rw [hid.trans hpass.id_eq, ← (ht e.name f hf).1,
      Option.some.inj (hvalue.symm.trans hmade)]
    rfl
  · cases he

/-- **A request changes the table of the solver by what it writes, and by nothing else.** -/
theorem written (ht : s.formulas.Tracked) (r : Request H) :
    s.table.Written (s.writes tables depth r) (s.perform tables depth r).solver.table := by
  cases r with
  | define text =>
    rw [writes, perform]
    cases hd : s.define text with
    | error e =>
      cases Formula.parse text <;> exact .refl _
    | ok s' =>
      obtain ⟨f, hf, -, rfl⟩ := define_eq_ok hd
      rw [hf]
      have hensured := Edit.writtenAll s.table ((f.target :: f.dependsOn).map .ensure)
      rwa [Edit.applyAll, List.foldl_map] at hensured
  | assign x v =>
    rw [writes, perform]
    cases ha : s.assign x v with
    | error e => exact .refl _
    | ok s' =>
      obtain ⟨-, rfl⟩ := assign_eq_ok ha
      exact .set s.table x v
  | solve x =>
    rw [writes, perform]
    by_cases hx : s.contains x = true ∧ s.isStale x = true
    · rw [if_pos (by simp [hx]), solve_of_stale tables depth hx.1 hx.2]
      have hpass := s.pass_progress tables depth x
      exact .of_snapshot hpass.id_eq (fun y hy => hpass.value?_of_not_recomputed ht hy)
        fun y hy => hpass.exists_value hy
    · rw [if_neg (by simpa using hx), solve_of_not_stale tables depth hx]
      exact .refl _

theorem tracked_perform (ht : s.formulas.Tracked) (r : Request H) :
    (s.perform tables depth r).solver.formulas.Tracked := by
  have hcases := s.perform_cases tables depth r
  generalize s.perform tables depth r = reply at hcases
  cases hcases with
  | installed hf => exact ht.insert hf
  | notInstalled | assigned | notAssigned | passed | read => exact ht

/-- The same goes for solving symbols in order. -/
theorem writtenEach (xs : List String) {s : Solver H} (ht : s.formulas.Tracked) :
    s.table.Written (s.writesEach tables depth xs) (s.solveEach tables depth xs).1.table ∧
      (s.solveEach tables depth xs).1.formulas.Tracked := by
  induction xs generalizing s with
  | nil => exact ⟨.refl _, ht⟩
  | cons x xs ih =>
    have hfirst : s.table.Written (s.writes tables depth (.solve x))
        (s.solve tables depth x).solver.table := s.written ht (.solve x)
    have hafter : (s.solve tables depth x).solver.formulas.Tracked :=
      s.tracked_perform ht (.solve x)
    obtain ⟨hwritten, htracked⟩ := ih hafter
    exact ⟨hfirst.trans hwritten, htracked⟩

theorem compiled_of_mem_writesEach (xs : List String) {s : Solver H} (ht : s.formulas.Tracked)
    {e : Write H} (he : e ∈ s.writesEach tables depth xs) {f : Formula}
    (hf : s.formula? e.name = some f) (hfun : f.isFunction = true) : ∃ serial,
      e = ⟨s.table.id, f.target, .callable (.compiled (f.compile s.table.id serial))⟩ := by
  induction xs generalizing s with
  | nil => cases he
  | cons x xs ih =>
    rcases List.mem_append.mp he with hfirst | hrest
    · exact compiled_of_mem_writes ht hfirst hf hfun
    · have hid : (s.solve tables depth x).solver.table.id = s.table.id :=
        (s.written ht (.solve x)).id
      have hafter : (s.solve tables depth x).solver.formula? e.name = some f := by
        rw [formula?, solve_formulas]
        exact hf
      rw [← hid]
      exact ih (s.tracked_perform ht (.solve x)) hrest hafter

end Solver

end Recalc

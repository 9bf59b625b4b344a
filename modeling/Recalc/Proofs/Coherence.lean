import Recalc.Proofs.Correspondence
import Recalc.Proofs.Names
import Recalc.Proofs.Staleness

/-!
# Coherent tables

What does a value in the table have to do with the formula that it came from? For a current symbol
everything: its value is what its formula yields now.

* A current symbol with a formula for a value holds what the body evaluates to over the table as it
  is, whatever other tables there are. If the formula refers to its own target, the body read the
  value that the symbol held before: the **origin** of the symbol, which its value does not show.
* A current symbol with a formula for a function holds that function, compiled on this table, and
  no other symbol holds one of the same serial number.

A value can itself be a function that reads the table. **The value of a current symbol reads only
what the symbol reaches**, and that is why recomputing a stale symbol changes no current value: the
current symbols do not reach it.
-/

namespace Recalc

/-! ## Values that read only some names -/

section

variable {H : Type}

/-- `f` and `g` are one function, compiled on a table, that reads only names in `P` from it. -/
def CompiledFunction.SameWithin (id : TableId) (P : String → Prop) (f g : CompiledFunction) :
    Prop :=
  f = g ∧ f.table = id ∧ ∀ x, f.body.references x = true → x ∉ f.params → P x

theorem CompiledFunction.SameWithin.matching (id : TableId) (P : String → Prop) :
    CompiledFunction.Matching (CompiledFunction.SameWithin id P) where
  name h := congrArg name h.1
  params h := congrArg CompiledFunction.params h.1
  body h := congrArg CompiledFunction.body h.1
  same h h' := by rw [h.1, h'.1]

/-- The value is no function, one of the host, or one that reads only names in `P`. -/
def Value.Within (id : TableId) (P : String → Prop) (v : Value H) : Prop :=
  v.Related (CompiledFunction.SameWithin id P) v

theorem Value.Within.mono {id : TableId} {P Q : String → Prop} (hPQ : ∀ x, P x → Q x) {v : Value H}
    (h : v.Within id P) : v.Within id Q :=
  Value.Related.mono (fun _ _ hfg => ⟨hfg.1, hfg.2.1, fun x hx hp => hPQ x (hfg.2.2 x hx hp)⟩) h

/-- The value is a number or a function of the host. -/
def Value.IsPlain : Value H → Prop
  | .number _ | .callable (.host _) => True
  | .callable (.compiled _) => False

instance (v : Value H) : Decidable v.IsPlain :=
  match v with
  | .number _ | .callable (.host _) => inferInstanceAs (Decidable True)
  | .callable (.compiled _) => inferInstanceAs (Decidable False)

theorem Value.IsPlain.related {v : Value H} (h : v.IsPlain)
    (R : CompiledFunction → CompiledFunction → Prop) : v.Related R v := by
  match v, h with
  | .number x, _ => exact .number x
  | .callable (.host f), _ => exact .callable (.host f)

theorem Outcome.Related.eq_of_sameWithin {ε : Type} {id : TableId} {P : String → Prop}
    {x y : Outcome ε (Value H)}
    (h : Outcome.Related (Value.Related (CompiledFunction.SameWithin id P)) x y) : x = y :=
  h.eq fun _ _ hv => Value.Related.eq (fun _ _ hfg => hfg.1) hv

/-! ## Tables that agree on some names -/

/-- Two states of one table have the same values under the names in `P`, and these values read only
names in `P`. -/
structure Table.AgreeOn (P : String → Prop) (t t' : Table H) : Prop where
  id : t'.id = t.id
  cell : ∀ x, P x → t'.value? x = t.value? x
  within : ∀ x v, P x → t.value? x = some v → v.Within t.id P

theorem Table.AgreeOn.rel {P : String → Prop} {t t' : Table H} (h : t.AgreeOn P t') {x : String}
    (hx : P x) : Option.Rel (Value.Related (CompiledFunction.SameWithin t.id P)) (t.value? x)
      (t'.value? x) := by
  rw [h.cell x hx]
  cases hv : t.value? x with
  | none => exact .none
  | some v => exact .some (h.within x v hx hv)

theorem Table.AgreeOn.relatedUnder {P : String → Prop} {t t' : Table H} (h : t.AgreeOn P t')
    (tables tables' : Tables H) : Tables.RelatedUnder (CompiledFunction.SameWithin t.id P)
      (tables.put t) (tables'.put t') := by
  rintro f g ⟨rfl, hid, hread⟩
  refine ⟨t, t', if_pos hid, if_pos (hid.trans h.id.symm), ?_⟩
  intro x hx hp
  exact h.rel (hread x hx hp)

theorem lookup_singleton {x y : String} (h : y ≠ x) {w : Value H} :
    [(x, w)].lookup y = none := by
  rw [List.lookup_cons, beq_eq_false_iff_ne.2 h]
  rfl

variable [HostLibrary H]

/-- The value of an expression over a table in which `x` still holds `w`. -/
def Expr.evalFrom (tables : Tables H) (depth : Nat) (x : String) (w : Value H) (t : Table H)
    (e : Expr) : Outcome EvalError (Value H) :=
  e.eval (tables.put t) depth ⟨[(x, w)], t⟩

/-- The value is corresponding if the names that are read, apart from `x`, hold corresponding
values. -/
theorem Expr.evalFrom_related (hH : HostLibrary.Uniform H)
    {R : CompiledFunction → CompiledFunction → Prop} (hR : CompiledFunction.Matching R)
    {tables tables' : Tables H} {t t' : Table H}
    (ht : Tables.RelatedUnder R (tables.put t) (tables'.put t')) (depth : Nat) {x : String}
    {w w' : Value H} {e : Expr} (hw : e.references x = true → w.Related R w')
    (hread : ∀ y, e.references y = true → y ≠ x →
      Option.Rel (Value.Related R) (t.value? y) (t'.value? y)) :
    Outcome.Related (Value.Related R) (e.evalFrom tables depth x w t)
      (e.evalFrom tables' depth x w' t') := by
  refine eval_related hH hR ht depth ?_
  intro y hy
  by_cases hyx : y = x
  · subst hyx
    exact Scope.relatedAt_of_locals (by simp) (by simp) (hw hy)
  · exact Scope.relatedAt_of_table (lookup_singleton hyx) (lookup_singleton hyx) (hread y hy hyx)

/-- The value depends only on names on which the tables agree. -/
theorem Expr.evalFrom_agree (hH : HostLibrary.Uniform H) {P : String → Prop} {t t' : Table H}
    (h : t.AgreeOn P t') (tables tables' : Tables H) (depth : Nat) {x : String} {w : Value H}
    (hw : w.IsPlain) {e : Expr} (hread : ∀ y, e.references y = true → y ≠ x → P y) :
    Outcome.Related (Value.Related (CompiledFunction.SameWithin t.id P))
      (e.evalFrom tables depth x w t) (e.evalFrom tables' depth x w t') :=
  evalFrom_related hH (CompiledFunction.SameWithin.matching t.id P)
    (h.relatedUnder tables tables') depth (fun _ => hw.related _)
    fun y hy hyx => h.rel (hread y hy hyx)

/-- If `x` does hold `w`, that is the value of the expression. -/
theorem Expr.eval_eq_evalFrom (hH : HostLibrary.Uniform H) {P : String → Prop} {t : Table H}
    (h : t.AgreeOn P t) (tables : Tables H) (depth : Nat) {x : String} {w : Value H}
    (hw : w.IsPlain) {e : Expr} (hx : e.references x = true → t.value? x = some w)
    (hread : ∀ y, e.references y = true → y ≠ x → P y) :
    e.eval (tables.put t) depth ⟨[], t⟩ = e.evalFrom tables depth x w t := by
  refine Outcome.Related.eq_of_sameWithin (eval_related hH
    (CompiledFunction.SameWithin.matching t.id P) (h.relatedUnder tables tables) depth ?_)
  intro y hy
  by_cases hyx : y = x
  · subst hyx
    have hlocal : Scope.lookup (H := H) ⟨[], t⟩ y = Scope.lookup ⟨[(y, w)], t⟩ y := by
      simp [Scope.lookup, Scope.lookup?, hx hy]
    rw [Scope.RelatedAt, hlocal]
    exact Scope.relatedAt_of_locals (by simp) (by simp) (hw.related _)
  · exact Scope.relatedAt_of_table rfl (lookup_singleton hyx) (h.rel (hread y hy hyx))

end

/-! ## Coherence -/

/-- Each formula is kept under its target, and no name that its body refers to is missed. -/
def Formulas.Tracked (fs : Formulas) : Prop :=
  ∀ (x : String) (f : Formula), fs[x]? = some f →
    f.target = x ∧ ∀ y, f.body.references y = true → y = x ∨ y ∈ f.params ∨ y ∈ f.dependsOn

variable {H : Type} [HostLibrary H]

/-- The target of `f` holds what `f` yields now, where the target itself is read as `w`. -/
structure Formula.Settled (depth : Nat) (f : Formula) (w : Value H) (t : Table H) : Prop where
  function : f.isFunction = true → ∃ serial, serial < t.compiled ∧
    t.value? f.target = some (.callable (.compiled (f.compile t.id serial)))
  scalar : f.isFunction = false → ∃ v, t.value? f.target = some v ∧
    ∀ tables, f.body.evalFrom tables depth f.target w t = .value v

/-- The table fits the formulas and the names that are stale. -/
structure Coherent (depth : Nat) (origin : String → Value H) (fs : Formulas) (t : Table H)
    (stale : NameSet) : Prop where
  tracked : fs.Tracked
  marks : fs.Marks stale
  /-- Targets and all that formulas depend on are in the table. -/
  known : ∀ (x : String) (f : Formula), fs[x]? = some f → ∀ y, y = x ∨ y ∈ f.dependsOn →
    ∃ v, t.value? y = some v
  leaf : ∀ x v, fs[x]? = none → t.value? x = some v → v.IsPlain
  origins : ∀ x, (origin x).IsPlain
  /-- A stale symbol that reads itself still holds what it will read. -/
  pending : ∀ (x : String) (f : Formula), fs[x]? = some f → f.isFunction = false →
    f.body.references x = true → x ∈ stale → t.value? x = some (origin x)
  settled : ∀ (x : String) (f : Formula), fs[x]? = some f → x ∉ stale →
    f.Settled depth (origin x) t
  /-- Different symbols hold functions of different serial numbers. -/
  distinct : ∀ (x y : String) (f g : Formula) (a b : CompiledFunction), fs[x]? = some f →
    fs[y]? = some g → f.isFunction = true → g.isFunction = true → x ∉ stale → y ∉ stale →
    t.value? x = some (.callable (.compiled a)) → t.value? y = some (.callable (.compiled b)) →
    a.serial = b.serial → x = y

namespace Formula

theorem params_eq_nil {f : Formula} (h : f.isFunction = false) : f.params = [] := by
  rw [params]
  cases hp : f.params? with
  | none => rfl
  | some ps =>
    rw [isFunction, hp] at h
    cases h

/-- What a formula for a value reads apart from its target is what it depends on. -/
theorem edge_of_references {fs : Formulas} (ht : fs.Tracked) {x y : String} {f : Formula}
    (hf : fs[x]? = some f) (hfun : f.isFunction = false) (hy : f.body.references y = true)
    (hyx : y ≠ x) : fs.Edge x y := by
  rcases (ht x f hf).2 y hy with h | h | h
  · exact absurd h hyx
  · rw [params_eq_nil hfun] at h
    cases h
  · exact Formulas.edge_of_some hf h

/-- A settled symbol has a value. -/
theorem Settled.exists_value {depth : Nat} {f : Formula} {w : Value H} {t : Table H}
    (h : f.Settled depth w t) : ∃ v, t.value? f.target = some v := by
  cases hfun : f.isFunction with
  | true =>
    obtain ⟨serial, _, hvalue⟩ := h.function hfun
    exact ⟨_, hvalue⟩
  | false =>
    obtain ⟨v, hvalue, _⟩ := h.scalar hfun
    exact ⟨v, hvalue⟩

end Formula

namespace Coherent

variable {depth : Nat} {origin : String → Value H} {fs : Formulas} {t : Table H} {stale : NameSet}

/-- What the body of a formula for a value reads apart from the target, the target reaches. -/
theorem reaches_of_references (h : Coherent depth origin fs t stale) {x : String} {f : Formula}
    (hf : fs[x]? = some f) (hfun : f.isFunction = false) {y : String}
    (hy : f.body.references y = true) (hyx : y ≠ x) : fs.Reaches x y :=
  .single (Formula.edge_of_references h.tracked hf hfun hy hyx)

/-- **The value of a current symbol reads only what the symbol reaches.** -/
theorem within (hH : HostLibrary.Uniform H) (h : Coherent depth origin fs t stale) {x : String}
    (hx : x ∉ stale) {v : Value H} (hv : t.value? x = some v) : v.Within t.id (fs.Reaches x) := by
  -- by induction along the edges, which are grounded below a current symbol
  refine (h.marks.grounded x hx).induction (P := fun x => x ∉ stale → ∀ v, t.value? x = some v →
    v.Within t.id (fs.Reaches x)) ?_ hx v hv
  intro x hground ih hx v hv
  cases hf : fs[x]? with
  | none => exact (h.leaf x v hf hv).related _
  | some f =>
    obtain ⟨rfl, hrefs⟩ := h.tracked x f hf
    cases hfun : f.isFunction with
    | true =>
      obtain ⟨serial, _, hvalue⟩ := (h.settled _ f hf hx).function hfun
      rw [hv] at hvalue
      rw [Option.some.inj hvalue]
      refine .callable (.compiled ⟨rfl, rfl, ?_⟩)
      intro y hy hp
      rcases hrefs y hy with rfl | hyp | hyd
      · -- a function that reads its own name calls itself, and no current one does
        have hcalm := hground.calm hf
        rw [Formula.isSelfCalling, hfun, Bool.true_and] at hcalm
        rw [show f.body.references f.target = true from hy] at hcalm
        cases hcalm
      · exact absurd hyp hp
      · exact .single (Formulas.edge_of_some hf hyd)
    | false =>
      obtain ⟨w, hvalue, heval⟩ := (h.settled _ f hf hx).scalar hfun
      rw [hv] at hvalue
      rw [Option.some.inj hvalue]
      have hagree : t.AgreeOn (fs.Reaches f.target) t := by
        refine ⟨rfl, fun _ _ => rfl, ?_⟩
        intro y u hy hu
        have hread : u.Within t.id (fs.Reaches y) := ih y hy (h.marks.not_mem_of_reaches hx hy) u hu
        exact hread.mono fun z hz => hy.trans hz
      -- the body is related to itself, hence so is the value that it yields
      have hrel := Expr.evalFrom_agree hH hagree Tables.empty Tables.empty depth
        (h.origins f.target) fun y hy hne => h.reaches_of_references hf hfun hy hne
      rw [heval] at hrel
      cases hrel with
      | value hw => exact hw

/-- A change of the table that spares what `x` reaches changes nothing that the values there
read. -/
theorem agreeOn (hH : HostLibrary.Uniform H) (h : Coherent depth origin fs t stale) {x : String}
    (hx : ∀ y, fs.Reaches x y → y ∉ stale) {t' : Table H} (hid : t'.id = t.id)
    (hcell : ∀ y, fs.Reaches x y → t'.value? y = t.value? y) : t.AgreeOn (fs.Reaches x) t' := by
  refine ⟨hid, hcell, ?_⟩
  intro y v hy hv
  have hread : v.Within t.id (fs.Reaches y) := h.within hH (hx y hy) hv
  exact hread.mono fun z hz => hy.trans hz

/-- The body of a formula for a value yields the same on tables that agree on what the target
reaches. -/
theorem evalFrom_eq (hH : HostLibrary.Uniform H) (h : Coherent depth origin fs t stale)
    {x : String} {f : Formula} (hf : fs[x]? = some f) (hfun : f.isFunction = false) {t' : Table H}
    (hagree : t.AgreeOn (fs.Reaches x) t') (tables tables' : Tables H) :
    f.body.evalFrom tables depth x (origin x) t =
      f.body.evalFrom tables' depth x (origin x) t' := by
  have hrel := Expr.evalFrom_agree hH hagree tables tables' depth (h.origins x)
    fun y hy hne => h.reaches_of_references hf hfun hy hne
  exact hrel.eq_of_sameWithin

/-- **A change of the table that spares a current symbol and what it reaches leaves it settled.** -/
theorem settled_frame (hH : HostLibrary.Uniform H) (h : Coherent depth origin fs t stale)
    {x : String} {f : Formula} (hf : fs[x]? = some f) (hx : x ∉ stale) {t' : Table H}
    (hid : t'.id = t.id) (hcompiled : t.compiled ≤ t'.compiled)
    (hcell : ∀ y, y = x ∨ fs.Reaches x y → t'.value? y = t.value? y) :
    f.Settled depth (origin x) t' := by
  obtain ⟨rfl, _⟩ := h.tracked x f hf
  have hs := h.settled _ f hf hx
  have htarget : t'.value? f.target = t.value? f.target := hcell f.target (.inl rfl)
  constructor
  · intro hfun
    obtain ⟨serial, hlt, hvalue⟩ := hs.function hfun
    refine ⟨serial, by omega, ?_⟩
    rw [htarget, hid]
    exact hvalue
  · intro hfun
    obtain ⟨v, hvalue, heval⟩ := hs.scalar hfun
    have hagree : t.AgreeOn (fs.Reaches f.target) t' :=
      h.agreeOn hH (fun y hy => h.marks.not_mem_of_reaches hx hy) hid
        fun y hy => hcell y (.inr hy)
    refine ⟨v, htarget.trans hvalue, ?_⟩
    intro tables
    rw [← h.evalFrom_eq hH hf hfun hagree tables tables]
    exact heval tables

/-! ## Recomputing a symbol -/

/-- A stale symbol whose dependencies are current is recomputed from its origin. -/
theorem assignIn_eq (hH : HostLibrary.Uniform H) (h : Coherent depth origin fs t stale) {x : String}
    {f : Formula} (hf : fs[x]? = some f) (hfun : f.isFunction = false) (hx : x ∈ stale)
    (hdeps : ∀ y, fs.Reaches x y → y ∉ stale) (tables : Tables H) :
    f.assignIn tables depth t =
      f.body.evalFrom tables depth x (origin x) t >>= fun v => .value (t.set x v) := by
  obtain ⟨rfl, _⟩ := h.tracked x f hf
  have hagree := h.agreeOn hH hdeps rfl fun _ _ => rfl
  have heval := Expr.eval_eq_evalFrom hH hagree tables depth (h.origins f.target)
    (fun hself => h.pending _ f hf hfun hself hx)
    fun y hy hne => h.reaches_of_references hf hfun hy hne
  rw [Formula.assignIn, hfun, ← heval]
  rfl

/-- What a recomputation of `x` does to the table. -/
structure Recomputes (depth : Nat) (f : Formula) (w : Value H) (t t' : Table H) : Prop where
  id : t'.id = t.id
  compiled : t.compiled ≤ t'.compiled
  frame : ∀ y, y ≠ f.target → t'.value? y = t.value? y
  settled : f.Settled depth w t'
  /-- A function that is compiled gets a new serial number. -/
  fresh : ∀ a, f.isFunction = true → t'.value? f.target = some (.callable (.compiled a)) →
    a.serial = t.compiled

theorem recomputes (hH : HostLibrary.Uniform H) (h : Coherent depth origin fs t stale) {x : String}
    {f : Formula} (hf : fs[x]? = some f) (hx : x ∈ stale)
    (hdeps : ∀ y, fs.Reaches x y → y ∉ stale) {tables : Tables H} {t' : Table H}
    (ha : f.assignIn tables depth t = .value t') : Recomputes depth f (origin x) t t' := by
  have htarget := (h.tracked x f hf).1
  have hset : ∀ (u : Table H) v y, y ≠ f.target → (u.set f.target v).value? y = u.value? y := by
    intro u v y hy
    rw [Table.value?_set, if_neg fun he => hy he.symm]
  have hself : ∀ (u : Table H) v, (u.set f.target v).value? f.target = some v := by
    intro u v
    rw [Table.value?_set, if_pos rfl]
  cases hfun : f.isFunction with
  | true =>
    rw [Formula.assignIn, hfun] at ha
    cases ha
    refine ⟨rfl, Nat.le_succ _, hset _ _, ⟨?function, ?scalar⟩, ?fresh⟩
    case function => exact fun _ => ⟨t.compiled, Nat.lt_succ_self _, hself _ _⟩
    case scalar =>
      intro hno
      rw [hfun] at hno
      cases hno
    case fresh =>
      intro a _ hval
      rw [hself] at hval
      cases hval
      rfl
  | false =>
    rw [h.assignIn_eq hH hf hfun hx hdeps] at ha
    cases hv : f.body.evalFrom tables depth x (origin x) t with
    | error e => rw [hv] at ha; cases ha
    | exhausted => rw [hv] at ha; cases ha
    | value v =>
      rw [hv] at ha
      cases ha
      subst htarget
      -- the symbol does not reach itself, so the new value changes nothing that the body reads
      have hagree : t.AgreeOn (fs.Reaches f.target) (t.set f.target v) := by
        refine h.agreeOn hH hdeps rfl ?_
        intro y hy
        exact hset t v y fun he => hdeps y hy (he ▸ hx)
      refine ⟨rfl, Nat.le_refl _, hset t v, ⟨?function, ?scalar⟩, ?fresh⟩
      case function =>
        intro hno
        rw [hfun] at hno
        cases hno
      case scalar =>
        intro _
        refine ⟨v, hself t v, ?_⟩
        intro tables'
        rw [← h.evalFrom_eq hH hf hfun hagree tables tables']
        exact hv
      case fresh =>
        intro a hno _
        rw [hfun] at hno
        cases hno

/-- The functions on a table have serial numbers below its count. -/
theorem serial_lt (h : Coherent depth origin fs t stale) {x : String} {f : Formula}
    {a : CompiledFunction} (hf : fs[x]? = some f) (hfun : f.isFunction = true) (hx : x ∉ stale)
    (hv : t.value? x = some (.callable (.compiled a))) : a.serial < t.compiled := by
  obtain ⟨serial, hlt, hvalue⟩ := (h.settled x f hf hx).function hfun
  rw [(h.tracked x f hf).1, hv] at hvalue
  cases hvalue
  exact hlt

/-- A function that is compiled anew has the serial number of no other current function. -/
theorem serial_ne (h : Coherent depth origin fs t stale) {w : Value H} {f g : Formula}
    {t' : Table H} (hr : Recomputes depth f w t t') {y : String} {a b : CompiledFunction}
    (hg : fs[y]? = some g) (hfun : f.isFunction = true) (hgun : g.isFunction = true)
    (hy : y ∉ stale) (hne : y ≠ f.target)
    (ha : t'.value? f.target = some (.callable (.compiled a)))
    (hb : t'.value? y = some (.callable (.compiled b))) : a.serial ≠ b.serial := by
  intro he
  rw [hr.frame y hne] at hb
  have hlt : b.serial < t.compiled := h.serial_lt hg hgun hy hb
  have hfresh : a.serial = t.compiled := hr.fresh a hfun ha
  omega

/-- **Recomputing a stale symbol keeps the table coherent.** -/
theorem recomputed (hH : HostLibrary.Uniform H) (h : Coherent depth origin fs t stale) {x : String}
    {f : Formula} (hf : fs[x]? = some f) (hx : x ∈ stale) {t' : Table H}
    (hr : Recomputes depth f (origin x) t t') {stale' : NameSet} (hmarks : fs.Marks stale')
    (hstale : ∀ y, y ∈ stale' ↔ y ≠ x ∧ y ∈ stale) : Coherent depth origin fs t' stale' := by
  obtain ⟨rfl, _⟩ := h.tracked x f hf
  have htarget : ∀ {y : String} {g : Formula}, fs[y]? = some g → y = f.target → g = f := by
    rintro y g hg rfl
    rw [hf] at hg
    exact (Option.some.inj hg).symm
  -- apart from the target, what is current now was current before
  have hold : ∀ y, y ∉ stale' → y ≠ f.target → y ∉ stale := by
    intro y hy hne hys
    exact hy ((hstale y).2 ⟨hne, hys⟩)
  refine ⟨h.tracked, hmarks, ?known, ?leaf, h.origins, ?pending, ?settled, ?distinct⟩
  case known =>
    intro y g hg z hz
    by_cases hzt : z = f.target
    · subst hzt
      exact hr.settled.exists_value
    · rw [hr.frame z hzt]
      exact h.known y g hg z hz
  case leaf =>
    intro y v hg hv
    have hne : y ≠ f.target := by
      rintro rfl
      rw [hf] at hg
      cases hg
    rw [hr.frame y hne] at hv
    exact h.leaf y v hg hv
  case pending =>
    intro y g hg hfun hself hy
    obtain ⟨hne, hys⟩ := (hstale y).1 hy
    rw [hr.frame y hne]
    exact h.pending y g hg hfun hself hys
  case settled =>
    intro y g hg hy
    by_cases hyt : y = f.target
    · obtain rfl := htarget hg hyt
      subst hyt
      exact hr.settled
    · -- what is current reaches nothing stale, so it does not reach the target
      have hys := hold y hy hyt
      refine h.settled_frame hH hg hys hr.id hr.compiled ?_
      intro z hz
      refine hr.frame z ?_
      rintro rfl
      rcases hz with hz | hz
      · exact hyt hz.symm
      · exact h.marks.not_mem_of_reaches hys hz hx
  case distinct =>
    intro y z g k a b hg hk hgun hkun hy hz ha hb he
    by_cases hyt : y = f.target
    · by_cases hzt : z = f.target
      · exact hyt.trans hzt.symm
      · obtain rfl := htarget hg hyt
        subst hyt
        exact absurd he (h.serial_ne hr hk hgun hkun (hold z hz hzt) hzt ha hb)
    · by_cases hzt : z = f.target
      · obtain rfl := htarget hk hzt
        subst hzt
        exact absurd he.symm (h.serial_ne hr hg hkun hgun (hold y hy hyt) hyt hb ha)
      · rw [hr.frame y hyt] at ha
        rw [hr.frame z hzt] at hb
        exact h.distinct y z g k a b hg hk hgun hkun (hold y hy hyt) (hold z hz hzt) ha hb he

/-- Dropping a name without formula from the stale ones does no harm. -/
theorem erase_leaf (h : Coherent depth origin fs t stale) {x : String} (hx : fs[x]? = none)
    {stale' : NameSet} (hmarks : fs.Marks stale') (hstale : ∀ y, y ∈ stale' ↔ y ≠ x ∧ y ∈ stale) :
    Coherent depth origin fs t stale' := by
  have hold : ∀ (y : String) (g : Formula), fs[y]? = some g → y ∉ stale' → y ∉ stale := by
    intro y g hg hy hys
    refine hy ((hstale y).2 ⟨?_, hys⟩)
    rintro rfl
    rw [hx] at hg
    cases hg
  refine ⟨h.tracked, hmarks, h.known, h.leaf, h.origins, ?pending, ?settled, ?distinct⟩
  case pending =>
    intro y g hg hfun hself hy
    exact h.pending y g hg hfun hself ((hstale y).1 hy).2
  case settled =>
    intro y g hg hy
    exact h.settled y g hg (hold y g hg hy)
  case distinct =>
    intro y z g k a b hg hk hgun hkun hy hz
    exact h.distinct y z g k a b hg hk hgun hkun (hold y g hg hy) (hold z k hk hz)

end Coherent

/-! ## Passes keep tables coherent -/

namespace Pass

variable {depth : Nat} {origin : String → Value H} {fs : Formulas} {tables : Tables H}

/-- A pass over a coherent table, in which nothing finished is stale. -/
structure Sound (depth : Nat) (origin : String → Value H) (fs : Formulas) (p : Pass H) : Prop where
  coherent : Coherent depth origin fs p.table p.stale
  current : ∀ x ∈ p.finished, x ∉ p.stale

theorem Sound.marked {p : Pass H} (h : Sound depth origin fs p) : Marked fs p :=
  ⟨h.coherent.marks, h.current⟩

theorem Sound.start {t : Table H} {stale : NameSet} (h : Coherent depth origin fs t stale) :
    Sound depth origin fs (.start t stale) :=
  ⟨h, fun _ hx => absurd hx Std.ExtTreeSet.not_mem_empty⟩

theorem Sound.finishes (hH : HostLibrary.Uniform H) {p q : Pass H} {x : String}
    (h : Sound depth origin fs p) (hq : Finishes tables depth fs p x q) :
    Sound depth origin fs q := by
  have hmarked := h.marked.finishes hq
  have hstale : ∀ y, y ∈ q.stale ↔ y ≠ x ∧ y ∈ p.stale := fun y => hq.mem_stale_iff
  have hreach : ∀ y, fs.Reaches x y → y ∉ p.stale := by
    intro y hy
    exact h.marked.not_stale_of_reaches (fun d hd => hq.deps_finished hd) hy
  refine ⟨?_, hmarked.current⟩
  cases hq with
  | leaf hx => exact h.coherent.erase_leaf hx hmarked.marks hstale
  | current _ _ _ _ => exact h.coherent
  | recomputed hf _ _ hx ha =>
    exact h.coherent.recomputed hH hf hx (h.coherent.recomputes hH hf hx hreach ha)
      hmarked.marks hstale

/-- **A pass keeps the table coherent**, however it ends. -/
theorem Sound.progress (hH : HostLibrary.Uniform H) {p q : Pass H} (h : Sound depth origin fs p)
    (hq : Progress tables depth fs p q) : Sound depth origin fs q := by
  induction hq with
  | refl => exact h
  | tail _ hx ih => exact ih.finishes hH hx

end Pass

/-! ## Requests keep tables coherent -/

/-- The value without what a compiled function is: the function counts as unknown. -/
def Value.stripped {H : Type} : Value H → Value H
  | .callable (.compiled _) => .unknown
  | v => v

theorem Value.isPlain_stripped {H : Type} (v : Value H) : v.stripped.IsPlain := by
  match v with
  | .number x => trivial
  | .callable (.host f) => trivial
  | .callable (.compiled f) => trivial

theorem Value.stripped_eq {H : Type} {v : Value H} (h : v.IsPlain) : v.stripped = v := by
  match v, h with
  | .number x, _ => rfl
  | .callable (.host f), _ => rfl

namespace Coherent

variable {depth : Nat} {origin : String → Value H} {fs : Formulas} {t : Table H} {stale : NameSet}

/--
**A new formula or value for `x` keeps the table coherent**, if `x` and all that reaches it become
stale. The origin of each stale symbol is then what it holds.
-/
theorem touch (hH : HostLibrary.Uniform H) (h : Coherent depth origin fs t stale) {gs : Formulas}
    {x : String} (hgs : ∀ y, y ≠ x → gs[y]? = fs[y]?) (htracked : gs.Tracked) {t' : Table H}
    (hid : t'.id = t.id) (hcompiled : t'.compiled = t.compiled)
    (hkeep : ∀ y v, y ≠ x → t.value? y = some v → t'.value? y = some v)
    (hknown : ∀ (y : String) (f : Formula), gs[y]? = some f → ∀ z, z = y ∨ z ∈ f.dependsOn →
      ∃ v, t'.value? z = some v)
    (hleaf : ∀ y v, gs[y]? = none → t'.value? y = some v → v.IsPlain)
    (hself : ∀ (y : String) (f : Formula) v, gs[y]? = some f → f.isFunction = false →
      f.body.references y = true → t'.value? y = some v → v.IsPlain)
    {stale' : NameSet} (hstale : ∀ y, y ∈ stale' ↔ y = x ∨ gs.Reaches y x ∨ y ∈ stale) :
    ∃ origin', Coherent depth origin' gs t' stale' := by
  have hmarks := h.marks.mark hgs hstale
  have hne : ∀ y, y ∉ stale' → y ≠ x := by
    intro y hy he
    exact hy ((hstale y).2 (.inl he))
  have hold : ∀ y, y ∉ stale' → y ∉ stale := by
    intro y hy hs
    exact hy ((hstale y).2 (.inr (.inr hs)))
  -- what is current now reached, before, only what is current now
  have hreach : ∀ y z, y ∉ stale' → fs.Reaches y z → z ∉ stale' := by
    intro y z hy hyz
    refine hyz.mem_of_closed (P := fun z => z ∉ stale') ?_ hy
    intro a b ha hab
    rw [Formulas.edge_iff, ← hgs a (hne a ha)] at hab
    exact hmarks.not_mem_of_edge ha (Formulas.edge_iff.2 hab)
  -- and all of that was in the table, where it has been left alone
  have hcell : ∀ (y : String) (f : Formula), fs[y]? = some f → y ∉ stale' →
      ∀ z, z = y ∨ fs.Reaches y z → t'.value? z = t.value? z := by
    intro y f hf hy z hz
    have hzx : z ≠ x := by
      rcases hz with rfl | hz
      · exact hne z hy
      · exact hne z (hreach y z hy hz)
    have hzknown : ∃ v, t.value? z = some v := by
      rcases hz with rfl | hz
      · exact h.known z f hf z (.inl rfl)
      · obtain ⟨d, _, hdz⟩ := Relation.TransGen.tail'_iff.1 hz
        obtain ⟨g, hg, hzd⟩ := Formulas.edge_iff.1 hdz
        exact h.known d g hg z (.inr hzd)
    obtain ⟨v, hv⟩ := hzknown
    rw [hv]
    exact hkeep z v hzx hv
  refine ⟨fun y => if stale'.contains y then ((t'.value? y).getD .unknown).stripped else origin y,
    htracked, hmarks, hknown, hleaf, ?origins, ?pending, ?settled, ?distinct⟩
  case origins =>
    intro y
    split
    · exact Value.isPlain_stripped _
    · exact h.origins y
  case pending =>
    intro y f hf hfun hy hys
    obtain ⟨v, hv⟩ := hknown y f hf y (.inl rfl)
    rw [if_pos (Std.ExtTreeSet.mem_iff_contains.1 hys), hv, Option.getD_some,
      Value.stripped_eq (hself y f v hf hfun hy hv)]
  case settled =>
    intro y f hf hys
    rw [if_neg (by rwa [← Std.ExtTreeSet.mem_iff_contains])]
    rw [hgs y (hne y hys)] at hf
    exact h.settled_frame hH hf (hold y hys) hid (by omega) (hcell y f hf hys)
  case distinct =>
    intro y z f g a b hf hg hfun hgun hys hzs ha hb
    rw [hgs y (hne y hys)] at hf
    rw [hgs z (hne z hzs)] at hg
    rw [hcell y f hf hys y (.inl rfl)] at ha
    rw [hcell z g hg hzs z (.inl rfl)] at hb
    exact h.distinct y z f g a b hf hg hfun hgun (hold y hys) (hold z hzs) ha hb

end Coherent

namespace Table

variable {H : Type}

theorem value?_foldl_ensure (xs : List String) (t : Table H) (y : String) :
    (xs.foldl ensure t).value? y =
      if y ∈ xs then some ((t.value? y).getD .unknown) else t.value? y := by
  induction xs generalizing t with
  | nil => simp
  | cons x xs ih =>
    rw [List.foldl_cons, ih, value?_ensure]
    by_cases hxy : x = y
    · simp [hxy]
    · have hyx : y ≠ x := fun he => hxy he.symm
      simp [hxy, hyx]

theorem ensure_frame (t : Table H) (x : String) :
    (t.ensure x).id = t.id ∧ (t.ensure x).compiled = t.compiled := by
  unfold ensure
  split <;> exact ⟨rfl, rfl⟩

theorem foldl_ensure_frame (xs : List String) (t : Table H) :
    (xs.foldl ensure t).id = t.id ∧ (xs.foldl ensure t).compiled = t.compiled := by
  induction xs generalizing t with
  | nil => exact ⟨rfl, rfl⟩
  | cons x xs ih =>
    rw [List.foldl_cons, (ih _).1, (ih _).2]
    exact t.ensure_frame x

end Table

namespace Solver

variable {H : Type}

/-- A value that is assigned is a number or a function of the host. -/
def Request.AssignsPlain : Request H → Prop
  | .assign _ v => v.IsPlain
  | .define _ | .solve _ => True

instance (r : Request H) : Decidable r.AssignsPlain :=
  match r with
  | .assign _ v => inferInstanceAs (Decidable v.IsPlain)
  | .define _ | .solve _ => inferInstanceAs (Decidable True)

/-- A symbol whose formula for a value refers to it holds a number or a function of the host. -/
def SelfReadersPlain (s : Solver H) : Prop :=
  ∀ (x : String) (f : Formula) (v : Value H), s.formulas[x]? = some f → f.isFunction = false →
    f.body.references x = true → s.table.value? x = some v → v.IsPlain

instance (s : Solver H) : Decidable s.SelfReadersPlain :=
  decidable_of_iff (∀ p ∈ s.formulas.toList, p.2.isFunction = false →
    p.2.body.references p.1 = true → ∀ v ∈ s.table.value? p.1, v.IsPlain) <| by
    rw [SelfReadersPlain]
    constructor
    · exact fun h x f v hf => fun hfun hself hv =>
        h (x, f) (Std.ExtTreeMap.mem_toList_iff_getElem?_eq_some.2 hf) hfun hself v hv
    · exact fun h p hp hfun hself v hv =>
        h p.1 p.2 v (Std.ExtTreeMap.mem_toList_iff_getElem?_eq_some.1 hp) hfun hself hv

theorem value?_install (s : Solver H) (f : Formula) (x : String) :
    (s.install f).table.value? x = if x ∈ f.target :: f.dependsOn then
      some ((s.table.value? x).getD .unknown) else s.table.value? x :=
  Table.value?_foldl_ensure _ _ x

theorem value?_withValue (s : Solver H) (x : String) (v : Value H) (y : String) :
    (s.withValue x v).table.value? y = if x = y then some v else s.table.value? y :=
  Table.value?_set _ _ _ _

variable [HostLibrary H] {ok : Request H → Solver H → Prop} {settings : Settings} {depth : Nat}

/-- A definition keeps the table coherent. -/
theorem coherent_install (hH : HostLibrary.Uniform H) {s : Solver H} {origin : String → Value H}
    (h : Coherent depth origin s.formulas s.table s.stale) {text : String} {f : Formula}
    (hparse : Formula.parse text = .ok f) (hself : (s.install f).SelfReadersPlain) :
    ∃ origin', Coherent depth origin' (s.install f).formulas (s.install f).table
      (s.install f).stale := by
  have hnew : (s.install f).formulas[f.target]? = some f := Std.ExtTreeMap.getElem?_insert_self
  have hother : ∀ y, y ≠ f.target → (s.install f).formulas[y]? = s.formulas[y]? :=
    fun y hy => Formulas.getElem?_insert_ne hy
  have hkeep : ∀ y v, s.table.value? y = some v → (s.install f).table.value? y = some v := by
    intro y v hv
    rw [value?_install, hv]
    split <;> rfl
  have hframe : (s.install f).table.id = s.table.id ∧
      (s.install f).table.compiled = s.table.compiled :=
    s.table.foldl_ensure_frame (f.target :: f.dependsOn)
  refine h.touch hH hother ?tracked hframe.1 hframe.2 (fun y v _ => hkeep y v) ?known ?leaf hself
    fun y => mem_stale_install
  case tracked =>
    intro y g hg
    by_cases hy : y = f.target
    · subst hy
      rw [hnew] at hg
      obtain rfl := Option.some.inj hg
      exact ⟨rfl, fun z hz => Formula.tracked hparse hz⟩
    · rw [hother y hy] at hg
      exact h.tracked y g hg
  case known =>
    intro y g hg z hz
    by_cases hy : y = f.target
    · subst hy
      rw [hnew] at hg
      obtain rfl := Option.some.inj hg
      exact ⟨_, (value?_install s f z).trans (if_pos (List.mem_cons.2 hz))⟩
    · rw [hother y hy] at hg
      obtain ⟨v, hv⟩ := h.known y g hg z hz
      exact ⟨v, hkeep z v hv⟩
  case leaf =>
    intro y v hg hv
    have hy : y ≠ f.target := by
      rintro rfl
      rw [hnew] at hg
      cases hg
    rw [hother y hy] at hg
    cases hw : s.table.value? y with
    | some w =>
      rw [hkeep y w hw] at hv
      obtain rfl := Option.some.inj hv
      exact h.leaf y w hg hw
    | none =>
      -- a name that the definition puts in the table is unknown
      rw [value?_install, hw] at hv
      split at hv
      · obtain rfl := Option.some.inj hv
        trivial
      · cases hv

/-- An assignment of a plain value keeps the table coherent. -/
theorem coherent_withValue (hH : HostLibrary.Uniform H) {s : Solver H} {origin : String → Value H}
    (h : Coherent depth origin s.formulas s.table s.stale) {x : String} {v : Value H}
    (hv : v.IsPlain) (hself : (s.withValue x v).SelfReadersPlain) :
    ∃ origin', Coherent depth origin' (s.withValue x v).formulas (s.withValue x v).table
      (s.withValue x v).stale := by
  have hframe : (s.withValue x v).table.id = s.table.id ∧
      (s.withValue x v).table.compiled = s.table.compiled := ⟨rfl, rfl⟩
  refine h.touch hH (fun _ _ => rfl) h.tracked hframe.1 hframe.2 ?keep ?known ?leaf hself
    fun y => mem_stale_withValue
  case keep =>
    intro y w hy hw
    rw [value?_withValue, if_neg fun he => hy he.symm]
    exact hw
  case known =>
    intro y g hg z hz
    rw [value?_withValue]
    split
    · exact ⟨v, rfl⟩
    · exact h.known y g hg z hz
  case leaf =>
    intro y w hg hw
    rw [value?_withValue] at hw
    split at hw
    · obtain rfl := Option.some.inj hw
      exact hv
    · exact h.leaf y w hg hw

/-- **The table of a reachable solver is coherent.** -/
theorem ReachableBy.coherent (hH : HostLibrary.Uniform H)
    (hok : ∀ r s, ok r s → r.AssignsPlain ∧ s.SelfReadersPlain) {s : Solver H}
    (h : ReachableBy ok settings depth s) :
    ∃ origin, Coherent depth origin s.formulas s.table s.stale := by
  refine h.induction (P := fun s => ∃ origin, Coherent depth origin s.formulas s.table s.stale)
    ?empty ?listen ?install ?assign ?pass
  case empty =>
    intro id
    have hnone : ∀ (x : String) (f : Formula), (∅ : Formulas)[x]? ≠ some f := by
      intro x f hf
      cases Std.ExtTreeMap.getElem?_empty.symm.trans hf
    have hreach : ReachableBy ok settings depth (.empty settings id : Solver H) := .empty id
    have hleaf : ∀ x v, (Table.empty id : Table H).value? x = some v → v.IsPlain := by
      intro x v hv
      rw [Table.value?_empty] at hv
      cases hv
    exact ⟨fun _ => .unknown, fun x f hf => absurd hf (hnone x f), hreach.marks,
      fun x f hf => absurd hf (hnone x f), fun x v _ hv => hleaf x v hv, fun _ => trivial,
      fun x f hf => absurd hf (hnone x f), fun x f hf => absurd hf (hnone x f),
      fun x _ f _ _ _ hf => absurd hf (hnone x f)⟩
  case listen => exact fun s ih => ih
  case install =>
    intro s text f ih hparse _ hafter
    obtain ⟨origin, ih⟩ := ih
    exact coherent_install hH ih hparse (hok _ _ hafter).2
  case assign =>
    intro s x v ih _ hafter
    obtain ⟨origin, ih⟩ := ih
    exact coherent_withValue hH ih (hok _ _ hafter).1 (hok _ _ hafter).2
  case pass =>
    intro s tables x ih
    obtain ⟨origin, ih⟩ := ih
    exact ⟨origin, ((Pass.Sound.start ih).progress hH (Pass.refresh_progress _ _ _ _).1).coherent⟩

end Solver

end Recalc

import Recalc.Proofs.Correspondence

/-!
# What a call depends on

A call of a compiled function reads the table of the function. There it may find other functions,
call them and so read their tables, and it may call functions that are among its arguments. The
tables that it can come to in this way are those that are reached from the callable and the
arguments, by functions stored in tables.

**A call depends on nothing but these tables**: whatever is different in others, or whether they are
there at all, it comes out the same.
-/

namespace Recalc

variable {H : Type}

/-- A function compiled on the table is among the values. -/
def Mentioned (vs : List (Value H)) (id : TableId) : Prop :=
  ∃ g, .callable (.compiled g) ∈ vs ∧ g.table = id

/-- The tables of the functions among the values, of the functions stored there, and so on. -/
inductive Tables.Reaches (tables : Tables H) (vs : List (Value H)) : TableId → Prop where
  | mentioned {id : TableId} : Mentioned vs id → Reaches tables vs id
  | stored {id : TableId} {t : Table H} {x : String} {g : CompiledFunction} :
      Reaches tables vs id → tables id = some t →
      t.value? x = some (.callable (.compiled g)) → Reaches tables vs g.table

/-- A table of this identity is in both or in neither, and holds the same. -/
def Tables.SameAt (tables tables' : Tables H) (id : TableId) : Prop :=
  Option.Rel (fun t t' : Table H => ∀ x, t.value? x = t'.value? x) (tables id) (tables' id)

/-- A function is related to itself, if its table is reached. -/
def SelfReached (tables : Tables H) (vs : List (Value H)) (f g : CompiledFunction) : Prop :=
  f = g ∧ tables.Reaches vs f.table

variable {tables tables' : Tables H} {vs : List (Value H)}

theorem SelfReached.matching : CompiledFunction.Matching (SelfReached tables vs) where
  name h := by rw [h.1]
  params h := by rw [h.1]
  body h := by rw [h.1]
  same h h' := by rw [h.1, h'.1]

/-- A value is related to itself, if the table is reached when it is a compiled function. -/
theorem Value.related_self {v : Value H}
    (h : ∀ g, v = .callable (.compiled g) → tables.Reaches vs g.table) :
    v.Related (SelfReached tables vs) v := by
  match v with
  | .number x => exact .number x
  | .callable (.compiled g) => exact .callable (.compiled ⟨rfl, h g rfl⟩)
  | .callable (.host f) => exact .callable (.host f)

/-- Tables that are the same where they are reached are alike for the functions there. -/
theorem SelfReached.alike (h : ∀ id, tables.Reaches vs id → tables.SameAt tables' id) :
    Tables.AlikeUnder (SelfReached tables vs) tables tables' := by
  rintro f g ⟨rfl, hreach⟩
  have hsame := h _ hreach
  rw [Tables.SameAt] at hsame
  generalize hf : tables f.table = o at hsame
  generalize tables' f.table = o' at hsame
  cases hsame with
  | none => exact .none
  | @some t t' hcells =>
    refine .some ?_
    intro x _ _
    rw [← hcells x]
    cases hv : t.value? x with
    | none => exact .none
    | some v => exact .some (Value.related_self fun g hg => .stored hreach hf (hg ▸ hv))

variable [HostLibrary H]

/-- **A call comes out the same over tables that are the same where it can come to.** -/
theorem Callable.invoke_eq_of_sameAt (hH : HostLibrary.Uniform H) (c : Callable H)
    (args : List (Value H))
    (h : ∀ id, tables.Reaches (.callable c :: args) id → tables.SameAt tables' id) (depth : Nat) :
    invoke tables' depth c args = invoke tables depth c args := by
  have hself : ∀ v ∈ Value.callable c :: args,
      v.Related (SelfReached tables (.callable c :: args)) v := by
    intro v hv
    exact Value.related_self fun g hg => .mentioned ⟨g, hg ▸ hv, rfl⟩
  have hargs : List.Forall₂ (Value.Related (SelfReached tables (.callable c :: args))) args args :=
    List.forall₂_same.2 fun v hv => hself v (List.mem_cons_of_mem _ hv)
  have hc : c.Related (SelfReached tables (.callable c :: args)) c := by
    cases hself _ List.mem_cons_self with
    | callable hc => exact hc
  have hout := invoke_related_of_alike hH SelfReached.matching (SelfReached.alike h) depth c c
    args args hc hargs
  exact (hout.eq fun v w hvw => hvw.eq fun f g hfg => hfg.1).symm

end Recalc

import Recalc.Equality
import Recalc.Proofs.Staleness

/-!
# Histories

Some statements are about all that happened between two points in the life of a solver: what was
asked in which order, and what was answered. A `Run` leads from one solver to another and keeps
these exchanges, the oldest first. As for reachable solvers, listeners may be registered and other
tables may change in between.

An exchange is a change if it defined or assigned a symbol and was accepted. For what is stale
there is nothing else to tell: a change makes its symbol and all that reaches it stale, and no other
exchange makes any symbol stale.
-/

namespace Recalc

namespace Solver

variable {H : Type}

/-- The symbol that a request asks to define or to assign. -/
def Request.target? : Request H → Option String
  | .define text =>
    match Formula.parse text with
    | .ok f => some f.target
    | .error _ => none
  | .assign x _ => some x
  | .solve _ => none

/-- A request and the reply to it. -/
structure Exchange (H : Type) where
  request : Request H
  reply : Reply H (Option (Value H))

/-- The symbol that was defined or assigned, if that was asked for and done. -/
def Exchange.change? (e : Exchange H) : Option String :=
  match e.reply.answer with
  | .value _ => e.request.target?
  | .error _ | .exhausted => none

/-- The value that was assigned, if that was asked for and done. -/
def Exchange.assigned? (e : Exchange H) : Option (Value H) :=
  match e.request, e.reply.answer with
  | .assign _ v, .value _ => some v
  | _, _ => none

/-- The value that was answered with. -/
def Exchange.answered? (e : Exchange H) : Option (Value H) :=
  match e.reply.answer with
  | .value v? => v?
  | .error _ | .exhausted => none

theorem Exchange.eq_value_of_answered {r : Request H} {s : Solver H} {events : List Event}
    {o : Outcome SolverError (Value H)} {v : Value H}
    (h : v ∈ answered? ⟨r, ⟨s, events, o.map some⟩⟩) : o = .value v := by
  cases o with
  | value w => exact congrArg Outcome.value (Option.some.inj h)
  | error e => cases h
  | exhausted => cases h

/-- The value is what one of the exchanges answered with. -/
def Answered (log : List (Exchange H)) (v : Value H) : Prop := ∃ e ∈ log, v ∈ e.answered?

instance [DecidableEq H] (log : List (Exchange H)) (v : Value H) : Decidable (Answered log v) :=
  inferInstanceAs (Decidable (∃ e ∈ log, v ∈ e.answered?))

/-- A value that was assigned is in `P`, given the exchanges before. -/
def AssignsFrom (P : List (Exchange H) → Value H → Prop) :
    List (Exchange H) → List (Exchange H) → Prop
  | _, [] => True
  | before, e :: log => (∀ v ∈ e.assigned?, P before v) ∧ AssignsFrom P (before ++ [e]) log

instance AssignsFrom.decidable {P : List (Exchange H) → Value H → Prop}
    [∀ before, DecidablePred (P before)] :
    (before log : List (Exchange H)) → Decidable (AssignsFrom P before log)
  | _, [] => inferInstanceAs (Decidable True)
  | before, e :: log =>
    have := AssignsFrom.decidable (P := P) (before ++ [e]) log
    inferInstanceAs (Decidable (_ ∧ _))

theorem AssignsFrom.append_singleton {P : List (Exchange H) → Value H → Prop}
    {before log : List (Exchange H)} {e : Exchange H} (h : AssignsFrom P before (log ++ [e])) :
    AssignsFrom P before log ∧ ∀ v ∈ e.assigned?, P (before ++ log) v := by
  induction log generalizing before with
  | nil => exact ⟨trivial, by simpa using h.1⟩
  | cons d log ih =>
    obtain ⟨hrest, hlast⟩ := ih h.2
    refine ⟨⟨h.1, hrest⟩, ?_⟩
    rwa [List.append_assoc] at hlast

theorem value?_of_read {s : Solver H} {x : String} {v : Value H} (h : s.read x = .value v) :
    s.table.value? x = some v := by
  rw [read] at h
  split at h
  · next hw => cases h; exact hw
  · cases h

theorem Exchange.change?_solve (x : String) (reply : Reply H (Option (Value H))) :
    Exchange.change? ⟨.solve x, reply⟩ = none := by
  rw [change?]
  split <;> rfl

variable [HostLibrary H]

/-- The exchanges that a list of requests makes. -/
def exchanges (tables : Tables H) (depth : Nat) (s : Solver H) :
    List (Request H) → List (Exchange H)
  | [] => []
  | r :: rs => ⟨r, s.perform tables depth r⟩ ::
      exchanges tables depth (s.perform tables depth r).solver rs

/-- The exchanges on the way from one solver to another. -/
inductive Run (depth : Nat) (s : Solver H) : List (Exchange H) → Solver H → Prop where
  | nil : Run depth s [] s
  | listen {log : List (Exchange H)} {s' : Solver H} :
      Run depth s log s' → Run depth s log s'.listen
  | perform {log : List (Exchange H)} {s' : Solver H} (tables : Tables H) (r : Request H) :
      Run depth s log s' →
      Run depth s (log ++ [⟨r, s'.perform tables depth r⟩]) (s'.perform tables depth r).solver

variable {settings : Settings} {depth : Nat}

theorem Run.trans {s s' s'' : Solver H} {log log' : List (Exchange H)} (h : Run depth s log s')
    (h' : Run depth s' log' s'') : Run depth s (log ++ log') s'' := by
  induction h' with
  | nil => rwa [List.append_nil]
  | listen _ ih => exact .listen ih
  | perform tables r _ ih =>
    rw [← List.append_assoc]
    exact .perform tables r ih

theorem Run.reachable {s s' : Solver H} {log : List (Exchange H)} (h : Run depth s log s')
    (hs : Reachable settings depth s) : Reachable settings depth s' := by
  induction h with
  | nil => exact hs
  | listen _ ih => exact .listen ih
  | perform tables r _ ih => exact .perform tables r ih trivial

theorem Run.reachable_of_empty {id : TableId} {s : Solver H} {log : List (Exchange H)}
    (h : Run depth (.empty settings id) log s) : Reachable settings depth s :=
  h.reachable (.empty id)

/-- A list of requests makes a run. -/
theorem Run.exchanges (tables : Tables H) (rs : List (Request H)) (s : Solver H) :
    Run depth s (s.exchanges tables depth rs) (s.performAll tables depth rs) := by
  induction rs generalizing s with
  | nil => exact .nil
  | cons r rs ih => exact (Run.nil.perform tables r).trans (ih _)

/-- What a solver answers with is in its table afterwards. -/
theorem Performs.value?_of_answered {tables : Tables H} {s : Solver H} {r : Request H}
    {reply : Reply H (Option (Value H))} (h : Performs tables depth s r reply) {v : Value H}
    (hv : v ∈ Exchange.answered? ⟨r, reply⟩) : ∃ x, reply.solver.table.value? x = some v := by
  cases h with
  | @passed x =>
    replace hv := Exchange.eq_value_of_answered hv
    cases hpass : (s.pass tables depth x).2 with
    | value u =>
      rw [hpass] at hv
      exact ⟨x, value?_of_read hv⟩
    | error e => rw [hpass] at hv; cases hv
    | exhausted => rw [hpass] at hv; cases hv
  | @read x => exact ⟨x, value?_of_read (Exchange.eq_value_of_answered hv)⟩
  | installed | notInstalled | assigned | notAssigned => cases hv

/-! ## Changes -/

variable {tables : Tables H} {s : Solver H} {r : Request H} {reply : Reply H (Option (Value H))}

/-- A change concerns the formula of its symbol only, and makes the symbol and all that reaches it
stale. -/
theorem Performs.of_change {m : String} (h : Performs tables depth s r reply)
    (hm : Exchange.change? ⟨r, reply⟩ = some m) :
    (∀ y, y ≠ m → reply.solver.formulas[y]? = s.formulas[y]?) ∧
      ∀ y, y ∈ reply.solver.stale ↔ y = m ∨ reply.solver.formulas.Reaches y m ∨ y ∈ s.stale := by
  cases h with
  | installed hf hc =>
    simp only [Exchange.change?, Request.target?, hf, Option.some.injEq] at hm
    subst hm
    exact ⟨fun y hy => Formulas.getElem?_insert_ne hy, fun y => mem_stale_install⟩
  | notInstalled => cases hm
  | assigned v hx =>
    cases hm
    exact ⟨fun _ _ => rfl, fun y => mem_stale_withValue⟩
  | notAssigned => cases hm
  | passed | read =>
    rw [Exchange.change?_solve] at hm
    cases hm

/-- What is no change leaves the formulas alone and makes nothing stale. -/
theorem Performs.of_no_change (h : Performs tables depth s r reply)
    (hm : Exchange.change? ⟨r, reply⟩ = none) :
    reply.solver.formulas = s.formulas ∧ ∀ y, y ∈ reply.solver.stale → y ∈ s.stale := by
  cases h with
  | installed hf hc => simp [Exchange.change?, Request.target?, hf] at hm
  | notInstalled => exact ⟨rfl, fun _ hy => hy⟩
  | assigned => cases hm
  | notAssigned => exact ⟨rfl, fun _ hy => hy⟩
  | @passed x =>
    exact ⟨rfl, fun y hy => (s.pass_progress tables depth x).stale_subset hy⟩
  | read => exact ⟨rfl, fun _ hy => hy⟩

end Solver

end Recalc

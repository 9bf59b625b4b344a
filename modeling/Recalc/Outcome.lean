/-!
# Outcomes

An evaluation ends with a value or with an error, or it is given up because calls were nested
deeper than it was allowed to go. Giving up is no error of the program evaluated: no function
can catch it, and a larger allowance may turn it into a value or an error.
-/

namespace Recalc

/-- How an evaluation ends. -/
inductive Outcome (ε α : Type) where
  | value (a : α)
  | error (e : ε)
  /-- Calls were nested too deeply. -/
  | exhausted
  deriving DecidableEq, Repr

namespace Outcome

variable {ε ε' α β : Type}

/-- Go on with a value, and stop at anything else. -/
def bind (x : Outcome ε α) (f : α → Outcome ε β) : Outcome ε β :=
  match x with
  | value a => f a
  | error e => error e
  | exhausted => exhausted

instance : Monad (Outcome ε) where
  pure := value
  bind := bind

@[simp] theorem pure_eq (a : α) : (pure a : Outcome ε α) = value a := rfl

@[simp] theorem value_bind (a : α) (f : α → Outcome ε β) : (value a >>= f) = f a := rfl

@[simp] theorem error_bind (e : ε) (f : α → Outcome ε β) : (error e >>= f) = error e := rfl

@[simp] theorem exhausted_bind (f : α → Outcome ε β) :
    ((exhausted : Outcome ε α) >>= f) = exhausted := rfl

instance : LawfulMonad (Outcome ε) := .mk' (Outcome ε)
  (fun x => by cases x <;> rfl)
  (fun _ _ => rfl)
  (fun x _ _ => by cases x <;> rfl)

/-- The same outcome with its value changed. -/
def map (f : α → β) (x : Outcome ε α) : Outcome ε β := x.bind fun a => value (f a)

/-- A result that needed no calls. -/
def ofExcept : Except ε α → Outcome ε α
  | .ok a => value a
  | .error e => error e

/-- The same outcome with its error told in other terms. -/
def mapError (f : ε → ε') : Outcome ε α → Outcome ε' α
  | value a => value a
  | error e => error (f e)
  | exhausted => exhausted

end Outcome

end Recalc

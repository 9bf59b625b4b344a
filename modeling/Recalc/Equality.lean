import Recalc.Error
import Recalc.Formula
import Recalc.Value

/-!
# Equality that can be computed

Expressions are equal when they are built alike from equal numbers and names. So the equality of
formulas, and that of values over a type of codes that has one, can be computed too. It tells two
functions compiled from one formula apart, and it takes an unknown value for equal to itself; the
equality that formulas and hosts see is `Value.equals`.
-/

namespace Recalc

mutual

def Expr.decEq : (a b : Expr) → Decidable (a = b)
  | .number x, b =>
    match b with
    | .number y => decidable_of_iff (x = y) (by simp)
    | .name _ | .binary _ _ _ | .signed _ _ | .call _ _ => isFalse (by simp)
  | .name x, b =>
    match b with
    | .name y => decidable_of_iff (x = y) (by simp)
    | .number _ | .binary _ _ _ | .signed _ _ | .call _ _ => isFalse (by simp)
  | .binary op l r, b =>
    match b with
    | .binary op' l' r' =>
      have := decEq l l'
      have := decEq r r'
      decidable_of_iff (op = op' ∧ l = l' ∧ r = r') (by simp)
    | .number _ | .name _ | .signed _ _ | .call _ _ => isFalse (by simp)
  | .signed sign e, b =>
    match b with
    | .signed sign' e' =>
      have := decEq e e'
      decidable_of_iff (sign = sign' ∧ e = e') (by simp)
    | .number _ | .name _ | .binary _ _ _ | .call _ _ => isFalse (by simp)
  | .call x es, b =>
    match b with
    | .call y es' =>
      have := decEqAll es es'
      decidable_of_iff (x = y ∧ es = es') (by simp)
    | .number _ | .name _ | .binary _ _ _ | .signed _ _ => isFalse (by simp)

def Expr.decEqAll : (as bs : List Expr) → Decidable (as = bs)
  | [], [] => isTrue rfl
  | [], _ :: _ => isFalse (by simp)
  | _ :: _, [] => isFalse (by simp)
  | a :: as, b :: bs =>
    have := decEq a b
    have := decEqAll as bs
    decidable_of_iff (a = b ∧ as = bs) (by simp)

end

instance : DecidableEq Expr := Expr.decEq

deriving instance DecidableEq for Formula
deriving instance DecidableEq for CompiledFunction
deriving instance DecidableEq for HostFunction
deriving instance DecidableEq for Callable
deriving instance DecidableEq for Value
deriving instance DecidableEq for Token
deriving instance DecidableEq for ParseError
deriving instance DecidableEq for EvalError
deriving instance DecidableEq for SolverError

end Recalc

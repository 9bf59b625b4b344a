import Recalc.Value

/-!
# Standard host functions

Six functions that a host may lend to formulas. Two of them fold numbers, two look at their
arguments as they are, one refuses, and `apply` shows how a host function calls a callable that
it was given.
-/

namespace Recalc

/-- The codes of the standard host functions. -/
inductive StandardHost where
  /-- The sum of the arguments, from the left. -/
  | sum
  /-- The product of the arguments, from the left. -/
  | product
  /-- The first argument as it is; unknown if there is none. -/
  | first
  /-- The number of arguments. -/
  | count
  /-- Refuse all arguments with a message. -/
  | fail (message : String)
  /-- Call the first argument with the others; the name appears when it cannot be called. -/
  | apply (name : String)
  deriving DecidableEq, Repr

/-- Combine the numbers among values from the left; all values must be numbers. -/
def foldNumbers {H : Type} (operation : String) (f : Float → Float → Float) :
    Float → List (Value H) → Except EvalError (Value H)
  | x, [] => .ok (.number x)
  | x, v :: vs => do foldNumbers operation f (f x (← v.requireNumber operation)) vs

/-- What a standard host function does with its arguments. -/
def StandardHost.act : StandardHost → List (Value StandardHost) → HostAction StandardHost
  | sum, args => .done (foldNumbers "sum" (· + ·) 0 args)
  | product, args => .done (foldNumbers "mul" (· * ·) 1 args)
  | first, args => .done (.ok (args.head?.getD .unknown))
  | count, args => .done (.ok (.number (Float.ofNat args.length)))
  | fail message, _ => .done (.error (.parse (.reported message)))
  | apply _, .callable c :: args => .call c args .done
  | apply name, _ => .done (.error (.notCallable name))

instance : HostLibrary StandardHost := ⟨StandardHost.act⟩

end Recalc

import Recalc.Error
import Recalc.Expr.Basic
import Recalc.Number.Text

/-!
# Values

A value is a number or a callable, and a callable is either compiled from a formula or a
function of the host. The number that is no number stands for a value not known yet.

A compiled function refers to the table it was compiled on by the table's identity and holds
no part of it; what it reads is decided when it is called. A host function is known by a code
of the type `H`, so that values are plain data. What the codes do is told by a `HostLibrary`:
given its arguments, a function ends, or calls a callable and goes on with the result.

Numbers are compared as doubles are, so an unknown value differs from itself. Callables are
compared by identity: each one compiled or made has a serial number of its own.
-/

namespace Recalc

/-- The identity of a table. -/
abbrev TableId := Nat

/-- A function compiled from a formula. -/
structure CompiledFunction where
  name : String
  params : List String
  body : Expr
  /-- The table whose symbols the body reads. -/
  table : TableId
  /-- Which of the functions compiled on the table this is. -/
  serial : Nat

/-- A function of the host. -/
structure HostFunction (H : Type) where
  name : String
  /-- The number of arguments, if it is fixed. -/
  arity? : Option Nat
  code : H
  /-- Which of the host functions made this is. -/
  serial : Nat

/-- What a name can be called through. -/
inductive Callable (H : Type) where
  | compiled (f : CompiledFunction)
  | host (f : HostFunction H)

/-- What a symbol holds. -/
inductive Value (H : Type) where
  | number (x : Float)
  | callable (c : Callable H)

namespace Callable

variable {H : Type}

def name : Callable H → String
  | compiled f => f.name
  | host f => f.name

/-- The number of arguments, if it is fixed. -/
def arity? : Callable H → Option Nat
  | compiled f => some f.params.length
  | host f => f.arity?

/-- Whether two callables are one and the same. -/
def same : Callable H → Callable H → Bool
  | compiled f, compiled g => f.table == g.table && f.serial == g.serial
  | host f, host g => f.serial == g.serial
  | _, _ => false

/-- The name and the number of arguments, in angle brackets. -/
def text (c : Callable H) : String :=
  match c.arity? with
  | some n => "<" ++ c.name ++ "/" ++ toString n ++ ">"
  | none => "<" ++ c.name ++ ">"

end Callable

namespace Value

variable {H : Type}

/-- The value of a symbol that has never been computed. -/
def unknown : Value H := number notANumber

/-- Numbers are equal as doubles, callables when they are the same. -/
def equals : Value H → Value H → Bool
  | number x, number y => x == y
  | callable c, callable d => c.same d
  | _, _ => false

def number? : Value H → Option Float
  | number x => some x
  | callable _ => none

def callable? : Value H → Option (Callable H)
  | number _ => none
  | callable c => some c

/-- Whether the value is the number that is no number. -/
def isUnknown : Value H → Bool
  | number x => x.isNaN
  | callable _ => false

/-- The number, for an operation that needs one. -/
def requireNumber (operation : String) : Value H → Except EvalError Float
  | number x => .ok x
  | callable _ => .error (.notNumber operation)

/-- The kind of a value. -/
def kind : Value H → String
  | number _ => "number"
  | callable _ => "callable"

/-- The value as it is shown. -/
def text : Value H → String
  | number x => numberText x
  | callable c => c.text

/-- The value with its kind in front. -/
def taggedText : Value H → String
  | number x => "Number(" ++ numberText x ++ ")"
  | callable c => "Callable(" ++ c.name ++ ")"

end Value

/-! ## Host functions -/

/-- What a host function does next. -/
inductive HostAction (H : Type) where
  /-- End with a result. -/
  | done (result : Except EvalError (Value H))
  /-- Call `callee` and go on with what comes of it. -/
  | call (callee : Callable H) (args : List (Value H))
      (resume : Except EvalError (Value H) → HostAction H)

/--
The behaviour of the host functions with codes in `H`.

Code and arguments tell all that a function does. So host functions have no state of their own and
write to no table, they own no handle of a table, and a callable that they make is one and the same
at each call. A code may hold compiled functions, and these know their tables by identity only.
-/
class HostLibrary (H : Type) where
  /-- What the function with this code does with these arguments. -/
  act : H → List (Value H) → HostAction H

end Recalc

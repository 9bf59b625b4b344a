import Recalc.Number.Text

/-!
# Body expressions

The right side of a formula is a tree of numbers, names, signs, the four operations and calls
of named callables. `Expr.references` tells whether a name occurs in a tree, as a value or as
the callee of a call.
-/

namespace Recalc

/-- The operations with two operands. -/
inductive BinaryOp where
  | add
  | sub
  | mul
  | div
  deriving DecidableEq, Repr

/-- The signs. -/
inductive Sign where
  | plus
  | minus
  deriving DecidableEq, Repr

/-- How an operation is written. -/
def BinaryOp.symbol : BinaryOp → String
  | .add => "+"
  | .sub => "-"
  | .mul => "*"
  | .div => "/"

/-- How a sign is written. -/
def Sign.symbol : Sign → String
  | .plus => "+"
  | .minus => "-"

/-- The name of a sign, which tells it from the operation written alike. -/
def Sign.word : Sign → String
  | .plus => "pos"
  | .minus => "neg"

/-- A formula body. -/
inductive Expr where
  /-- A literal. -/
  | number (x : Float)
  /-- The value of a symbol or of a parameter. -/
  | name (x : String)
  | binary (op : BinaryOp) (left right : Expr)
  | signed (sign : Sign) (operand : Expr)
  /-- A call of the callable that a name holds. -/
  | call (callee : String) (args : List Expr)

namespace Expr

mutual

/-- Whether a name occurs in the expression. -/
def references (x : String) : Expr → Bool
  | number _ => false
  | name y => y == x
  | binary _ left right => left.references x || right.references x
  | signed _ operand => operand.references x
  | call callee args => callee == x || anyReferences x args

/-- Whether a name occurs in one of the expressions. -/
def anyReferences (x : String) : List Expr → Bool
  | [] => false
  | e :: es => e.references x || anyReferences x es

end

mutual

/-- The tree on one line, every operation in front of its operands and in parentheses. -/
def outline : Expr → String
  | number x => "#" ++ numberText x
  | name x => x
  | binary op left right => "(" ++ op.symbol ++ " " ++ left.outline ++ " " ++ right.outline ++ ")"
  | signed sign operand => "(" ++ sign.word ++ " " ++ operand.outline ++ ")"
  | call callee args => "(call " ++ callee ++ outlineAll args ++ ")"

/-- The outlines of arguments, each after a space. -/
def outlineAll : List Expr → String
  | [] => ""
  | e :: es => " " ++ e.outline ++ outlineAll es

end

end Expr

end Recalc

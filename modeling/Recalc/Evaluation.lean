import Recalc.Formula
import Recalc.Outcome
import Recalc.Table

/-!
# Evaluation

A body is evaluated in a scope: local names, which are the parameters of a function, and behind
them the symbols of a table. Operands are evaluated from left to right, and each is required to
be a number before the next is looked at.

A call is bounded by the depth to which calls may be nested. A compiled function evaluates its
body over the table it was compiled on as that table is at the time of the call, with its
parameters as the only local names. The number of arguments is checked before anything else.
-/

namespace Recalc

/-- The operation on doubles. -/
def BinaryOp.apply : BinaryOp → Float → Float → Float
  | .add, x, y => x + y
  | .sub, x, y => x - y
  | .mul, x, y => x * y
  | .div, x, y => x / y

/-- The sign in front of a double. -/
def Sign.apply : Sign → Float → Float
  | .plus, x => x
  | .minus, x => -x

/-- The names that a body can refer to. -/
structure Scope (H : Type) where
  /-- Parameters and their values; the first of two with one name counts. -/
  locals : List (String × Value H)
  table : Table H

/-- The value of a name, local names first. -/
def Scope.lookup? {H : Type} (s : Scope H) (name : String) : Option (Value H) :=
  match s.locals.lookup name with
  | some v => some v
  | none => s.table.value? name

/-- The value of a name. -/
def Scope.lookup {H : Type} (s : Scope H) (name : String) : Outcome EvalError (Value H) :=
  match s.lookup? name with
  | some v => .value v
  | none => .error (.unresolved name)

/-- How a callable with arguments comes out. -/
abbrev Caller (H : Type) : Type := Callable H → List (Value H) → Outcome EvalError (Value H)

namespace Expr

variable {H : Type}

mutual

/-- Evaluate an expression, given how calls come out. -/
def evalWith (caller : Caller H) (scope : Scope H) : Expr → Outcome EvalError (Value H)
  | number x => .value (.number x)
  | name x => scope.lookup x
  | binary op left right => do
    let l ← evalWith caller scope left
    let x ← .ofExcept (l.requireNumber op.symbol)
    let r ← evalWith caller scope right
    let y ← .ofExcept (r.requireNumber op.symbol)
    return .number (op.apply x y)
  | signed sign operand => do
    let v ← evalWith caller scope operand
    let x ← .ofExcept (v.requireNumber sign.symbol)
    return .number (sign.apply x)
  | call callee args => do
    match ← scope.lookup callee with
    | .number _ => .error (.notCallable callee)
    | .callable c =>
      let values ← evalAllWith caller scope args
      caller c values

/-- Evaluate expressions from left to right. -/
def evalAllWith (caller : Caller H) (scope : Scope H) :
    List Expr → Outcome EvalError (List (Value H))
  | [] => .value []
  | e :: es => do
    let v ← evalWith caller scope e
    let vs ← evalAllWith caller scope es
    return v :: vs

end

end Expr

/-- Carry a host function out, given how calls come out. -/
def HostAction.run {H : Type} (caller : Caller H) : HostAction H → Outcome EvalError (Value H)
  | done result => .ofExcept result
  | call callee args resume =>
    match caller callee args with
    | .value v => run caller (resume (.ok v))
    | .error e => run caller (resume (.error e))
    | .exhausted => .exhausted

namespace Callable

variable {H : Type}

/-- Whether a callable takes this many arguments. -/
def takes (c : Callable H) (count : Nat) : Except EvalError Unit :=
  match c.arity? with
  | none => .ok ()
  | some n => if count = n then .ok () else .error (.argumentCount c.name n count)

/-- Call a callable, with calls nested at most as deep as `depth`. -/
def invoke [HostLibrary H] (tables : Tables H) : Nat → Caller H
  | depth, c, args => do
    .ofExcept (c.takes args.length)
    match c with
    | .compiled f =>
      match tables f.table with
      | none => .error (.detached f.name)
      | some table =>
        match depth with
        | 0 => .exhausted
        | depth + 1 => f.body.evalWith (invoke tables depth) ⟨f.params.zip args, table⟩
    | .host f =>
      match depth with
      | 0 => .exhausted
      | depth + 1 => (HostLibrary.act f.code args).run (invoke tables depth)

end Callable

/-- Evaluate an expression, with calls nested at most as deep as `depth`. -/
def Expr.eval {H : Type} [HostLibrary H] (tables : Tables H) (depth : Nat) (scope : Scope H)
    (e : Expr) : Outcome EvalError (Value H) :=
  e.evalWith (Callable.invoke tables depth) scope

namespace Formula

variable {H : Type}

/-- The function that a formula defines, compiled on a table under a serial number. -/
def compile (f : Formula) (table : TableId) (serial : Nat) : CompiledFunction :=
  ⟨f.target, f.params, f.body, table, serial⟩

/--
Give the target of a formula its value in a table. A formula for a function always makes a new
function. A formula for a value is evaluated over the table; if that fails, nothing changes.
-/
def assignIn [HostLibrary H] (tables : Tables H) (depth : Nat) (f : Formula) (t : Table H) :
    Outcome EvalError (Table H) :=
  if f.isFunction then
    let (serial, t') := t.nextSerial
    .value (t'.set f.target (.callable (.compiled (f.compile t.id serial))))
  else do
    let v ← f.body.eval (tables.put t) depth ⟨[], t⟩
    return t.set f.target v

end Formula

end Recalc

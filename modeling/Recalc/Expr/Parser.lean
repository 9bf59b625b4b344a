import Recalc.Error
import Recalc.Expr.Basic
import Recalc.Token.Lexeme

/-!
# Reading a body

The language has four levels. A sum is made of products, a product of signed operands, and a
signed operand is a primary behind any number of signs; sums and products group to the left.
A primary is a number, a name, a call, or a sum in parentheses.

Each level is a function from the tokens to an expression and the tokens behind it. The
result carries the fact that fewer tokens are left, so the recursion ends: going down a level
keeps the tokens, and coming back to the top has taken at least a parenthesis.
-/

namespace Recalc

/-- Something read at the front of `ts`, and what is left, which is less. -/
structure Parsed (α : Type) (ts : List Token) where
  value : α
  rest : List Token
  shorter : rest.length < ts.length

/-- Something read at the front of `ts`, perhaps from no token at all. -/
structure ParsedTail (α : Type) (ts : List Token) where
  value : α
  rest : List Token
  noLonger : rest.length ≤ ts.length

/-- Read the parenthesis that closes what came before. -/
def parseClosing : (ts : List Token) → Except ParseError (Parsed Unit ts)
  | .closing :: ts => return ⟨(), ts, by simp only [List.length_cons]; omega⟩
  | ts => throw (.unclosed ts.head?)

/-- The operation of a sum that a token stands for. -/
def Token.sumOp? : Token → Option BinaryOp
  | .plus => some .add
  | .minus => some .sub
  | _ => none

/-- The operation of a product that a token stands for. -/
def Token.productOp? : Token → Option BinaryOp
  | .star => some .mul
  | .slash => some .div
  | _ => none

/-- The sign that a token stands for. -/
def Token.sign? : Token → Option Sign
  | .plus => some .plus
  | .minus => some .minus
  | _ => none

mutual

/-- Read a sum. -/
def parseSum (ts : List Token) : Except ParseError (Parsed Expr ts) := do
  let first ← parseProduct ts
  let sum ← parseSumTail first.value first.rest
  return ⟨sum.value, sum.rest, Nat.lt_of_le_of_lt sum.noLonger first.shorter⟩
termination_by 6 * ts.length + 5
decreasing_by
  · omega
  · have := first.shorter; omega

/-- Read what is added to `left` and subtracted from it. -/
def parseSumTail (left : Expr) (ts : List Token) : Except ParseError (ParsedTail Expr ts) :=
  match ts with
  | [] => return ⟨left, [], Nat.le_refl _⟩
  | t :: ts =>
    match t.sumOp? with
    | none => return ⟨left, t :: ts, Nat.le_refl _⟩
    | some op => do
      let right ← parseProduct ts
      let sum ← parseSumTail (.binary op left right.value) right.rest
      return ⟨sum.value, sum.rest, by
        have := right.shorter; have := sum.noLonger; simp only [List.length_cons]; omega⟩
termination_by 6 * ts.length + 4
decreasing_by
  · simp only [List.length_cons]; omega
  · have := right.shorter; simp only [List.length_cons]; omega

/-- Read a product. -/
def parseProduct (ts : List Token) : Except ParseError (Parsed Expr ts) := do
  let first ← parseSigned ts
  let product ← parseProductTail first.value first.rest
  return ⟨product.value, product.rest, Nat.lt_of_le_of_lt product.noLonger first.shorter⟩
termination_by 6 * ts.length + 4
decreasing_by
  · omega
  · have := first.shorter; omega

/-- Read what multiplies `left` and divides it. -/
def parseProductTail (left : Expr) (ts : List Token) : Except ParseError (ParsedTail Expr ts) :=
  match ts with
  | [] => return ⟨left, [], Nat.le_refl _⟩
  | t :: ts =>
    match t.productOp? with
    | none => return ⟨left, t :: ts, Nat.le_refl _⟩
    | some op => do
      let right ← parseSigned ts
      let product ← parseProductTail (.binary op left right.value) right.rest
      return ⟨product.value, product.rest, by
        have := right.shorter; have := product.noLonger; simp only [List.length_cons]; omega⟩
termination_by 6 * ts.length + 3
decreasing_by
  · simp only [List.length_cons]; omega
  · have := right.shorter; simp only [List.length_cons]; omega

/-- Read a primary behind any number of signs. -/
def parseSigned (ts : List Token) : Except ParseError (Parsed Expr ts) :=
  match ts with
  | [] => throw (.unexpected none)
  | t :: ts =>
    match t.sign? with
    | none => parsePrimary t ts
    | some sign => do
      let operand ← parseSigned ts
      return ⟨.signed sign operand.value, operand.rest, by
        have := operand.shorter; simp only [List.length_cons]; omega⟩
termination_by 6 * ts.length + 3

/-- Read a primary that begins with the token `t`. -/
def parsePrimary (t : Token) (ts : List Token) : Except ParseError (Parsed Expr (t :: ts)) :=
  match t with
  | .number x => return ⟨.number x, ts, by simp only [List.length_cons]; omega⟩
  | .name x =>
    match ts with
    | .opening :: ts => do
      let args ← parseArgs ts
      return ⟨.call x args.value, args.rest, by
        have := args.shorter; simp only [List.length_cons]; omega⟩
    | ts => return ⟨.name x, ts, by simp only [List.length_cons]; omega⟩
  | .opening => do
    let inner ← parseSum ts
    let close ← parseClosing inner.rest
    return ⟨inner.value, close.rest, by
      have := inner.shorter; have := close.shorter; simp only [List.length_cons]; omega⟩
  | t => throw (.unexpected (some t))
termination_by 6 * ts.length + 6

/-- Read the arguments of a call and the parenthesis that closes them. -/
def parseArgs (ts : List Token) : Except ParseError (Parsed (List Expr) ts) :=
  match ts with
  | .closing :: ts => return ⟨[], ts, by simp only [List.length_cons]; omega⟩
  | ts => do
    let first ← parseSum ts
    let others ← parseMoreArgs first.rest
    return ⟨first.value :: others.value, others.rest, by
      have := first.shorter; have := others.shorter; omega⟩
termination_by 6 * ts.length + 6
decreasing_by
  · omega
  · have := first.shorter; omega

/-- Read the arguments after the first and the parenthesis that closes them. -/
def parseMoreArgs (ts : List Token) : Except ParseError (Parsed (List Expr) ts) :=
  match ts with
  | .comma :: ts => do
    let next ← parseSum ts
    let others ← parseMoreArgs next.rest
    return ⟨next.value :: others.value, others.rest, by
      have := next.shorter; have := others.shorter; simp only [List.length_cons]; omega⟩
  | .closing :: ts => return ⟨[], ts, by simp only [List.length_cons]; omega⟩
  | ts => throw (.unclosed ts.head?)
termination_by 6 * ts.length + 6
decreasing_by
  · simp only [List.length_cons]; omega
  · have := next.shorter; simp only [List.length_cons]; omega

end

/-- Read a whole body. -/
def Expr.parse (text : List Char) : Except ParseError Expr := do
  let sum ← parseSum (tokens text)
  match sum.rest with
  | [] => return sum.value
  | t :: _ => throw (.leftover t (String.ofList (trim text)))

end Recalc

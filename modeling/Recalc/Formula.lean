import Recalc.Expr.Parser

/-!
# Formulas

A formula is written `target = body` or `target(p, q) = body`. The first form gives its target
the value of the body, the second makes it a function of the parameters. A formula depends on
the names that occur anywhere in its text, apart from its target and its parameters.

The text is split at its first equal sign. What stands left of it must be the target alone, or
the target and a list of different parameters in parentheses; what stands right of it is the
body.
-/

namespace Recalc

/-- A formula, read from its text. -/
structure Formula where
  /-- The text it was read from. -/
  raw : String
  /-- The name it defines. -/
  target : String
  /-- The parameters of a function, in order; a formula for a value has no such list. -/
  params? : Option (List String)
  /-- The names it depends on, by first occurrence. -/
  dependsOn : List String
  body : Expr

namespace Formula

/-- Whether the formula defines a function. -/
def isFunction (f : Formula) : Bool := f.params?.isSome

/-- The parameters; a formula for a value has none. -/
def params (f : Formula) : List String := f.params?.getD []

/-- Whether the formula defines a function whose body refers to it. -/
def isSelfCalling (f : Formula) : Bool := f.isFunction && f.body.references f.target

/-! ## The two sides -/

/-- The text left of the first equal sign. -/
def leftSide (text : List Char) : List Char := text.takeWhile (· != '=')

/-- The text right of the first equal sign. -/
def rightSide (text : List Char) : List Char := (text.dropWhile (· != '=')).drop 1

/-! ## The left side -/

/-- The pieces between the commas of a text; there is one more of them than commas. -/
def splitCommas : List Char → List (List Char)
  | [] => [[]]
  | c :: cs =>
    if c = ',' then [] :: splitCommas cs
    else
      match splitCommas cs with
      | [] => [[c]]
      | piece :: pieces => (c :: piece) :: pieces

/--
Read the pieces of a parameter list behind the parameters `before`. A piece is a name between
blanks, and not one that the target or an earlier parameter has.
-/
def readParams (left : List Char) (target : String) :
    List String → List (List Char) → Except ParseError (List String)
  | before, [] => .ok before
  | before, piece :: pieces =>
    let name := String.ofList (trim piece)
    if !isName (trim piece) then .error (.badParameter name (String.ofList left))
    else if before.contains name || name == target then
      .error (.repeatedParameter name (String.ofList left))
    else readParams left target (before ++ [name]) pieces

/--
Read the target and the parameters of a left side that has a parenthesis. The list ends with
the last character, and a blank list has no parameters.
-/
def readFunctionHead (left : List Char) : Except ParseError (String × List String) :=
  let target := trim (left.takeWhile (· != '('))
  let behind := (left.dropWhile (· != '(')).drop 1
  if !isName target then .error (.badFunctionName (String.ofList target) (String.ofList left))
  else if behind.getLast? != some ')' then .error (.unclosedParameters (String.ofList left))
  else if behind.dropLast.all isBlank then .ok (String.ofList target, [])
  else (readParams left (String.ofList target) [] (splitCommas behind.dropLast)).map
    (String.ofList target, ·)

/--
Read a left side: the target, and the parameters if there is a list of them. A target without
parameters must be the first name of the whole text.
-/
def readHead (left : List Char) (text firstName : String) :
    Except ParseError (String × Option (List String)) :=
  if left.contains '(' then (readFunctionHead left).map fun head => (head.1, some head.2)
  else if String.ofList left == firstName then .ok (firstName, none)
  else .error (.badTarget (String.ofList left) text)

/-! ## The whole text -/

/-- Read a formula. -/
def parse (raw : String) : Except ParseError Formula :=
  let text := trim raw.toList
  let shown := String.ofList text
  if !text.contains '=' then .error (.noEqualSign shown)
  else if (leftSide text).isEmpty then .error (.noTarget shown)
  else
    match namesIn text with
    | [] => .error (.noSymbol shown)
    | firstName :: otherNames => do
      let (target, params?) ← readHead (trim (leftSide text)) shown firstName
      let hidden := target :: params?.getD []
      let body ← Expr.parse (rightSide text)
      return {
        raw, target, params?, body
        dependsOn := (firstName :: otherNames).filter fun name => !hidden.contains name }

end Formula

end Recalc

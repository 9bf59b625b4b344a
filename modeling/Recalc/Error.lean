import Recalc.Token.Basic

/-!
# What can go wrong

Three kinds of failure, each as a cause with its message: a text that is not a formula, an
evaluation that has no value, and a request that the solver refuses.
-/

namespace Recalc

/-- Why a text is not a formula or not a body. -/
inductive ParseError where
  | noEqualSign (text : String)
  | noTarget (text : String)
  | noSymbol (text : String)
  /-- The left side of a formula is not the name of its target. -/
  | badTarget (left text : String)
  | badFunctionName (name left : String)
  | unclosedParameters (left : String)
  | badParameter (parameter left : String)
  | repeatedParameter (parameter left : String)
  /-- No expression begins here. -/
  | unexpected (found : Option Token)
  /-- A closing parenthesis is due. -/
  | unclosed (found : Option Token)
  /-- The body has a complete expression in front of this token. -/
  | leftover (found : Token) (body : String)
  /-- A host function refused its input in words of its own. -/
  | reported (message : String)

/-- The message of a parse error. -/
def ParseError.message : ParseError → String
  | noEqualSign text => "No equal sign found in formula: " ++ text
  | noTarget text => "Formula has no target before '=': " ++ text
  | noSymbol text => "No symbol found in formula: " ++ text
  | badTarget left text => "Invalid assignment target '" ++ left ++ "' in formula: " ++ text
  | badFunctionName name left => "Invalid macro name '" ++ name ++ "' in '" ++ left ++ "'"
  | unclosedParameters left => "Unclosed parameter list in '" ++ left ++ "'"
  | badParameter parameter left => "Invalid parameter '" ++ parameter ++ "' in '" ++ left ++ "'"
  | repeatedParameter parameter left =>
    "Duplicate parameter '" ++ parameter ++ "' in '" ++ left ++ "'"
  | unexpected found => "Unexpected " ++ Token.phraseNext found
  | unclosed found => "Expected ')', got " ++ Token.phraseNext found
  | leftover found body =>
    "Unexpected " ++ found.phrase ++ " after expression in '" ++ body ++ "'"
  | reported message => message

/-- Why an evaluation has no value. -/
inductive EvalError where
  | parse (cause : ParseError)
  | unresolved (name : String)
  | notCallable (name : String)
  /-- An operation on numbers met a callable. -/
  | notNumber (operation : String)
  | argumentCount (function : String) (expected actual : Nat)
  /-- A callable was called after its table was gone. -/
  | detached (name : String)

/-- The message of an evaluation error. -/
def EvalError.message : EvalError → String
  | parse cause => "Parse error: " ++ cause.message
  | unresolved name => "Unresolved symbol: " ++ name
  | notCallable name => "Symbol is not callable: " ++ name
  | notNumber operation => "Operator '" ++ operation ++ "' expects numbers, got callable"
  | argumentCount function expected actual =>
    "Wrong number of arguments for " ++ function ++ ": expected " ++ toString expected
      ++ ", got " ++ toString actual
  | detached name => "Callable '" ++ name ++ "' outlived its symbol table"

/-- Why a solver refuses a request. -/
inductive SolverError where
  | formula (cause : EvalError)
  | unknown (name : String)
  /-- A value was assigned to a name that a formula defines. -/
  | conflicting (name : String)
  /-- A chain of dependencies leads from a name back to it. -/
  | circular (name : String) (path : List String)

/-- The message of a solver error. -/
def SolverError.message : SolverError → String
  | formula cause => cause.message
  | unknown name => "Symbol not defined: " ++ name
  | conflicting name =>
    "Symbol '" ++ name ++ "' is defined by a formula and cannot be assigned a value"
  | circular name path =>
    "Circular reference detected involving symbol " ++ name ++ ": "
      ++ String.intercalate " -> " path

end Recalc

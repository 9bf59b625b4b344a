import Recalc.Number.Text

/-!
# Tokens

A body is read as a sequence of tokens. A character outside the language is a token of its
own, so cutting a text into tokens never fails, and it is for the parser to refuse it.
-/

namespace Recalc

/-- The units of a body. -/
inductive Token where
  | number (x : Float)
  | name (x : String)
  | plus
  | minus
  | star
  | slash
  | comma
  | opening
  | closing
  /-- A character that belongs to no other token. -/
  | stray (c : Char)

namespace Token

/-- The token that one character makes by itself. -/
def ofChar? : Char → Option Token
  | '+' => some plus
  | '-' => some minus
  | '*' => some star
  | '/' => some slash
  | ',' => some comma
  | '(' => some opening
  | ')' => some closing
  | _ => none

/-- A token as messages name it. -/
def phrase : Token → String
  | number x => "number " ++ numberText x
  | name x => "identifier '" ++ x ++ "'"
  | plus => "'+'"
  | minus => "'-'"
  | star => "'*'"
  | slash => "'/'"
  | comma => "','"
  | opening => "'('"
  | closing => "')'"
  | stray c => "character '" ++ String.singleton c ++ "'"

/-- What stands next in a body, as messages name it: a token, or the end. -/
def phraseNext : Option Token → String
  | some t => t.phrase
  | none => "end of formula"

end Token

end Recalc

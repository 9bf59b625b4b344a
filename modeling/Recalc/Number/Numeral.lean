import Recalc.Number.Decimal

/-!
# Numerals

A numeral is a run of digits, an optional point with an optional run of digits behind it,
and an optional exponent: `e` or `E`, a sign or none, and at least one digit. `Numeral.front`
takes the longest numeral at the front of a text. An `e` without a digit to follow is left
alone: in `2ex` the numeral is `2`.

`readNumber?` reads a whole text as a double. Besides numerals it knows a sign in front, and
the words for infinity and for the value that is not a number.
-/

namespace Recalc

/-- The three parts of a numeral, as they are written. -/
structure Numeral where
  /-- The digits before the point. -/
  whole : List Char
  /-- The point and the digits behind it, or nothing. -/
  fraction : List Char
  /-- The mark, the sign and the digits of the exponent, or nothing. -/
  exponent : List Char
  deriving DecidableEq, Repr

namespace Numeral

/-- A point and the digits behind it, if the text begins with a point. -/
def frontFraction : List Char → List Char
  | '.' :: cs => '.' :: cs.takeWhile Char.isDigit
  | _ => []

/-- The sign in front of a text, if there is one. -/
def frontSign : List Char → List Char
  | '+' :: _ => ['+']
  | '-' :: _ => ['-']
  | _ => []

/-- An exponent, if the text begins with a mark that a digit or a signed digit follows. -/
def frontExponent : List Char → List Char
  | [] => []
  | c :: cs =>
    let sign := frontSign cs
    let digits := (cs.drop sign.length).takeWhile Char.isDigit
    if (c == 'e' || c == 'E') && !digits.isEmpty then c :: (sign ++ digits) else []

/-- The longest numeral at the front of a text. -/
def front (cs : List Char) : Numeral :=
  let whole := cs.takeWhile Char.isDigit
  let afterWhole := cs.drop whole.length
  let fraction := frontFraction afterWhole
  ⟨whole, fraction, frontExponent (afterWhole.drop fraction.length)⟩

/-- The numeral as it is written. -/
def text (n : Numeral) : List Char := n.whole ++ n.fraction ++ n.exponent

/-- A numeral needs a digit before or behind its point. -/
def hasDigit (n : Numeral) : Bool := !n.whole.isEmpty || 1 < n.fraction.length

/-- The power of ten that an exponent names; none names zero. -/
def exponentValue : List Char → Int
  | [] => 0
  | _ :: '-' :: ds => -(digitsValue ds : Int)
  | _ :: '+' :: ds => digitsValue ds
  | _ :: ds => digitsValue ds

/-- The decimal that a numeral denotes. -/
def value (n : Numeral) : Decimal where
  digits := digitsValue (n.whole ++ n.fraction.drop 1)
  exponent := exponentValue n.exponent - (n.fraction.length - 1 : Nat)

/-- Whether a text begins with a numeral: with a digit, or with a point and a digit. -/
def startsAt : List Char → Bool
  | '.' :: c :: _ => c.isDigit
  | c :: _ => c.isDigit
  | [] => false

/-! ## Where a numeral comes from -/

/-- What is taken from the front, and then from the front of the rest, is at the front. -/
theorem append_isPrefix {as bs cs : List Char} (ha : as <+: cs) (hb : bs <+: cs.drop as.length) :
    as ++ bs <+: cs := by
  obtain ⟨rest, rfl⟩ := ha
  rw [List.drop_left] at hb
  exact (List.prefix_append_right_inj as).2 hb

theorem frontFraction_isPrefix (cs : List Char) : frontFraction cs <+: cs := by
  unfold frontFraction
  split
  · exact (List.prefix_cons_inj '.').2 <| List.takeWhile_prefix _
  · exact List.nil_prefix

theorem frontSign_isPrefix (cs : List Char) : frontSign cs <+: cs := by
  unfold frontSign
  split
  · exact ⟨_, rfl⟩
  · exact ⟨_, rfl⟩
  · exact List.nil_prefix

theorem frontExponent_isPrefix (cs : List Char) : frontExponent cs <+: cs := by
  cases cs with
  | nil => exact List.nil_prefix
  | cons c cs =>
    show (if _ then _ else _) <+: _
    split
    · refine (List.prefix_cons_inj c).2 (append_isPrefix (frontSign_isPrefix cs) ?_)
      exact List.takeWhile_prefix _
    · exact List.nil_prefix

/-- A numeral stands at the front of the text it is taken from. -/
theorem text_front_isPrefix (cs : List Char) : (front cs).text <+: cs := by
  unfold front text
  refine append_isPrefix (append_isPrefix ?whole (frontFraction_isPrefix _)) ?exponent
  case whole => exact List.takeWhile_prefix _
  case exponent =>
    rw [List.length_append, ← List.drop_drop]
    exact frontExponent_isPrefix _

/-- A numeral has characters where one starts. -/
theorem text_front_ne_nil {cs : List Char} (h : startsAt cs = true) : (front cs).text ≠ [] := by
  match cs with
  | [] => simp [startsAt] at h
  | c :: cs =>
    by_cases hc : c.isDigit = true
    · simp [front, text, hc]
    · by_cases hp : c = '.'
      · subst hp
        simp [front, text, hc, frontFraction]
      · simp [startsAt, hc, hp] at h

end Numeral

/-! ## Reading a whole text -/

/-- Read a text without a sign. Words are read in any mixture of cases. -/
def readMagnitude? (cs : List Char) : Option Float :=
  let n := Numeral.front cs
  if n.hasDigit && n.text == cs then some n.value.toFloat
  else match String.ofList (cs.map Char.toLower) with
    | "inf" | "infinity" => some (1.0 / 0.0)
    | "nan" => some notANumber
    | _ => none

/-- Read a whole text as a double. -/
def readNumber? : List Char → Option Float
  | '+' :: cs => readMagnitude? cs
  | '-' :: cs => (readMagnitude? cs).map Float.neg
  | cs => readMagnitude? cs

end Recalc

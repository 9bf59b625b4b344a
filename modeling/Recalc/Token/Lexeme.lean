import Recalc.Text.Blank
import Recalc.Text.Name
import Recalc.Number.Numeral
import Recalc.Token.Basic

/-!
# Lexemes

A lexeme is a token together with the characters it was read from and the blanks before it,
so the lexemes of a text and the blanks at its end make up the whole text.

Names and numerals are taken as long as they go. Every lexeme has at least one character of
its own, which is why cutting a text into lexemes ends.
-/

namespace Recalc

/-- A token as it stands in a text. -/
structure Lexeme where
  /-- The blanks before the token. -/
  blanks : List Char
  /-- The characters of the token. -/
  text : List Char
  token : Token

namespace Lexeme

/-- The characters that the token at the front of `c :: cs` takes, for a `c` that is not blank. -/
def frontText (c : Char) (cs : List Char) : List Char :=
  if Numeral.startsAt (c :: cs) then (Numeral.front (c :: cs)).text
  else if isNameStart c then c :: cs.takeWhile isNameChar
  else [c]

/-- The token at the front of `c :: cs`, for a `c` that is not blank. -/
def frontToken (c : Char) (cs : List Char) : Token :=
  if Numeral.startsAt (c :: cs) then
    .number ((readNumber? (Numeral.front (c :: cs)).text).getD notANumber)
  else if isNameStart c then .name (String.ofList (c :: cs.takeWhile isNameChar))
  else (Token.ofChar? c).getD (.stray c)

/-- The first lexeme of a text and what follows it, or `none` if only blanks are left. -/
def next? (s : List Char) : Option (Lexeme × List Char) :=
  match trimLeft s with
  | [] => none
  | c :: cs =>
    let text := frontText c cs
    some (⟨s.takeWhile isBlank, text, frontToken c cs⟩, (c :: cs).drop text.length)

/-! ## Nothing is lost, and something is taken -/

/-- The token at the front of a text takes at least one character. -/
theorem frontText_ne_nil (c : Char) (cs : List Char) : frontText c cs ≠ [] := by
  unfold frontText
  split
  · next h => exact Numeral.text_front_ne_nil h
  · split <;> simp

/-- The token's characters stand at the front of the text. -/
theorem frontText_isPrefix (c : Char) (cs : List Char) : frontText c cs <+: c :: cs := by
  unfold frontText
  split
  · exact Numeral.text_front_isPrefix _
  · split
    · exact (List.prefix_cons_inj c).2 <| List.takeWhile_prefix _
    · exact ⟨cs, rfl⟩

/-- Blanks, characters and rest make up the text. -/
theorem append_rest_of_next? {s rest : List Char} {l : Lexeme} (h : next? s = some (l, rest)) :
    l.blanks ++ l.text ++ rest = s := by
  unfold next? at h
  split at h
  · simp at h
  · next c cs hs =>
    simp only [Option.some.injEq, Prod.mk.injEq] at h
    obtain ⟨rfl, rfl⟩ := h
    rw [List.append_assoc, List.prefix_iff_eq_append.1 (frontText_isPrefix c cs), ← hs]
    exact List.takeWhile_append_dropWhile

/-- There is no lexeme just when only blanks are left. -/
theorem next?_eq_none_iff (s : List Char) : next? s = none ↔ ∀ c ∈ s, isBlank c = true := by
  rw [← trimLeft_eq_nil_iff]
  unfold next?
  split
  · next h => simp [h]
  · next h => simp [h]

/-- A lexeme leaves less text than there was. -/
theorem length_lt_of_next? {s rest : List Char} {l : Lexeme} (h : next? s = some (l, rest)) :
    rest.length < s.length := by
  unfold next? at h
  split at h
  · simp at h
  · next c cs hs =>
    simp only [Option.some.injEq, Prod.mk.injEq] at h
    obtain ⟨-, rfl⟩ := h
    have hpos : 0 < (frontText c cs).length := List.length_pos_iff.2 (frontText_ne_nil c cs)
    have hle : (trimLeft s).length ≤ s.length := (List.dropWhile_sublist _).length_le
    rw [hs] at hle
    simp only [List.length_drop, List.length_cons] at hle ⊢
    omega

end Lexeme

/-- The lexemes of a text, from left to right. -/
def lexemes (s : List Char) : List Lexeme :=
  match _h : Lexeme.next? s with
  | none => []
  | some (l, rest) => l :: lexemes rest
termination_by s.length
decreasing_by exact Lexeme.length_lt_of_next? ‹_›

/-- The tokens of a text, from left to right. -/
def tokens (s : List Char) : List Token := (lexemes s).map Lexeme.token

end Recalc

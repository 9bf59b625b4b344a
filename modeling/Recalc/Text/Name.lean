import Recalc.Text.Word

/-!
# Names

A name is an ASCII letter or underscore followed by ASCII letters, digits and underscores.
`namesIn` collects the names that occur in a text. A name begins only where a word begins:
in `1e3` there is none, since `e` continues the word `1e3`, and in `1.e3` there is the name
`e3`, since the full stop ends the word `1`.
-/

namespace Recalc

/-- The characters a name may begin with. -/
def isNameStart (c : Char) : Bool := c.isAlpha || c == '_'

/-- The characters a name may go on with. -/
def isNameChar (c : Char) : Bool := c.isAlphanum || c == '_'

/-- A text that is one name. -/
def isName : List Char → Bool
  | [] => false
  | c :: cs => isNameStart c && cs.all isNameChar

/--
Every occurrence of a name, from left to right. The flag tells whether the character before
the text is a word character; if it is, the text begins in the middle of a word.
-/
def nameOccurrences : Bool → List Char → List (List Char)
  | _, [] => []
  | inWord, c :: cs =>
    if !inWord && isNameStart c then
      (c :: cs.takeWhile isNameChar) :: nameOccurrences true cs
    else
      nameOccurrences (isWordChar c) cs

/-- The names that occur in a text, each once, by first occurrence. -/
def namesIn (text : List Char) : List String :=
  ((nameOccurrences false text).map String.ofList).eraseDups

/-- Whatever a name may begin with, it may go on with. -/
theorem isNameChar_of_isNameStart {c : Char} (h : isNameStart c = true) :
    isNameChar c = true := by
  unfold isNameChar
  rcases (Bool.or_eq_true _ _).mp h with h | h
  · exact (Bool.or_eq_true _ _).mpr (.inl ((Bool.or_eq_true _ _).mpr (.inl h)))
  · exact (Bool.or_eq_true _ _).mpr (.inr h)

/-- Letters and digits in the sense of names are ASCII. -/
theorem toNat_lt_of_isAlphanum {c : Char} (h : c.isAlphanum = true) : c.toNat < 0x80 := by
  rcases (Bool.or_eq_true _ _).mp h with h | h
  · rcases (Bool.or_eq_true _ _).mp h with h | h
    · exact Nat.lt_of_le_of_lt (of_decide_eq_true h).2 (by decide)
    · exact Nat.lt_of_le_of_lt (of_decide_eq_true ((Bool.and_eq_true _ _).mp h).2) (by decide)
  · exact Nat.lt_of_le_of_lt (of_decide_eq_true ((Bool.and_eq_true _ _).mp h).2) (by decide)

/-- The characters of a name are ASCII. -/
theorem toNat_lt_of_isNameChar {c : Char} (h : isNameChar c = true) : c.toNat < 0x80 := by
  rcases (Bool.or_eq_true _ _).mp h with h | h
  · exact toNat_lt_of_isAlphanum h
  · rw [eq_of_beq h]; decide

/-- The characters of a name are word characters. -/
theorem isWordChar_of_isNameChar {c : Char} (h : isNameChar c = true) :
    isWordChar c = true := by
  unfold isWordChar
  rw [if_pos (toNat_lt_of_isNameChar h)]
  exact h

/-- A name may go on for as long as it can. -/
theorem isName_cons_takeWhile {c : Char} (h : isNameStart c = true) (cs : List Char) :
    isName (c :: cs.takeWhile isNameChar) = true := by
  rw [isName, h, Bool.true_and, List.all_takeWhile]

/-- A name has a first character, which a name may begin with. -/
theorem exists_cons_of_isName {name : List Char} (h : isName name = true) :
    ∃ c cs, name = c :: cs ∧ isNameStart c = true ∧ ∀ d ∈ name, isNameChar d = true := by
  cases name with
  | nil => cases h
  | cons c cs =>
    rw [isName, Bool.and_eq_true, List.all_eq_true] at h
    exact ⟨c, cs, rfl, h.1, List.forall_mem_cons.2 ⟨isNameChar_of_isNameStart h.1, h.2⟩⟩

end Recalc

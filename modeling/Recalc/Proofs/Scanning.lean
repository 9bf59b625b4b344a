import Mathlib.Data.String.Basic
import Recalc.Proofs.Spelling

/-!
# The scanner and its position

A scanner knows the text and a position in it, counted in bytes. It looks at what stands behind the
position, skips the blanks, takes the characters of one token and moves the position behind them.
When only blanks are left, it moves to the end, and there it stays.

**However often it is called, it stands between two characters of the text.** What it took so far is
what stands before its position, and each token moves it on. The characters of a token, sliced from
the text by the positions before and behind them, are as the token is spelled: names and numerals
as long as they go, and a numeral always reads as a number.
-/

namespace Recalc

/-! ## The longest numeral -/

namespace Numeral

/-- **No numeral at the front of a text is longer than the one that is taken.** -/
theorem WellFormed.text_isPrefix_front {n : Numeral} (h : n.WellFormed) (rest : List Char) :
    n.text <+: (front (n.text ++ rest)).text := by
  rcases h.exponent with he | ⟨mark, sign, ds, he, hmark, hsign, hne, hds⟩
  · -- without an exponent the last part of the numeral may go on in what follows
    rw [text, he, List.append_nil]
    refine List.IsPrefix.trans ?_ (List.prefix_append _ _)
    rcases h.fraction with hf | ⟨ds, hf, hds⟩
    · rw [hf, List.append_nil]
      refine List.IsPrefix.trans ?_ (List.prefix_append _ _)
      rw [front, List.takeWhile_append_of_pos h.whole]
      exact List.prefix_append _ _
    · have hpoint : ('.' :: (ds ++ rest)).takeWhile Char.isDigit = [] := rfl
      rw [hf, List.append_assoc, List.cons_append, front, List.takeWhile_append_of_pos h.whole,
        hpoint, List.append_nil, List.drop_left, frontFraction, List.takeWhile_append_of_pos hds,
        ← List.cons_append, ← List.append_assoc]
      exact List.prefix_append _ _
  · have hbehind : ∀ c ∈ (n.exponent ++ rest).head?, c.isDigit = false ∧ c ≠ '.' := by
      refine h.not_digit_behind fun hnil => ?_
      rw [he] at hnil
      cases hnil
    have hfront : front (n.text ++ rest) =
        ⟨n.whole, n.fraction, frontExponent (n.exponent ++ rest)⟩ := by
      rw [text, List.append_assoc, List.append_assoc, h.front_of_not_digit_behind hbehind]
    rw [hfront, text, text, List.prefix_append_right_inj, he, List.cons_append, List.append_assoc,
      frontExponent_append_digits hmark hsign hne hds, List.prefix_cons_inj,
      List.prefix_append_right_inj]
    exact List.prefix_append _ _

end Numeral

/-! ## Positions -/

/-- The characters of the text from a position on. -/
def charsFrom (text : String) (pos : String.Pos.Raw) : List Char :=
  (String.Pos.Raw.extract text pos text.rawEndPos).toList

/-- The position behind characters that stand at a position. -/
def behind (pos : String.Pos.Raw) (chars : List Char) : String.Pos.Raw :=
  ⟨pos.byteIdx + String.utf8Len chars⟩

theorem behind_append (pos : String.Pos.Raw) (front back : List Char) :
    behind pos (front ++ back) = behind (behind pos front) back := by
  simp [behind, Nat.add_assoc]

/-- Behind a character the position is another one. -/
theorem lt_behind (pos : String.Pos.Raw) {chars : List Char} (h : chars ≠ []) :
    pos < behind pos chars := by
  cases chars with
  | nil => exact absurd rfl h
  | cons c cs =>
    rw [behind, String.utf8Len_cons, String.Pos.Raw.lt_iff]
    have hsize := c.utf8Size_pos
    simp only
    omega

/-- Some characters of the text are in front of the position, and the others behind it. -/
def StandsBetween (text : String) (front back : List Char) (pos : String.Pos.Raw) : Prop :=
  text = String.ofList (front ++ back) ∧ pos = behind 0 front

variable {text : String} {front middle back : List Char} {pos : String.Pos.Raw}

theorem StandsBetween.isValid (h : StandsBetween text front back pos) : pos.IsValid text := by
  obtain ⟨rfl, rfl⟩ := h
  rw [String.Pos.Raw.isValid_iff_exists_append]
  refine ⟨String.ofList front, String.ofList back, String.ofList_append, ?_⟩
  rw [String.rawEndPos_ofList, behind, String.Pos.Raw.byteIdx_zero, Nat.zero_add]

/-- What stands between two positions is the slice of the text from the one to the other. -/
theorem StandsBetween.extract_eq (h : StandsBetween text front (middle ++ back) pos) :
    (String.Pos.Raw.extract text pos (behind pos middle)).toList = middle := by
  obtain ⟨rfl, rfl⟩ := h
  have hslice := String.extract_of_valid front middle back
  simp only [behind, String.Pos.Raw.byteIdx_zero, Nat.zero_add]
  rw [← List.append_assoc, hslice, String.toList_ofList]

theorem StandsBetween.rawEndPos_eq (h : StandsBetween text front back pos) :
    text.rawEndPos = behind pos back := by
  obtain ⟨rfl, rfl⟩ := h
  rw [String.rawEndPos_ofList, String.utf8Len_append]
  simp [behind]

theorem StandsBetween.charsFrom_eq (h : StandsBetween text front back pos) :
    charsFrom text pos = back := by
  have hend := h.rawEndPos_eq
  rw [← List.append_nil back] at h
  rw [charsFrom, hend]
  exact h.extract_eq

theorem StandsBetween.advance (h : StandsBetween text front (middle ++ back) pos) :
    StandsBetween text (front ++ middle) back (behind pos middle) := by
  obtain ⟨rfl, rfl⟩ := h
  exact ⟨by rw [List.append_assoc], (behind_append 0 front middle).symm⟩

/-! ## What a token is taken from -/

/-- A numeral as it stands in a body: digits and a point or none with digits or none behind it, or a
point and digits, and an exponent with a digit or none. -/
def IsNumeral (text : List Char) : Prop :=
  ∃ n : Numeral, n.WellFormed ∧ n.hasDigit = true ∧ n.text = text

namespace Lexeme

theorem isMark_or_stray (c : Char) :
    ((Token.ofChar? c).getD (.stray c)).isMark = true ∨
      (Token.ofChar? c).getD (.stray c) = .stray c := by
  cases hc : Token.ofChar? c with
  | none => exact .inr rfl
  | some t => exact .inl (Token.isMark_of_ofChar? hc)

/-- A number is taken from the front of a text only where a numeral starts, -/
theorem startsAt_of_number {c : Char} {cs : List Char} {x : Float}
    (h : frontToken c cs = .number x) : Numeral.startsAt (c :: cs) = true := by
  by_contra hnum
  rw [frontToken, if_neg hnum] at h
  split at h
  · cases h
  · rcases isMark_or_stray c with hmark | hstray
    · rw [h] at hmark
      cases hmark
    · rw [h] at hstray
      cases hstray

/-- and a name only where a name does. -/
theorem isNameStart_of_name {c : Char} {cs : List Char} {x : String}
    (h : frontToken c cs = .name x) :
    ¬Numeral.startsAt (c :: cs) = true ∧ isNameStart c = true := by
  rw [frontToken] at h
  split at h
  · cases h
  · next hnum =>
    split at h
    · next hname => exact ⟨hnum, hname⟩
    · rcases isMark_or_stray c with hmark | hstray
      · rw [h] at hmark
        cases hmark
      · rw [h] at hstray
        cases hstray

variable {s rest : List Char} {l : Lexeme}

/-- **A name is taken as long as it goes.** -/
theorem text_of_name (h : next? s = some (l, rest)) {x : String} (hx : l.token = .name x) :
    x.toList = l.text ∧ l.text = (l.text ++ rest).takeWhile isNameChar := by
  obtain ⟨c, cs, rfl, hrest⟩ := next?_eq_some h
  obtain ⟨hnum, hname⟩ := isNameStart_of_name hx
  have htext : frontText c cs = c :: cs.takeWhile isNameChar := by
    rw [frontText, if_neg hnum, if_pos hname]
  have htoken : frontToken c cs = .name (String.ofList (c :: cs.takeWhile isNameChar)) := by
    rw [frontToken, if_neg hnum, if_pos hname]
  rw [hrest, List.takeWhile_cons_of_pos (isNameChar_of_isNameStart hname)]
  cases htoken.symm.trans hx
  exact ⟨String.toList_ofList.trans htext.symm, htext⟩

/-- **A number is taken from the longest numeral**, and that reads as it. -/
theorem text_of_number (h : next? s = some (l, rest)) {x : Float} (hx : l.token = .number x) :
    IsNumeral l.text ∧ readNumber? l.text = some x ∧
      ∀ front, IsNumeral front → front <+: l.text ++ rest → front.length ≤ l.text.length := by
  have hspelled : l.token.Spelled l.text := spelled_of_next? h fun c hc => by
    rw [hx] at hc
    cases hc
  obtain ⟨c, cs, rfl, hrest⟩ := next?_eq_some h
  refine ⟨?formed, ?reads, ?longest⟩
  case formed =>
    rw [hx] at hspelled
    generalize frontText c cs = word at hspelled
    cases hspelled with
    | number hformed hdigit _ => exact ⟨_, hformed, hdigit, rfl⟩
    | mark hc => cases Token.isMark_of_ofChar? hc
  case reads =>
    rw [hx] at hspelled
    generalize frontText c cs = word at hspelled ⊢
    cases hspelled with
    | number _ _ hreads => exact hreads
    | mark hc => cases Token.isMark_of_ofChar? hc
  case longest =>
    rintro front ⟨n, hformed, hdigit, rfl⟩ ⟨others, hothers⟩
    have hlonger := hformed.text_isPrefix_front others
    rw [hothers, hrest] at hlonger
    simp only [frontText, if_pos (startsAt_of_number hx)]
    exact hlonger.length_le

end Lexeme

/-! ## The scanner -/

/-- What one call of the scanner takes. -/
inductive Taken where
  /-- A token and the blanks before it. -/
  | token (l : Lexeme)
  /-- The blanks at the end of the text, and nothing from then on. -/
  | ending (blanks : List Char)

namespace Taken

/-- The characters that are taken. -/
def chars : Taken → List Char
  | token l => l.blanks ++ l.text
  | ending blanks => blanks

def token? : Taken → Option Token
  | token l => some l.token
  | ending _ => none

end Taken

/-- The position of a scanner, and what its calls have taken so far. -/
structure Scanner where
  pos : String.Pos.Raw
  taken : List Taken

namespace Scanner

/-- What the next call takes. -/
def next (s : Scanner) (text : String) : Taken :=
  match Lexeme.next? (charsFrom text s.pos) with
  | some (l, _) => .token l
  | none => .ending (charsFrom text s.pos)

/-- One call of the scanner. -/
def call (s : Scanner) (text : String) : Scanner :=
  ⟨behind s.pos (s.next text).chars, s.taken ++ [s.next text]⟩

/-- The scanner after a number of calls. -/
def after (text : String) : Nat → Scanner
  | 0 => ⟨0, []⟩
  | calls + 1 => (after text calls).call text

/-- A token is cut out of the text as it is spelled. -/
structure IsCut (text : String) (pos : String.Pos.Raw) (l : Lexeme) : Prop where
  blank : ∀ c ∈ l.blanks, isBlank c = true
  ne_nil : l.text ≠ []
  start_isValid : (behind pos l.blanks).IsValid text
  stop_isValid : (behind (behind pos l.blanks) l.text).IsValid text
  slice : (String.Pos.Raw.extract text (behind pos l.blanks)
    (behind (behind pos l.blanks) l.text)).toList = l.text
  /-- A name is the longest run of letters, digits and underscores. -/
  name : ∀ x, l.token = .name x →
    x.toList = l.text ∧ l.text = (charsFrom text (behind pos l.blanks)).takeWhile isNameChar
  /-- A number is the longest numeral, and it is read. -/
  number : ∀ x, l.token = .number x → IsNumeral l.text ∧ readNumber? l.text = some x ∧
    ∀ front, IsNumeral front → front <+: charsFrom text (behind pos l.blanks) →
      front.length ≤ l.text.length

/-- `s'` is `s` behind one more token. -/
structure Moves (s : Scanner) (l : Lexeme) (s' : Scanner) : Prop where
  pos_eq : s'.pos = behind (behind s.pos l.blanks) l.text
  pos_lt : s.pos < s'.pos
  taken_eq : s'.taken = s.taken ++ [.token l]

/-- A scanner that may be called, and what a call does. -/
structure IsSafe (s : Scanner) (text : String) : Prop where
  isValid : s.pos.IsValid text
  le_end : s.pos ≤ text.rawEndPos
  /-- What was taken is what stands before the position. -/
  lossless : s.taken.flatMap Taken.chars = (String.Pos.Raw.extract text 0 s.pos).toList
  /-- The tokens of the text are those that were taken, and those of the rest. -/
  tokens_eq : tokens text.toList =
    s.taken.filterMap Taken.token? ++ tokens (charsFrom text s.pos)
  ending : (s.next text).token? = none ↔ ∀ c ∈ charsFrom text s.pos, isBlank c = true
  cut : ∀ l, s.next text = .token l → IsCut text s.pos l
  /-- A call that takes a token moves the scanner on. -/
  moves : ∀ l, s.next text = .token l → Moves s l (s.call text)
  /-- A call that takes none moves it to the end of the text, and there all later calls leave it. -/
  stops : ∀ blanks, s.next text = .ending blanks →
    (s.call text).taken = s.taken ++ [.ending blanks] ∧
      ∀ later, ((call · text)^[later] (s.call text)).pos = text.rawEndPos ∧
        ((call · text)^[later] (s.call text)).next text = .ending []

/-- The invariant: what was taken and what is left make up the text. -/
structure Splits (s : Scanner) (text : String) (back : List Char) : Prop where
  between : StandsBetween text (s.taken.flatMap Taken.chars) back s.pos
  tokens_eq : tokens text.toList = s.taken.filterMap Taken.token? ++ tokens back

variable {s : Scanner}

/-- What the next call takes stands at the front of what is left. -/
theorem Splits.next_eq (h : s.Splits text back) :
    (∃ l rest, Lexeme.next? back = some (l, rest) ∧ s.next text = .token l ∧
      l.blanks ++ (l.text ++ rest) = back) ∨
    (Lexeme.next? back = none ∧ s.next text = .ending back) := by
  rw [next, h.between.charsFrom_eq]
  cases hb : Lexeme.next? back with
  | none => exact .inr ⟨rfl, rfl⟩
  | some lr =>
    obtain ⟨l, rest⟩ := lr
    refine .inl ⟨l, rest, rfl, rfl, ?_⟩
    rw [← List.append_assoc]
    exact Lexeme.append_rest_of_next? hb

/-- A call moves the border in the text behind what it takes. -/
theorem Splits.call_between {rest : List Char} (h : s.Splits text back)
    (hback : (s.next text).chars ++ rest = back) :
    StandsBetween text ((s.call text).taken.flatMap Taken.chars) rest (s.call text).pos := by
  rw [Scanner.call, List.flatMap_append, List.flatMap_singleton]
  refine StandsBetween.advance ?_
  rw [hback]
  exact h.between

theorem Splits.call_of_some (h : s.Splits text back) {l : Lexeme} {rest : List Char}
    (hl : Lexeme.next? back = some (l, rest)) (hnext : s.next text = .token l) :
    (s.call text).Splits text rest := by
  refine ⟨h.call_between ?_, ?_⟩
  · rw [hnext]
    exact Lexeme.append_rest_of_next? hl
  · rw [h.tokens_eq, tokens_of_some hl, Scanner.call, hnext, List.filterMap_append]
    simp [Taken.token?]

theorem Splits.call_of_none (h : s.Splits text back) (hnone : Lexeme.next? back = none)
    (hnext : s.next text = .ending back) : (s.call text).Splits text [] := by
  refine ⟨h.call_between ?_, ?_⟩
  · rw [hnext]
    exact List.append_nil back
  · have hend : tokens [] = [] := tokens_of_none rfl
    rw [h.tokens_eq, tokens_of_none hnone, hend, Scanner.call, hnext, List.filterMap_append]
    simp [Taken.token?]

theorem Splits.exists_call (h : s.Splits text back) : ∃ rest, (s.call text).Splits text rest := by
  rcases h.next_eq with ⟨l, rest, hl, hnext, -⟩ | ⟨hnone, hnext⟩
  · exact ⟨rest, h.call_of_some hl hnext⟩
  · exact ⟨[], h.call_of_none hnone hnext⟩

theorem splits_after (text : String) (calls : Nat) :
    ∃ back, (after text calls).Splits text back := by
  induction calls with
  | zero => exact ⟨text.toList, ⟨String.ofList_toList.symm, rfl⟩, rfl⟩
  | succ calls ih =>
    obtain ⟨back, hback⟩ := ih
    exact hback.exists_call

/-- The token that stands next is cut out as it is spelled. -/
theorem Splits.isCut (h : s.Splits text back) {l : Lexeme} (hl : s.next text = .token l) :
    IsCut text s.pos l := by
  rcases h.next_eq with ⟨l', rest, hnext, htoken, hback⟩ | ⟨-, hending⟩
  · obtain rfl : l' = l := by
      rw [htoken] at hl
      cases hl
      rfl
    -- the position behind the blanks, and the one behind the token
    have hstart := StandsBetween.advance (hback ▸ h.between)
    have hstop := hstart.advance
    refine ⟨Lexeme.isBlank_of_mem_blanks hnext, ?_, hstart.isValid, hstop.isValid,
      hstart.extract_eq, ?_, ?_⟩
    · obtain ⟨c, cs, rfl, -⟩ := Lexeme.next?_eq_some hnext
      exact Lexeme.frontText_ne_nil c cs
    · rw [hstart.charsFrom_eq]
      exact fun x hx => Lexeme.text_of_name hnext hx
    · rw [hstart.charsFrom_eq]
      exact fun x hx => Lexeme.text_of_number hnext hx
  · rw [hending] at hl
    cases hl

/-- A call that takes a token moves the scanner behind it, and that is further on. -/
theorem Moves.of_token {l : Lexeme} (hl : s.next text = .token l) (hne : l.text ≠ []) :
    Moves s l (s.call text) := by
  have hpos : (s.call text).pos = behind (behind s.pos l.blanks) l.text := by
    rw [Scanner.call, hl]
    exact behind_append s.pos l.blanks l.text
  refine ⟨hpos, ?_, ?_⟩
  · have hchars : l.blanks ++ l.text ≠ [] := fun h => hne (List.append_eq_nil_iff.1 h).2
    rw [hpos, ← behind_append]
    exact lt_behind s.pos hchars
  · rw [Scanner.call, hl]

/-- At the end of the text nothing is left to take. -/
theorem Splits.at_end (h : s.Splits text []) :
    s.pos = text.rawEndPos ∧ s.next text = .ending [] := by
  refine ⟨h.between.rawEndPos_eq.symm, ?_⟩
  rcases h.next_eq with ⟨l, rest, hl, -, -⟩ | ⟨-, hnext⟩
  · cases hl
  · exact hnext

/-- No number of calls leads away from the end. -/
theorem Splits.iterate (h : s.Splits text []) (later : Nat) :
    ((call · text)^[later] s).Splits text [] := by
  induction later with
  | zero => exact h
  | succ later ih =>
    rw [Function.iterate_succ_apply']
    exact ih.call_of_none rfl ih.at_end.2

/-- Where only blanks are left, a call moves the scanner to the end. -/
theorem Splits.call_of_ending (h : s.Splits text back) {blanks : List Char}
    (hend : s.next text = .ending blanks) : (s.call text).Splits text [] := by
  rcases h.next_eq with ⟨l, rest, -, hnext, -⟩ | ⟨hnone, hnext⟩
  · cases hnext.symm.trans hend
  · exact h.call_of_none hnone hnext

/-- **However often a scanner is called, it stands between two characters and has lost none.** It
ends just where only blanks are left: such a call moves it to the end of the text, and there it
stays. Every other call moves it on, by the blanks and at least one more character, and cuts out a
token as it is spelled. -/
theorem isSafe_after (text : String) (calls : Nat) : (after text calls).IsSafe text := by
  obtain ⟨back, h⟩ := splits_after text calls
  have hbefore : StandsBetween text [] ((after text calls).taken.flatMap Taken.chars ++ back) 0 :=
    ⟨h.between.1, rfl⟩
  refine ⟨h.between.isValid, h.between.isValid.le_rawEndPos, ?lossless, ?tokens, ?ending,
    fun l hl => h.isCut hl, fun l hl => .of_token hl (h.isCut hl).ne_nil, ?stops⟩
  case lossless => rw [h.between.2, hbefore.extract_eq]
  case tokens => rw [h.between.charsFrom_eq, h.tokens_eq]
  case ending =>
    rw [h.between.charsFrom_eq, ← Lexeme.next?_eq_none_iff]
    rcases h.next_eq with ⟨l, rest, hl, hnext, -⟩ | ⟨hnone, hnext⟩
    · rw [hl, hnext]
      simp [Taken.token?]
    · rw [hnone, hnext]
      simp [Taken.token?]
  case stops =>
    intro blanks hend
    refine ⟨by rw [call, hend], ?_⟩
    intro later
    exact ((h.call_of_ending hend).iterate later).at_end

example : (after "é 2ex1" 3).pos = ⟨7⟩ ∧ (after "é 2ex1" 4).taken.map Taken.chars =
    ["é".toList, " 2".toList, "ex1".toList, []] := by
  decide +kernel

end Scanner

end Recalc

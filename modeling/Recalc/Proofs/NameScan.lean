import Recalc.Proofs.Completeness

/-!
# What a scan for names finds in a body

The scan for names knows words, but no numerals. In a body that is accepted it finds, in the order
of the text:

* **every name**, as often as it stands there. Numbers and names do not stand side by side, so
  behind each of them its word ends;
* **the exponent of a numeral that has a point and no digit behind the point**, up to the sign. The
  digits before the point are a word, the point ends it, and the mark of the exponent begins the
  next word. In every other numeral a digit stands before the mark, and the mark goes on with the
  word of that digit.

So `1e3`, `1.0e3` and `.5e3` have no name in them, and `1.e3` shows the name `e3`.
-/

namespace Recalc

/-! ## Parts of a text -/

/-- No word before the text goes on into it. -/
def BreaksWord (text : List Char) : Prop := ∀ c ∈ text.head?, isWordChar c = false

theorem breaksWord_cons {c : Char} (hc : isWordChar c = false) (cs : List Char) :
    BreaksWord (c :: cs) := by
  intro d hd
  cases hd
  exact hc

/-- No name and no numeral before the text goes on into it. -/
def EndsToken (text : List Char) : Prop :=
  ∀ c ∈ text.head?, isWordChar c = false ∧ c ≠ '.'

theorem endsToken_nil : EndsToken [] := fun _ hc => by cases hc

theorem takeWhile_eq_nil {p : Char → Bool} {text : List Char}
    (h : ∀ c ∈ text.head?, p c = false) : text.takeWhile p = [] := by
  cases text with
  | nil => rfl
  | cons c cs => rw [List.takeWhile_cons_of_neg (by simp [h c rfl])]

theorem eq_false_of_mem_head?_dropWhile (p : Char → Bool) (text : List Char) :
    ∀ c ∈ (text.dropWhile p).head?, p c = false := by
  intro c hc
  have hnot := List.head?_dropWhile_not p text
  rw [Option.mem_def.1 hc] at hnot
  exact hnot

theorem isNameChar_eq_false {c : Char} (h : isWordChar c = false) : isNameChar c = false := by
  rw [← Bool.not_eq_true] at h ⊢
  exact fun hc => h (isWordChar_of_isNameChar hc)

theorem isNameStart_eq_false {c : Char} (h : isWordChar c = false) : isNameStart c = false := by
  rw [← Bool.not_eq_true] at h ⊢
  exact fun hc => h (isWordChar_of_isNameChar (isNameChar_of_isNameStart hc))

theorem isNameStart_of_isBlank {c : Char} (h : isBlank c = true) : isNameStart c = false :=
  isNameStart_eq_false (isWordChar_of_isBlank h)

/-- If no name begins in the front of a text, the names are those of the rest. -/
theorem nameOccurrences_append_of_noStart {front : List Char}
    (h : ∀ c ∈ front, isNameStart c = false) (inWord : Bool) (rest : List Char) :
    nameOccurrences inWord (front ++ rest) = nameOccurrences (endsInWord inWord front) rest := by
  induction front generalizing inWord with
  | nil => rfl
  | cons c cs ih =>
    have hc : isNameStart c = false := h c List.mem_cons_self
    rw [List.cons_append, nameOccurrences, if_neg (by simp [hc])]
    exact ih (fun d hd => h d (List.mem_cons_of_mem c hd)) (isWordChar c)

theorem nameOccurrences_eq_nil_of_noStart {text : List Char}
    (h : ∀ c ∈ text, isNameStart c = false) (inWord : Bool) : nameOccurrences inWord text = [] := by
  have htext := nameOccurrences_append_of_noStart h inWord []
  rwa [List.append_nil] at htext

/-- No name begins within a word. -/
theorem nameOccurrences_append_of_word {word : List Char}
    (h : ∀ c ∈ word, isWordChar c = true) (rest : List Char) :
    nameOccurrences true (word ++ rest) = nameOccurrences true rest := by
  induction word with
  | nil => rfl
  | cons c cs ih =>
    rw [List.cons_append, nameOccurrences, if_neg (by simp), h c List.mem_cons_self]
    exact ih fun d hd => h d (List.mem_cons_of_mem c hd)

theorem nameOccurrences_eq_nil_of_word {word : List Char}
    (h : ∀ c ∈ word, isWordChar c = true) : nameOccurrences true word = [] := by
  have hword := nameOccurrences_append_of_word h []
  rwa [List.append_nil] at hword

/-- A name is all that occurs in it. -/
theorem nameOccurrences_of_isName {name : List Char} (h : isName name = true) :
    nameOccurrences false name = [name] := by
  cases name with
  | nil => cases h
  | cons c cs =>
    rw [isName, Bool.and_eq_true, List.all_eq_true] at h
    rw [nameOccurrences, if_pos (by simp [h.1]),
      nameOccurrences_eq_nil_of_word fun d hd => isWordChar_of_isNameChar (h.2 d hd)]
    rw [List.takeWhile_eq_self_iff.2 h.2]

/-- A character that is in no word ends the word before it. -/
theorem nameOccurrences_cons_of_notWord {c : Char} (hc : isWordChar c = false) (inWord : Bool)
    (cs : List Char) : nameOccurrences inWord (c :: cs) = nameOccurrences false cs := by
  have hstart : isNameStart c = false := isNameStart_eq_false hc
  rw [nameOccurrences, if_neg (by simp [hstart]), hc]

/-- It does not matter whether a word stands before a text that breaks it. -/
theorem nameOccurrences_of_breaksWord {text : List Char} (h : BreaksWord text) (inWord : Bool) :
    nameOccurrences inWord text = nameOccurrences false text := by
  cases text with
  | nil => rfl
  | cons c cs =>
    rw [nameOccurrences_cons_of_notWord (h c rfl), nameOccurrences_cons_of_notWord (h c rfl)]

/-- The names of two texts, where no word runs from the one into the other. -/
theorem nameOccurrences_append_of_breaksWord {rest : List Char} (h : BreaksWord rest)
    (inWord : Bool) (front : List Char) :
    nameOccurrences inWord (front ++ rest) =
      nameOccurrences inWord front ++ nameOccurrences false rest := by
  induction front generalizing inWord with
  | nil => exact nameOccurrences_of_breaksWord h inWord
  | cons c cs ih =>
    have hrest : rest.takeWhile isNameChar = [] :=
      takeWhile_eq_nil fun d hd => isNameChar_eq_false (h d hd)
    have htake : (cs ++ rest).takeWhile isNameChar = cs.takeWhile isNameChar := by
      rw [List.takeWhile_append, hrest, List.append_nil]
      split
      · next hlen =>
        have hfront : cs.takeWhile isNameChar <+: cs := List.takeWhile_prefix _
        exact (hfront.eq_of_length hlen).symm
      · rfl
    rw [List.cons_append, nameOccurrences, nameOccurrences, htake, ih, ih]
    split
    · rfl
    · rfl

/-! ## Numerals -/

theorem isNameStart_of_isDigit {c : Char} (h : c.isDigit = true) : isNameStart c = false := by
  have hall : ∀ n ∈ [48, 49, 50, 51, 52, 53, 54, 55, 56, 57],
      isNameStart (Char.ofNat n) = false := by decide
  rw [← Char.ofNat_toNat c]
  refine hall c.toNat ?_
  simp only [Char.isDigit, Bool.and_eq_true, decide_eq_true_eq, UInt32.le_iff_toNat_le] at h
  have hlow : 48 ≤ c.toNat := h.1
  have hhigh : c.toNat ≤ 57 := h.2
  simp only [List.mem_cons, List.not_mem_nil, or_false]
  omega

theorem isWordChar_of_isDigit {c : Char} (h : c.isDigit = true) : isWordChar c = true := by
  refine isWordChar_of_isNameChar ?_
  rw [isNameChar, Char.isAlphanum, h, Bool.or_true, Bool.true_or]

theorem isDigit_eq_false {c : Char} (h : isWordChar c = false) : c.isDigit = false := by
  rw [← Bool.not_eq_true] at h ⊢
  exact fun hc => h (isWordChar_of_isDigit hc)

namespace Numeral

/-- A numeral with digits, a point and an exponent where they belong. -/
structure WellFormed (n : Numeral) : Prop where
  whole : ∀ c ∈ n.whole, c.isDigit = true
  fraction : n.fraction = [] ∨ ∃ ds, n.fraction = '.' :: ds ∧ ∀ c ∈ ds, c.isDigit = true
  exponent : n.exponent = [] ∨ ∃ mark sign ds, n.exponent = mark :: (sign ++ ds) ∧
    (mark = 'e' ∨ mark = 'E') ∧ (sign = [] ∨ sign = ['+'] ∨ sign = ['-']) ∧
    ds ≠ [] ∧ ∀ c ∈ ds, c.isDigit = true

theorem front_wellFormed (s : List Char) : (front s).WellFormed := by
  refine ⟨fun c hc => List.mem_takeWhile_imp hc, ?fraction, ?exponent⟩
  case fraction =>
    rw [front]
    generalize s.drop (s.takeWhile Char.isDigit).length = cs
    unfold frontFraction
    split
    · next cs => exact .inr ⟨_, rfl, fun c hc => List.mem_takeWhile_imp hc⟩
    · exact .inl rfl
  case exponent =>
    rw [front]
    generalize (s.drop (s.takeWhile Char.isDigit).length).drop _ = cs
    cases cs with
    | nil => exact .inl rfl
    | cons c cs =>
      rw [frontExponent]
      split
      · next h =>
        rw [Bool.and_eq_true, Bool.or_eq_true, beq_iff_eq, beq_iff_eq] at h
        refine .inr ⟨c, frontSign cs, _, rfl, h.1, ?sign, by simpa using h.2,
          fun d hd => List.mem_takeWhile_imp hd⟩
        case sign =>
          unfold frontSign
          split
          · exact .inr (.inl rfl)
          · exact .inr (.inr rfl)
          · exact .inl rfl
      · exact .inl rfl

/-- A numeral that starts has a digit. -/
theorem hasDigit_front {s : List Char} (h : startsAt s = true) : (front s).hasDigit = true := by
  match s with
  | [] => cases h
  | c :: cs =>
    by_cases hc : c.isDigit = true
    · simp [front, hasDigit, hc]
    · by_cases hp : c = '.'
      · subst hp
        cases cs with
        | nil => cases h
        | cons d ds =>
          have hd : d.isDigit = true := h
          simp [front, hasDigit, frontFraction, hc, hd]
      · simp [startsAt, hc, hp] at h

theorem WellFormed.exponent_tail {n : Numeral} (h : n.WellFormed) :
    n.exponent = [] ∨ ∃ mark tail, n.exponent = mark :: tail ∧ (mark = 'e' ∨ mark = 'E') ∧
      ∀ c ∈ tail, isNameStart c = false := by
  rcases h.exponent with he | ⟨mark, sign, ds, he, hmark, hsign, -, hds⟩
  · exact .inl he
  · refine .inr ⟨mark, sign ++ ds, he, hmark, ?_⟩
    intro c hc
    rcases List.mem_append.mp hc with hc | hc
    · rcases hsign with rfl | rfl | rfl
      · cases hc
      · cases List.mem_singleton.mp hc
        rfl
      · cases List.mem_singleton.mp hc
        rfl
    · exact isNameStart_of_isDigit (hds c hc)

/-- No digit and no point stands behind the fraction of a numeral. -/
theorem WellFormed.not_digit_behind {n : Numeral} (h : n.WellFormed) {rest : List Char}
    (hrest : n.exponent = [] → EndsToken rest) :
    ∀ c ∈ (n.exponent ++ rest).head?, c.isDigit = false ∧ c ≠ '.' := by
  intro c hc
  rcases h.exponent with he | ⟨mark, sign, ds, he, hmark, -⟩
  · rw [he, List.nil_append] at hc
    exact ⟨isDigit_eq_false (hrest he c hc).1, (hrest he c hc).2⟩
  · rw [he, List.cons_append, List.head?_cons, Option.mem_some] at hc
    subst hc
    rcases hmark with rfl | rfl
    · exact ⟨rfl, by decide⟩
    · exact ⟨rfl, by decide⟩

theorem WellFormed.frontFraction_append {n : Numeral} (h : n.WellFormed) {behind : List Char}
    (hbehind : ∀ c ∈ behind.head?, c.isDigit = false ∧ c ≠ '.') :
    frontFraction (n.fraction ++ behind) = n.fraction := by
  rcases h.fraction with hf | ⟨ds, hf, hds⟩
  · rw [hf, List.nil_append]
    unfold frontFraction
    split
    · next cs => exact absurd rfl (hbehind '.' rfl).2
    · rfl
  · rw [hf, List.cons_append, frontFraction, List.takeWhile_append_of_pos hds,
      takeWhile_eq_nil fun c hc => (hbehind c hc).1, List.append_nil]

/-- Digits and fraction are read to their end, if neither goes on behind them. -/
theorem WellFormed.front_of_not_digit_behind {n : Numeral} (h : n.WellFormed)
    {behind : List Char} (hbehind : ∀ c ∈ behind.head?, c.isDigit = false ∧ c ≠ '.') :
    front (n.whole ++ (n.fraction ++ behind)) = ⟨n.whole, n.fraction, frontExponent behind⟩ := by
  have hnone : (n.fraction ++ behind).takeWhile Char.isDigit = [] := by
    rcases h.fraction with hf | ⟨ds, hf, -⟩
    · rw [hf, List.nil_append]
      exact takeWhile_eq_nil fun c hc => (hbehind c hc).1
    · rw [hf]
      rfl
  rw [front, List.takeWhile_append_of_pos h.whole, hnone, List.append_nil, List.drop_left,
    h.frontFraction_append hbehind, List.drop_left]

/-- The digits of an exponent are read as far as they go. -/
theorem frontExponent_append_digits {mark : Char} {sign ds : List Char}
    (hmark : mark = 'e' ∨ mark = 'E') (hsign : sign = [] ∨ sign = ['+'] ∨ sign = ['-'])
    (hne : ds ≠ []) (hds : ∀ c ∈ ds, c.isDigit = true) (rest : List Char) :
    frontExponent (mark :: (sign ++ (ds ++ rest))) =
      mark :: (sign ++ (ds ++ rest.takeWhile Char.isDigit)) := by
  have hdigits : frontSign (ds ++ rest) = [] := by
    cases ds with
    | nil => exact absurd rfl hne
    | cons d ds =>
      have hd : d.isDigit = true := hds d List.mem_cons_self
      rw [List.cons_append]
      unfold frontSign
      split
      · next hcons => cases hcons; cases hd
      · next hcons => cases hcons; cases hd
      · rfl
  have hfront : frontSign (sign ++ (ds ++ rest)) = sign := by
    rcases hsign with rfl | rfl | rfl
    · exact hdigits
    · rfl
    · rfl
  rw [frontExponent, hfront, List.drop_left, List.takeWhile_append_of_pos hds, if_pos]
  simpa using ⟨hmark, fun h => absurd h hne⟩

theorem WellFormed.frontExponent_append {n : Numeral} (h : n.WellFormed) {rest : List Char}
    (hrest : EndsToken rest) : frontExponent (n.exponent ++ rest) = n.exponent := by
  rcases h.exponent with he | ⟨mark, sign, ds, he, hmark, hsign, hne, hds⟩
  · -- what follows is no part of a word, so it is no mark of an exponent
    rw [he, List.nil_append]
    cases rest with
    | nil => rfl
    | cons c cs =>
      have hword : isWordChar c = false := (hrest c rfl).1
      have hc : (c == 'e' || c == 'E') = false := by
        rw [Bool.or_eq_false_iff, beq_eq_false_iff_ne, beq_eq_false_iff_ne]
        constructor
        · intro he
          subst he
          cases hword
        · intro he
          subst he
          cases hword
      rw [frontExponent, hc, Bool.false_and]
      rfl
  · rw [he, List.cons_append, List.append_assoc,
      frontExponent_append_digits hmark hsign hne hds,
      takeWhile_eq_nil fun c hc => isDigit_eq_false (hrest c hc).1, List.append_nil]

/-- **A numeral is read to its end**, where none goes on into what follows. -/
theorem WellFormed.front_append {n : Numeral} (h : n.WellFormed) {rest : List Char}
    (hrest : EndsToken rest) : front (n.text ++ rest) = n := by
  rw [text, List.append_assoc, List.append_assoc,
    h.front_of_not_digit_behind (h.not_digit_behind fun _ => hrest), h.frontExponent_append hrest]

/-- **A numeral can be read in one way only.** -/
theorem WellFormed.front_text {n : Numeral} (h : n.WellFormed) : front n.text = n := by
  have htext := h.front_append endsToken_nil
  rwa [List.append_nil] at htext

/-- An exponent that goes on with a word has no name in it. -/
theorem WellFormed.nameOccurrences_exponent {n : Numeral} (h : n.WellFormed) :
    nameOccurrences true n.exponent = [] := by
  rcases h.exponent_tail with he | ⟨mark, tail, he, -, htail⟩
  · rw [he]
    rfl
  · rw [he, nameOccurrences, if_neg (by simp)]
    exact nameOccurrences_eq_nil_of_noStart htail (isWordChar mark)

end Numeral

/-- Behind digits a text is within a word. -/
theorem endsInWord_append_digits {ds : List Char} (h : ∀ c ∈ ds, c.isDigit = true) (hne : ds ≠ [])
    (inWord : Bool) (front : List Char) : endsInWord inWord (front ++ ds) = true := by
  rw [← List.dropLast_append_getLast hne, ← List.append_assoc, endsInWord_append_singleton]
  exact isWordChar_of_isDigit (h _ (List.getLast_mem hne))

/-- The name that a scan finds in a numeral: the exponent up to its sign, where it stands right
behind the point. -/
def Numeral.exposed? (n : Numeral) : Option (List Char) :=
  if n.fraction = ['.'] ∧ n.exponent ≠ [] then some (n.exponent.takeWhile isNameChar) else none

/-- **What the scan finds in a numeral is the exponent behind a bare point.** -/
theorem Numeral.WellFormed.nameOccurrences_text {n : Numeral} (h : n.WellFormed)
    (hdigit : n.hasDigit = true) : nameOccurrences false n.text = n.exposed?.toList := by
  have hnone : ∀ ds : List Char, (∀ c ∈ ds, c.isDigit = true) → ∀ c ∈ ds, isNameStart c = false :=
    fun ds hds c hc => isNameStart_of_isDigit (hds c hc)
  rw [text, List.append_assoc, nameOccurrences_append_of_noStart (hnone n.whole h.whole), exposed?]
  rcases h.fraction with hf | ⟨ds, hf, hds⟩
  · -- the exponent goes on with the word of the digits before the point
    have hne : n.whole ≠ [] := by
      intro he
      rw [hasDigit, he, hf] at hdigit
      cases hdigit
    have hword : endsInWord false n.whole = true := endsInWord_append_digits h.whole hne false []
    rw [hf, List.nil_append, hword, h.nameOccurrences_exponent]
    simp
  · rw [hf, List.cons_append, nameOccurrences_cons_of_notWord (by decide)]
    cases ds with
    | cons d ds =>
      -- the exponent goes on with the word of the digits behind the point
      have hword : endsInWord false (d :: ds) = true :=
        endsInWord_append_digits hds (List.cons_ne_nil d ds) false []
      rw [nameOccurrences_append_of_noStart (hnone _ hds), hword, h.nameOccurrences_exponent]
      simp
    | nil =>
      -- the point ends the word, and the exponent begins one
      rcases h.exponent_tail with he | ⟨mark, tail, he, hmark, htail⟩
      · rw [he]
        rfl
      · have hstart : isNameStart mark = true := by rcases hmark with rfl | rfl <;> rfl
        rw [he, List.nil_append, nameOccurrences, if_pos (by simp [hstart]),
          nameOccurrences_eq_nil_of_noStart htail]
        simp [isNameChar_of_isNameStart hstart]

/-! ## Lexemes -/

theorem Token.isMark_of_ofChar? {c : Char} {t : Token} (h : Token.ofChar? c = some t) :
    t.isMark = true := by
  unfold Token.ofChar? at h
  split at h
  all_goals cases h
  all_goals rfl

namespace Lexeme

/-- The name that the scan finds in the lexeme of a number. -/
def exposed? (l : Lexeme) : Option String :=
  match l.token with
  | .number _ => (Numeral.front l.text).exposed?.map String.ofList
  | _ => none

/-- The name that the scan finds in a lexeme. -/
def shown? (l : Lexeme) : Option String :=
  match l.token with
  | .name x => some x
  | _ => l.exposed?

theorem shown?_of_isMark {l : Lexeme} (h : l.token.isMark = true) : l.shown? = none := by
  unfold shown? exposed?
  cases hl : l.token with
  | number x | name x =>
    rw [hl] at h
    cases h
  | plus | minus | star | slash | comma | opening | closing | stray c => rfl

/-- **What the scan finds in the characters of one token.** -/
theorem map_nameOccurrences_text {s rest : List Char} {l : Lexeme}
    (h : next? s = some (l, rest)) (hmark : l.token.isMark ≠ true)
    (hstray : ∀ c, l.token ≠ .stray c) :
    (nameOccurrences false l.text).map String.ofList = l.shown?.toList := by
  obtain ⟨c, cs, rfl, _⟩ := next?_eq_some h
  unfold shown? exposed?
  simp only [frontToken, frontText] at hmark hstray ⊢
  by_cases hnum : Numeral.startsAt (c :: cs) = true
  · have hformed := Numeral.front_wellFormed (c :: cs)
    rw [if_pos hnum, if_pos hnum, hformed.nameOccurrences_text (Numeral.hasDigit_front hnum)]
    simp only [hformed.front_text]
    cases (Numeral.front (c :: cs)).exposed? with
    | none => rfl
    | some name => rfl
  · rw [if_neg hnum] at hmark hstray ⊢
    rw [if_neg hnum]
    by_cases hname : isNameStart c = true
    · rw [if_pos hname, if_pos hname, nameOccurrences_of_isName (isName_cons_takeWhile hname cs)]
      rfl
    · rw [if_neg hname] at hmark hstray
      cases hc : Token.ofChar? c with
      | none => exact absurd (by rw [hc]; rfl) (hstray c)
      | some t =>
        rw [hc] at hmark
        exact absurd (Token.isMark_of_ofChar? hc) hmark

end Lexeme

/-- No word goes on into a text that begins with a mark, or has no tokens. -/
theorem breaksWord_of_head? {s : List Char}
    (h : ∀ t ∈ (tokens s).head?, t.isMark = true) : BreaksWord s := by
  cases hs : Lexeme.next? s with
  | none =>
    have hblank := (Lexeme.next?_eq_none_iff s).1 hs
    exact fun c hc => isWordChar_of_isBlank (hblank c (List.mem_of_mem_head? hc))
  | some lr =>
    obtain ⟨l, rest⟩ := lr
    rw [tokens_of_some hs] at h
    obtain ⟨c, hc, hword⟩ := Lexeme.text_of_isMark hs (h l.token rfl)
    rw [← Lexeme.append_rest_of_next? hs, hc]
    have hblanks := Lexeme.isBlank_of_mem_blanks hs
    cases hb : l.blanks with
    | nil => exact breaksWord_cons hword rest
    | cons d ds =>
      rw [hb] at hblanks
      exact breaksWord_cons (isWordChar_of_isBlank (hblanks d List.mem_cons_self)) _

/--
**The scan finds the names among the tokens and the exponents behind bare points**, in the order of
the text, where numbers and names do not stand side by side.
-/
theorem map_nameOccurrences {s : List Char} (hchain : (tokens s).IsChain Token.Apart)
    (hstray : ∀ c, .stray c ∉ tokens s) :
    (nameOccurrences false s).map String.ofList = (lexemes s).filterMap Lexeme.shown? := by
  cases hs : Lexeme.next? s with
  | none =>
    have hblank := (Lexeme.next?_eq_none_iff s).1 hs
    rw [lexemes_of_none hs,
      nameOccurrences_eq_nil_of_noStart fun c hc => isNameStart_of_isBlank (hblank c hc)]
    rfl
  | some lr =>
    obtain ⟨l, rest⟩ := lr
    have hblanks := Lexeme.isBlank_of_mem_blanks hs
    rw [tokens_of_some hs] at hchain hstray
    rw [List.isChain_cons] at hchain
    have ih : (nameOccurrences false rest).map String.ofList =
        (lexemes rest).filterMap Lexeme.shown? :=
      map_nameOccurrences hchain.2 fun c hc => hstray c (List.mem_cons_of_mem _ hc)
    have hfront : nameOccurrences false s = nameOccurrences false (l.text ++ rest) := by
      rw [← Lexeme.append_rest_of_next? hs, List.append_assoc,
        nameOccurrences_append_of_noStart fun c hc => isNameStart_of_isBlank (hblanks c hc)]
      rw [endsInWord_of_notWord (fun c hc => isWordChar_of_isBlank (hblanks c hc)) fun _ => rfl]
    rw [hfront, lexemes_of_some hs]
    by_cases hmark : l.token.isMark = true
    · obtain ⟨c, hc, hword⟩ := Lexeme.text_of_isMark hs hmark
      rw [hc, List.singleton_append, nameOccurrences_cons_of_notWord hword, ih,
        List.filterMap_cons_none (Lexeme.shown?_of_isMark hmark)]
    · have hbreaks : BreaksWord rest := breaksWord_of_head? fun t ht =>
        (hchain.1 t ht).resolve_left hmark
      -- the word of a name or a number ends where its token ends
      rw [nameOccurrences_append_of_breaksWord hbreaks, List.map_append, ih,
        Lexeme.map_nameOccurrences_text hs hmark fun c hc => hstray c (hc ▸ List.mem_cons_self)]
      cases hl : l.shown? with
      | none => rw [List.filterMap_cons_none hl]; rfl
      | some x => rw [List.filterMap_cons_some hl]; rfl
termination_by s.length
decreasing_by exact Lexeme.length_lt_of_next? hs

example : (lexemes "a*.5e3 - 1.E-3/1.e3".toList).filterMap Lexeme.shown? = ["a", "E", "e3"] := by
  decide +kernel

/-- The names that a scan of a text finds in its numerals. -/
def exposedNames (s : List Char) : List String := (lexemes s).filterMap Lexeme.exposed?

theorem Lexeme.shown?_eq_some_iff {l : Lexeme} {x : String} :
    l.shown? = some x ↔ l.token = .name x ∨ l.exposed? = some x := by
  unfold shown? exposed?
  cases l.token <;> simp

/-- What the lexemes of a text show is its names and those in its numerals. -/
theorem mem_filterMap_shown?_iff {s : List Char} {x : String} :
    x ∈ (lexemes s).filterMap Lexeme.shown? ↔ .name x ∈ tokens s ∨ x ∈ exposedNames s := by
  simp only [List.mem_filterMap, Lexeme.shown?_eq_some_iff, tokens, exposedNames, List.mem_map,
    and_or_left, exists_or]

end Recalc

import Recalc.Proofs.NameScan

/-!
# Spelling

A sequence of tokens can be written in many ways. A number is written as any numeral that reads as
it, a name as itself and a mark as its character, and blanks may stand in front of each token and at
the end, or be missing.

**A text that spells tokens is cut into these tokens**, if of two neighbours one is a mark. Numbers
and names are taken as long as they go, so all depends on what stands behind them: it has to end
them, whether it is a blank or the character of a mark. A full stop would go on with a numeral, and
a letter with an exponent or a name.

Conversely, a text without stray characters spells the tokens that it is cut into.
-/

namespace Recalc

/-- The characters are a way to write the token. -/
inductive Token.Spelled : Token → List Char → Prop where
  /-- A number is written as any numeral that reads as it. -/
  | number {n : Numeral} {x : Float} (formed : n.WellFormed) (digit : n.hasDigit = true)
      (reads : readNumber? n.text = some x) : Spelled (.number x) n.text
  | name {x : String} (isName : isName x.toList = true) : Spelled (.name x) x.toList
  | mark {t : Token} {c : Char} (char : Token.ofChar? c = some t) : Spelled t [c]

/-- The text is made up of ways to write the tokens, in order, and of blanks around them. -/
inductive Spells : List Token → List Char → Prop where
  | nil {blanks : List Char} (blank : ∀ c ∈ blanks, isBlank c = true) : Spells [] blanks
  | cons {t : Token} {ts : List Token} {blanks word rest : List Char}
      (blank : ∀ c ∈ blanks, isBlank c = true) (spelled : t.Spelled word)
      (others : Spells ts rest) : Spells (t :: ts) (blanks ++ word ++ rest)

/-! ## What ends a token -/

theorem endsToken_of_isBlank {c : Char} (h : isBlank c = true) (cs : List Char) :
    EndsToken (c :: cs) := by
  intro d hd
  cases hd
  refine ⟨isWordChar_of_isBlank h, ?_⟩
  intro hpoint
  subst hpoint
  cases h

theorem endsToken_of_ofChar? {c : Char} {t : Token} (h : Token.ofChar? c = some t)
    (cs : List Char) : EndsToken (c :: cs) := by
  intro d hd
  cases hd
  refine ⟨isWordChar_of_ofChar? h, ?_⟩
  intro hpoint
  subst hpoint
  cases h

/-- A text ends the token before it if it begins with a mark or has no tokens. -/
theorem Spells.endsToken {ts : List Token} {text : List Char} (h : Spells ts text)
    (hfirst : ∀ t ∈ ts.head?, t.isMark = true) : EndsToken text := by
  cases h with
  | nil hblank =>
    cases text with
    | nil => exact endsToken_nil
    | cons c cs => exact endsToken_of_isBlank (hblank c List.mem_cons_self) cs
  | @cons t ts blanks word rest hblank hword _ =>
    cases blanks with
    | cons c cs => exact endsToken_of_isBlank (hblank c List.mem_cons_self) _
    | nil =>
      have hmark : t.isMark = true := hfirst t rfl
      cases hword with
      | number => cases hmark
      | name => cases hmark
      | mark hc => exact endsToken_of_ofChar? hc _

/-! ## How a token begins -/

namespace Numeral

theorem startsAt_eq_false {c : Char} (hdigit : c.isDigit = false) (hpoint : c ≠ '.')
    (cs : List Char) : startsAt (c :: cs) = false := by
  unfold startsAt
  split
  · next h => cases h; exact absurd rfl hpoint
  · next h => cases h; exact hdigit
  · rfl

theorem startsAt_of_isDigit {c : Char} (h : c.isDigit = true) (cs : List Char) :
    startsAt (c :: cs) = true := by
  unfold startsAt
  split
  · next heq => cases heq; cases h
  · next heq => cases heq; exact h
  · next heq => cases heq

/-- A numeral with a digit starts where it stands. -/
theorem WellFormed.startsAt_append {n : Numeral} (h : n.WellFormed) (hdigit : n.hasDigit = true)
    (rest : List Char) : startsAt (n.text ++ rest) = true := by
  rw [text, List.append_assoc, List.append_assoc]
  cases hw : n.whole with
  | cons c cs =>
    exact startsAt_of_isDigit (h.whole c (hw ▸ List.mem_cons_self)) _
  | nil =>
    rw [hasDigit, hw] at hdigit
    rcases h.fraction with hf | ⟨ds, hf, hds⟩
    · rw [hf] at hdigit
      cases hdigit
    · cases ds with
      | nil =>
        rw [hf] at hdigit
        cases hdigit
      | cons d ds =>
        rw [hf]
        exact hds d List.mem_cons_self

/-- Every numeral with a digit reads as a number. -/
theorem WellFormed.readNumber?_text {n : Numeral} (h : n.WellFormed) (hdigit : n.hasDigit = true) :
    readNumber? n.text = some n.value.toFloat := by
  have hstart := h.startsAt_append hdigit []
  rw [List.append_nil] at hstart
  have hread : readMagnitude? n.text = some n.value.toFloat := by
    unfold readMagnitude?
    rw [h.front_text]
    simp [hdigit]
  unfold readNumber?
  split
  · next heq => rw [heq] at hstart; cases hstart
  · next heq => rw [heq] at hstart; cases hstart
  · exact hread

end Numeral

/-- A token begins with a character that is not blank. -/
theorem Token.Spelled.exists_cons {t : Token} {word : List Char} (h : t.Spelled word) :
    ∃ c cs, word = c :: cs ∧ isBlank c = false := by
  have hword : ∀ c, isWordChar c = true → isBlank c = false := by
    intro c hc
    rw [← Bool.not_eq_true]
    intro hb
    rw [isWordChar_of_isBlank hb] at hc
    cases hc
  cases h with
  | @number n x hn hdigit _ =>
    have hstart := hn.startsAt_append hdigit []
    rw [List.append_nil] at hstart
    unfold Numeral.startsAt at hstart
    split at hstart
    · next c cs heq => exact ⟨'.', c :: cs, heq, rfl⟩
    · next c cs _ heq => exact ⟨c, cs, heq, hword c (isWordChar_of_isDigit hstart)⟩
    · cases hstart
  | @name x hx =>
    obtain ⟨c, cs, hx, hstart, -⟩ := exists_cons_of_isName hx
    exact ⟨c, cs, hx, hword c (isWordChar_of_isNameChar (isNameChar_of_isNameStart hstart))⟩
  | @mark t c hc =>
    refine ⟨c, [], rfl, ?_⟩
    unfold Token.ofChar? at hc
    split at hc
    all_goals first | rfl | cases hc

/-! ## Cutting a text into tokens -/

namespace Lexeme

/-- **A token is taken from the front of a text as it is spelled**, if it is a mark or what follows
ends it. -/
theorem front_of_spelled {t : Token} {c : Char} {cs rest : List Char} (h : t.Spelled (c :: cs))
    (hrest : t.isMark = true ∨ EndsToken rest) :
    frontText c (cs ++ rest) = c :: cs ∧ frontToken c (cs ++ rest) = t := by
  unfold frontText frontToken
  generalize hword : c :: cs = word at h
  cases h with
  | @number n x hn hdigit hreads =>
    have hends : EndsToken rest := hrest.resolve_left (by simp [Token.isMark])
    have htext : c :: (cs ++ rest) = n.text ++ rest := by
      rw [← hword]
      rfl
    rw [htext, if_pos (hn.startsAt_append hdigit rest), if_pos (hn.startsAt_append hdigit rest),
      hn.front_append hends, hreads]
    exact ⟨rfl, rfl⟩
  | @name x hx =>
    have hends : EndsToken rest := hrest.resolve_left (by simp [Token.isMark])
    rw [← hword, isName, Bool.and_eq_true, List.all_eq_true] at hx
    obtain ⟨hc, hcs⟩ := hx
    have hdigit : c.isDigit = false := by
      rw [← Bool.not_eq_true]
      intro hd
      rw [isNameStart_of_isDigit hd] at hc
      cases hc
    have hpoint : c ≠ '.' := by
      intro he
      subst he
      cases hc
    have htake : (cs ++ rest).takeWhile isNameChar = cs := by
      rw [List.takeWhile_append_of_pos hcs,
        takeWhile_eq_nil fun d hd => isNameChar_eq_false (hends d hd).1, List.append_nil]
    have hstart := Numeral.startsAt_eq_false hdigit hpoint (cs ++ rest)
    rw [hstart, hc, htake, hword]
    exact ⟨rfl, congrArg Token.name (String.ofList_toList)⟩
  | @mark t d hd =>
    obtain ⟨rfl, rfl⟩ := List.cons.inj hword
    have hends := endsToken_of_ofChar? hd [] c rfl
    have hstart := Numeral.startsAt_eq_false (isDigit_eq_false hends.1) hends.2 ([] ++ rest)
    rw [hstart, isNameStart_eq_false hends.1, hd]
    exact ⟨rfl, rfl⟩

/-- The first lexeme of a text that begins with a token as it is spelled. -/
theorem next?_of_spelled {t : Token} {blanks word rest : List Char}
    (hblank : ∀ c ∈ blanks, isBlank c = true) (hword : t.Spelled word)
    (hrest : t.isMark = true ∨ EndsToken rest) :
    next? (blanks ++ word ++ rest) = some (⟨blanks, word, t⟩, rest) := by
  obtain ⟨c, cs, rfl, hc⟩ := hword.exists_cons
  obtain ⟨htext, htoken⟩ := front_of_spelled hword hrest
  have htrim : trimLeft (blanks ++ (c :: cs) ++ rest) = c :: (cs ++ rest) := by
    rw [trimLeft, List.append_assoc, List.dropWhile_append_of_pos hblank, List.cons_append,
      List.dropWhile_cons_of_neg (by simp [hc])]
  have hbefore : (blanks ++ (c :: cs) ++ rest).takeWhile isBlank = blanks := by
    rw [List.append_assoc, List.takeWhile_append_of_pos hblank, List.cons_append,
      List.takeWhile_cons_of_neg (by simp [hc]), List.append_nil]
  have hafter : (c :: (cs ++ rest)).drop (c :: cs).length = rest := List.drop_left
  unfold next?
  rw [htrim, hbefore]
  simp only [htext, htoken, hafter]

/-- A lexeme that is no stray character is spelled. -/
theorem spelled_of_next? {s rest : List Char} {l : Lexeme} (h : next? s = some (l, rest))
    (hstray : ∀ c, l.token ≠ .stray c) : l.token.Spelled l.text := by
  obtain ⟨c, cs, rfl, _⟩ := next?_eq_some h
  simp only [frontToken, frontText] at hstray ⊢
  by_cases hnum : Numeral.startsAt (c :: cs) = true
  · have hformed := Numeral.front_wellFormed (c :: cs)
    have hdigit := Numeral.hasDigit_front hnum
    have hreads := hformed.readNumber?_text hdigit
    rw [if_pos hnum, if_pos hnum, hreads]
    exact .number hformed hdigit hreads
  · rw [if_neg hnum] at hstray ⊢
    rw [if_neg hnum]
    by_cases hname : isNameStart c = true
    · have hisName : isName (c :: cs.takeWhile isNameChar) = true :=
        isName_cons_takeWhile hname cs
      have hspelled : (Token.name (String.ofList (c :: cs.takeWhile isNameChar))).Spelled
          (String.ofList (c :: cs.takeWhile isNameChar)).toList :=
        .name (by rwa [String.toList_ofList])
      rw [String.toList_ofList] at hspelled
      rwa [if_pos hname, if_pos hname]
    · rw [if_neg hname] at hstray ⊢
      rw [if_neg hname]
      cases hc : Token.ofChar? c with
      | none => exact absurd (by rw [hc]; rfl) (hstray c)
      | some t => exact .mark hc

end Lexeme

/-- **A text that spells tokens is cut into these tokens.** -/
theorem Spells.tokens_eq {ts : List Token} {text : List Char} (h : Spells ts text)
    (hchain : ts.IsChain Token.Apart) : tokens text = ts := by
  induction h with
  | nil hblank => exact tokens_of_none ((Lexeme.next?_eq_none_iff _).2 hblank)
  | @cons t ts blanks word rest hblank hword hothers ih =>
    rw [List.isChain_cons] at hchain
    have hrest : t.isMark = true ∨ EndsToken rest := by
      by_cases ht : t.isMark = true
      · exact .inl ht
      · exact .inr (hothers.endsToken fun u hu => (hchain.1 u hu).resolve_left ht)
    rw [tokens_of_some (Lexeme.next?_of_spelled hblank hword hrest), ih hchain.2]

/-- **A text without stray characters spells its tokens.** -/
theorem spells_tokens {text : List Char} (hstray : ∀ c, .stray c ∉ tokens text) :
    Spells (tokens text) text := by
  cases hs : Lexeme.next? text with
  | none =>
    rw [tokens_of_none hs]
    exact .nil ((Lexeme.next?_eq_none_iff text).1 hs)
  | some lr =>
    obtain ⟨l, rest⟩ := lr
    rw [tokens_of_some hs] at hstray ⊢
    have hword : l.token.Spelled l.text :=
      Lexeme.spelled_of_next? hs fun c hc => hstray c (hc ▸ List.mem_cons_self)
    have hothers : Spells (tokens rest) rest :=
      spells_tokens fun c hc => hstray c (List.mem_cons_of_mem _ hc)
    have htext := Spells.cons (Lexeme.isBlank_of_mem_blanks hs) hword hothers
    rwa [Lexeme.append_rest_of_next? hs] at htext
termination_by text.length
decreasing_by exact Lexeme.length_lt_of_next? hs

end Recalc

import Mathlib.Data.List.Chain
import Mathlib.Data.List.TakeWhile
import Recalc.Formula
import Recalc.Proofs.Grammar

/-!
# No name is missed

The names that a formula depends on are collected from its text, and the names that its body
refers to come from the tokens. Two different scans could disagree on where a name begins. They
do not:

* **In a body, only an operator, a comma or a parenthesis stands before a name.** The grammar has
  no place where a name follows a number or a name.
* **Such a character is no part of a word**, and neither is a blank. So a word begins where the
  name does, and the scan of the text finds it.

The other direction is not claimed: the text of a formula can have names that the body has not.
-/

namespace Recalc

/-! ## Names among tokens -/

/-- The tokens that one character makes by itself. -/
def Token.isMark : Token → Bool
  | .plus | .minus | .star | .slash | .comma | .opening | .closing => true
  | .number _ | .name _ | .stray _ => false

/-- At least one of two tokens is a mark. -/
def Token.Apart (t u : Token) : Prop := t.isMark = true ∨ u.isMark = true

/-- If `u` is a name, then `t` may stand before it. -/
def Token.MayPrecede (t u : Token) : Prop := ∀ x, u = .name x → t.isMark = true

theorem Token.Apart.mayPrecede {t u : Token} (h : t.Apart u) : t.MayPrecede u := by
  intro x hu
  rcases h with h | h
  · exact h
  · rw [hu] at h
    cases h

theorem Token.isMark_of_sumOp? {t : Token} {op : BinaryOp} (h : t.sumOp? = some op) :
    t.isMark = true := by
  cases t <;> first | rfl | cases h

theorem Token.isMark_of_productOp? {t : Token} {op : BinaryOp} (h : t.productOp? = some op) :
    t.isMark = true := by
  cases t <;> first | rfl | cases h

theorem Token.isMark_of_sign? {t : Token} {sign : Sign} (h : t.sign? = some sign) :
    t.isMark = true := by
  cases t <;> first | rfl | cases h

/-- A mark may stand between any two sequences, -/
theorem isChain_around_mark {ts us : List Token} {t : Token} (ht : t.isMark = true)
    (hts : ts.IsChain Token.Apart) (hus : us.IsChain Token.Apart) :
    (ts ++ t :: us).IsChain Token.Apart := by
  rw [List.isChain_append, List.isChain_cons]
  refine ⟨hts, ⟨fun u _ => .inl ht, hus⟩, ?_⟩
  intro u _ v hv
  rw [List.head?_cons, Option.mem_some] at hv
  exact hv ▸ .inr ht

/-- in front of one, -/
theorem isChain_cons_mark {ts : List Token} {t : Token} (ht : t.isMark = true)
    (hts : ts.IsChain Token.Apart) : (t :: ts).IsChain Token.Apart :=
  isChain_around_mark ht .nil hts

/-- and behind one. -/
theorem isChain_append_mark {ts : List Token} {t : Token} (ht : t.isMark = true)
    (hts : ts.IsChain Token.Apart) : (ts ++ [t]).IsChain Token.Apart :=
  isChain_around_mark ht hts .nil

/-- **In a body numbers and names do not stand side by side.** -/
theorem Derives.isChain {p : Phrase} {ts : List Token} (h : Derives p ts) :
    ts.IsChain Token.Apart := by
  induction h with
  | ofProduct _ ih => exact ih
  | sum hop _ _ ihl ihr => exact isChain_around_mark (Token.isMark_of_sumOp? hop) ihl ihr
  | ofSigned _ ih => exact ih
  | product hop _ _ ihl ihr => exact isChain_around_mark (Token.isMark_of_productOp? hop) ihl ihr
  | ofPrimary _ ih => exact ih
  | signed hsign _ ih => exact isChain_cons_mark (Token.isMark_of_sign? hsign) ih
  | number x => exact .singleton _
  | name x => exact .singleton _
  | parentheses _ ih =>
    have hin := isChain_append_mark (t := .closing) rfl ih
    exact isChain_cons_mark rfl hin
  | call x _ ih =>
    have hin := isChain_append_mark (t := .closing) rfl ih
    exact isChain_around_mark (t := .opening) rfl (.singleton (.name x)) hin
  | noArgs => exact .nil
  | oneArg _ ih => exact ih
  | moreArgs _ _ ih ihs => exact isChain_around_mark rfl ih ihs

/-- Whether a name occurs in what a sequence of tokens stands for. -/
def Phrase.references (x : String) : Phrase → Bool
  | .sum e | .product e | .signed e | .primary e => e.references x
  | .args es => Expr.anyReferences x es

/-- **The names among the tokens of a phrase are the names that occur in it.** -/
theorem Derives.name_mem_iff {p : Phrase} {ts : List Token} (h : Derives p ts) (x : String) :
    Token.name x ∈ ts ↔ p.references x = true := by
  have hmark : ∀ t : Token, t.isMark = true → Token.name x ≠ t := by
    rintro t ht rfl
    cases ht
  induction h with
  | ofProduct _ ih | ofSigned _ ih | ofPrimary _ ih => exact ih
  | sum hop _ _ ihl ihr =>
    have hne := hmark _ (Token.isMark_of_sumOp? hop)
    simp only [List.mem_append, List.mem_cons, hne, false_or, ihl, ihr]
    simp [Phrase.references, Expr.references]
  | product hop _ _ ihl ihr =>
    have hne := hmark _ (Token.isMark_of_productOp? hop)
    simp only [List.mem_append, List.mem_cons, hne, false_or, ihl, ihr]
    simp [Phrase.references, Expr.references]
  | signed hsign _ ih =>
    have hne := hmark _ (Token.isMark_of_sign? hsign)
    simp only [List.mem_cons, hne, false_or, ih]
    simp [Phrase.references, Expr.references]
  | number y => simp [Phrase.references, Expr.references]
  | name y => simp [Phrase.references, Expr.references, eq_comm (a := x)]
  | parentheses _ ih =>
    simp only [List.mem_cons, List.mem_append, ih]
    simp [Phrase.references]
  | call y _ ih =>
    simp only [List.mem_cons, List.mem_append, ih]
    simp [Phrase.references, Expr.references, eq_comm (a := x)]
  | noArgs => simp [Phrase.references, Expr.anyReferences]
  | oneArg _ ih =>
    simp only [ih]
    simp [Phrase.references, Expr.anyReferences]
  | moreArgs _ _ ih ihs =>
    simp only [List.mem_append, List.mem_cons, ih, ihs]
    simp [Phrase.references, Expr.anyReferences]

/-! ## Where words end -/

/-- Blanks are no part of a word. -/
theorem isWordChar_of_isBlank {c : Char} (h : isBlank c = true) : isWordChar c = false := by
  have hall : ∀ n ∈ [9, 10, 11, 12, 13, 0x20, 0x85, 0xA0, 0x1680, 0x2000, 0x2001, 0x2002, 0x2003,
      0x2004, 0x2005, 0x2006, 0x2007, 0x2008, 0x2009, 0x200A, 0x2028, 0x2029, 0x202F, 0x205F,
      0x3000], isWordChar (Char.ofNat n) = false := by decide +kernel
  rw [← Char.ofNat_toNat c]
  refine hall c.toNat ?_
  simp only [isBlank, Bool.or_eq_true, Bool.and_eq_true, decide_eq_true_eq, beq_iff_eq] at h
  simp only [List.mem_cons, List.not_mem_nil, or_false]
  omega

/-- A character that makes a mark is no part of a word, and the mark is all it makes. -/
theorem isWordChar_of_ofChar? {c : Char} {t : Token} (h : Token.ofChar? c = some t) :
    isWordChar c = false := by
  unfold Token.ofChar? at h
  split at h
  all_goals first | decide +kernel | cases h

/-- Whether a text ends in the middle of a word, given that for what stands before it. -/
def endsInWord (inWord : Bool) (text : List Char) : Bool :=
  text.foldl (fun _ c => isWordChar c) inWord

theorem endsInWord_of_notWord {inWord : Bool} {text : List Char}
    (h : ∀ c ∈ text, isWordChar c = false) (hin : text = [] → inWord = false) :
    endsInWord inWord text = false := by
  induction text generalizing inWord with
  | nil => exact hin rfl
  | cons c cs ih =>
    exact ih (fun d hd => h d (List.mem_cons_of_mem c hd)) fun _ => h c List.mem_cons_self

theorem endsInWord_append_singleton (inWord : Bool) (text : List Char) (c : Char) :
    endsInWord inWord (text ++ [c]) = isWordChar c := by
  rw [endsInWord, List.foldl_append]
  rfl

/-- What occurs behind the front of a text occurs in the text. -/
theorem mem_nameOccurrences_append {name front rest : List Char} {inWord : Bool}
    (h : name ∈ nameOccurrences (endsInWord inWord front) rest) :
    name ∈ nameOccurrences inWord (front ++ rest) := by
  induction front generalizing inWord with
  | nil => exact h
  | cons c cs ih =>
    have h : name ∈ nameOccurrences (isWordChar c) (cs ++ rest) := ih h
    rw [List.cons_append, nameOccurrences]
    split
    · next hc =>
      rw [Bool.and_eq_true] at hc
      rw [isWordChar_of_isNameChar (isNameChar_of_isNameStart hc.2)] at h
      exact List.mem_cons_of_mem _ h
    · exact h

/-! ## Lexemes -/

namespace Lexeme

/-- What a lexeme is, and what is left. -/
theorem next?_eq_some {s rest : List Char} {l : Lexeme} (h : next? s = some (l, rest)) :
    ∃ c cs, l = ⟨s.takeWhile isBlank, frontText c cs, frontToken c cs⟩ ∧
      l.text ++ rest = c :: cs := by
  unfold next? at h
  split at h
  · cases h
  · next c cs _ =>
    simp only [Option.some.injEq, Prod.mk.injEq] at h
    obtain ⟨rfl, rfl⟩ := h
    exact ⟨c, cs, rfl, List.prefix_iff_eq_append.1 (frontText_isPrefix c cs)⟩

theorem isBlank_of_mem_blanks {s rest : List Char} {l : Lexeme} (h : next? s = some (l, rest)) :
    ∀ c ∈ l.blanks, isBlank c = true := by
  obtain ⟨c, cs, rfl, _⟩ := next?_eq_some h
  exact fun d hd => List.mem_takeWhile_imp hd

/-- A lexeme that makes a mark is one character, and no part of a word. -/
theorem text_of_isMark {s rest : List Char} {l : Lexeme} (h : next? s = some (l, rest))
    (hl : l.token.isMark = true) : ∃ c, l.text = [c] ∧ isWordChar c = false := by
  obtain ⟨c, cs, rfl, _⟩ := next?_eq_some h
  refine ⟨c, ?_⟩
  unfold frontToken at hl
  unfold frontText
  split at hl
  · cases hl
  · next hnum =>
    split at hl
    · cases hl
    · next hname =>
      rw [if_neg hnum, if_neg hname]
      cases hc : Token.ofChar? c with
      | none =>
        rw [hc] at hl
        cases hl
      | some t => exact ⟨rfl, isWordChar_of_ofChar? hc⟩

/-- A name stands where a scan that is not within a word finds it. -/
theorem mem_nameOccurrences_of_name {s rest : List Char} {l : Lexeme}
    (h : next? s = some (l, rest)) {x : String} (hx : l.token = .name x) :
    x.toList ∈ nameOccurrences false (l.text ++ rest) := by
  obtain ⟨c, cs, rfl, hrest⟩ := next?_eq_some h
  rw [hrest]
  unfold frontToken at hx
  split at hx
  · cases hx
  · split at hx
    · next hname =>
      cases hx
      rw [nameOccurrences, if_pos (by simp [hname]), String.toList_ofList]
      exact List.mem_cons_self
    · cases hc : Token.ofChar? c with
      | none =>
        rw [hc] at hx
        cases hx
      | some t =>
        rw [hc] at hx
        unfold Token.ofChar? at hc
        split at hc
        all_goals cases hc
        all_goals cases hx

end Lexeme

theorem lexemes_of_none {s : List Char} (h : Lexeme.next? s = none) : lexemes s = [] := by
  rw [lexemes]
  split
  · rfl
  · next h' => rw [h] at h'; cases h'

theorem lexemes_of_some {s rest : List Char} {l : Lexeme} (h : Lexeme.next? s = some (l, rest)) :
    lexemes s = l :: lexemes rest := by
  rw [lexemes]
  split
  · next h' => rw [h] at h'; cases h'
  · next h' => rw [h] at h'; cases h'; rfl

theorem tokens_of_none {s : List Char} (h : Lexeme.next? s = none) : tokens s = [] := by
  rw [tokens, lexemes_of_none h, List.map_nil]

theorem tokens_of_some {s rest : List Char} {l : Lexeme} (h : Lexeme.next? s = some (l, rest)) :
    tokens s = l.token :: tokens rest := by
  rw [tokens, lexemes_of_some h, List.map_cons, tokens]

/--
**Where only marks stand before names, the scan of the text finds every name.** A text that begins
within a word must not begin with a name.
-/
theorem mem_nameOccurrences_of_mem_tokens {s : List Char} {inWord : Bool}
    (hchain : (tokens s).IsChain Token.MayPrecede)
    (hfirst : inWord = true → ∀ x, (tokens s).head? ≠ some (.name x)) {x : String}
    (hx : Token.name x ∈ tokens s) : x.toList ∈ nameOccurrences inWord s := by
  cases hs : Lexeme.next? s with
  | none =>
    rw [tokens_of_none hs] at hx
    cases hx
  | some lr =>
    obtain ⟨l, rest⟩ := lr
    have hblanks := Lexeme.isBlank_of_mem_blanks hs
    rw [tokens_of_some hs] at hchain hfirst hx
    rw [← Lexeme.append_rest_of_next? hs]
    rcases List.mem_cons.mp hx with hl | hrest
    · -- blanks end a word, and without blanks the name is the first thing in the text
      have hword : endsInWord inWord l.blanks = false := by
        cases hin : inWord with
        | true => exact absurd (by rw [hl]; rfl) (hfirst hin x)
        | false =>
          have hgap : ∀ c ∈ l.blanks, isWordChar c = false := fun c hc =>
            isWordChar_of_isBlank (hblanks c hc)
          exact endsInWord_of_notWord hgap fun _ => rfl
      rw [List.append_assoc]
      refine mem_nameOccurrences_append ?_
      rw [hword]
      exact Lexeme.mem_nameOccurrences_of_name hs hl.symm
    · rw [List.isChain_cons] at hchain
      refine mem_nameOccurrences_append
        (mem_nameOccurrences_of_mem_tokens hchain.2 ?_ hrest)
      -- if a name comes next, this lexeme is a mark, and no word goes on behind it
      intro hword y hy
      have hmark : l.token.isMark = true := hchain.1 (.name y) hy y rfl
      obtain ⟨c, hc, hcword⟩ := Lexeme.text_of_isMark hs hmark
      rw [hc, endsInWord_append_singleton, hcword] at hword
      cases hword
termination_by s.length
decreasing_by exact Lexeme.length_lt_of_next? hs

/-! ## Formulas -/

namespace Formula

/-- A text is what stands before the first `c`, that `c`, and what stands behind it. -/
theorem takeWhile_append_cons {c : Char} {text : List Char} (h : text.contains c = true) :
    text.takeWhile (· != c) ++ c :: (text.dropWhile (· != c)).drop 1 = text := by
  induction text with
  | nil => cases h
  | cons d ds ih =>
    by_cases hd : d = c
    · subst hd
      simp
    · rw [List.contains_cons, Bool.or_eq_true, beq_iff_eq] at h
      have ih := ih (h.resolve_left fun he => hd he.symm)
      simpa [hd] using ih

/-- The two sides and the equal sign make up the text. -/
theorem leftSide_append_rightSide {text : List Char} (h : text.contains '=' = true) :
    leftSide text ++ '=' :: rightSide text = text :=
  takeWhile_append_cons h

/-- What a formula that is accepted was read from. -/
theorem parse_eq_ok {raw : String} {f : Formula} (h : parse raw = .ok f) :
    (trim raw.toList).contains '=' = true ∧
    Expr.parse (rightSide (trim raw.toList)) = .ok f.body ∧
    (f.dependsOn = (namesIn (trim raw.toList)).filter
      fun x => !(f.target :: f.params).contains x) ∧
    ∃ first ∈ namesIn (trim raw.toList), readHead (trim (leftSide (trim raw.toList)))
      (String.ofList (trim raw.toList)) first = .ok (f.target, f.params?) := by
  rw [parse] at h
  split at h
  · cases h
  · next heq =>
    split at h
    · cases h
    · split at h
      · cases h
      · next first others hnames =>
        obtain ⟨⟨target, params?⟩, hhead, h⟩ := exists_of_bind_eq_ok h
        obtain ⟨body, hbody, h⟩ := exists_of_bind_eq_ok h
        cases h
        rw [hnames]
        exact ⟨by simpa using heq, hbody, rfl, first, List.mem_cons_self, hhead⟩

/-- **Every name that a body refers to is the target, a parameter, or depended on.** -/
theorem tracked {raw : String} {f : Formula} (h : parse raw = .ok f) {x : String}
    (hx : f.body.references x = true) : x = f.target ∨ x ∈ f.params ∨ x ∈ f.dependsOn := by
  obtain ⟨heq, hbody, hdeps, -⟩ := parse_eq_ok h
  have hd : Derives (.sum f.body) (tokens (rightSide (trim raw.toList))) :=
    Expr.derives_of_parse_eq_ok hbody
  have hright : x.toList ∈ nameOccurrences false (rightSide (trim raw.toList)) :=
    mem_nameOccurrences_of_mem_tokens (hd.isChain.imp fun _ _ => Token.Apart.mayPrecede)
      (fun hf => by cases hf) ((hd.name_mem_iff x).2 hx)
  have htext : x.toList ∈ nameOccurrences false (trim raw.toList) := by
    rw [← leftSide_append_rightSide heq, List.append_cons]
    refine mem_nameOccurrences_append ?_
    rw [endsInWord_append_singleton]
    exact hright
  have hnames : x ∈ namesIn (trim raw.toList) := by
    rw [namesIn, List.mem_eraseDups]
    exact List.mem_map.2 ⟨x.toList, htext, String.ofList_toList⟩
  by_cases hhidden : x ∈ f.target :: f.params
  · rcases List.mem_cons.mp hhidden with hx | hx
    · exact .inl hx
    · exact .inr (.inl hx)
  · right; right
    rw [hdeps, List.mem_filter]
    exact ⟨hnames, by simpa using hhidden⟩

end Formula

end Recalc

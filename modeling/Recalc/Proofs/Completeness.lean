import Recalc.Equality
import Recalc.Proofs.Names

/-!
# Reading finds what is derived

The functions that read a body look one token ahead and never go back, so each of them commits
itself before it has seen the whole body. Nothing is lost by that:

* a name goes on as a call only before an opening parenthesis, a product only before `*` or `/`,
  and a sum only before `+` or `-`;
* if what stands behind a phrase is none of these, then reading the phrase takes exactly the tokens
  that it was derived from.

Sums and products are derived from the right end and read from the left. The statement about them
that goes through by induction is therefore about a loop: **reading the tokens of an operand is as
good as entering the loop with that operand**.

Together with the other direction, a body has one tree if it is accepted and none if it is not.
-/

namespace Recalc

/-- The reading succeeded with this value and left these tokens. -/
def Reads {α : Type} {ts : List Token} (x : Except ParseError (Parsed α ts)) (v : α)
    (rest : List Token) : Prop :=
  ∃ r, x = .ok r ∧ r.value = v ∧ r.rest = rest

/-- The loop succeeded with this value and left these tokens. -/
def ReadsTail {α : Type} {ts : List Token} (x : Except ParseError (ParsedTail α ts)) (v : α)
    (rest : List Token) : Prop :=
  ∃ r, x = .ok r ∧ r.value = v ∧ r.rest = rest

/-- No operation of the given level comes next. -/
def NoOpAhead (op? : Token → Option BinaryOp) (rest : List Token) : Prop :=
  ∀ t, rest.head? = some t → op? t = none

/-- No arguments come next. -/
def NoArgsAhead (rest : List Token) : Prop := ∀ t, rest.head? = some t → t ≠ .opening

theorem noArgsAhead_of_sumOp? {t : Token} {op : BinaryOp} (h : t.sumOp? = some op)
    (rest : List Token) : NoArgsAhead (t :: rest) := by
  rintro u hu rfl
  cases hu
  cases h

theorem noArgsAhead_of_productOp? {t : Token} {op : BinaryOp} (h : t.productOp? = some op)
    (rest : List Token) : NoArgsAhead (t :: rest) := by
  rintro u hu rfl
  cases hu
  cases h

/-- The signs are no operations of a product. -/
theorem noProductAhead_of_sumOp? {t : Token} {op : BinaryOp} (h : t.sumOp? = some op)
    (rest : List Token) : NoOpAhead Token.productOp? (t :: rest) := by
  intro u hu
  cases hu
  cases t <;> first | rfl | cases h

/-! ## One step of each function -/

section

variable {ts rest rest' : List Token} {t : Token} {e l r v : Expr} {es : List Expr}

theorem parseSum_of_parts (hfirst : Reads (parseProduct ts) e rest)
    (htail : ReadsTail (parseSumTail e rest) v rest') : Reads (parseSum ts) v rest' := by
  obtain ⟨first, hfirst, rfl, rfl⟩ := hfirst
  obtain ⟨sum, hsum, rfl, rfl⟩ := htail
  refine ⟨⟨sum.value, sum.rest, Nat.lt_of_le_of_lt sum.noLonger first.shorter⟩, ?_, rfl, rfl⟩
  rw [parseSum, hfirst]
  show (parseSumTail first.value first.rest >>= _) = _
  rw [hsum]
  rfl

theorem parseSumTail_of_op {op : BinaryOp} (hop : t.sumOp? = some op)
    (hright : Reads (parseProduct ts) r rest)
    (htail : ReadsTail (parseSumTail (.binary op l r) rest) v rest') :
    ReadsTail (parseSumTail l (t :: ts)) v rest' := by
  obtain ⟨right, hright, rfl, rfl⟩ := hright
  obtain ⟨sum, hsum, rfl, rfl⟩ := htail
  rw [parseSumTail]
  simp only [hop, hright]
  show ReadsTail (parseSumTail (.binary op l right.value) right.rest >>= _) _ _
  rw [hsum]
  exact ⟨_, rfl, rfl, rfl⟩

theorem parseSumTail_of_stop (h : NoOpAhead Token.sumOp? rest) :
    ReadsTail (parseSumTail l rest) l rest := by
  cases rest with
  | nil =>
    rw [parseSumTail]
    exact ⟨_, rfl, rfl, rfl⟩
  | cons t ts =>
    rw [parseSumTail]
    simp only [h t rfl]
    exact ⟨_, rfl, rfl, rfl⟩

theorem parseProduct_of_parts (hfirst : Reads (parseSigned ts) e rest)
    (htail : ReadsTail (parseProductTail e rest) v rest') : Reads (parseProduct ts) v rest' := by
  obtain ⟨first, hfirst, rfl, rfl⟩ := hfirst
  obtain ⟨product, hproduct, rfl, rfl⟩ := htail
  rw [parseProduct, hfirst]
  show Reads (parseProductTail first.value first.rest >>= _) _ _
  rw [hproduct]
  exact ⟨_, rfl, rfl, rfl⟩

theorem parseProductTail_of_op {op : BinaryOp} (hop : t.productOp? = some op)
    (hright : Reads (parseSigned ts) r rest)
    (htail : ReadsTail (parseProductTail (.binary op l r) rest) v rest') :
    ReadsTail (parseProductTail l (t :: ts)) v rest' := by
  obtain ⟨right, hright, rfl, rfl⟩ := hright
  obtain ⟨product, hproduct, rfl, rfl⟩ := htail
  rw [parseProductTail]
  simp only [hop, hright]
  show ReadsTail (parseProductTail (.binary op l right.value) right.rest >>= _) _ _
  rw [hproduct]
  exact ⟨_, rfl, rfl, rfl⟩

theorem parseProductTail_of_stop (h : NoOpAhead Token.productOp? rest) :
    ReadsTail (parseProductTail l rest) l rest := by
  cases rest with
  | nil =>
    rw [parseProductTail]
    exact ⟨_, rfl, rfl, rfl⟩
  | cons t ts =>
    rw [parseProductTail]
    simp only [h t rfl]
    exact ⟨_, rfl, rfl, rfl⟩

theorem parseSigned_of_sign {sign : Sign} (hsign : t.sign? = some sign)
    (h : Reads (parseSigned ts) e rest) : Reads (parseSigned (t :: ts)) (.signed sign e) rest := by
  obtain ⟨operand, hoperand, rfl, rfl⟩ := h
  rw [parseSigned]
  simp only [hsign, hoperand]
  exact ⟨_, rfl, rfl, rfl⟩

theorem parseSigned_of_primary (hsign : t.sign? = none) (h : Reads (parsePrimary t ts) e rest) :
    Reads (parseSigned (t :: ts)) e rest := by
  rw [parseSigned]
  simp only [hsign]
  exact h

theorem parsePrimary_number (x : Float) :
    Reads (parsePrimary (.number x) rest) (.number x) rest := by
  rw [parsePrimary.eq_def]
  exact ⟨_, rfl, rfl, rfl⟩

theorem parsePrimary_name (x : String) (h : NoArgsAhead rest) :
    Reads (parsePrimary (.name x) rest) (.name x) rest := by
  rw [parsePrimary.eq_def]
  dsimp only
  split
  · next us => exact absurd rfl (h .opening rfl)
  · exact ⟨_, rfl, rfl, rfl⟩

theorem parsePrimary_call (x : String) (h : Reads (parseArgs ts) es rest) :
    Reads (parsePrimary (.name x) (.opening :: ts)) (.call x es) rest := by
  obtain ⟨args, hargs, rfl, rfl⟩ := h
  rw [parsePrimary.eq_def]
  dsimp only
  rw [hargs]
  exact ⟨_, rfl, rfl, rfl⟩

theorem parsePrimary_parentheses (h : Reads (parseSum ts) e (.closing :: rest)) :
    Reads (parsePrimary .opening ts) e rest := by
  obtain ⟨⟨v, us, hlt⟩, hinner, rfl, hus⟩ := h
  cases hus
  rw [parsePrimary.eq_def]
  dsimp only
  rw [hinner]
  exact ⟨_, rfl, rfl, rfl⟩

/-- No expression begins with a closing parenthesis. -/
theorem parseSum_closing (ts : List Token) :
    parseSum (.closing :: ts) = .error (.unexpected (some .closing)) := by
  rw [parseSum, parseProduct, parseSigned]
  simp only [Token.sign?, parsePrimary]
  rfl

theorem parseArgs_of_parts (hfirst : Reads (parseSum ts) e rest)
    (hothers : Reads (parseMoreArgs rest) es rest') : Reads (parseArgs ts) (e :: es) rest' := by
  obtain ⟨first, hfirst, rfl, rfl⟩ := hfirst
  obtain ⟨others, hothers, rfl, rfl⟩ := hothers
  rw [parseArgs.eq_def]
  split
  · next us =>
    rw [parseSum_closing] at hfirst
    cases hfirst
  · rw [hfirst]
    show Reads (parseMoreArgs first.rest >>= _) _ _
    rw [hothers]
    exact ⟨_, rfl, rfl, rfl⟩

theorem parseArgs_closing : Reads (parseArgs (.closing :: rest)) [] rest := by
  rw [parseArgs.eq_def]
  exact ⟨_, rfl, rfl, rfl⟩

theorem parseMoreArgs_of_parts (hnext : Reads (parseSum ts) e rest)
    (hothers : Reads (parseMoreArgs rest) es rest') :
    Reads (parseMoreArgs (.comma :: ts)) (e :: es) rest' := by
  obtain ⟨next, hnext, rfl, rfl⟩ := hnext
  obtain ⟨others, hothers, rfl, rfl⟩ := hothers
  rw [parseMoreArgs.eq_def]
  dsimp only
  rw [hnext]
  show Reads (parseMoreArgs next.rest >>= _) _ _
  rw [hothers]
  exact ⟨_, rfl, rfl, rfl⟩

theorem parseMoreArgs_closing : Reads (parseMoreArgs (.closing :: rest)) [] rest := by
  rw [parseMoreArgs.eq_def]
  exact ⟨_, rfl, rfl, rfl⟩

end

/-! ## Derived phrases are read -/

/-- The tokens are read as the phrase, whatever stands behind them and is no part of it. -/
def Phrase.IsRead (ts : List Token) : Phrase → Prop
  | .sum e => ∀ rest, NoArgsAhead rest → NoOpAhead Token.productOp? rest → ∀ v rest',
    ReadsTail (parseSumTail e rest) v rest' → Reads (parseSum (ts ++ rest)) v rest'
  | .product e => ∀ rest, NoArgsAhead rest → ∀ v rest',
    ReadsTail (parseProductTail e rest) v rest' → Reads (parseProduct (ts ++ rest)) v rest'
  | .signed e => ∀ rest, NoArgsAhead rest → Reads (parseSigned (ts ++ rest)) e rest
  | .primary e => ∃ t us, ts = t :: us ∧ t.sign? = none ∧
    ∀ rest, NoArgsAhead rest → Reads (parsePrimary t (us ++ rest)) e rest
  | .args es => ∀ rest, Reads (parseArgs (ts ++ .closing :: rest)) es rest ∧
    (es ≠ [] → Reads (parseMoreArgs (.comma :: (ts ++ .closing :: rest))) es rest)

/-- An expression that is complete stands at the end, or before a parenthesis that closes what it is
in, or before a comma. -/
def EndsExpr (rest : List Token) : Prop := ∀ t, rest.head? = some t → t = .closing ∨ t = .comma

theorem endsExpr_nil : EndsExpr [] := fun _ ht => by cases ht

theorem endsExpr_closing (rest : List Token) : EndsExpr (.closing :: rest) :=
  fun _ ht => .inl (Option.some.inj ht).symm

theorem endsExpr_comma (rest : List Token) : EndsExpr (.comma :: rest) :=
  fun _ ht => .inr (Option.some.inj ht).symm

/-- A complete sum is read to its end. -/
theorem Phrase.IsRead.sum {ts rest : List Token} {e : Expr} (h : (Phrase.sum e).IsRead ts)
    (hrest : EndsExpr rest) : Reads (parseSum (ts ++ rest)) e rest := by
  refine h rest ?_ ?_ e rest (parseSumTail_of_stop ?_)
  · intro t ht
    rcases hrest t ht with rfl | rfl <;> exact Token.noConfusion
  · intro t ht
    rcases hrest t ht with rfl | rfl <;> rfl
  · intro t ht
    rcases hrest t ht with rfl | rfl <;> rfl

/-- **Derived phrases are read.** -/
theorem Derives.isRead {p : Phrase} {ts : List Token} (h : Derives p ts) : p.IsRead ts := by
  induction h with
  | ofProduct _ ih =>
    intro rest hargs hproduct v rest' htail
    exact parseSum_of_parts (ih rest hargs _ rest (parseProductTail_of_stop hproduct)) htail
  | @sum op t l r ts us hop _ _ ihl ihr =>
    intro rest hargs hproduct v rest' htail
    -- the left operand leaves the operation to the loop, which reads the right one
    have hright := ihr rest hargs _ rest (parseProductTail_of_stop hproduct)
    rw [List.append_assoc]
    exact ihl _ (noArgsAhead_of_sumOp? hop _) (noProductAhead_of_sumOp? hop _) v rest'
      (parseSumTail_of_op hop hright htail)
  | ofSigned _ ih =>
    intro rest hargs v rest' htail
    exact parseProduct_of_parts (ih rest hargs) htail
  | @product op t l r ts us hop _ _ ihl ihr =>
    intro rest hargs v rest' htail
    rw [List.append_assoc]
    exact ihl _ (noArgsAhead_of_productOp? hop _) v rest'
      (parseProductTail_of_op hop (ihr rest hargs) htail)
  | ofPrimary _ ih =>
    intro rest hargs
    obtain ⟨t, us, rfl, hsign, hread⟩ := ih
    exact parseSigned_of_primary hsign (hread rest hargs)
  | signed hsign _ ih =>
    intro rest hargs
    exact parseSigned_of_sign hsign (ih rest hargs)
  | number x => exact ⟨_, _, rfl, rfl, fun rest _ => parsePrimary_number x⟩
  | name x => exact ⟨_, _, rfl, rfl, fun rest hargs => parsePrimary_name x hargs⟩
  | parentheses _ ih =>
    refine ⟨_, _, rfl, rfl, ?_⟩
    intro rest _
    rw [List.append_assoc]
    exact parsePrimary_parentheses (ih.sum (endsExpr_closing rest))
  | call x _ ih =>
    refine ⟨_, _, rfl, rfl, ?_⟩
    intro rest _
    rw [List.cons_append, List.append_assoc]
    exact parsePrimary_call x (ih rest).1
  | noArgs => exact fun rest => ⟨parseArgs_closing, fun h => absurd rfl h⟩
  | oneArg _ ih =>
    intro rest
    have hsum := ih.sum (endsExpr_closing rest)
    exact ⟨parseArgs_of_parts hsum parseMoreArgs_closing,
      fun _ => parseMoreArgs_of_parts hsum parseMoreArgs_closing⟩
  | @moreArgs _ _ _ _ us _ _ ih ihs =>
    intro rest
    rw [List.append_assoc]
    have hsum := ih.sum (endsExpr_comma (us ++ .closing :: rest))
    have hothers := (ihs rest).2 (List.cons_ne_nil _ _)
    exact ⟨parseArgs_of_parts hsum hothers, fun _ => parseMoreArgs_of_parts hsum hothers⟩

/-- The whole of the tokens is read as the sum that they stand for. -/
theorem Derives.reads_sum {e : Expr} {ts : List Token} (h : Derives (.sum e) ts) :
    Reads (parseSum ts) e [] := by
  have hread : (Phrase.sum e).IsRead ts := h.isRead
  have hsum : Reads (parseSum (ts ++ [])) e [] := hread.sum endsExpr_nil
  rwa [List.append_nil] at hsum

/-- **The grammar is unambiguous.** -/
theorem Derives.sum_unique {e e' : Expr} {ts : List Token} (h : Derives (.sum e) ts)
    (h' : Derives (.sum e') ts) : e = e' := by
  obtain ⟨r, hr, rfl, _⟩ := h.reads_sum
  obtain ⟨r', hr', rfl, _⟩ := h'.reads_sum
  rw [hr] at hr'
  cases hr'
  rfl

theorem Expr.parse_eq_ok_of_derives {text : List Char} {e : Expr}
    (h : Derives (.sum e) (tokens text)) : Expr.parse text = .ok e := by
  obtain ⟨⟨v, rest, hlt⟩, hr, rfl, hrest⟩ := h.reads_sum
  cases hrest
  rw [Expr.parse, hr]
  rfl

/-- A character outside the language stands in no phrase. -/
theorem Derives.not_mem_stray {p : Phrase} {ts : List Token} (h : Derives p ts) (c : Char) :
    .stray c ∉ ts := by
  have hmark : ∀ t : Token, t.isMark = true → .stray c ≠ t := by
    rintro t ht rfl
    cases ht
  induction h with
  | ofProduct _ ih | ofSigned _ ih | ofPrimary _ ih | oneArg _ ih => exact ih
  | sum hop _ _ ihl ihr => simp [ihl, ihr, hmark _ (Token.isMark_of_sumOp? hop)]
  | product hop _ _ ihl ihr => simp [ihl, ihr, hmark _ (Token.isMark_of_productOp? hop)]
  | signed hs _ ih => simp [ih, hmark _ (Token.isMark_of_sign? hs)]
  | number x | name x | noArgs => simp
  | parentheses _ ih | call x _ ih => simp [ih]
  | moreArgs _ _ ih ihs => simp [ih, ihs]

/--
**The reader accepts the bodies of the grammar and no others, and builds their only tree.**

A text is read as an expression just when its tokens stand for that expression as a sum. There is
at most one such expression, whatever the text. Where there is none, and in particular where a
character outside the language occurs, the text is refused with a cause.
-/
theorem Expr.parse_iff_derives (text : List Char) :
    (∀ e, Expr.parse text = .ok e ↔ Derives (.sum e) (tokens text)) ∧
    (∀ e e', Derives (.sum e) (tokens text) → Derives (.sum e') (tokens text) → e = e') ∧
    ((∃ cause, Expr.parse text = .error cause) ↔ ∀ e, ¬ Derives (.sum e) (tokens text)) ∧
    (∀ c, .stray c ∈ tokens text → ∃ cause, Expr.parse text = .error cause) := by
  have hread : ∀ e, Expr.parse text = .ok e ↔ Derives (.sum e) (tokens text) :=
    fun e => ⟨derives_of_parse_eq_ok, parse_eq_ok_of_derives⟩
  have hrefused : (∃ cause, Expr.parse text = .error cause) ↔
      ∀ e, ¬ Derives (.sum e) (tokens text) := by
    constructor
    · rintro ⟨cause, hcause⟩ e he
      rw [(hread e).2 he] at hcause
      cases hcause
    · intro hnone
      cases hparse : Expr.parse text with
      | ok e => exact absurd ((hread e).1 hparse) (hnone e)
      | error cause => exact ⟨cause, rfl⟩
  refine ⟨hread, fun e e' h h' => h.sum_unique h', hrefused, ?_⟩
  intro c hc
  exact hrefused.2 fun e he => he.not_mem_stray c hc

/-- Differences group to the left and not to the right, and a dollar sign has no place in a body. -/
theorem Expr.parse_iff_derives_differences :
    Derives (.sum (.binary .sub (.binary .sub (.name "a") (.name "b")) (.name "c")))
      (tokens "a - b - c".toList) ∧
    ¬ Derives (.sum (.binary .sub (.name "a") (.binary .sub (.name "b") (.name "c"))))
      (tokens "a - b - c".toList) ∧
    ∃ cause, Expr.parse "a $ b".toList = .error cause := by
  obtain ⟨hread, hunique, -, -⟩ := Expr.parse_iff_derives "a - b - c".toList
  have hleft := (hread (.binary .sub (.binary .sub (.name "a") (.name "b")) (.name "c"))).1
    (by decide +kernel)
  refine ⟨hleft, ?_, (Expr.parse_iff_derives "a $ b".toList).2.2.2 '$' (by decide +kernel)⟩
  intro hright
  cases hunique _ _ hleft hright

end Recalc

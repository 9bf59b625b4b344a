import Recalc.Proofs.Spelling

/-!
# Writing a body

An expression is written with parentheses where its place asks for them, and with as many more as
one likes. Which operation has to be in parentheses depends on what it is an operand of:

* on the left of `*` and `/`, sums and differences;
* on the right of `*` and `/`, all operations;
* on the right of `+` and `-`, sums and differences, because these group to the left;
* behind a sign, all operations.

Then each token is spelled in one of its ways, with or without blanks around it.

**Reading a text gives an expression just when the text is a way to write that expression.** For the
parentheses this compares two descriptions of the same tokens: the grammar, which has a phrase for
each level, and the writing, which asks at each place what may stand there. A place has the phrase
of the widest level that it takes without parentheses.
-/

namespace Recalc

/-- How an operation is written. -/
def BinaryOp.token : BinaryOp → Token
  | .add => .plus
  | .sub => .minus
  | .mul => .star
  | .div => .slash

/-- How a sign is written. -/
def Sign.token : Sign → Token
  | .plus => .plus
  | .minus => .minus

/-- Whether an operation adds or subtracts. The others multiply or divide. -/
def BinaryOp.isSum : BinaryOp → Bool
  | .add | .sub => true
  | .mul | .div => false

/-- Where an expression stands. -/
inductive Place where
  /-- As a whole body, as an argument, or in parentheses. -/
  | free
  | left (op : BinaryOp)
  | right (op : BinaryOp)
  /-- Behind a sign. -/
  | signed

/-- Whether an operation has to be in parentheses at a place. -/
def Place.needsParentheses : Place → BinaryOp → Bool
  | .free, _ => false
  | .left outer, inner => !outer.isSum && inner.isSum
  | .right outer, inner => !outer.isSum || inner.isSum
  | .signed, _ => true

/-- What is written: an expression at a place, or the arguments of a call. -/
inductive Piece where
  | operand (p : Place) (e : Expr)
  | args (es : List Expr)

/-- The tokens are a way to write the piece. -/
inductive Written : Piece → List Token → Prop where
  | number {p : Place} (x : Float) : Written (.operand p (.number x)) [.number x]
  | name {p : Place} (x : String) : Written (.operand p (.name x)) [.name x]
  | binary {p : Place} {op : BinaryOp} {l r : Expr} {ts us : List Token}
      (bare : p.needsParentheses op = false) (left : Written (.operand (.left op) l) ts)
      (right : Written (.operand (.right op) r) us) :
      Written (.operand p (.binary op l r)) (ts ++ op.token :: us)
  | signed {p : Place} (sign : Sign) {e : Expr} {ts : List Token}
      (operand : Written (.operand .signed e) ts) :
      Written (.operand p (.signed sign e)) (sign.token :: ts)
  | call {p : Place} (x : String) {es : List Expr} {ts : List Token}
      (args : Written (.args es) ts) :
      Written (.operand p (.call x es)) (.name x :: .opening :: (ts ++ [.closing]))
  /-- Parentheses may stand around any expression. -/
  | parentheses {p : Place} {e : Expr} {ts : List Token} (inner : Written (.operand .free e) ts) :
      Written (.operand p e) (.opening :: (ts ++ [.closing]))
  | noArgs : Written (.args []) []
  | oneArg {e : Expr} {ts : List Token} (arg : Written (.operand .free e) ts) :
      Written (.args [e]) ts
  | moreArgs {e e' : Expr} {es : List Expr} {ts us : List Token}
      (arg : Written (.operand .free e) ts) (others : Written (.args (e' :: es)) us) :
      Written (.args (e :: e' :: es)) (ts ++ .comma :: us)

/-- The text is a way to write the expression. -/
def Expr.WrittenAs (e : Expr) (text : List Char) : Prop :=
  ∃ ts, Written (.operand .free e) ts ∧ Spells ts text

/-! ## Places and levels -/

namespace Place

variable {p : Place}

theorem needsParentheses_of_isSum {op : BinaryOp} (h : op.isSum = true) :
    p.needsParentheses op = p.needsParentheses .add := by
  cases p with
  | free => rfl
  | left outer => rw [needsParentheses, needsParentheses, h]; rfl
  | right outer => rw [needsParentheses, needsParentheses, h]; rfl
  | signed => rfl

theorem needsParentheses_of_not_isSum {op : BinaryOp} (h : op.isSum = false) :
    p.needsParentheses op = p.needsParentheses .mul := by
  cases p with
  | free => rfl
  | left outer => rw [needsParentheses, needsParentheses, h]; rfl
  | right outer => rw [needsParentheses, needsParentheses, h]; rfl
  | signed => rfl

/-- Where a sum may stand bare, a product may too. -/
theorem product_bare (h : p.needsParentheses .add = false) : p.needsParentheses .mul = false := by
  cases p with
  | free => rfl
  | left outer => simp [needsParentheses, BinaryOp.isSum]
  | right outer => simp [needsParentheses, BinaryOp.isSum] at h
  | signed => exact h

/-- The phrase that an expression makes at a place. -/
def phrase (p : Place) (e : Expr) : Phrase :=
  if p.needsParentheses .mul then .signed e
  else if p.needsParentheses .add then .product e
  else .sum e

variable {e : Expr} {ts : List Token}

/-- Where sums may stand bare, a sum makes the phrase, -/
theorem derives_of_sum (h : p.needsParentheses .add = false) (hd : Derives (.sum e) ts) :
    Derives (p.phrase e) ts := by
  rw [phrase, if_neg (by simp [product_bare h]), if_neg (by simp [h])]
  exact hd

/-- where products may, a product does, -/
theorem derives_of_product (h : p.needsParentheses .mul = false) (hd : Derives (.product e) ts) :
    Derives (p.phrase e) ts := by
  rw [phrase, if_neg (by simp [h])]
  split
  · exact hd
  · exact .ofProduct hd

/-- and a signed operand does so everywhere. -/
theorem derives_of_signed (hd : Derives (.signed e) ts) : Derives (p.phrase e) ts := by
  by_cases h : p.needsParentheses .mul = true
  · rw [phrase, if_pos h]
    exact hd
  · rw [Bool.not_eq_true] at h
    exact derives_of_product h (.ofSigned hd)

end Place

/-! ## What is written is derived -/

/-- The phrase that a piece makes. -/
def Piece.phrase : Piece → Phrase
  | .operand p e => p.phrase e
  | .args es => .args es

theorem Written.derives {piece : Piece} {ts : List Token} (h : Written piece ts) :
    Derives piece.phrase ts := by
  induction h with
  | number x => exact Place.derives_of_signed (.ofPrimary (.number x))
  | name x => exact Place.derives_of_signed (.ofPrimary (.name x))
  | @binary p op l r ts us bare _ _ ihl ihr =>
    -- each operation leaves to its operands the levels that its own phrase has for them
    cases op with
    | add => exact Place.derives_of_sum bare (.sum rfl ihl ihr)
    | sub =>
      rw [Place.needsParentheses_of_isSum rfl] at bare
      exact Place.derives_of_sum bare (.sum rfl ihl ihr)
    | mul => exact Place.derives_of_product bare (.product rfl ihl ihr)
    | div =>
      rw [Place.needsParentheses_of_not_isSum rfl] at bare
      exact Place.derives_of_product bare (.product rfl ihl ihr)
  | signed sign _ ih =>
    refine Place.derives_of_signed (.signed ?_ ih)
    cases sign <;> rfl
  | call x _ ih => exact Place.derives_of_signed (.ofPrimary (.call x ih))
  | parentheses _ ih => exact Place.derives_of_signed (.ofPrimary (.parentheses ih))
  | noArgs => exact .noArgs
  | oneArg _ ih => exact .oneArg ih
  | moreArgs _ _ ih ihs => exact .moreArgs ih ihs

/-! ## What is derived is written -/

theorem Token.eq_of_sumOp? {t : Token} {op : BinaryOp} (h : t.sumOp? = some op) :
    t = op.token ∧ op.isSum = true := by
  unfold sumOp? at h
  split at h
  · cases h; exact ⟨rfl, rfl⟩
  · cases h; exact ⟨rfl, rfl⟩
  · cases h

theorem Token.eq_of_productOp? {t : Token} {op : BinaryOp} (h : t.productOp? = some op) :
    t = op.token ∧ op.isSum = false := by
  unfold productOp? at h
  split at h
  · cases h; exact ⟨rfl, rfl⟩
  · cases h; exact ⟨rfl, rfl⟩
  · cases h

theorem Token.eq_of_sign? {t : Token} {sign : Sign} (h : t.sign? = some sign) :
    t = sign.token := by
  unfold sign? at h
  split at h
  · cases h; rfl
  · cases h; rfl
  · cases h

/-- The tokens are a way to write the phrase wherever its level may stand bare. -/
def Phrase.IsWritten (ts : List Token) : Phrase → Prop
  | .sum e => ∀ p : Place, p.needsParentheses .add = false → Written (.operand p e) ts
  | .product e => ∀ p : Place, p.needsParentheses .mul = false → Written (.operand p e) ts
  | .signed e | .primary e => ∀ p : Place, Written (.operand p e) ts
  | .args es => Written (.args es) ts

theorem Derives.isWritten {phrase : Phrase} {ts : List Token} (h : Derives phrase ts) :
    phrase.IsWritten ts := by
  induction h with
  | ofProduct _ ih => exact fun p hp => ih p (Place.product_bare hp)
  | @sum op t l r ts us hop _ _ ihl ihr =>
    intro p hp
    obtain ⟨rfl, hsum⟩ := Token.eq_of_sumOp? hop
    have hl : Written (.operand (.left op) l) ts :=
      ihl (.left op) (by rw [Place.needsParentheses, hsum]; rfl)
    have hr : Written (.operand (.right op) r) us :=
      ihr (.right op) (by rw [Place.needsParentheses, hsum]; rfl)
    exact .binary ((Place.needsParentheses_of_isSum hsum).trans hp) hl hr
  | ofSigned _ ih => exact fun p _ => ih p
  | @product op t l r ts us hop _ _ ihl ihr =>
    intro p hp
    obtain ⟨rfl, hsum⟩ := Token.eq_of_productOp? hop
    have hl : Written (.operand (.left op) l) ts :=
      ihl (.left op) (by simp [Place.needsParentheses, BinaryOp.isSum])
    exact .binary ((Place.needsParentheses_of_not_isSum hsum).trans hp) hl (ihr (.right op))
  | ofPrimary _ ih => exact ih
  | signed hsign _ ih =>
    intro p
    obtain rfl := Token.eq_of_sign? hsign
    exact .signed _ (ih .signed)
  | number x => exact fun p => .number x
  | name x => exact fun p => .name x
  | parentheses _ ih => exact fun p => .parentheses (ih .free rfl)
  | call x _ ih => exact fun p => .call x ih
  | noArgs => exact .noArgs
  | oneArg _ ih => exact .oneArg (ih .free rfl)
  | moreArgs _ _ ih ihs => exact .moreArgs (ih .free rfl) ihs

/-! ## Which expressions can be written -/

mutual

/-- The names are names, and each number can be written as a numeral. -/
def Expr.Writable : Expr → Prop
  | .number x => ∃ word, (Token.number x).Spelled word
  | .name x => isName x.toList = true
  | .binary _ left right => left.Writable ∧ right.Writable
  | .signed _ operand => operand.Writable
  | .call callee args => isName callee.toList = true ∧ AllWritable args

def Expr.AllWritable : List Expr → Prop
  | [] => True
  | e :: es => e.Writable ∧ AllWritable es

end

/-- What is said of an expression, said of a piece. -/
def Piece.Writable : Piece → Prop
  | .operand _ e => e.Writable
  | .args es => Expr.AllWritable es

/-- The tokens can be spelled. -/
def Spellable (ts : List Token) : Prop := ∀ t ∈ ts, ∃ word, t.Spelled word

theorem spellable_append {ts us : List Token} :
    Spellable (ts ++ us) ↔ Spellable ts ∧ Spellable us := List.forall_mem_append

theorem spellable_cons {t : Token} {ts : List Token} :
    Spellable (t :: ts) ↔ (∃ word, t.Spelled word) ∧ Spellable ts := List.forall_mem_cons

theorem spellable_nil : Spellable [] := fun _ ht => absurd ht List.not_mem_nil

/-- A text spells some tokens just when each of them can be spelled. -/
theorem exists_spells_iff {ts : List Token} : (∃ text, Spells ts text) ↔ Spellable ts := by
  constructor
  · intro h
    obtain ⟨text, h⟩ := h
    induction h with
    | nil => exact spellable_nil
    | cons _ hword _ ih => exact spellable_cons.2 ⟨⟨_, hword⟩, ih⟩
  · intro h
    induction ts with
    | nil => exact ⟨[], .nil fun _ hc => absurd hc List.not_mem_nil⟩
    | cons t ts ih =>
      obtain ⟨⟨word, hword⟩, hothers⟩ := spellable_cons.1 h
      obtain ⟨rest, hrest⟩ := ih hothers
      exact ⟨[] ++ word ++ rest, .cons (fun _ hc => absurd hc List.not_mem_nil) hword hrest⟩

theorem BinaryOp.spelled_token (op : BinaryOp) : ∃ word, op.token.Spelled word := by
  cases op with
  | add => exact ⟨_, .mark (c := '+') rfl⟩
  | sub => exact ⟨_, .mark (c := '-') rfl⟩
  | mul => exact ⟨_, .mark (c := '*') rfl⟩
  | div => exact ⟨_, .mark (c := '/') rfl⟩

theorem Sign.spelled_token (sign : Sign) : ∃ word, sign.token.Spelled word := by
  cases sign with
  | plus => exact ⟨_, .mark (c := '+') rfl⟩
  | minus => exact ⟨_, .mark (c := '-') rfl⟩

/-- Parentheses can be spelled. -/
theorem spellable_parentheses {ts : List Token} :
    Spellable (.opening :: (ts ++ [.closing])) ↔ Spellable ts := by
  have hopening : ∃ word, Token.opening.Spelled word := ⟨_, .mark (c := '(') rfl⟩
  have hclosing : ∃ word, Token.closing.Spelled word := ⟨_, .mark (c := ')') rfl⟩
  rw [spellable_cons, spellable_append, spellable_cons]
  exact ⟨fun h => h.2.1, fun h => ⟨hopening, h, hclosing, spellable_nil⟩⟩

theorem spelled_name_iff {x : String} :
    (∃ word, (Token.name x).Spelled word) ↔ isName x.toList = true := by
  constructor
  · intro h
    obtain ⟨word, h⟩ := h
    cases h with
    | name hx => exact hx
    | mark hc => cases Token.isMark_of_ofChar? hc
  · exact fun h => ⟨_, .name h⟩

/-- **What is written with tokens that can be spelled is writable.** -/
theorem Written.writable {piece : Piece} {ts : List Token} (h : Written piece ts)
    (hts : Spellable ts) : piece.Writable := by
  induction h with
  | number x => exact (spellable_cons.1 hts).1
  | name x => exact spelled_name_iff.1 (spellable_cons.1 hts).1
  | binary _ _ _ ihl ihr =>
    rw [spellable_append, spellable_cons] at hts
    exact ⟨ihl hts.1, ihr hts.2.2⟩
  | signed sign _ ih => exact ih (spellable_cons.1 hts).2
  | call x _ ih =>
    rw [spellable_cons, spellable_parentheses] at hts
    exact ⟨spelled_name_iff.1 hts.1, ih hts.2⟩
  | parentheses _ ih => exact ih (spellable_parentheses.1 hts)
  | noArgs => trivial
  | oneArg _ ih => exact ⟨ih hts, trivial⟩
  | moreArgs _ _ ih ihs =>
    rw [spellable_append, spellable_cons] at hts
    exact ⟨ih hts.1, ihs hts.2.2⟩

mutual

/-- **What is writable can be written**, at any place. -/
theorem Expr.Writable.exists_written (e : Expr) (h : e.Writable) :
    ∃ ts, Spellable ts ∧ ∀ p, Written (.operand p e) ts := by
  match e, h with
  | .number x, h => exact ⟨_, spellable_cons.2 ⟨h, spellable_nil⟩, fun p => .number x⟩
  | .name x, h =>
    exact ⟨_, spellable_cons.2 ⟨spelled_name_iff.2 h, spellable_nil⟩, fun p => .name x⟩
  | .binary op l r, h =>
    obtain ⟨ts, hts, hl⟩ := exists_written l h.1
    obtain ⟨us, hus, hr⟩ := exists_written r h.2
    have hall : Spellable (ts ++ op.token :: us) :=
      spellable_append.2 ⟨hts, spellable_cons.2 ⟨op.spelled_token, hus⟩⟩
    -- in parentheses an operation may stand anywhere
    exact ⟨_, spellable_parentheses.2 hall,
      fun p => .parentheses (.binary rfl (hl (.left op)) (hr (.right op)))⟩
  | .signed sign e, h =>
    obtain ⟨ts, hts, he⟩ := exists_written e h
    exact ⟨_, spellable_cons.2 ⟨sign.spelled_token, hts⟩, fun p => .signed sign (he .signed)⟩
  | .call x es, h =>
    obtain ⟨ts, hts, hes⟩ := exists_writtenArgs es h.2
    exact ⟨_, spellable_cons.2 ⟨spelled_name_iff.2 h.1, spellable_parentheses.2 hts⟩,
      fun p => .call x hes⟩

theorem Expr.Writable.exists_writtenArgs (es : List Expr) (h : Expr.AllWritable es) :
    ∃ ts, Spellable ts ∧ Written (.args es) ts := by
  match es, h with
  | [], _ => exact ⟨[], spellable_nil, .noArgs⟩
  | [e], h =>
    obtain ⟨ts, hts, he⟩ := exists_written e h.1
    exact ⟨ts, hts, .oneArg (he .free)⟩
  | e :: e' :: es, h =>
    obtain ⟨ts, hts, he⟩ := exists_written e h.1
    obtain ⟨us, hus, hes⟩ := exists_writtenArgs (e' :: es) h.2
    have hcomma : ∃ word, Token.comma.Spelled word := ⟨_, .mark (c := ',') rfl⟩
    exact ⟨_, spellable_append.2 ⟨hts, spellable_cons.2 ⟨hcomma, hus⟩⟩,
      .moreArgs (he .free) hes⟩

end

/--
**What is written is read, and nothing else is.**

Reading a text gives an expression just when the text is a way to write it: with its names as they
are, each number as a numeral that reads as that number, parentheses at least around each operation
that needs them at its place, and any blanks between the tokens or none. An expression has such a
text just when its names are names and its numbers can be written as numerals.
-/
theorem Expr.parse_eq_ok_iff_writtenAs (e : Expr) :
    (∀ text, Expr.parse text = .ok e ↔ e.WrittenAs text) ∧
    ((∃ text, e.WrittenAs text) ↔ e.Writable) := by
  refine ⟨fun text => ⟨?read, ?written⟩, ?writable, ?writing⟩
  case read =>
    intro h
    have hd : Derives (.sum e) (tokens text) := derives_of_parse_eq_ok h
    exact ⟨tokens text, hd.isWritten .free rfl, spells_tokens hd.not_mem_stray⟩
  case written =>
    intro h
    obtain ⟨ts, hwritten, hspells⟩ := h
    have hd : Derives (.sum e) ts := hwritten.derives
    have htokens : tokens text = ts := hspells.tokens_eq hd.isChain
    exact parse_eq_ok_of_derives (htokens ▸ hd)
  case writable =>
    intro h
    obtain ⟨text, ts, hwritten, hspells⟩ := h
    exact hwritten.writable (exists_spells_iff.1 ⟨text, hspells⟩)
  case writing =>
    intro h
    obtain ⟨ts, hts, hwritten⟩ := Expr.Writable.exists_written e h
    obtain ⟨text, hspells⟩ := exists_spells_iff.2 hts
    exact ⟨text, ts, hwritten .free, hspells⟩

example : Expr.parse " (a)-((\u00A0b+ -f( a,c)))".toList =
    .ok (.binary .sub (.name "a") (.binary .add (.name "b")
      (.signed .minus (.call "f" [.name "a", .name "c"])))) := by
  decide +kernel

end Recalc

import Recalc.Expr.Parser

/-!
# The grammar of bodies

What a body is, without saying how it is read:

* a **sum** is a product, or a sum and a product with `+` or `-` between them;
* a **product** is a signed operand, or a product and a signed operand with `*` or `/` between
  them;
* a **signed** operand is a primary, or a sign in front of a signed operand;
* a **primary** is a number, a name, a sum in parentheses, or a name in front of the arguments
  of a call in parentheses, which are sums with commas between them.

Sums and products have their operand on the left, so they group to the left. The functions that
read a body have a loop in that place: what such a loop is given is an operand already read, and
the lemma about it says how the operand grows.
-/

namespace Recalc

/-- What a sequence of tokens can stand for. -/
inductive Phrase where
  | sum (e : Expr)
  | product (e : Expr)
  | signed (e : Expr)
  | primary (e : Expr)
  | args (es : List Expr)

/-- The sequence of tokens stands for the phrase. -/
inductive Derives : Phrase → List Token → Prop where
  | ofProduct {e : Expr} {ts : List Token} : Derives (.product e) ts → Derives (.sum e) ts
  | sum {op : BinaryOp} {t : Token} {l r : Expr} {ts us : List Token} :
      t.sumOp? = some op → Derives (.sum l) ts → Derives (.product r) us →
      Derives (.sum (.binary op l r)) (ts ++ t :: us)
  | ofSigned {e : Expr} {ts : List Token} : Derives (.signed e) ts → Derives (.product e) ts
  | product {op : BinaryOp} {t : Token} {l r : Expr} {ts us : List Token} :
      t.productOp? = some op → Derives (.product l) ts → Derives (.signed r) us →
      Derives (.product (.binary op l r)) (ts ++ t :: us)
  | ofPrimary {e : Expr} {ts : List Token} : Derives (.primary e) ts → Derives (.signed e) ts
  | signed {sign : Sign} {t : Token} {e : Expr} {ts : List Token} : t.sign? = some sign →
      Derives (.signed e) ts → Derives (.signed (.signed sign e)) (t :: ts)
  | number (x : Float) : Derives (.primary (.number x)) [.number x]
  | name (x : String) : Derives (.primary (.name x)) [.name x]
  | parentheses {e : Expr} {ts : List Token} : Derives (.sum e) ts →
      Derives (.primary e) (.opening :: (ts ++ [.closing]))
  | call (x : String) {es : List Expr} {ts : List Token} : Derives (.args es) ts →
      Derives (.primary (.call x es)) (.name x :: .opening :: (ts ++ [.closing]))
  | noArgs : Derives (.args []) []
  | oneArg {e : Expr} {ts : List Token} : Derives (.sum e) ts → Derives (.args [e]) ts
  | moreArgs {e e' : Expr} {es : List Expr} {ts us : List Token} : Derives (.sum e) ts →
      Derives (.args (e' :: es)) us → Derives (.args (e :: e' :: es)) (ts ++ .comma :: us)

/-- The tokens begin with a sequence that stands for the phrase, and `rest` is left. -/
def Phrase.Heads (p : Phrase) (ts rest : List Token) : Prop :=
  ∃ us, ts = us ++ rest ∧ Derives p us

/-! ## What is read is derived -/

/-- A step after which the reading succeeded did succeed. -/
theorem exists_of_bind_eq_ok {ε α β : Type} {x : Except ε α} {f : α → Except ε β} {b : β}
    (h : x >>= f = .ok b) : ∃ a, x = .ok a ∧ f a = .ok b := by
  cases x with
  | error e => cases h
  | ok a => exact ⟨a, rfl, h⟩

theorem parseClosing_sound {ts : List Token} {r : Parsed Unit ts} (h : parseClosing ts = .ok r) :
    ts = .closing :: r.rest := by
  unfold parseClosing at h
  split at h
  · cases h
    rfl
  · cases h

/-- All the ways to read a primary. -/
theorem parsePrimary_eq_ok {t : Token} {ts : List Token} {r : Parsed Expr (t :: ts)}
    (h : parsePrimary t ts = .ok r) :
    (∃ x, t = .number x ∧ r.value = .number x ∧ r.rest = ts) ∨
    (∃ x, t = .name x ∧ r.value = .name x ∧ r.rest = ts) ∨
    (∃ x us args, t = .name x ∧ ts = .opening :: us ∧ parseArgs us = .ok args ∧
      r.value = .call x args.value ∧ r.rest = args.rest) ∨
    (∃ inner, t = .opening ∧ parseSum ts = .ok inner ∧ inner.rest = .closing :: r.rest ∧
      r.value = inner.value) := by
  rw [parsePrimary.eq_def] at h
  split at h
  · next x =>
    cases h
    exact .inl ⟨x, rfl, rfl, rfl⟩
  · next x =>
    split at h
    · next us =>
      obtain ⟨args, hargs, h⟩ := exists_of_bind_eq_ok h
      cases h
      exact .inr (.inr (.inl ⟨x, us, args, rfl, rfl, hargs, rfl, rfl⟩))
    · cases h
      exact .inr (.inl ⟨x, rfl, rfl, rfl⟩)
  · obtain ⟨inner, hinner, h⟩ := exists_of_bind_eq_ok h
    obtain ⟨close, hclose, h⟩ := exists_of_bind_eq_ok h
    cases h
    exact .inr (.inr (.inr ⟨inner, rfl, hinner, parseClosing_sound hclose, rfl⟩))
  · cases h

/-- After an argument comes the end of the call or a comma and the next argument. -/
theorem parseMoreArgs_eq_ok {ts : List Token} {r : Parsed (List Expr) ts}
    (h : parseMoreArgs ts = .ok r) :
    (ts = .closing :: r.rest ∧ r.value = []) ∨
    (∃ us next others, ts = .comma :: us ∧ parseSum us = .ok next ∧
      parseMoreArgs next.rest = .ok others ∧ r.value = next.value :: others.value ∧
      r.rest = others.rest) := by
  rw [parseMoreArgs.eq_def] at h
  split at h
  · next us =>
    obtain ⟨next, hnext, h⟩ := exists_of_bind_eq_ok h
    obtain ⟨others, hothers, h⟩ := exists_of_bind_eq_ok h
    cases h
    exact .inr ⟨us, next, others, rfl, hnext, hothers, rfl, rfl⟩
  · cases h
    exact .inl ⟨rfl, rfl⟩
  · cases h

mutual

theorem parseSum_sound (ts : List Token) (r : Parsed Expr ts) (h : parseSum ts = .ok r) :
    (Phrase.sum r.value).Heads ts r.rest := by
  rw [parseSum] at h
  obtain ⟨first, hfirst, h⟩ := exists_of_bind_eq_ok h
  obtain ⟨sum, hsum, h⟩ := exists_of_bind_eq_ok h
  cases h
  obtain ⟨us, hus, hd⟩ := parseProduct_sound ts first hfirst
  obtain ⟨vs, hvs, hd⟩ := parseSumTail_sound first.value first.rest sum hsum us (.ofProduct hd)
  exact ⟨us ++ vs, by rw [List.append_assoc, ← hvs]; exact hus, hd⟩
termination_by 6 * ts.length + 5
decreasing_by
  · omega
  · have := first.shorter; omega

/-- What was read before becomes the left operand of what the loop reads. -/
theorem parseSumTail_sound (left : Expr) (ts : List Token) (r : ParsedTail Expr ts)
    (h : parseSumTail left ts = .ok r) (us : List Token) (hleft : Derives (.sum left) us) :
    ∃ vs, ts = vs ++ r.rest ∧ Derives (.sum r.value) (us ++ vs) := by
  match ts, r, h with
  | [], r, h =>
    rw [parseSumTail] at h
    cases h
    exact ⟨[], rfl, by rwa [List.append_nil]⟩
  | t :: ts, r, h =>
    rw [parseSumTail] at h
    split at h
    · cases h
      exact ⟨[], rfl, by rwa [List.append_nil]⟩
    · next op hop =>
      obtain ⟨right, hright, h⟩ := exists_of_bind_eq_ok h
      obtain ⟨sum, hsum, h⟩ := exists_of_bind_eq_ok h
      cases h
      obtain ⟨vs, hvs, hd⟩ := parseProduct_sound ts right hright
      obtain ⟨ws, hws, hd⟩ := parseSumTail_sound (.binary op left right.value) right.rest sum hsum
        (us ++ t :: vs) (.sum hop hleft hd)
      refine ⟨t :: (vs ++ ws), ?_, ?_⟩
      · rw [List.cons_append, List.append_assoc, ← hws, ← hvs]
      · rwa [List.append_assoc, List.cons_append] at hd
termination_by 6 * ts.length + 4
decreasing_by
  · simp only [List.length_cons]; omega
  · have := right.shorter; simp only [List.length_cons]; omega

theorem parseProduct_sound (ts : List Token) (r : Parsed Expr ts) (h : parseProduct ts = .ok r) :
    (Phrase.product r.value).Heads ts r.rest := by
  rw [parseProduct] at h
  obtain ⟨first, hfirst, h⟩ := exists_of_bind_eq_ok h
  obtain ⟨product, hproduct, h⟩ := exists_of_bind_eq_ok h
  cases h
  obtain ⟨us, hus, hd⟩ := parseSigned_sound ts first hfirst
  obtain ⟨vs, hvs, hd⟩ :=
    parseProductTail_sound first.value first.rest product hproduct us (.ofSigned hd)
  exact ⟨us ++ vs, by rw [List.append_assoc, ← hvs]; exact hus, hd⟩
termination_by 6 * ts.length + 4
decreasing_by
  · omega
  · have := first.shorter; omega

theorem parseProductTail_sound (left : Expr) (ts : List Token) (r : ParsedTail Expr ts)
    (h : parseProductTail left ts = .ok r) (us : List Token) (hleft : Derives (.product left) us) :
    ∃ vs, ts = vs ++ r.rest ∧ Derives (.product r.value) (us ++ vs) := by
  match ts, r, h with
  | [], r, h =>
    rw [parseProductTail] at h
    cases h
    exact ⟨[], rfl, by rwa [List.append_nil]⟩
  | t :: ts, r, h =>
    rw [parseProductTail] at h
    split at h
    · cases h
      exact ⟨[], rfl, by rwa [List.append_nil]⟩
    · next op hop =>
      obtain ⟨right, hright, h⟩ := exists_of_bind_eq_ok h
      obtain ⟨product, hproduct, h⟩ := exists_of_bind_eq_ok h
      cases h
      obtain ⟨vs, hvs, hd⟩ := parseSigned_sound ts right hright
      obtain ⟨ws, hws, hd⟩ := parseProductTail_sound (.binary op left right.value) right.rest
        product hproduct (us ++ t :: vs) (.product hop hleft hd)
      refine ⟨t :: (vs ++ ws), ?_, ?_⟩
      · rw [List.cons_append, List.append_assoc, ← hws, ← hvs]
      · rwa [List.append_assoc, List.cons_append] at hd
termination_by 6 * ts.length + 3
decreasing_by
  · simp only [List.length_cons]; omega
  · have := right.shorter; simp only [List.length_cons]; omega

theorem parseSigned_sound (ts : List Token) (r : Parsed Expr ts) (h : parseSigned ts = .ok r) :
    (Phrase.signed r.value).Heads ts r.rest := by
  match ts, r, h with
  | [], r, h =>
    rw [parseSigned] at h
    cases h
  | t :: ts, r, h =>
    rw [parseSigned] at h
    split at h
    · obtain ⟨us, hus, hd⟩ := parsePrimary_sound t ts r h
      exact ⟨us, hus, .ofPrimary hd⟩
    · next sign hsign =>
      obtain ⟨operand, hoperand, h⟩ := exists_of_bind_eq_ok h
      cases h
      obtain ⟨us, hus, hd⟩ := parseSigned_sound ts operand hoperand
      exact ⟨t :: us, by rw [List.cons_append, ← hus], .signed hsign hd⟩
termination_by 6 * ts.length + 3
decreasing_by
  · simp only [List.length_cons]; omega
  · simp only [List.length_cons]; omega

theorem parsePrimary_sound (t : Token) (ts : List Token) (r : Parsed Expr (t :: ts))
    (h : parsePrimary t ts = .ok r) : (Phrase.primary r.value).Heads (t :: ts) r.rest := by
  rcases parsePrimary_eq_ok h with ⟨x, ht, hv, hr⟩ | ⟨x, ht, hv, hr⟩ |
      ⟨x, us, args, ht, hts, hargs, hv, hr⟩ | ⟨inner, ht, hinner, hclose, hv⟩
  · rw [hv, hr, ht]
    exact ⟨[.number x], rfl, .number x⟩
  · rw [hv, hr, ht]
    exact ⟨[.name x], rfl, .name x⟩
  · obtain ⟨vs, hvs, hd⟩ := parseArgs_sound us args hargs
    rw [hv, hr, ht, hts]
    exact ⟨.name x :: .opening :: (vs ++ [.closing]), by simp [hvs], .call x hd⟩
  · obtain ⟨vs, hvs, hd⟩ := parseSum_sound ts inner hinner
    rw [hclose] at hvs
    rw [hv]
    refine ⟨.opening :: (vs ++ [.closing]), ?_, .parentheses hd⟩
    calc t :: ts = .opening :: (vs ++ .closing :: r.rest) := by rw [← hvs, ← ht]
      _ = .opening :: (vs ++ [.closing]) ++ r.rest := by simp
termination_by 6 * ts.length + 6
decreasing_by
  · have := congrArg List.length hts; simp only [List.length_cons] at this; omega
  · omega

theorem parseArgs_sound (ts : List Token) (r : Parsed (List Expr) ts) (h : parseArgs ts = .ok r) :
    ∃ us, ts = us ++ .closing :: r.rest ∧ Derives (.args r.value) us := by
  rw [parseArgs.eq_def] at h
  split at h
  · cases h
    exact ⟨[], rfl, .noArgs⟩
  · obtain ⟨first, hfirst, h⟩ := exists_of_bind_eq_ok h
    obtain ⟨others, hothers, h⟩ := exists_of_bind_eq_ok h
    cases h
    obtain ⟨us, hus, hd⟩ := parseSum_sound ts first hfirst
    obtain ⟨vs, hvs, hd⟩ := parseMoreArgs_sound first.rest others hothers first.value us hd
    exact ⟨us ++ vs, by rw [List.append_assoc, ← hvs]; exact hus, hd⟩
termination_by 6 * ts.length + 6
decreasing_by
  · omega
  · have := first.shorter; omega

/-- The argument read before comes first. -/
theorem parseMoreArgs_sound (ts : List Token) (r : Parsed (List Expr) ts)
    (h : parseMoreArgs ts = .ok r) (first : Expr) (us : List Token)
    (hfirst : Derives (.sum first) us) :
    ∃ vs, ts = vs ++ .closing :: r.rest ∧ Derives (.args (first :: r.value)) (us ++ vs) := by
  rcases parseMoreArgs_eq_ok h with ⟨hts, hv⟩ | ⟨ws, next, others, hts, hnext, hothers, hv, hr⟩
  · rw [hv]
    exact ⟨[], hts, by rw [List.append_nil]; exact .oneArg hfirst⟩
  · obtain ⟨vs, hvs, hd⟩ := parseSum_sound ws next hnext
    obtain ⟨ws', hws', hd⟩ := parseMoreArgs_sound next.rest others hothers next.value vs hd
    rw [hv, hr]
    refine ⟨.comma :: (vs ++ ws'), ?_, .moreArgs hfirst hd⟩
    rw [List.cons_append, List.append_assoc, ← hws', ← hvs]
    exact hts
termination_by 6 * ts.length + 6
decreasing_by
  · have := congrArg List.length hts; simp only [List.length_cons] at this; omega
  · have := congrArg List.length hts
    have := next.shorter
    simp only [List.length_cons] at *; omega

end

/-- **The tokens of a body that is accepted stand for the sum that was read.** -/
theorem Expr.derives_of_parse_eq_ok {text : List Char} {e : Expr} (h : Expr.parse text = .ok e) :
    Derives (.sum e) (tokens text) := by
  unfold Expr.parse at h
  obtain ⟨sum, hsum, h⟩ := exists_of_bind_eq_ok h
  obtain ⟨us, hus, hd⟩ := parseSum_sound (tokens text) sum hsum
  split at h
  · next hrest =>
    cases h
    rw [hrest, List.append_nil] at hus
    exact hus ▸ hd
  · cases h

end Recalc

import Recalc.Equality
import Recalc.Proofs.NameScan

/-!
# What a formula depends on

The left side of a formula has the target and the parameters for its names and no others, whatever
blanks stand between them. So the names that a formula depends on are those that the scan finds in
the body, each once, in the order of the body, without the target and the parameters.

* **Nothing is missed**: every name of the body is among them.
* **The exponent of a numeral with a bare point is among them too.** It is the one thing in them
  that the body does not refer to, and the one thing that can stand before its time: where a name
  occurs in such an exponent first, it takes its place in the order from there.
-/

namespace Recalc

/-! ## The order of first occurrences -/

section Leads

variable {α β : Type} {a b : α}

/-- The list has an `a` that stands before every `b`. -/
def Leads (a b : α) (xs : List α) : Prop := ∃ pre post, xs = pre ++ a :: post ∧ b ∉ pre ++ [a]

theorem Leads.head (hne : b ≠ a) (xs : List α) : Leads a b (a :: xs) :=
  ⟨[], xs, rfl, by simpa using hne⟩

theorem Leads.cons {x : α} {xs : List α} (h : Leads a b xs) (hne : b ≠ x) :
    Leads a b (x :: xs) := by
  obtain ⟨pre, post, rfl, hb⟩ := h
  refine ⟨x :: pre, post, rfl, ?_⟩
  rw [List.cons_append, List.mem_cons, not_or]
  exact ⟨hne, hb⟩

/-- What leads in the results comes from something before everything that gives the other. -/
theorem Leads.of_filterMap {f : β → Option α} {xs : List β} (h : Leads a b (xs.filterMap f)) :
    ∃ pre x post, xs = pre ++ x :: post ∧ f x = some a ∧ ∀ y ∈ pre ++ [x], f y ≠ some b := by
  obtain ⟨as, bs, hxs, hb⟩ := h
  obtain ⟨front, back, rfl, rfl, hback⟩ := List.filterMap_eq_append_iff.1 hxs
  obtain ⟨skipped, x, post, rfl, hnone, hx, -⟩ := List.filterMap_eq_cons_iff.1 hback
  refine ⟨front ++ skipped, x, post, by rw [List.append_assoc], hx, ?_⟩
  intro y hy hyb
  rw [List.mem_append, not_or] at hb
  rcases List.mem_append.mp hy with hy | hy
  · rcases List.mem_append.mp hy with hy | hy
    · exact hb.1 (List.mem_filterMap.2 ⟨y, hy, hyb⟩)
    · rw [hnone y hy] at hyb
      cases hyb
  · rw [List.mem_singleton.mp hy, hx] at hyb
    cases hyb
    exact hb.2 List.mem_cons_self

theorem Leads.map {f : β → α} {pre : List β} {x : β} (hx : f x = a)
    (hpre : ∀ y ∈ pre ++ [x], f y ≠ b) (post : List β) : Leads a b ((pre ++ x :: post).map f) := by
  refine ⟨pre.map f, post.map f, by rw [List.map_append, List.map_cons, hx], ?_⟩
  intro hmem
  rw [← hx, ← List.map_singleton, ← List.map_append] at hmem
  obtain ⟨y, hy, hyb⟩ := List.mem_map.1 hmem
  exact hpre y hy hyb

/-- What a filter leaves out does not matter, if it leaves `b` in. -/
theorem Leads.of_filter {p : α → Bool} {xs : List α} (h : Leads a b (xs.filter p))
    (hb : p b = true) : Leads a b xs := by
  rw [← List.filterMap_eq_filter] at h
  obtain ⟨pre, x, post, rfl, hx, hpre⟩ := h.of_filterMap
  have hxa : x = a := by
    rw [Option.guard_eq_some_iff] at hx
    exact hx.1
  subst hxa
  exact ⟨pre, post, rfl, fun hmem => hpre b hmem (by simp [hb])⟩

theorem Leads.idxOf_lt [BEq α] [LawfulBEq α] {xs : List α} (h : Leads a b xs) :
    xs.idxOf a < xs.idxOf b := by
  obtain ⟨pre, post, rfl, hb⟩ := h
  have ha : a ∈ pre ++ [a] := List.mem_append_right pre List.mem_cons_self
  rw [List.append_cons, List.idxOf_append_of_mem ha, List.idxOf_append_of_notMem hb]
  exact Nat.lt_of_lt_of_le (List.idxOf_lt_length_of_mem ha) (Nat.le_add_right _ _)

/-- Duplicates are erased from behind, so the first occurrences give the order. -/
theorem pairwise_leads_eraseDups [BEq α] [LawfulBEq α] (xs : List α) :
    xs.eraseDups.Pairwise fun a b => Leads a b xs := by
  match xs with
  | [] => exact .nil
  | x :: xs =>
    have ih := pairwise_leads_eraseDups (xs.filter fun y => !y == x)
    rw [List.eraseDups_cons, List.pairwise_cons]
    have hne : ∀ b ∈ (xs.filter fun y => !y == x).eraseDups, b ≠ x := by
      intro b hb
      rw [List.mem_eraseDups, List.mem_filter] at hb
      simpa using hb.2
    refine ⟨fun b hb => .head (hne b hb) xs, ih.imp_of_mem ?_⟩
    -- neither the occurrences of `x` erased behind it nor `x` itself come between two others
    intro a b _ hb hab
    exact (hab.of_filter (by simpa using hne b hb)).cons (hne b hb)
termination_by xs.length
decreasing_by exact Nat.lt_succ_of_le (List.length_filter_le _ xs)

theorem nodup_eraseDups [BEq α] [LawfulBEq α] (xs : List α) : xs.eraseDups.Nodup := by
  refine (pairwise_leads_eraseDups xs).imp ?_
  rintro a b ⟨pre, post, -, hb⟩ rfl
  exact hb (List.mem_append_right pre List.mem_cons_self)

end Leads

/-! ## The names of the left side -/

/-- A text is what it is without the blanks at its ends, and these blanks. -/
theorem exists_blanks_trim (text : List Char) :
    ∃ before behind, text = before ++ trim text ++ behind ∧
      (∀ c ∈ before, isBlank c = true) ∧ ∀ c ∈ behind, isBlank c = true := by
  refine ⟨text.takeWhile isBlank, ((trimLeft text).reverse.takeWhile isBlank).reverse, ?_,
    fun c hc => List.mem_takeWhile_imp hc,
    fun c hc => List.mem_takeWhile_imp (List.mem_reverse.mp hc)⟩
  have hright : trim text ++ ((trimLeft text).reverse.takeWhile isBlank).reverse =
      trimLeft text := by
    rw [trim, trimRight, ← List.reverse_append, List.takeWhile_append_dropWhile,
      List.reverse_reverse]
  rw [List.append_assoc, hright, trimLeft, List.takeWhile_append_dropWhile]

/-- Blanks at the ends of a text show no name. -/
theorem nameOccurrences_trim (text : List Char) :
    nameOccurrences false (trim text) = nameOccurrences false text := by
  obtain ⟨before, behind, htext, hbefore, hbehind⟩ := exists_blanks_trim text
  have hbreaks : BreaksWord behind := fun c hc =>
    isWordChar_of_isBlank (hbehind c (List.mem_of_mem_head? hc))
  have hfront : endsInWord false before = false :=
    endsInWord_of_notWord (fun c hc => isWordChar_of_isBlank (hbefore c hc)) fun _ => rfl
  calc nameOccurrences false (trim text)
      = nameOccurrences false (trim text ++ behind) := by
        rw [nameOccurrences_append_of_breaksWord hbreaks, nameOccurrences_eq_nil_of_noStart
          fun c hc => isNameStart_of_isBlank (hbehind c hc)]
        rw [List.append_nil]
    _ = nameOccurrences false (before ++ (trim text ++ behind)) := by
        rw [nameOccurrences_append_of_noStart fun c hc => isNameStart_of_isBlank (hbefore c hc)]
        rw [hfront]
    _ = nameOccurrences false text := by rw [← List.append_assoc, ← htext]

theorem nameOccurrences_of_isName_trim {text : List Char} (h : isName (trim text) = true) :
    nameOccurrences false text = [trim text] := by
  rw [← nameOccurrences_trim, nameOccurrences_of_isName h]

/-- The names on both sides of a character that is in no word. -/
theorem nameOccurrences_around {c : Char} (hc : isWordChar c = false) (front rest : List Char) :
    nameOccurrences false (front ++ c :: rest) =
      nameOccurrences false front ++ nameOccurrences false rest := by
  rw [nameOccurrences_append_of_breaksWord (breaksWord_cons hc rest),
    nameOccurrences_cons_of_notWord hc]

theorem isName_of_mem_nameOccurrences {text name : List Char} {inWord : Bool}
    (h : name ∈ nameOccurrences inWord text) : isName name = true := by
  induction text generalizing inWord with
  | nil => cases h
  | cons c cs ih =>
    rw [nameOccurrences] at h
    split at h
    · next hc =>
      rw [Bool.and_eq_true] at hc
      rcases List.mem_cons.mp h with rfl | h
      · exact isName_cons_takeWhile hc.2 cs
      · exact ih h
    · exact ih h

theorem isName_of_mem_namesIn {text : List Char} {x : String} (h : x ∈ namesIn text) :
    isName x.toList = true := by
  rw [namesIn, List.mem_eraseDups, List.mem_map] at h
  obtain ⟨name, hname, rfl⟩ := h
  rw [String.toList_ofList]
  exact isName_of_mem_nameOccurrences hname

namespace Formula

/-- The pieces are those of the library's split. -/
theorem splitCommas_eq_splitOn (text : List Char) : splitCommas text = text.splitOn ',' := by
  induction text with
  | nil => rfl
  | cons c cs ih =>
    rw [splitCommas, ih, List.splitOn_cons_eq_if_modifyHead]
    by_cases hc : c = ','
    · rw [if_pos hc, if_pos (beq_iff_eq.2 hc)]
    · rw [if_neg hc, if_neg (by simpa using hc)]
      cases hs : cs.splitOn ',' with
      | nil => exact absurd hs (List.splitOn_ne_nil ',' cs)
      | cons piece pieces => rfl

theorem splitCommas_ne_nil (text : List Char) : splitCommas text ≠ [] := by
  rw [splitCommas_eq_splitOn]
  exact List.splitOn_ne_nil ',' text

/-- The pieces between the commas of a text, with the commas between them, are the text. -/
theorem intercalate_splitCommas (text : List Char) :
    [','].intercalate (splitCommas text) = text := by
  rw [splitCommas_eq_splitOn]
  exact List.intercalate_splitOn ','

theorem nameOccurrences_intercalate (pieces : List (List Char)) :
    nameOccurrences false ([','].intercalate pieces) = pieces.flatMap (nameOccurrences false) := by
  induction pieces with
  | nil => rfl
  | cons piece pieces ih =>
    cases pieces with
    | nil => simp [List.intercalate_singleton]
    | cons next others =>
      rw [List.intercalate_cons_cons, List.append_assoc, List.singleton_append,
        nameOccurrences_around (by decide), ih]
      rfl

/-- The parameters are what the pieces have between their blanks, and each piece has a name. -/
theorem readParams_eq_ok {left : List Char} {target : String} {pieces : List (List Char)}
    {before params : List String} (h : readParams left target before pieces = .ok params) :
    params = before ++ pieces.map (fun piece => String.ofList (trim piece)) ∧
    ∀ piece ∈ pieces, isName (trim piece) = true := by
  induction pieces generalizing before with
  | nil =>
    cases h
    exact ⟨(List.append_nil _).symm, fun piece hp => by cases hp⟩
  | cons piece pieces ih =>
    rw [readParams] at h
    split at h
    · cases h
    · next hname =>
      split at h
      · cases h
      · obtain ⟨hparams, hnames⟩ := ih h
        refine ⟨by rw [hparams, List.append_assoc]; rfl, ?_⟩
        intro p hp
        rcases List.mem_cons.mp hp with rfl | hp
        · simpa using hname
        · exact hnames p hp

/-- A list of parameters has the parameters for its names. -/
theorem map_nameOccurrences_params {left inner : List Char} {target : String}
    {params : List String}
    (h : readParams left target [] (splitCommas inner) = .ok params) :
    (nameOccurrences false inner).map String.ofList = params := by
  obtain ⟨hparams, hnames⟩ := readParams_eq_ok h
  rw [← intercalate_splitCommas inner, nameOccurrences_intercalate, hparams, List.nil_append]
  generalize splitCommas inner = pieces at hnames
  induction pieces with
  | nil => rfl
  | cons piece pieces ih =>
    rw [List.flatMap_cons, List.map_append, ih fun p hp => hnames p (List.mem_cons_of_mem _ hp),
      nameOccurrences_of_isName_trim (hnames piece List.mem_cons_self)]
    rfl

/-- What the head of a function was read from. -/
theorem readFunctionHead_eq_ok {left : List Char} {target : String} {params : List String}
    (h : readFunctionHead left = .ok (target, params)) :
    isName (trim (left.takeWhile (· != '('))) = true ∧
    target = String.ofList (trim (left.takeWhile (· != '('))) ∧
    ∃ inner, (left.dropWhile (· != '(')).drop 1 = inner ++ [')'] ∧
      ((∀ c ∈ inner, isBlank c = true) ∧ params = [] ∨
        readParams left target [] (splitCommas inner) = .ok params) := by
  unfold readFunctionHead at h
  generalize (left.dropWhile (· != '(')).drop 1 = behind at h ⊢
  dsimp only at h
  split at h
  · cases h
  next hname =>
  split at h
  · cases h
  next hclosed =>
  have hname : isName (trim (left.takeWhile (· != '('))) = true := by simpa using hname
  have hbehind : behind.dropLast ++ [')'] = behind :=
    List.dropLast_append_getLast? ')' (by simpa using hclosed)
  split at h
  · next hblank =>
    cases h
    exact ⟨hname, rfl, behind.dropLast, hbehind.symm, .inl ⟨List.all_eq_true.1 hblank, rfl⟩⟩
  · cases hread : readParams left (String.ofList (trim (left.takeWhile (· != '(')))) []
      (splitCommas behind.dropLast) with
    | error e =>
      rw [hread] at h
      cases h
    | ok ps =>
      rw [hread] at h
      cases h
      exact ⟨hname, rfl, behind.dropLast, hbehind.symm, .inr hread⟩

/-- The head of a function has the target and the parameters for its names. -/
theorem map_nameOccurrences_functionHead {left : List Char} {target : String}
    {params : List String} (hopen : left.contains '(' = true)
    (h : readFunctionHead left = .ok (target, params)) :
    (nameOccurrences false left).map String.ofList = target :: params := by
  obtain ⟨hname, htarget, inner, hbehind, hparams⟩ := readFunctionHead_eq_ok h
  have hinner : (nameOccurrences false inner).map String.ofList = params := by
    rcases hparams with ⟨hblank, rfl⟩ | hread
    · rw [nameOccurrences_eq_nil_of_noStart fun c hc => isNameStart_of_isBlank (hblank c hc)]
      rfl
    · exact map_nameOccurrences_params hread
  have hleft := takeWhile_append_cons hopen
  rw [hbehind] at hleft
  rw [← hleft, nameOccurrences_around (by decide), nameOccurrences_around (by decide),
    nameOccurrences_of_isName_trim hname, List.map_append, List.map_append, hinner, htarget]
  simp [nameOccurrences]

/-- **The names of a left side are the target and the parameters.** -/
theorem map_nameOccurrences_head {left : List Char} {text first target : String}
    {params? : Option (List String)} (hfirst : isName first.toList = true)
    (h : readHead left text first = .ok (target, params?)) :
    (nameOccurrences false left).map String.ofList = target :: params?.getD [] := by
  rw [readHead] at h
  split at h
  · next hopen =>
    cases hhead : readFunctionHead left with
    | error e =>
      rw [hhead] at h
      cases h
    | ok head =>
      rw [hhead] at h
      cases h
      exact map_nameOccurrences_functionHead hopen hhead
  · split at h
    · next heq =>
      cases h
      have hleft : left = first.toList := by rw [← eq_of_beq heq, String.toList_ofList]
      rw [hleft, nameOccurrences_of_isName hfirst]
      rw [List.map_singleton, String.ofList_toList]
      rfl
    · cases h

/-! ## Formulas -/

/-- What succeeds with a known part succeeds. -/
theorem exists_of_map_toOption_eq_some {ε α β : Type} {x : Except ε α} {g : α → β} {b : β}
    (h : x.toOption.map g = some b) : ∃ a, x = .ok a ∧ g a = b := by
  cases x with
  | error e => cases h
  | ok a =>
    cases h
    exact ⟨a, rfl, rfl⟩

/-- The characters of the body in the text of a formula. -/
def bodyText (raw : String) : List Char := rightSide (trim raw.toList)

/-- **A formula depends on what the scan finds in its body**, each name once, without the target and
the parameters. -/
theorem dependsOn_eq {raw : String} {f : Formula} (h : parse raw = .ok f) :
    f.dependsOn = (((lexemes (bodyText raw)).filterMap Lexeme.shown?).filter
      fun x => !(f.target :: f.params).contains x).eraseDups := by
  obtain ⟨heq, hbody, hdeps, first, hfirst, hhead⟩ := parse_eq_ok h
  have hd : Derives (.sum f.body) (tokens (bodyText raw)) := Expr.derives_of_parse_eq_ok hbody
  have hleft : (nameOccurrences false (leftSide (trim raw.toList))).map String.ofList =
      f.target :: f.params := by
    rw [← nameOccurrences_trim]
    exact map_nameOccurrences_head (isName_of_mem_namesIn hfirst) hhead
  have hright := map_nameOccurrences hd.isChain hd.not_mem_stray
  have hnames : (nameOccurrences false (trim raw.toList)).map String.ofList =
      (f.target :: f.params) ++ (lexemes (bodyText raw)).filterMap Lexeme.shown? := by
    rw [← leftSide_append_rightSide heq, nameOccurrences_around (by decide), List.map_append,
      hleft, ← hright]
    rfl
  rw [hdeps, namesIn, hnames, List.eraseDups_append, List.filter_append, List.removeAll]
  have hhidden : ((f.target :: f.params).eraseDups.filter
      fun x => !(f.target :: f.params).contains x) = [] := by
    rw [List.filter_eq_nil_iff]
    intro x hx
    rw [List.mem_eraseDups] at hx
    simp [hx]
  rw [hhidden, List.nil_append, List.filter_eq_self]
  intro x hx
  rw [List.mem_eraseDups, List.mem_filter] at hx
  exact hx.2

/-- What a formula depends on occurs in its body, or in a numeral of its body. -/
theorem mem_dependsOn {raw : String} {f : Formula} (h : parse raw = .ok f) (x : String) :
    x ∈ f.dependsOn ↔ (x ≠ f.target ∧ x ∉ f.params) ∧
      (f.body.references x = true ∨ x ∈ exposedNames (bodyText raw)) := by
  have hd : Derives (.sum f.body) (tokens (bodyText raw)) :=
    Expr.derives_of_parse_eq_ok (parse_eq_ok h).2.1
  rw [dependsOn_eq h, List.mem_eraseDups, List.mem_filter, mem_filterMap_shown?_iff,
    hd.name_mem_iff x, and_comm]
  simp [Phrase.references]

/-- What leads among the names that the scan finds is found first. -/
theorem leads_shown? {s : List Char} {a b : String}
    (h : Leads a b ((lexemes s).filterMap Lexeme.shown?)) :
    Leads (some a) (some b) ((lexemes s).map Lexeme.shown?) := by
  obtain ⟨pre, l, post, hls, hl, hpre⟩ := h.of_filterMap
  rw [hls]
  exact .map hl hpre post

/-- It is found as a token first, if it is in no numeral. -/
theorem leads_tokens {s : List Char} {a b : String}
    (h : Leads a b ((lexemes s).filterMap Lexeme.shown?)) (ha : a ∉ exposedNames s) :
    Leads (.name a) (.name b) (tokens s) := by
  obtain ⟨pre, l, post, hls, hl, hpre⟩ := h.of_filterMap
  have hname : l.token = .name a := by
    rcases Lexeme.shown?_eq_some_iff.1 hl with hname | hexposed
    · exact hname
    · refine absurd (List.mem_filterMap.2 ⟨l, ?_, hexposed⟩) ha
      rw [hls]
      exact List.mem_append_right pre List.mem_cons_self
  rw [tokens, hls]
  exact .map hname (fun m hm hmb => hpre m hm (Lexeme.shown?_eq_some_iff.2 (.inl hmb))) post

/--
**Every name of the body is accounted for, and what a formula depends on stands in the order of the
body**, each name once, without the target and the parameters.

The order is that of the first tokens, unless the first place where a name is found is the exponent
of a numeral with a bare point.
-/
theorem dependsOn_covers_in_order {raw : String} {f : Formula} (h : parse raw = .ok f) :
    (∀ x, f.body.references x = true → x = f.target ∨ x ∈ f.params ∨ x ∈ f.dependsOn) ∧
    f.dependsOn.Nodup ∧
    (f.target ∉ f.dependsOn ∧ ∀ p ∈ f.params, p ∉ f.dependsOn) ∧
    (f.dependsOn.Pairwise fun a b => ((lexemes (bodyText raw)).map Lexeme.shown?).idxOf (some a) <
      ((lexemes (bodyText raw)).map Lexeme.shown?).idxOf (some b)) ∧
    f.dependsOn.Pairwise fun a b => a ∉ exposedNames (bodyText raw) →
      (tokens (bodyText raw)).idxOf (.name a) < (tokens (bodyText raw)).idxOf (.name b) := by
  have hleads : f.dependsOn.Pairwise fun a b =>
      Leads a b ((lexemes (bodyText raw)).filterMap Lexeme.shown?) := by
    have hall := pairwise_leads_eraseDups (((lexemes (bodyText raw)).filterMap
      Lexeme.shown?).filter fun x => !(f.target :: f.params).contains x)
    rw [← dependsOn_eq h] at hall
    refine hall.imp_of_mem ?_
    intro a b _ hb hab
    have hkeep := ((mem_dependsOn h b).1 hb).1
    exact hab.of_filter (by simp [hkeep])
  refine ⟨fun x => tracked h, ?once, ⟨?target, ?params⟩, hleads.imp fun hab => ?_,
    hleads.imp fun hab ha => (leads_tokens hab ha).idxOf_lt⟩
  case once =>
    rw [dependsOn_eq h]
    exact nodup_eraseDups _
  case target => exact fun ht => ((mem_dependsOn h f.target).1 ht).1.1 rfl
  case params => exact fun p hp hd => ((mem_dependsOn h p).1 hd).1.2 hp
  exact (leads_shown? hab).idxOf_lt

theorem dependsOn_covers_in_order_function : ∃ f, parse "f(p) = (a - p)*g(b, a)" = .ok f ∧
    f.dependsOn = ["a", "g", "b"] ∧
    f.dependsOn.Pairwise fun a b => a ∉ exposedNames (bodyText "f(p) = (a - p)*g(b, a)") →
      (tokens (bodyText "f(p) = (a - p)*g(b, a)")).idxOf (.name a) <
        (tokens (bodyText "f(p) = (a - p)*g(b, a)")).idxOf (.name b) := by
  have hparse : (parse "f(p) = (a - p)*g(b, a)").toOption.map dependsOn = some ["a", "g", "b"] := by
    decide +kernel
  obtain ⟨f, hf, hdeps⟩ := exists_of_map_toOption_eq_some hparse
  exact ⟨f, hf, hdeps, (dependsOn_covers_in_order hf).2.2.2.2⟩

/-- **Behind a bare point a name is found before its time**: here `e3` comes before `a`. -/
theorem out_of_order_behind_bare_point : ∃ f, parse "x = 1.e3 + a + e3" = .ok f ∧
    f.dependsOn = ["e3", "a"] ∧
    ¬ f.dependsOn.Pairwise fun a b => f.body.references a = true → f.body.references b = true →
      (tokens (bodyText "x = 1.e3 + a + e3")).idxOf (.name a) <
        (tokens (bodyText "x = 1.e3 + a + e3")).idxOf (.name b) := by
  have hparse : (parse "x = 1.e3 + a + e3").toOption.map (fun f =>
      (f.dependsOn, f.body.references "e3", f.body.references "a")) =
        some (["e3", "a"], true, true) := by
    decide +kernel
  have horder : ¬ (tokens (bodyText "x = 1.e3 + a + e3")).idxOf (.name "e3") <
      (tokens (bodyText "x = 1.e3 + a + e3")).idxOf (.name "a") := by
    decide +kernel
  obtain ⟨f, hf, hf'⟩ := exists_of_map_toOption_eq_some hparse
  simp only [Prod.mk.injEq] at hf'
  obtain ⟨hdeps, he, ha⟩ := hf'
  refine ⟨f, hf, hdeps, ?_⟩
  rw [hdeps, List.pairwise_pair]
  exact fun h => horder (h he ha)

/--
**What a formula depends on is the names of the body and the exponents behind bare points**, without
the target and the parameters.

So each of them is a name of the body just when every such exponent reads as a name of the body, as
the target or as a parameter.
-/
theorem dependsOn_eq_names_and_exponents {raw : String} {f : Formula} (h : parse raw = .ok f) :
    (∀ x, x ∈ f.dependsOn ↔ (x ≠ f.target ∧ x ∉ f.params) ∧
      (f.body.references x = true ∨ x ∈ exposedNames (bodyText raw))) ∧
    ((∀ x ∈ f.dependsOn, f.body.references x = true) ↔
      ∀ x ∈ exposedNames (bodyText raw),
        x = f.target ∨ x ∈ f.params ∨ f.body.references x = true) := by
  refine ⟨mem_dependsOn h, ?_, ?_⟩
  · intro hall x hx
    by_cases hhidden : x = f.target ∨ x ∈ f.params
    · exact hhidden.imp_right .inl
    · rw [not_or] at hhidden
      exact .inr (.inr (hall x ((mem_dependsOn h x).2 ⟨hhidden, .inr hx⟩)))
  · intro hall x hx
    obtain ⟨⟨htarget, hparams⟩, href | hexposed⟩ := (mem_dependsOn h x).1 hx
    · exact href
    · exact ((hall x hexposed).resolve_left htarget).resolve_left hparams

/-- The exponent of `1.5e3` stands behind a digit, and nothing but `a` is depended on. -/
theorem dependsOn_eq_names_and_exponents_fraction : ∃ f, parse "x = 1.5e3 + a" = .ok f ∧
    exposedNames (bodyText "x = 1.5e3 + a") = [] ∧
    ∀ x ∈ f.dependsOn, f.body.references x = true := by
  have hparse : (parse "x = 1.5e3 + a").toOption.map target = some "x" := by decide +kernel
  have hexposed : exposedNames (bodyText "x = 1.5e3 + a") = [] := by decide +kernel
  obtain ⟨f, hf, -⟩ := exists_of_map_toOption_eq_some hparse
  refine ⟨f, hf, hexposed, (dependsOn_eq_names_and_exponents hf).2.2 ?_⟩
  rw [hexposed]
  exact fun x hx => by cases hx

/-- **A number can be depended on**: the body of `x = 1.e3` refers to nothing. -/
theorem depends_on_number_behind_bare_point : ∃ f, parse "x = 1.e3" = .ok f ∧
    f.dependsOn = ["e3"] ∧ f.body.references "e3" = false := by
  have hparse : (parse "x = 1.e3").toOption.map (fun f =>
      (f.dependsOn, f.body.references "e3")) = some (["e3"], false) := by
    decide +kernel
  obtain ⟨f, hf, hf'⟩ := exists_of_map_toOption_eq_some hparse
  simp only [Prod.mk.injEq] at hf'
  exact ⟨f, hf, hf'⟩

end Formula

end Recalc

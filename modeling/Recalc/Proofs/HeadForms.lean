import Recalc.Proofs.Dependencies

/-!
# The two forms of a formula

The left side of a formula is checked bit by bit: what stands before a parenthesis, what stands at
the end, what stands between commas. A formula for a value is even checked against the first name
that the scan finds in the whole text. Here it is said in one piece what is accepted:

* a **value** is written as its name;
* a **function** is written as its name, blanks or none, and a list of parameters in parentheses,
  the closing one at the very end. The list is blank or has names with commas between them, each
  with blanks around it or none. No two of the parameters and the name of the function are alike.

**A text is read just when its left side has one of the two forms and its right side is a body**,
and what is read is what is written there. Every other text is refused.
-/

namespace Recalc

namespace Formula

/-- The name with blanks around it, or none. -/
def Padded (name : String) (piece : List Char) : Prop :=
  isName name.toList = true ∧ ∃ before behind, piece = before ++ name.toList ++ behind ∧
    (∀ c ∈ before, isBlank c = true) ∧ ∀ c ∈ behind, isBlank c = true

/-- What stands between the parentheses lists the parameters. -/
inductive Lists : List String → List Char → Prop where
  | blank {inner : List Char} : (∀ c ∈ inner, isBlank c = true) → Lists [] inner
  | names {params : List String} {pieces : List (List Char)} : pieces ≠ [] →
      List.Forall₂ Padded params pieces → Lists params ([','].intercalate pieces)

/-- The left side is written for the target, and for the parameters of a function. -/
inductive IsHead (target : String) : Option (List String) → List Char → Prop where
  | value : isName target.toList = true → IsHead target none target.toList
  | function {params : List String} {blanks inner : List Char} : isName target.toList = true →
      (∀ c ∈ blanks, isBlank c = true) → Lists params inner → (target :: params).Nodup →
      IsHead target (some params) (target.toList ++ blanks ++ '(' :: (inner ++ [')']))

/-- The text, without the blanks at its ends, has a left side for the target and the parameters
before its first equal sign, and the body behind it. -/
def IsWritten (raw target : String) (params? : Option (List String)) (body : Expr) : Prop :=
  ∃ left right, trim raw.toList = left ++ '=' :: right ∧ '=' ∉ left ∧
    IsHead target params? (trim left) ∧ Expr.parse right = .ok body

/-! ## Characters of names -/

/-- A character that is in no word is not in a name. -/
theorem not_mem_of_isName {c : Char} (hc : isWordChar c = false) {name : List Char}
    (h : isName name = true) : c ∉ name := by
  intro hmem
  obtain ⟨d, ds, -, -, hall⟩ := exists_cons_of_isName h
  rw [isWordChar_of_isNameChar (hall c hmem)] at hc
  cases hc

/-- Nor is it in a name with blanks around it, if it is no blank. -/
theorem Padded.not_mem {name : String} {piece : List Char} (h : Padded name piece) {c : Char}
    (hword : isWordChar c = false) (hblank : isBlank c = false) : c ∉ piece := by
  obtain ⟨hname, before, behind, rfl, hbefore, hbehind⟩ := h
  have hnone : ∀ blanks : List Char, (∀ d ∈ blanks, isBlank d = true) → c ∉ blanks := by
    intro blanks hblanks hc
    rw [hblanks c hc] at hblank
    cases hblank
  simp only [List.mem_append, not_or]
  exact ⟨⟨hnone before hbefore, not_mem_of_isName hword hname⟩, hnone behind hbehind⟩

/-- A name begins and ends with characters that are no blanks. -/
theorem isBlank_of_mem_isName {name : List Char} (h : isName name = true) :
    ∀ c ∈ name, isBlank c = false := by
  intro c hc
  rw [← Bool.not_eq_true]
  intro hblank
  exact not_mem_of_isName (isWordChar_of_isBlank hblank) h hc

/-- Cutting off the blanks leaves the name. -/
theorem Padded.trim_eq {name : String} {piece : List Char} (h : Padded name piece) :
    trim piece = name.toList := by
  obtain ⟨hname, before, behind, rfl, hbefore, hbehind⟩ := h
  have hkeep := isBlank_of_mem_isName hname
  have hleft : trimLeft (before ++ name.toList ++ behind) = name.toList ++ behind := by
    rw [trimLeft, List.append_assoc, List.dropWhile_append_of_pos hbefore]
    cases hn : name.toList with
    | nil => rw [hn] at hname; cases hname
    | cons c cs =>
      rw [List.cons_append, List.dropWhile_cons_of_neg]
      simp [hkeep c (hn ▸ List.mem_cons_self)]
  rw [trim, hleft, trimRight, List.reverse_append,
    List.dropWhile_append_of_pos fun c hc => hbehind c (List.mem_reverse.mp hc)]
  cases hn : name.toList.reverse with
  | nil => rw [← List.reverse_reverse name.toList, hn] at hname; cases hname
  | cons c cs =>
    rw [List.dropWhile_cons_of_neg, ← hn, List.reverse_reverse]
    simp [hkeep c (List.mem_reverse.mp (hn ▸ List.mem_cons_self))]

theorem padded_of_isName_trim {piece : List Char} (h : isName (trim piece) = true) :
    Padded (String.ofList (trim piece)) piece := by
  obtain ⟨before, behind, hpiece, hbefore, hbehind⟩ := exists_blanks_trim piece
  refine ⟨by rwa [String.toList_ofList], before, behind, ?_, hbefore, hbehind⟩
  rwa [String.toList_ofList]

/-! ## The list of parameters -/

/-- Parameters that are read are padded, and no two of them are alike. -/
theorem padded_of_readParams {left : List Char} {target : String} {pieces : List (List Char)}
    {before params : List String} (h : readParams left target before pieces = .ok params)
    (hbefore : (target :: before).Nodup) :
    ∃ others, params = before ++ others ∧ List.Forall₂ Padded others pieces ∧
      (target :: params).Nodup := by
  induction pieces generalizing before with
  | nil =>
    cases h
    exact ⟨[], (List.append_nil _).symm, .nil, hbefore⟩
  | cons piece pieces ih =>
    rw [readParams] at h
    split at h
    · cases h
    · next hname =>
      have hname : isName (trim piece) = true := by simpa using hname
      split at h
      · cases h
      · next hnew =>
        -- the name is neither the target nor among the parameters before
        simp only [Bool.or_eq_true, List.contains_iff_mem, beq_iff_eq, not_or] at hnew
        have hnodup : (target :: (before ++ [String.ofList (trim piece)])).Nodup := by
          rw [← List.cons_append, List.nodup_append]
          refine ⟨hbefore, by simp, ?_⟩
          intro a ha b hb hab
          rw [List.mem_singleton.mp hb] at hab
          rcases List.mem_cons.mp ha with ha | ha
          · exact hnew.2 (hab.symm.trans ha)
          · exact hnew.1 (hab ▸ ha)
        obtain ⟨others, hparams, hpadded, hall⟩ := ih h hnodup
        refine ⟨_ :: others, ?_, .cons (padded_of_isName_trim hname) hpadded, hall⟩
        rw [hparams, List.append_assoc, List.singleton_append]

/-- Padded parameters are read, if no two of them are alike. -/
theorem readParams_of_padded {left : List Char} {target : String} {pieces : List (List Char)}
    {others : List String} (h : List.Forall₂ Padded others pieces) :
    ∀ {before : List String}, (target :: (before ++ others)).Nodup →
      readParams left target before pieces = .ok (before ++ others) := by
  induction h with
  | nil =>
    intro before _
    rw [List.append_nil]
    rfl
  | @cons name piece others pieces hpadded _ ih =>
    intro before hnodup
    have hnew : name ∉ before ∧ name ≠ target := by
      rw [List.nodup_cons, List.nodup_append] at hnodup
      refine ⟨fun hmem => hnodup.2.2.2 name hmem name List.mem_cons_self rfl, ?_⟩
      rintro rfl
      exact hnodup.1 (List.mem_append_right _ List.mem_cons_self)
    rw [List.append_cons] at hnodup
    rw [readParams, hpadded.trim_eq, String.ofList_toList, hpadded.1, if_neg (by simp),
      if_neg (by simp [hnew.1, hnew.2]), ih hnodup, List.append_assoc, List.singleton_append]

theorem comma_not_mem {params : List String} {pieces : List (List Char)}
    (h : List.Forall₂ Padded params pieces) : ∀ piece ∈ pieces, ',' ∉ piece := by
  induction h with
  | nil => exact fun _ hp => by cases hp
  | cons hpadded _ ih =>
    intro piece hp
    rcases List.mem_cons.mp hp with rfl | hp
    · exact hpadded.not_mem (by decide) (by decide)
    · exact ih piece hp

/-- Pieces with names in them are not blank. -/
theorem not_blank_of_padded {params : List String} {pieces : List (List Char)}
    (hne : pieces ≠ []) (h : List.Forall₂ Padded params pieces) :
    ([','].intercalate pieces).all isBlank = false := by
  cases h with
  | nil => exact absurd rfl hne
  | @cons name piece params pieces hpadded _ =>
    obtain ⟨hname, before, behind, rfl, -⟩ := hpadded
    cases hn : name.toList with
    | nil => rw [hn] at hname; cases hname
    | cons c cs =>
      have hc : isBlank c = false :=
        isBlank_of_mem_isName hname c (hn ▸ List.mem_cons_self)
      cases pieces with
      | nil => simp [List.intercalate_singleton, hc]
      | cons next others => simp [List.intercalate_cons_cons, hc]

/-- Parameters that are read are listed. -/
theorem lists_of_readParams {left inner : List Char} {target : String} {params : List String}
    (h : readParams left target [] (splitCommas inner) = .ok params) :
    Lists params inner ∧ (target :: params).Nodup := by
  obtain ⟨others, hparams, hpadded, hnodup⟩ := padded_of_readParams h (by simp)
  rw [List.nil_append] at hparams
  subst hparams
  have hlists := Lists.names (splitCommas_ne_nil inner) hpadded
  rw [intercalate_splitCommas] at hlists
  exact ⟨hlists, hnodup⟩

/-- Parameters that are listed are read. -/
theorem Lists.readParams_eq {inner : List Char} {params : List String} (h : Lists params inner)
    (left : List Char) {target : String} (hnodup : (target :: params).Nodup) :
    inner.all isBlank = true ∧ params = [] ∨
      inner.all isBlank = false ∧ readParams left target [] (splitCommas inner) = .ok params := by
  cases h with
  | blank hblank => exact .inl ⟨List.all_eq_true.2 hblank, rfl⟩
  | names hne hpadded =>
    rw [splitCommas_eq_splitOn, List.splitOn_intercalate ',' (comma_not_mem hpadded) hne]
    exact .inr ⟨not_blank_of_padded hne hpadded, readParams_of_padded hpadded hnodup⟩

/-! ## The left side -/

/-- What is left when the blanks are cut off does not begin with one. -/
theorem isBlank_of_head?_trim (text : List Char) : ∀ c ∈ (trim text).head?, isBlank c = false := by
  intro c hc
  have hprefix : trim text <+: trimLeft text := by
    rw [trim, trimRight, ← List.reverse_suffix, List.reverse_reverse]
    exact List.dropWhile_suffix _
  have hhead : (trimLeft text).head? = some c := by
    obtain ⟨rest, hrest⟩ := hprefix
    rw [← hrest, List.head?_append, hc]
    rfl
  exact eq_false_of_mem_head?_dropWhile isBlank text c hhead

theorem dropWhile_append_cons {c : Char} {front : List Char} (h : c ∉ front) (rest : List Char) :
    (front ++ c :: rest).takeWhile (· != c) = front ∧
      ((front ++ c :: rest).dropWhile (· != c)).drop 1 = rest := by
  have hfront : ∀ d ∈ front, (d != c) = true := fun d hd => bne_iff_ne.2 fun he => h (he ▸ hd)
  rw [List.takeWhile_append_of_pos hfront, List.dropWhile_append_of_pos hfront]
  simp

/-- A left side that is read has one of the two forms. -/
theorem isHead_of_readHead {left : List Char} {text first target : String}
    {params? : Option (List String)} (hfirst : isName first.toList = true)
    (hleft : ∀ c ∈ left.head?, isBlank c = false)
    (h : readHead left text first = .ok (target, params?)) : IsHead target params? left := by
  rw [readHead] at h
  split at h
  · next hopen =>
    cases hhead : readFunctionHead left with
    | error e =>
      rw [hhead] at h
      cases h
    | ok head =>
      rw [hhead] at h
      cases h
      obtain ⟨target, params⟩ := head
      obtain ⟨hname, htarget, inner, hbehind, hparams⟩ := readFunctionHead_eq_ok hhead
      have htext := takeWhile_append_cons hopen
      rw [hbehind] at htext
      obtain ⟨hname, before, blanks, hfront, hbefore, hblanks⟩ := padded_of_isName_trim hname
      rw [← htarget] at hname hfront
      rw [hfront] at htext
      -- the left side begins with no blank, so there is none in front of the name
      cases before with
      | cons c cs =>
        have hc := hleft c (htext ▸ rfl)
        rw [hbefore c List.mem_cons_self] at hc
        cases hc
      | nil =>
        have hlists : Lists params inner ∧ (target :: params).Nodup := by
          rcases hparams with ⟨hblank, rfl⟩ | hread
          · exact ⟨.blank hblank, by simp⟩
          · exact lists_of_readParams hread
        rw [← htext]
        exact .function hname hblanks hlists.1 hlists.2
  · split at h
    · next heq =>
      cases h
      obtain rfl := eq_of_beq heq
      have hvalue := IsHead.value hfirst
      rwa [String.toList_ofList] at hvalue
    · cases h

/-- A left side in one of the two forms is read. -/
theorem IsHead.readHead_eq {left : List Char} {target : String} {params? : Option (List String)}
    (h : IsHead target params? left) (text : String) :
    readHead left text target = .ok (target, params?) := by
  cases h with
  | value hname =>
    have hopen : target.toList.contains '(' = false := by
      rw [← Bool.not_eq_true, List.contains_iff_mem]
      exact not_mem_of_isName (by decide) hname
    rw [readHead, hopen, String.ofList_toList]
    simp
  | @function params blanks inner hname hblanks hlists hnodup =>
    have hpadded : Padded target (target.toList ++ blanks) :=
      ⟨hname, [], blanks, rfl, fun _ hc => (by cases hc), hblanks⟩
    obtain ⟨hfront, hbehind⟩ :=
      dropWhile_append_cons (hpadded.not_mem (c := '(') (by decide) (by decide)) (inner ++ [')'])
    have hopen : (target.toList ++ blanks ++ '(' :: (inner ++ [')'])).contains '(' = true := by simp
    generalize target.toList ++ blanks ++ '(' :: (inner ++ [')']) = left at hfront hbehind hopen ⊢
    have hread : readFunctionHead left = .ok (target, params) := by
      simp only [readFunctionHead, hfront, hbehind, hpadded.trim_eq, hname,
        List.getLast?_concat, List.dropLast_concat, String.ofList_toList]
      rcases hlists.readParams_eq left hnodup with ⟨hblank, rfl⟩ | ⟨hblank, hparams⟩
      · simp [hblank]
      · simp [hblank, hparams, Except.map]
    rw [readHead, hread, if_pos hopen]
    rfl

/-! ## The whole text -/

/-- The first name of a text is the target. -/
theorem namesIn_of_isHead {left : List Char} {target : String} {params? : Option (List String)}
    (h : IsHead target params? (trim left)) (right : List Char) :
    ∃ others, namesIn (left ++ '=' :: right) = target :: others := by
  have hhead : ∃ rest, nameOccurrences false (trim left) = target.toList :: rest := by
    generalize trim left = head at h
    cases h with
    | value hname => exact ⟨[], nameOccurrences_of_isName hname⟩
    | @function params blanks inner hname hblanks _ _ =>
      have htrim : trim (target.toList ++ blanks) = target.toList :=
        Padded.trim_eq ⟨hname, [], blanks, rfl, fun _ hc => (by cases hc), hblanks⟩
      rw [nameOccurrences_around (by decide), nameOccurrences_of_isName_trim (by rwa [htrim]),
        htrim]
      exact ⟨_, rfl⟩
  obtain ⟨rest, hrest⟩ := hhead
  rw [nameOccurrences_trim] at hrest
  rw [namesIn, nameOccurrences_around (by decide), hrest, List.cons_append, List.map_cons,
    String.ofList_toList, List.eraseDups_cons]
  exact ⟨_, rfl⟩

theorem IsHead.ne_nil {left : List Char} {target : String} {params? : Option (List String)}
    (h : IsHead target params? (trim left)) : left ≠ [] := by
  rintro rfl
  obtain ⟨others, hnames⟩ := namesIn_of_isHead h []
  cases hnames

/-- A text that is written for a formula is read as it. -/
theorem IsWritten.parse_eq {raw target : String} {params? : Option (List String)} {body : Expr}
    (h : IsWritten raw target params? body) :
    ∃ f, parse raw = .ok f ∧ f.target = target ∧ f.params? = params? ∧ f.body = body := by
  obtain ⟨left, right, htext, heq, hhead, hbody⟩ := h
  obtain ⟨others, hnames⟩ := namesIn_of_isHead hhead right
  obtain ⟨hleft, hright⟩ := dropWhile_append_cons heq right
  have hempty : (leftSide (left ++ '=' :: right)).isEmpty = false := by
    rw [leftSide, hleft, List.isEmpty_eq_false_iff]
    exact hhead.ne_nil
  rw [parse, htext, hnames, hempty, if_neg (by simp), if_neg (by simp)]
  simp only [leftSide, rightSide, hleft, hright, hhead.readHead_eq, hbody]
  exact ⟨_, rfl, rfl, rfl, rfl⟩

/-- A formula that is read is written in its text. -/
theorem isWritten_of_parse {raw : String} {f : Formula} (h : parse raw = .ok f) :
    IsWritten raw f.target f.params? f.body := by
  obtain ⟨heq, hbody, -, first, hfirst, hhead⟩ := parse_eq_ok h
  have hname : isName first.toList = true := isName_of_mem_namesIn hfirst
  refine ⟨leftSide (trim raw.toList), rightSide (trim raw.toList),
    (leftSide_append_rightSide heq).symm, ?_, ?_, hbody⟩
  · intro hmem
    have hne := List.mem_takeWhile_imp hmem
    simp at hne
  · exact isHead_of_readHead hname (isBlank_of_head?_trim _) hhead

/--
**A text is read just when it is written for a formula**: the formula then has the target, the
parameters and the body that are written there, and it is one for a function just when there is a
list of parameters. Every other text is refused.
-/
theorem parse_iff_isWritten (raw : String) :
    (∀ target params? body,
      (∃ f, parse raw = .ok f ∧ f.target = target ∧ f.isFunction = params?.isSome ∧
        f.params = params?.getD [] ∧ f.body = body) ↔ IsWritten raw target params? body) ∧
    ((∃ e, parse raw = .error e) ↔
      ¬ ∃ target params? body, IsWritten raw target params? body) := by
  refine ⟨?read, ?refused⟩
  case read =>
    intro target params? body
    constructor
    · rintro ⟨f, hf, rfl, hfun, hparams, rfl⟩
      have hsame : f.params? = params? := by
        rw [isFunction] at hfun
        rw [params] at hparams
        cases hp : f.params? <;> cases params? <;> simp_all
      exact hsame ▸ isWritten_of_parse hf
    · intro h
      obtain ⟨f, hf, htarget, rfl, hbody⟩ := h.parse_eq
      exact ⟨f, hf, htarget, rfl, rfl, hbody⟩
  case refused =>
    constructor
    · rintro ⟨e, he⟩ ⟨target, params?, body, h⟩
      obtain ⟨f, hf, -⟩ := h.parse_eq
      cases he.symm.trans hf
    · intro hno
      cases hparse : parse raw with
      | error e => exact ⟨e, rfl⟩
      | ok f => exact absurd ⟨f.target, f.params?, f.body, isWritten_of_parse hparse⟩ hno

end Formula

end Recalc

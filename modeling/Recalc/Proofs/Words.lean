import Recalc.Proofs.Dependencies

/-!
# The words of a text and the names in them

The scan for names goes through a text character by character. What it finds can be said without
following it, in two ways:

* **by a pattern**, a border of a word and a name behind it. The pattern is looked for again and
  again, each time behind the place where it was found before, as far to the left as it fits and
  there as long as it fits.
* **by the words**. The text is cut into words, each as long as it goes. If the first character of a
  word may begin a name, the word shows one name, the longest one at its front. Every other word
  shows none.

Both find the same, and the scan lists it, each name once, by first occurrence. A name may end
within a word, before an accented letter or a joiner. There is no border there, so the pattern does
not fit again before the word has ended, and the rest of the word is lost.
-/

namespace Recalc

/-! ## Words -/

/-- The words of a text, which stand between the characters that are in no word. -/
def wordsIn (text : List Char) : List (List Char) :=
  (text.splitOnP fun c => !isWordChar c).filter fun word => !word.isEmpty

/-- The text is cut into the words, each as long as it goes, and what is left between them is in no
word. -/
inductive CutsInto : List Char → List (List Char) → Prop where
  | rest {text : List Char} : (∀ c ∈ text, isWordChar c = false) → CutsInto text []
  | word {text gap word rest : List Char} {words : List (List Char)} :
      text = gap ++ (word ++ rest) → (∀ c ∈ gap, isWordChar c = false) →
      word ≠ [] → (∀ c ∈ word, isWordChar c = true) → BreaksWord rest →
      CutsInto rest words → CutsInto text (word :: words)

theorem wordsIn_cons_of_notWord {c : Char} (hc : isWordChar c = false) (cs : List Char) :
    wordsIn (c :: cs) = wordsIn cs := by
  simp [wordsIn, List.splitOnP_cons_eq_if_modifyHead, hc]

/-- What is in no word is left out at the front of a text. -/
theorem wordsIn_append_of_notWord {gap : List Char} (h : ∀ c ∈ gap, isWordChar c = false)
    (rest : List Char) : wordsIn (gap ++ rest) = wordsIn rest := by
  induction gap with
  | nil => rfl
  | cons c cs ih =>
    rw [List.cons_append, wordsIn_cons_of_notWord (h c List.mem_cons_self)]
    exact ih fun d hd => h d (List.mem_cons_of_mem c hd)

theorem wordsIn_eq_nil {text : List Char} (h : ∀ c ∈ text, isWordChar c = false) :
    wordsIn text = [] := by
  have htext := wordsIn_append_of_notWord h []
  rwa [List.append_nil] at htext

/-- A word that does not go on behind it is the first one. -/
theorem wordsIn_append_of_breaksWord {word rest : List Char} (hne : word ≠ [])
    (hword : ∀ c ∈ word, isWordChar c = true) (hrest : BreaksWord rest) :
    wordsIn (word ++ rest) = word :: wordsIn rest := by
  have hsingle : (word.splitOnP fun c => !isWordChar c) = [word] :=
    List.splitOnP_eq_singleton fun c hc => by rw [hword c hc, Bool.not_true]
  cases rest with
  | nil => simp [wordsIn, hsingle, hne]
  | cons c cs =>
    have hc : isWordChar c = false := hrest c rfl
    rw [wordsIn_cons_of_notWord hc, wordsIn, wordsIn,
      List.splitOnP_append_cons word cs (by rw [hc, Bool.not_false]), hsingle]
    simp [hne]

/-- A text has no word, or it has a first one. -/
theorem exists_first_word (text : List Char) :
    (∀ c ∈ text, isWordChar c = false) ∨
    ∃ gap word rest, text = gap ++ (word ++ rest) ∧ (∀ c ∈ gap, isWordChar c = false) ∧
      word ≠ [] ∧ (∀ c ∈ word, isWordChar c = true) ∧ BreaksWord rest := by
  induction text with
  | nil => exact .inl (List.forall_mem_nil _)
  | cons c cs ih =>
    cases hc : isWordChar c with
    | true =>
      refine .inr ⟨[], (c :: cs).takeWhile isWordChar, (c :: cs).dropWhile isWordChar,
        List.takeWhile_append_dropWhile.symm, List.forall_mem_nil _, ?_,
        fun d hd => List.mem_takeWhile_imp hd, eq_false_of_mem_head?_dropWhile isWordChar _⟩
      rw [List.takeWhile_cons_of_pos hc]
      exact List.cons_ne_nil _ _
    | false =>
      rcases ih with hnone | ⟨gap, word, rest, rfl, hgap, hword⟩
      · exact .inl (List.forall_mem_cons.2 ⟨hc, hnone⟩)
      · exact .inr ⟨c :: gap, word, rest, rfl, List.forall_mem_cons.2 ⟨hc, hgap⟩, hword⟩

/-- A text can be cut into words, -/
theorem cutsInto_wordsIn (text : List Char) : CutsInto text (wordsIn text) := by
  rcases exists_first_word text with hnone | ⟨gap, word, rest, htext, hgap, hne, hword, hbreaks⟩
  · rw [wordsIn_eq_nil hnone]
    exact .rest hnone
  · have ih : CutsInto rest (wordsIn rest) := cutsInto_wordsIn rest
    rw [htext, wordsIn_append_of_notWord hgap, wordsIn_append_of_breaksWord hne hword hbreaks]
    exact .word rfl hgap hne hword hbreaks ih
termination_by text.length
decreasing_by
  have hpos : 0 < word.length := List.length_pos_iff.2 hne
  rw [htext, List.length_append, List.length_append]
  omega

/-- and in one way only. -/
theorem cutsInto_iff {text : List Char} {words : List (List Char)} :
    CutsInto text words ↔ words = wordsIn text := by
  constructor
  · intro h
    induction h with
    | rest htext => exact (wordsIn_eq_nil htext).symm
    | word htext hgap hne hword hbreaks _ ih =>
      rw [htext, wordsIn_append_of_notWord hgap, wordsIn_append_of_breaksWord hne hword hbreaks, ih]
  · rintro rfl
    exact cutsInto_wordsIn text

/-! ## The names that words show -/

/-- The name that a word shows: the longest one at its front, if its first character may begin a
name. -/
def frontName? (word : List Char) : Option String :=
  if word.head?.any isNameStart then some (String.ofList (word.takeWhile isNameChar)) else none

/-- A word that begins with a digit or above ASCII shows no name. -/
theorem frontName?_eq_none {word : List Char} {c : Char} (hc : word.head? = some c)
    (h : c.isDigit = true ∨ 0x80 ≤ c.toNat) : frontName? word = none := by
  have hstart : isNameStart c = false := by
    rcases h with hdigit | hhigh
    · exact isNameStart_of_isDigit hdigit
    · rw [← Bool.not_eq_true]
      intro hstart
      have hlow := toNat_lt_of_isNameChar (isNameChar_of_isNameStart hstart)
      omega
  rw [frontName?, hc, Option.any_some, hstart]
  rfl

/-- **In one word the scan finds the name that the word shows.** -/
theorem map_nameOccurrences_word {word : List Char} (hne : word ≠ [])
    (hword : ∀ c ∈ word, isWordChar c = true) :
    (nameOccurrences false word).map String.ofList = (frontName? word).toList := by
  cases word with
  | nil => exact absurd rfl hne
  | cons c cs =>
    rw [List.forall_mem_cons] at hword
    rw [nameOccurrences, hword.1, nameOccurrences_eq_nil_of_word hword.2, frontName?,
      List.head?_cons, Option.any_some, Bool.not_false, Bool.true_and]
    split
    · next hstart =>
      rw [List.takeWhile_cons_of_pos (isNameChar_of_isNameStart hstart)]
      rfl
    · rfl

/-- **The scan finds what the words show**, in their order. -/
theorem CutsInto.map_nameOccurrences {text : List Char} {words : List (List Char)}
    (h : CutsInto text words) :
    (nameOccurrences false text).map String.ofList = words.filterMap frontName? := by
  induction h with
  | rest htext =>
    rw [nameOccurrences_eq_nil_of_noStart fun c hc => isNameStart_eq_false (htext c hc)]
    rfl
  | @word text gap word rest words htext hgap hne hword hbreaks _ ih =>
    -- whatever stands before it, behind a gap the scan is in no word
    have hfront : nameOccurrences false text = nameOccurrences false (word ++ rest) := by
      rw [htext, nameOccurrences_append_of_noStart fun c hc => isNameStart_eq_false (hgap c hc),
        endsInWord_of_notWord hgap fun _ => rfl]
    rw [hfront, nameOccurrences_append_of_breaksWord hbreaks, List.map_append, ih,
      map_nameOccurrences_word hne hword]
    cases hname : frontName? word with
    | none => rw [List.filterMap_cons_none hname]; rfl
    | some x => rw [List.filterMap_cons_some hname]; rfl

/-! ## The pattern -/

/-- Whether a word begins or ends between two parts of a text. -/
def isWordBorder (before behind : List Char) : Bool :=
  before.getLast?.any isWordChar != behind.head?.any isWordChar

/-- The pattern fits in a text behind what is skipped: there is a border of a word, and a name
behind it. What stands before the text counts for the border only. -/
structure Fits (before text skipped name rest : List Char) : Prop where
  text_eq : text = skipped ++ (name ++ rest)
  border : isWordBorder (before ++ skipped) (name ++ rest) = true
  isName : isName name = true

/-- What is found in a text: the pattern is looked for behind the place where it was found before,
as far to the left as it fits and there as long as it fits, until it fits nowhere. -/
inductive Finds : List Char → List Char → List String → Prop where
  | nothing {before text : List Char} :
      (∀ skipped name rest, ¬ Fits before text skipped name rest) → Finds before text []
  | next {before text skipped name rest : List Char} {found : List String} :
      Fits before text skipped name rest →
      (∀ skipped' name' rest', Fits before text skipped' name' rest' →
        skipped.length ≤ skipped'.length) →
      (∀ name' rest', Fits before text skipped name' rest' → name'.length ≤ name.length) →
      Finds (before ++ skipped ++ name) rest found → Finds before text (String.ofList name :: found)

theorem Finds.unique {before text : List Char} {found found' : List String}
    (h : Finds before text found) (h' : Finds before text found') : found = found' := by
  induction h generalizing found' with
  | nothing hnone =>
    cases h' with
    | nothing => rfl
    | next hfits => exact absurd hfits (hnone _ _ _)
  | @next before text skipped name rest found hfits hleft hlong _ ih =>
    cases h' with
    | nothing hnone => exact absurd hfits (hnone _ _ _)
    | @next _ _ skipped' name' rest' found' hfits' hleft' hlong' hfound' =>
      have hskipped : skipped.length = skipped'.length :=
        Nat.le_antisymm (hleft _ _ _ hfits') (hleft' _ _ _ hfits)
      obtain ⟨rfl, hbehind⟩ := List.append_inj (hfits.text_eq.symm.trans hfits'.text_eq) hskipped
      have hname : name.length = name'.length :=
        Nat.le_antisymm (hlong' _ _ hfits) (hlong _ _ hfits')
      obtain ⟨rfl, rfl⟩ := List.append_inj hbehind hname
      rw [ih hfound']

/-- There is a border in front of a name unless a word stands there. -/
theorem isWordBorder_of_isName {name : List Char} (h : isName name = true)
    (before rest : List Char) :
    isWordBorder before (name ++ rest) = !before.getLast?.any isWordChar := by
  obtain ⟨c, cs, rfl, hc, -⟩ := exists_cons_of_isName h
  have hword : isWordChar c = true := isWordChar_of_isNameChar (isNameChar_of_isNameStart hc)
  simp [isWordBorder, hword]

/-- Behind a name a word has begun. -/
theorem getLast?_any_of_isName {name : List Char} (h : isName name = true) (before : List Char) :
    (before ++ name).getLast?.any isWordChar = true := by
  obtain ⟨c, cs, rfl, -, hall⟩ := exists_cons_of_isName h
  rw [List.getLast?_append_of_ne_nil before (List.cons_ne_nil c cs),
    List.getLast?_eq_some_getLast (List.cons_ne_nil c cs), Option.any_some]
  exact isWordChar_of_isNameChar (hall _ (List.getLast_mem _))

section Fits

variable {before cs skipped name rest : List Char} {c d : Char}

/-- The pattern fits with a name that goes on for as long as it can, -/
theorem fits_front (hbefore : before.getLast?.any isWordChar = false) (hc : isNameStart c = true)
    (cs : List Char) :
    Fits before (c :: cs) [] (c :: cs.takeWhile isNameChar) (cs.dropWhile isNameChar) := by
  have hname : isName (c :: cs.takeWhile isNameChar) = true := isName_cons_takeWhile hc cs
  refine ⟨?_, ?_, hname⟩
  · rw [List.nil_append, List.cons_append, List.takeWhile_append_dropWhile]
  · rw [isWordBorder_of_isName hname, List.append_nil, hbefore]
    rfl

/-- and if it fits at all in front of a text, then with no longer name. -/
theorem Fits.front (h : Fits before (c :: cs) [] name rest) :
    before.getLast?.any isWordChar = false ∧ isNameStart c = true ∧
      name.length ≤ (c :: cs.takeWhile isNameChar).length := by
  have htext : c :: cs = name ++ rest := h.text_eq
  have hborder := h.border
  rw [isWordBorder_of_isName h.isName, List.append_nil, Bool.not_eq_true'] at hborder
  obtain ⟨d, ds, hname, hstart, hall⟩ := exists_cons_of_isName h.isName
  obtain rfl : c = d := by
    rw [hname] at htext
    exact (List.cons.inj htext).1
  refine ⟨hborder, hstart, ?_⟩
  rw [← List.takeWhile_cons_of_pos (isNameChar_of_isNameStart hstart), htext,
    List.takeWhile_append_of_pos hall, List.length_append]
  exact Nat.le_add_right _ _

/-- The pattern fits behind the first character as it fits in what follows it. -/
theorem fits_cons_iff : Fits before (c :: cs) (d :: skipped) name rest ↔
    d = c ∧ Fits (before ++ [c]) cs skipped name rest := by
  constructor
  · rintro ⟨htext, hborder, hname⟩
    obtain ⟨rfl, hcs⟩ := List.cons.inj htext
    exact ⟨rfl, hcs, by rwa [List.append_assoc], hname⟩
  · rintro ⟨rfl, htext, hborder, hname⟩
    exact ⟨congrArg _ htext, by rwa [List.append_assoc] at hborder, hname⟩

/-- Where the pattern does not fit, it is looked for from the next character on. -/
theorem Finds.cons {found : List String} (h : Finds (before ++ [c]) cs found)
    (hno : ∀ name rest, ¬ Fits before (c :: cs) [] name rest) : Finds before (c :: cs) found := by
  cases h with
  | nothing hnone =>
    refine .nothing fun skipped name rest hfits => ?_
    cases skipped with
    | nil => exact hno name rest hfits
    | cons d ds => exact hnone ds name rest (fits_cons_iff.1 hfits).2
  | @next _ _ skipped name rest found hfits hleft hlong hfound =>
    have hfront : Fits before (c :: cs) (c :: skipped) name rest := fits_cons_iff.2 ⟨rfl, hfits⟩
    refine .next hfront ?left ?long ?behind
    case left =>
      intro skipped' name' rest' hfits'
      cases skipped' with
      | nil => exact absurd hfits' (hno name' rest')
      | cons d ds => exact Nat.succ_le_succ (hleft ds name' rest' (fits_cons_iff.1 hfits').2)
    case long => exact fun name' rest' hfits' => hlong name' rest' (fits_cons_iff.1 hfits').2
    case behind => rwa [List.append_cons]

end Fits

/-- Behind the longest name that begins here, the scan is within a word. -/
theorem nameOccurrences_cons_of_start {c : Char} (hc : isNameStart c = true) (cs : List Char) :
    nameOccurrences false (c :: cs) =
      (c :: cs.takeWhile isNameChar) :: nameOccurrences true (cs.dropWhile isNameChar) := by
  have hword : ∀ d ∈ cs.takeWhile isNameChar, isWordChar d = true := fun d hd =>
    isWordChar_of_isNameChar (List.mem_takeWhile_imp hd)
  have hrest := nameOccurrences_append_of_word hword (cs.dropWhile isNameChar)
  rw [List.takeWhile_append_dropWhile] at hrest
  rw [nameOccurrences, if_pos (by simp [hc]), hrest]

/-- **The scan finds what the pattern finds**, if it knows whether it begins within a word. The
pattern is looked for again behind the whole name, so the induction is on the length of the text. -/
theorem finds_nameOccurrences (before text : List Char) : Finds before text
    ((nameOccurrences (before.getLast?.any isWordChar) text).map String.ofList) := by
  cases text with
  | nil =>
    refine .nothing fun skipped name rest hfits => ?_
    obtain ⟨c, cs, rfl, -⟩ := exists_cons_of_isName hfits.isName
    have hnil := hfits.text_eq
    simp at hnil
  | cons c cs =>
    by_cases hfront : before.getLast?.any isWordChar = false ∧ isNameStart c = true
    · -- the pattern fits here, and the scan goes on within the word that the name is in
      obtain ⟨hbefore, hc⟩ := hfront
      have ih := finds_nameOccurrences (before ++ [] ++ (c :: cs.takeWhile isNameChar))
        (cs.dropWhile isNameChar)
      rw [getLast?_any_of_isName (isName_cons_takeWhile hc cs)] at ih
      rw [hbefore, nameOccurrences_cons_of_start hc]
      exact .next (fits_front hbefore hc cs) (fun _ _ _ _ => Nat.zero_le _)
        (fun name' rest' hfits' => hfits'.front.2.2) ih
    · -- it does not fit, and the character alone decides whether a word stands before the rest
      have ih := finds_nameOccurrences (before ++ [c]) cs
      rw [List.getLast?_concat, Option.any_some] at ih
      rw [nameOccurrences, if_neg (by simpa using hfront)]
      exact ih.cons fun name rest hfits => hfront ⟨hfits.front.1, hfits.front.2.1⟩
termination_by text.length
decreasing_by
  · exact Nat.lt_succ_of_le (List.dropWhile_sublist _).length_le
  · exact Nat.lt_succ_self _

/-- What the pattern finds in a text is what the words show. -/
theorem finds_iff {text : List Char} {found : List String} :
    Finds [] text found ↔ found = (wordsIn text).filterMap frontName? := by
  have hscan : Finds [] text ((wordsIn text).filterMap frontName?) := by
    rw [← (cutsInto_wordsIn text).map_nameOccurrences]
    exact finds_nameOccurrences [] text
  constructor
  · exact fun h => h.unique hscan
  · rintro rfl
    exact hscan

/-! ## The scan -/

theorem namesIn_eq_eraseDups (text : List Char) :
    namesIn text = ((wordsIn text).filterMap frontName?).eraseDups := by
  rw [namesIn, (cutsInto_wordsIn text).map_nameOccurrences]

/--
**The names of a text are read off its words.** The text is cut into words in one way, and in each
word the pattern finds the longest name at its front, if its first character may begin a name, and
nothing more. The scan lists what is found, each name once, in the order of the places where it is
found first.
-/
theorem names_read_off_words (text : List Char) :
    (∀ words, CutsInto text words ↔ words = wordsIn text) ∧
    (∀ found, Finds [] text found ↔ found = (wordsIn text).filterMap frontName?) ∧
    ((namesIn text).Nodup ∧
      (∀ x, x ∈ namesIn text ↔ ∃ word ∈ wordsIn text, frontName? word = some x) ∧
      (namesIn text).Pairwise fun a b => ((wordsIn text).filterMap frontName?).idxOf a <
        ((wordsIn text).filterMap frontName?).idxOf b) ∧
    (∀ word ∈ wordsIn text, ∀ c ∈ word.head?, c.isDigit = true ∨ 0x80 ≤ c.toNat →
      frontName? word = none) ∧
    ∀ x ∈ namesIn text, isName x.toList = true := by
  refine ⟨fun words => cutsInto_iff, fun found => finds_iff, ⟨?once, ?all, ?order⟩,
    fun word _ c hc h => frontName?_eq_none hc h, fun x => isName_of_mem_namesIn⟩
  case once =>
    rw [namesIn_eq_eraseDups]
    exact nodup_eraseDups _
  case all =>
    intro x
    rw [namesIn_eq_eraseDups, List.mem_eraseDups, List.mem_filterMap]
  case order =>
    rw [namesIn_eq_eraseDups]
    exact (pairwise_leads_eraseDups _).imp Leads.idxOf_lt

/-- A name ends where its word goes on with an accented letter, and no name begins behind it. -/
theorem names_read_off_words_accented :
    wordsIn "b_1éx aé 2c.été+b_1".toList =
      ["b_1éx".toList, "aé".toList, "2c".toList, "été".toList, "b_1".toList] ∧
    Finds [] "b_1éx aé 2c.été+b_1".toList ["b_1", "a", "b_1"] ∧
    namesIn "b_1éx aé 2c.été+b_1".toList = ["b_1", "a"] ∧
    frontName? "2c".toList = none ∧ isName "b_1".toList = true := by
  have hwords : wordsIn "b_1éx aé 2c.été+b_1".toList =
      ["b_1éx".toList, "aé".toList, "2c".toList, "été".toList, "b_1".toList] := by
    decide +kernel
  have hnames : namesIn "b_1éx aé 2c.été+b_1".toList = ["b_1", "a"] := by decide +kernel
  obtain ⟨-, hfinds, -, hnone, hname⟩ := names_read_off_words "b_1éx aé 2c.été+b_1".toList
  refine ⟨hwords, (hfinds _).2 ?_, hnames, hnone _ ?_ '2' rfl (.inl rfl), hname _ ?_⟩
  · rw [hwords]
    decide +kernel
  · rw [hwords]
    decide
  · rw [hnames]
    exact List.mem_cons_self

end Recalc

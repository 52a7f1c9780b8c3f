import LineMarkup.Proofs.Matcher.Keyword
import LineMarkup.Proofs.Parser.Bracketing
import LineMarkup.Proofs.Token.Longest
import LineMarkup.Proofs.Token.Symbol

namespace LineMarkup

namespace LineStore

/-- No lexeme goes on with a bracket, and none but a symbol begins with one. -/
theorem bracket_classes {c : Char} (hc : c ∈ brackets) :
    Text.isNumeral c = false ∧ Text.isWordContinuation c = false ∧
      Text.isHorizontalSpace c = false ∧ Text.isLineEnd c = false ∧ c ≠ '\\' ∧ c ≠ '\x7d' ∧
      Text.isHexDigit (closing c) = false ∧ (c = '\x7b' → closing c = '\x7d') := by
  simp only [brackets, List.mem_cons, List.not_mem_nil, or_false] at hc
  rcases hc with rfl | rfl | rfl <;> decide

end LineStore

namespace Token

open Text Number

variable {text front a x y rest more digits : Text} {c d : Char} {p : Char → Bool} {pos limit : Nat}

theorem run_local (hx : run p (a ++ x) ≤ a.length) (hy : run p (a ++ y) ≤ a.length) :
    run p (a ++ x) = run p (a ++ y) := by
  simp only [run, List.takeWhile_append] at hx hy ⊢
  split
  · rename_i hall
    simp only [hall, ↓reduceIte, List.length_append] at hx hy ⊢
    omega
  · rfl

/-- A number that is read before a text is read before any other. -/
theorem length_le_of_le (hx : Number.length (a ++ x) ≤ a.length) :
    Number.length (a ++ x) ≤ Number.length (a ++ y) := by
  by_cases hzero : Number.length (a ++ x) = 0
  · omega
  · obtain ⟨hfits, _, _⟩ := (length_finds (a ++ x)).some hzero
    rw [List.take_append_of_le_length hx] at hfits
    have hsplit : a ++ y = a.take (Number.length (a ++ x)) ++
        (a.drop (Number.length (a ++ x)) ++ y) := by
      rw [← List.append_assoc, List.take_append_drop]
    have hfinds := length_finds (a ++ y)
    have hsome : Number.length (a ++ y) ≠ 0 := fun hnone => hfinds.none hnone _ _ hfits hsplit
    have hlongest := (hfinds.some hsome).longest _ hfits ⟨_, hsplit.symm⟩
    rw [List.length_take_of_le hx, List.length_take] at hlongest
    omega

theorem length_local (hx : Number.length (a ++ x) ≤ a.length)
    (hy : Number.length (a ++ y) ≤ a.length) :
    Number.length (a ++ x) = Number.length (a ++ y) :=
  Nat.le_antisymm (length_le_of_le hx) (length_le_of_le hy)

/-- Behind the beginning of a word only underscores are left to what follows it. -/
theorem wordTail_of_le (hall : ∀ d ∈ a, isWordContinuation d = true)
    (hx : wordTail (a ++ x) ≤ a.length) :
    wordTail (a ++ x) = (a.reverse.dropWhile (· = '_')).length := by
  rw [wordTail, List.takeWhile_append_of_pos hall, List.reverse_append,
    List.dropWhile_append] at hx ⊢
  split
  · rfl
  · rename_i hsome
    have hlength : 0 < ((x.takeWhile isWordContinuation).reverse.dropWhile (· = '_')).length :=
      List.length_pos_iff.mpr (by simpa using hsome)
    rw [if_neg hsome, List.length_append, List.length_reverse] at hx
    omega

theorem wordTail_local (hx : wordTail (a ++ x) ≤ a.length) (hy : wordTail (a ++ y) ≤ a.length) :
    wordTail (a ++ x) = wordTail (a ++ y) := by
  by_cases hall : ∀ d ∈ a, isWordContinuation d = true
  · rw [wordTail_of_le hall hx, wordTail_of_le hall hy]
  · have hshort : (a.takeWhile isWordContinuation).length ≠ a.length := by
      intro hlength
      apply hall
      intro d hd
      rw [← (List.takeWhile_prefix isWordContinuation).eq_of_length hlength] at hd
      exact List.all_eq_true.mp List.all_takeWhile d hd
    simp only [wordTail, List.takeWhile_append, if_neg hshort]

/-- A code point in braces behind a backslash. -/
theorem escaped_braces (hd : run isHexDigit (digits ++ '\x7d' :: rest) = digits.length)
    (hn : digits ≠ []) : escaped ('u' :: '\x7b' :: (digits ++ '\x7d' :: rest)) =
      digits.length + 3 := by
  have hlength := List.length_pos_iff.mpr hn
  simp only [escaped, hd, List.drop_left', List.head?_cons]
  rw [if_pos ⟨by omega, trivial⟩]

theorem escaped_cases (rest : Text) : escaped rest = 1 ∨
    ∃ digits more, rest = 'u' :: '\x7b' :: (digits ++ '\x7d' :: more) ∧ digits ≠ [] ∧
      (∀ d ∈ digits, isHexDigit d = true) ∧ escaped rest = digits.length + 3 := by
  fun_cases escaped rest with
  | case1 rest digits hdigits =>
    obtain ⟨hsome, hbrace⟩ := hdigits
    obtain ⟨more, hmore⟩ := List.head?_eq_some_iff.mp hbrace
    have hlength : (rest.take digits).length = digits :=
      List.length_take_of_le (run_le isHexDigit rest)
    refine .inr ⟨rest.take digits, more, by rw [← hmore, List.take_append_drop], ?_,
      fun d hd => mem_take_run hd, by rw [hlength]⟩
    intro hnil
    rw [hnil] at hlength
    exact hsome hlength.symm
  | case2 => exact .inl rfl
  | case3 => exact .inl rfl

theorem escaped_of_le (hx : escaped (a ++ x) ≤ a.length) (hone : escaped (a ++ x) ≠ 1) :
    escaped (a ++ y) = escaped (a ++ x) := by
  obtain ⟨digits, more, hrest, hn, hall, hlength⟩ := (escaped_cases (a ++ x)).resolve_left hone
  have hsplit : a ++ x = ('u' :: '\x7b' :: digits ++ ['\x7d']) ++ more := by simp [hrest]
  have hprefix : 'u' :: '\x7b' :: digits ++ ['\x7d'] <+: a := by
    refine List.prefix_of_prefix_length_le ⟨more, hsplit.symm⟩ (List.prefix_append a x) ?_
    simp only [List.length_append, List.length_cons, List.length_nil]
    omega
  obtain ⟨inner, rfl⟩ := hprefix
  rw [hlength]
  have hrun : run isHexDigit (digits ++ '\x7d' :: (inner ++ y)) = digits.length := by
    rw [run, List.takeWhile_append_of_pos hall, List.takeWhile_cons_of_neg (by decide),
      List.append_nil]
  simpa using escaped_braces hrun hn

theorem escaped_local (hx : escaped (a ++ x) ≤ a.length) (hy : escaped (a ++ y) ≤ a.length) :
    escaped (a ++ x) = escaped (a ++ y) := by
  by_cases hone : escaped (a ++ x) = 1
  · by_cases hone' : escaped (a ++ y) = 1
    · rw [hone, hone']
    · exact escaped_of_le hy hone'
  · exact (escaped_of_le hx hone).symm

theorem escaped_pos (rest : Text) : 0 < escaped rest := by
  rcases escaped_cases rest with hone | ⟨_, _, _, _, _, hlength⟩ <;> omega

theorem lexeme_slash (d : Char) (rest : Text) : lexeme '\\' (d :: rest) =
    if isHorizontalSpace d || isLineEnd d then (.symbol, 0)
    else (.escape, escaped (d :: rest)) := by
  have hnumber : (isDigit '\\' || isBaseLetter '\\' || isSign '\\') = false := by decide
  have hletter : isLetterOrNumber '\\' = false := by decide
  simp only [lexeme, hnumber, hletter, Bool.false_eq_true, ↓reduceIte]

/-- A backslash takes something, or it is a symbol. -/
theorem lexeme_slash_none (h : (lexeme '\\' rest).2 = 0) : lexeme '\\' rest = (.symbol, 0) := by
  cases rest with
  | nil => decide
  | cons d rest =>
    rw [lexeme_slash] at h ⊢
    split
    · rfl
    · rename_i hblank
      rw [if_neg hblank] at h
      exact absurd h (Nat.ne_of_gt (escaped_pos _))

/-- A lexeme that ends within a text is the same whatever comes after the text. -/
theorem lexeme_local (hx : (lexeme c (a ++ x)).2 ≤ a.length)
    (hy : (lexeme c (a ++ y)).2 ≤ a.length) : lexeme c (a ++ x) = lexeme c (a ++ y) := by
  by_cases hslash : c = '\\'
  · subst hslash
    cases a with
    | nil => rw [lexeme_slash_none (Nat.le_zero.mp hx), lexeme_slash_none (Nat.le_zero.mp hy)]
    | cons d a =>
      simp only [List.cons_append, lexeme_slash] at hx hy ⊢
      split
      · rfl
      · rename_i hblank
        rw [if_neg hblank] at hx hy
        rw [← List.cons_append, ← List.cons_append, escaped_local hx hy]
  · have hnumber {z : Text} (hstart : (isDigit c || isBaseLetter c || isSign c) = true)
        (hz : (lexeme c (a ++ z)).2 ≤ a.length) :
        Number.length (c :: a ++ z) ≤ (c :: a).length := by
      simp only [lexeme, hstart, ↓reduceIte] at hz
      rw [List.length_cons, List.cons_append]
      split at hz <;> omega
    by_cases hstart : (isDigit c || isBaseLetter c || isSign c) = true
    · have hsame := length_local (hnumber hstart hx) (hnumber hstart hy)
      rw [List.cons_append, List.cons_append] at hsame
      simp only [lexeme, hstart, ↓reduceIte, hsame]
    · simp only [lexeme, if_neg hslash, hstart, Bool.false_eq_true, ↓reduceIte] at hx hy ⊢
      split
      · rename_i hletter
        simp only [hletter, ↓reduceIte] at hx hy
        rw [wordTail_local hx hy]
      · rename_i hletter
        simp only [hletter, Bool.false_eq_true, ↓reduceIte] at hx hy
        split
        · rename_i hblank
          simp only [hblank, ↓reduceIte] at hx hy
          rw [run_local hx hy]
        · rename_i hblank
          simp only [hblank, Bool.false_eq_true, ↓reduceIte] at hx hy
          split
          · rename_i hend
            simp only [hend, ↓reduceIte] at hx hy
            cases a with
            | nil => rw [Nat.le_zero.mp hx, Nat.le_zero.mp hy]
            | cons => rfl
          · rfl

section Bracket

variable (hc : c ∈ brackets)

include hc

theorem lexeme_bracket (rest : Text) : lexeme c rest = (.symbol, 0) := by
  obtain ⟨hnumeral, hword, hblank, hend, hslash, _⟩ := LineStore.bracket_classes hc
  simp only [isNumeral, isHexDigit, Bool.or_eq_false_iff] at hnumeral
  simp only [isWordContinuation, Bool.or_eq_false_iff] at hword
  simp [lexeme, hnumeral, hword, hblank, hend, hslash]

/-- A code point in braces does not go on over an opening bracket with its closing one behind. -/
theorem escaped_stays (rest : Text) (hn : a ≠ []) :
    escaped (a ++ c :: LineStore.closing c :: rest) ≤ a.length := by
  obtain ⟨hnumeral, _, _, _, _, hbrace, hhex, _⟩ := LineStore.bracket_classes hc
  have hpos := List.length_pos_iff.mpr hn
  rcases escaped_cases (a ++ c :: LineStore.closing c :: rest) with
    hone | ⟨digits, more, htext, hdigits, hall, hlength⟩
  · omega
  · rw [hlength]
    by_contra hshort
    match a with
    | [e] =>
      obtain ⟨d, digits, rfl⟩ := List.exists_cons_of_ne_nil hdigits
      simp only [List.cons_append, List.nil_append, List.cons.injEq] at htext
      have := hall d List.mem_cons_self
      simp [← htext.2.2.1, hhex] at this
    | e :: e' :: a =>
      simp only [List.cons_append, List.cons.injEq] at htext
      simp only [List.length_cons] at hshort
      have hat := congrArg (·[a.length]?) htext.2.2
      simp only [List.getElem?_append_right (Nat.le_refl _), Nat.sub_self,
        List.getElem?_cons_zero] at hat
      rcases Nat.lt_or_ge a.length digits.length with hlt | hge
      · rw [List.getElem?_append_left hlt] at hat
        have hhex := isNumeral_of_isHexDigit (hall c (List.mem_of_getElem? hat.symm))
        simp [hnumeral] at hhex
      · rw [List.getElem?_append_right hge, Nat.sub_eq_zero_of_le (by omega)] at hat
        exact hbrace (Option.some.inj hat)

/-- No lexeme goes on over an opening bracket with its closing one behind, unless it is escaped. -/
theorem lexeme_stays (rest : Text) (hn : a = [] → d ≠ '\\') :
    (lexeme d (a ++ c :: LineStore.closing c :: rest)).2 ≤ a.length := by
  obtain ⟨hnumeral, hword, hblank, hend, _⟩ := LineStore.bracket_classes hc
  have htaken {k : Nat} (hk : a.length < k) :
      c ∈ (a ++ c :: LineStore.closing c :: rest).take k := by
    obtain ⟨k, rfl⟩ := Nat.exists_eq_add_of_lt hk
    rw [Nat.add_assoc, List.take_length_add_append, List.take_succ_cons]
    simp
  by_contra hlong
  rw [Nat.not_le] at hlong
  have hm := htaken hlong
  revert hm hlong
  generalize htext : a ++ c :: LineStore.closing c :: rest = text
  fun_cases lexeme d text with
  | case1 _ _ n hn =>
    intro _ hm
    have hall := Number.length_numeral (d :: text)
    rw [hn] at hall
    have := hall c (List.mem_cons_of_mem d hm)
    simp [hnumeral] at this
  | case2 => simp
  | case3 =>
    intro _ hm
    have := mem_take_wordTail hm
    simp [hword] at this
  | case4 => simp
  | case5 => simp
  | case6 _ _ hslash =>
    intro hlong _
    have hne : a ≠ [] := fun hnil => hn hnil hslash
    have := escaped_stays hc rest hne
    rw [htext] at this
    omega
  | case7 =>
    intro _ hm
    have := mem_take_run hm
    simp [hblank] at this
  | case8 =>
    intro hlong hm
    split at hm
    · rename_i hfeed
      rw [if_pos hfeed, Nat.lt_one_iff] at hlong
      obtain rfl := List.eq_nil_of_length_eq_zero hlong
      rw [← htext] at hfeed
      obtain rfl : c = '\n' := by simpa using hfeed.2
      cases hend
    · simp at hm
  | case9 => simp

/-- A text is cut before a bracket that is not escaped. -/
theorem scan_stays (hcuts : Cuts front (a ++ c :: LineStore.closing c :: rest))
    (he : escapesNext (front ++ a) = false) : ∃ pieces,
      scan (Text.size front) (a ++ c :: LineStore.closing c :: rest) =
        pieces ++ scan (Text.size (front ++ a)) (c :: LineStore.closing c :: rest) ∧
      pieces.flatMap Token.text = a :=
  scan_to (fun hn => lexeme_stays hc rest hn) hcuts he

end Bracket

/-- What the tokens that a bracket may cut are written with, but for the last character of an
escape. -/
def isInner (c : Char) : Bool :=
  isWordContinuation c || isNumeral c || isHorizontalSpace c || c = '\\' || c = '\x7b'

theorem escaped_inner (hn : a ≠ []) (hlong : a.length < escaped (a ++ x)) :
    ∀ e ∈ a, isInner e = true := by
  have hpos := List.length_pos_iff.mpr hn
  rcases escaped_cases (a ++ x) with hone | ⟨digits, more, htext, _, hall, hlength⟩
  · omega
  · have hsplit : a ++ x = ('u' :: '\x7b' :: digits) ++ '\x7d' :: more := by simp [htext]
    have hprefix : a <+: 'u' :: '\x7b' :: digits := by
      refine List.prefix_of_prefix_length_le (List.prefix_append a x) ⟨_, hsplit.symm⟩ ?_
      simp only [List.length_cons]
      omega
    intro e he
    have hm := hprefix.subset he
    simp only [List.mem_cons] at hm
    rcases hm with rfl | rfl | hm
    · decide
    · decide
    · simp [isInner, isNumeral_of_isHexDigit (hall e hm)]

/-- A lexeme that goes on over a place in a line. -/
theorem lexeme_inner (hfeed : x.head? ≠ some '\n') (hn : a = [] → d ≠ '\\')
    (hlong : a.length < (lexeme d (a ++ x)).2) : ∀ e ∈ d :: a, isInner e = true := by
  have htake {k : Nat} (hk : a.length < k) {e : Char} (he : e ∈ a) : e ∈ (a ++ x).take k := by
    rw [List.take_append, List.take_of_length_le (Nat.le_of_lt hk)]
    exact List.mem_append_left _ he
  revert hlong
  generalize htext : a ++ x = text at htake ⊢
  fun_cases lexeme d text with
  | case1 _ _ n hn =>
    intro hlong e he
    have hall := Number.length_numeral (d :: text)
    rw [hn] at hall
    have hm : e ∈ (d :: text).take (n + 1) := by
      rw [List.take_succ_cons]
      exact List.cons_subset_cons d (fun _ => htake hlong) he
    simp [isInner, hall e hm]
  | case2 => simp
  | case3 _ _ hletter =>
    intro hlong
    refine List.forall_mem_cons.mpr ⟨?_, fun e he => ?_⟩
    · simp [isInner, isWordContinuation_of_isLetterOrNumber hletter]
    · simp [isInner, mem_take_wordTail (htake hlong he)]
  | case4 => simp
  | case5 => simp
  | case6 _ _ hslash _ tail =>
    intro hlong
    have hne : a ≠ [] := fun hnil => hn hnil hslash
    rw [← htext] at hlong
    exact List.forall_mem_cons.mpr ⟨by simp [isInner, hslash], escaped_inner hne hlong⟩
  | case7 _ _ _ _ hblank =>
    intro hlong
    refine List.forall_mem_cons.mpr ⟨by simp [isInner, hblank], fun e he => ?_⟩
    simp [isInner, mem_take_run (htake hlong he)]
  | case8 =>
    intro hlong
    split at hlong
    · rename_i hreturn
      rw [Nat.lt_one_iff] at hlong
      obtain rfl := List.eq_nil_of_length_eq_zero hlong
      rw [List.nil_append] at htext
      exact absurd (htext ▸ hreturn.2) hfeed
    · simp at hlong
  | case9 => simp

/-- A word that goes on over a place goes on with all that is before the place. -/
theorem lexeme_word_over (h : (lexeme d (a ++ x)).1 = .word)
    (hlong : a.length < (lexeme d (a ++ x)).2) :
    isLetterOrNumber d = true ∧ isDigit d = false ∧ isBaseLetter d = false ∧
      ∀ e ∈ a, isWordContinuation e = true := by
  rcases lexeme_word_cases h with ⟨_, hone⟩ | ⟨hbase, hletter, hword⟩
  · simp [hone] at hlong
  · refine ⟨hletter, ?_, hbase, fun e he => ?_⟩
    · rw [Bool.eq_false_iff]
      intro hdigit
      have hnumber := length_pos_of_isDigit hdigit (a ++ x)
      cases hn : Number.length (d :: (a ++ x)) with
      | zero => exact hnumber hn
      | succ n => simp [lexeme, hdigit, hn] at h
    · rw [hword] at hlong
      apply mem_take_wordTail
      rw [List.take_append, List.take_of_length_le (Nat.le_of_lt hlong)]
      exact List.mem_append_left _ he

theorem scan_underscores (front : Text) (n : Nat) : ∃ unders : List Token,
    scan (Text.size front) (List.replicate n '_' ++ rest) =
      unders ++ scan (Text.size (front ++ List.replicate n '_')) rest ∧
    ∀ under ∈ unders, under.isSymbol '_' = true := by
  induction n generalizing front with
  | zero => exact ⟨[], by simp, by simp⟩
  | succ n ih =>
    have hone : lexeme '_' (List.replicate n '_' ++ rest) = (.symbol, 0) := by
      have hnumber : (isDigit '_' || isBaseLetter '_' || isSign '_') = false := by decide
      have hletter : isLetterOrNumber '_' = false := by decide
      simp [lexeme, hnumber, hletter, isHorizontalSpace, isLineEnd]
    obtain ⟨unders, hscan, hall⟩ := ih (front ++ ['_'])
    rw [List.replicate_succ, List.cons_append, scan_cons, hone, List.take_zero, List.drop_zero,
      ← size_append, hscan, List.append_assoc, List.singleton_append]
    exact ⟨_ :: unders, rfl, List.forall_mem_cons.mpr ⟨by simp [isSymbol], hall⟩⟩

/-- What is left of a word before a bracket is a word, with its last underscores behind it. -/
theorem scan_word_left (hc : c ∈ brackets) (hletter : isLetterOrNumber d = true)
    (hdigit : isDigit d = false) (hbase : isBaseLetter d = false)
    (hall : ∀ e ∈ a, isWordContinuation e = true) : ∃ (w : Token) (unders : List Token),
    scan (Text.size front) (d :: (a ++ c :: rest)) =
      w :: unders ++ scan (Text.size (front ++ d :: a)) (c :: rest) ∧
    w.kind = .word ∧ ∀ under ∈ unders, under.isSymbol '_' = true := by
  obtain ⟨_, hclass, _⟩ := LineStore.bracket_classes hc
  obtain ⟨n, htake, _⟩ := takeWhile_wordTail (a ++ c :: rest)
  have hrun : (a ++ c :: rest).takeWhile isWordContinuation = a := by
    rw [List.takeWhile_append_of_pos hall, List.takeWhile_cons_of_neg (by simp [hclass]),
      List.append_nil]
  rw [hrun] at htake
  have hdrop : (a ++ c :: rest).drop (wordTail (a ++ c :: rest)) =
      List.replicate n '_' ++ c :: rest := by
    have hwhole := List.take_append_drop (wordTail (a ++ c :: rest)) (a ++ c :: rest)
    conv_rhs at hwhole => rw [htake, List.append_assoc]
    exact List.append_cancel_left hwhole
  obtain ⟨unders, hscan, hunders⟩ := scan_underscores
    (front ++ d :: (a ++ c :: rest).take (wordTail (a ++ c :: rest))) n
  refine ⟨{ kind := .word, start := Text.size front,
            text := d :: (a ++ c :: rest).take (wordTail (a ++ c :: rest)) },
          unders, ?_, rfl, hunders⟩
  rw [scan_cons, lexeme_letter hletter hdigit hbase, hdrop, ← size_append, hscan,
    List.append_assoc front, List.cons_append, ← htake]
  rfl

/-- Behind a base letter a number is announced by the next character. -/
theorem length_baseLetter (hd : isBaseLetter d = true) : Number.length (d :: rest) ≠ 0 ↔
    run (if d = 'x' then isHexDigit else isDigit) rest ≠ 0 := by
  have hsign : sign (d :: rest) = 0 := by simp [sign, (isBaseLetter_classes hd).2]
  simp only [Number.length, hsign, List.drop_zero, unsigned, hd, ↓reduceIte, magnitude]
  split <;> simp_all

/-- What is left of a number is a word only if it is a base letter. -/
theorem left_baseLetter (hd : isBaseLetter d = true) (hlong : a.length < (lexeme d (a ++ x)).2)
    (hnone : Number.length (d :: (a ++ y)) = 0) : a = [] := by
  cases a with
  | nil => rfl
  | cons e a =>
    exfalso
    have hsome : Number.length (d :: (e :: a ++ x)) ≠ 0 := by
      intro hzero
      rw [lexeme_baseLetter hd hzero] at hlong
      simp at hlong
    have hhead (rest : Text) : Number.length (d :: (e :: rest)) ≠ 0 ↔
        (if d = 'x' then isHexDigit else isDigit) e = true := by
      rw [length_baseLetter hd, run]
      cases he : (if d = 'x' then isHexDigit else isDigit) e <;> simp [he]
    exact (hhead (a ++ y)).mpr ((hhead (a ++ x)).mp hsome) hnone

/-- What is left of a lexeme is no symbol, but for a sign. -/
theorem left_isSign (hn : a = [] → d ≠ '\\') (hlong : a.length < (lexeme d (a ++ x)).2)
    (hs : (lexeme d (a ++ y)).1 = .symbol) : isSign d = true := by
  by_cases hslash : d = '\\'
  · subst hslash
    cases a with
    | nil => exact absurd rfl (hn rfl)
    | cons e a =>
      rw [List.cons_append, lexeme_slash] at hlong hs
      split at hs
      · rename_i hblank
        rw [if_pos hblank] at hlong
        cases hlong
      · cases hs
  · simp only [lexeme, if_neg hslash] at hlong hs
    split at hs
    · split at hs
      · cases hs
      · by_contra hsign
        simp [hsign] at hs
    · rename_i hstart
      simp only [hstart, Bool.false_eq_true, ↓reduceIte] at hlong
      split at hs
      · cases hs
      · rename_i hletter
        simp only [hletter, Bool.false_eq_true, ↓reduceIte] at hlong
        split at hs
        · cases hs
        · rename_i hblank
          simp only [hblank, Bool.false_eq_true, ↓reduceIte] at hlong
          split at hs
          · cases hs
          · rename_i hend
            simp [hend] at hlong

/-- The token `t` reaches over a place, and `pieces` are what is left of it before a bracket
there. -/
structure CutInto (t : Token) (pos : Nat) (pieces : List Token) : Prop where
  low : t.start < pos
  high : pos < t.stop
  kind : t.kind ≠ .symbol
  inner : ∀ piece ∈ pieces, ∀ d ∈ piece.text, isInner d = true
  pieces : ∃ first rest, pieces = first :: rest ∧ (t.kind = .word → first.kind = .word) ∧
    (first.kind = .word → ∀ piece ∈ rest, piece.isSymbol '_' = true) ∧
    ∀ d, first.isSymbol d = true → isSign d = true

/-- Where the first piece is all of a text, no other one comes. -/
theorem pieces_alone {first : Token} {more later : List Token}
    (hscan : scan pos text = first :: more ++ later)
    (htext : (first :: more).flatMap Token.text = first.text) : more = [] := by
  rw [List.flatMap_cons] at htext
  have hempty := List.flatMap_eq_nil_iff.mp (List.append_right_eq_self.mp htext)
  refine List.eq_nil_iff_forall_not_mem.mpr fun piece hpiece => ?_
  have hgenuine : piece.Genuine := by
    apply scan_genuine
    rw [hscan]
    exact List.mem_append_left _ (List.mem_cons_of_mem _ hpiece)
  have hsize := hgenuine.size
  simp [Token.size, hempty piece hpiece] at hsize

section Pieces

variable {first : Token} {more : List Token} (hc : c ∈ brackets)
  (hlong : a.length < (lexeme d (a ++ x)).2)
  (hpieces : scan (Text.size front) (d :: (a ++ c :: rest)) =
    first :: more ++ scan (Text.size (front ++ d :: a)) (c :: rest))

include hc hlong hpieces

/-- Of a word a word is left, and underscores. -/
theorem word_left (hkind : (lexeme d (a ++ x)).1 = .word) :
    first.kind = .word ∧ ∀ piece ∈ more, piece.isSymbol '_' = true := by
  obtain ⟨hletter, hdigit, hbase, hall⟩ := lexeme_word_over hkind hlong
  obtain ⟨w, unders, hscan, hword, hunders⟩ := scan_word_left hc hletter hdigit hbase hall
  obtain ⟨rfl, rfl⟩ := List.cons.inj (List.append_cancel_right (hpieces.symm.trans hscan))
  exact ⟨hword, hunders⟩

/-- Behind a word that is left there are only underscores. -/
theorem unders_left (htext : (first :: more).flatMap Token.text = d :: a)
    (hkind : first.kind = .word) : ∀ piece ∈ more, piece.isSymbol '_' = true := by
  have hfirst := hpieces
  rw [scan_cons, List.cons_append, List.cons.injEq] at hfirst
  obtain ⟨hfirst, _⟩ := hfirst
  rw [← hfirst] at hkind
  rcases lexeme_word_cases hkind with ⟨hbase, hone⟩ | ⟨hbase, hletter, _⟩
  · -- Only a number may have gone on behind a base letter.
    have hnone : Number.length (d :: (a ++ c :: rest)) = 0 := by
      by_contra hsome
      obtain ⟨n, hn⟩ := Nat.exists_eq_succ_of_ne_zero hsome
      simp [lexeme, hbase, hn] at hkind
    obtain rfl := left_baseLetter hbase hlong hnone
    obtain rfl : more = [] := by
      refine pieces_alone hpieces (htext.trans ?_)
      rw [← hfirst, hone]
      rfl
    simp
  · have hdigit : isDigit d = false := by
      rw [Bool.eq_false_iff]
      intro hd
      obtain ⟨n, hn⟩ :=
        Nat.exists_eq_succ_of_ne_zero (length_pos_of_isDigit hd (a ++ c :: rest))
      simp [lexeme, hd, hn] at hkind
    refine (word_left hc hlong hpieces ?_).2
    rw [lexeme_letter hletter hdigit hbase]

end Pieces

/-- A lexeme that goes on over a place is cut there by a bracket. -/
theorem cutInto_of_long {pieces : List Token} (hc : c ∈ brackets) (hfeed : x.head? ≠ some '\n')
    (hn : a = [] → d ≠ '\\') (hlong : a.length < (lexeme d (a ++ x)).2)
    (hpieces : scan (Text.size front) (d :: (a ++ c :: rest)) =
      pieces ++ scan (Text.size (front ++ d :: a)) (c :: rest))
    (htext : pieces.flatMap Token.text = d :: a) :
    CutInto { kind := (lexeme d (a ++ x)).1, start := Text.size front,
              text := d :: (a ++ x).take (lexeme d (a ++ x)).2 } (Text.size (front ++ d :: a))
      pieces := by
  have hsize := d.utf8Size_pos
  refine ⟨?_, ?_, fun hkind => ?_, fun piece hpiece e he => ?_, ?_⟩
  · have hlow : Text.size front < Text.size (front ++ d :: a) := by
      rw [size_append, size_cons]
      omega
    exact hlow
  · have hover : 0 < Text.size (x.take ((lexeme d (a ++ x)).2 - a.length)) := by
      apply Nat.pos_of_ne_zero
      intro hzero
      rcases List.take_eq_nil_iff.mp (size_eq_zero hzero) with hnone | rfl
      · omega
      · have := lexeme_le d (a ++ [])
        rw [List.append_nil] at this hlong
        omega
    simp only [stop, Token.size, List.take_append, List.take_of_length_le (Nat.le_of_lt hlong),
      size_append, size_cons]
    omega
  · simp [lexeme_symbol d _ hkind] at hlong
  · apply lexeme_inner hfeed hn hlong
    rw [← htext]
    exact List.mem_flatMap.mpr ⟨piece, hpiece, he⟩
  · cases pieces with
    | nil => cases htext
    | cons first more =>
      have hfirst := hpieces
      rw [scan_cons, List.cons_append, List.cons.injEq] at hfirst
      obtain ⟨hfirst, _⟩ := hfirst
      refine ⟨first, more, rfl, fun hkind => (word_left hc hlong hpieces hkind).1,
        unders_left hc hlong hpieces htext, fun e he => ?_⟩
      simp only [isSymbol, ← hfirst, Bool.and_eq_true, decide_eq_true_eq, List.head?_cons,
        Option.some.injEq] at he
      obtain ⟨hsymbol, rfl⟩ := he
      exact left_isSign hn hlong hsymbol

/-- A text is cut alike with brackets put in and without them, up to the token that they cut. -/
theorem scan_parted (hc : c ∈ brackets) (hfeed : rest.head? ≠ some '\n')
    (hcuts : Cuts front (a ++ c :: LineStore.closing c :: rest))
    (he : escapesNext (front ++ a) = false) : ∃ common pieces,
      scan (Text.size front) (a ++ c :: LineStore.closing c :: rest) =
        common ++ pieces ++ scan (Text.size (front ++ a)) (c :: LineStore.closing c :: rest) ∧
      (pieces = [] ∧ scan (Text.size front) (a ++ rest) =
          common ++ scan (Text.size (front ++ a)) rest ∨
        ∃ t more, scan (Text.size front) (a ++ rest) = common ++ t :: more ∧
          CutInto t (Text.size (front ++ a)) pieces) := by
  induction hlength : a.length using Nat.strongRecOn generalizing front a with
  | ind n ih =>
    cases a with
    | nil => exact ⟨[], [], by simp, .inl ⟨rfl, by simp⟩⟩
    | cons d a =>
      have hn : a = [] → d ≠ '\\' := by
        rintro rfl rfl
        rw [hcuts.of_slash] at he
        cases he
      have hstays := lexeme_stays hc rest hn
      rcases Nat.lt_or_ge a.length (lexeme d (a ++ rest)).2 with hlong | hshort
      · obtain ⟨pieces, hpieces, htext⟩ := scan_stays hc hcuts he
        refine ⟨[], pieces, by simpa using hpieces, .inr ⟨_, _, scan_cons _ d _, ?_⟩⟩
        exact cutInto_of_long hc hfeed hn hlong hpieces htext
      · have hsame := lexeme_local hshort hstays
        rw [List.cons_append] at hcuts
        have hnext := hcuts.next
        rw [List.take_append_of_le_length hstays, List.drop_append_of_le_length hstays] at hnext
        have hsplit : front ++ d :: a = (front ++ d :: a.take (lexeme d
            (a ++ c :: LineStore.closing c :: rest)).2) ++
            a.drop (lexeme d (a ++ c :: LineStore.closing c :: rest)).2 := by
          rw [List.append_assoc, List.cons_append, List.take_append_drop]
        obtain ⟨common, pieces, hscan, hparted⟩ := ih _ (by
          rw [← hlength, List.length_drop, List.length_cons]
          omega) hnext (hsplit ▸ he) rfl
        rw [← hsplit] at hscan hparted
        rw [← hsame] at hscan hparted
        rw [List.cons_append, List.cons_append, scan_cons _ d, scan_cons _ d, ← hsame,
          List.take_append_of_le_length hshort, List.take_append_of_le_length hshort,
          List.drop_append_of_le_length hshort, List.drop_append_of_le_length hshort,
          ← size_append, hscan]
        refine ⟨_ :: common, pieces, rfl, ?_⟩
        rcases hparted with ⟨rfl, hold⟩ | ⟨t, more, hold, hcut⟩
        · exact .inl ⟨rfl, by rw [hold]; rfl⟩
        · exact .inr ⟨t, more, by rw [hold]; rfl, hcut⟩

/-- The tokens of a text, numbered, and those of the text with the bracket `c` and its closing one
put in at `pos`. The first `m` are the same. The bracket is token `n` of the second text; if token
`m` of the first one reaches over the place, its pieces come before the bracket. -/
structure Parted (text text' : Text) (c : Char) (pos m n : Nat) : Prop where
  first : 0 < m
  le : m ≤ n
  same : ∀ j < m, endless text' j = endless text j
  bracket : (endless text' n).isSymbol c = true
  start : (endless text' n).start = pos
  whole : m = n → (endless text m).start = pos
  low : m < n → (endless text m).start < pos
  high : m < n → pos < (endless text m).stop
  kind : m < n → (endless text m).kind ≠ .symbol
  inner : ∀ j, m ≤ j → j < n → ∀ d ∈ (endless text' j).text, isInner d = true
  word : m < n → (endless text m).kind = .word → (endless text' m).kind = .word
  unders : m < n → (endless text' m).kind = .word →
    ∀ j, m < j → j < n → (endless text' j).isSymbol '_' = true
  sign : m < n → ∀ d, (endless text' m).isSymbol d = true → isSign d = true

theorem exists_parted {before after : Text} (hc : c ∈ brackets)
    (hfeed : after.head? ≠ some '\n') (he : escapesNext before = false) :
    ∃ m n, Parted (before ++ after) (before ++ c :: LineStore.closing c :: after) c
      (Text.size before) m n := by
  obtain ⟨common, pieces, hscan, hparted⟩ := scan_parted hc hfeed
    (cuts_start _) he
  rw [List.nil_append, Text.size_nil] at hscan hparted
  have hbracket : endless (before ++ c :: LineStore.closing c :: after)
      ((common ++ pieces).length + 1) =
        { kind := .symbol, start := Text.size before, text := [c] } := by
    refine endless_behind (k := 0) hscan ?_
    rw [scan_cons, lexeme_bracket hc]
    rfl
  rw [List.length_append] at hbracket
  rw [List.append_assoc] at hscan
  have hpiece {k : Nat} (hk : k < pieces.length) :
      endless (before ++ c :: LineStore.closing c :: after) (common.length + 1 + k) =
        pieces[k] := by
    refine endless_behind hscan ?_
    rw [List.getElem?_append_left hk, List.getElem?_eq_getElem hk]
  rcases hparted with ⟨rfl, hold⟩ | ⟨t, more, hold, hcut⟩
  · have hstart : (endless (before ++ after) (common.length + 1)).start = Text.size before := by
      rw [endless_succ, hold, List.getElem?_append_right (Nat.le_refl _), Nat.sub_self]
      cases after with
      | nil => simp [scan, ending]
      | cons d after =>
        rw [scan_cons]
        rfl
    rw [List.length_nil, Nat.add_zero] at hbracket
    refine ⟨common.length + 1, common.length + 1, Nat.succ_pos _, Nat.le_refl _,
      fun j hj => endless_alike hold hscan hj, ?_, ?_, fun _ => hstart, ?_, ?_, ?_, ?_, ?_, ?_, ?_⟩
    · simp [hbracket, isSymbol]
    · rw [hbracket]
    all_goals omega
  · have ht : endless (before ++ after) (common.length + 1) = t :=
      endless_behind (k := 0) hold rfl
    obtain ⟨first, unders, rfl, hword, hunders, hsign⟩ := hcut.pieces
    have hfirst : endless (before ++ c :: LineStore.closing c :: after) (common.length + 1) =
        first := hpiece (k := 0) (Nat.succ_pos _)
    refine ⟨common.length + 1, common.length + (first :: unders).length + 1, Nat.succ_pos _,
      by omega, fun j hj => endless_alike hold hscan hj, ?_, ?_, fun heq => by simp at heq,
      fun _ => ht ▸ hcut.low, fun _ => ht ▸ hcut.high, fun _ => ht ▸ hcut.kind,
      fun j hlow hhigh => ?_, fun _ hkind => hfirst ▸ hword (ht ▸ hkind),
      fun _ hkind j hlow hhigh => ?_, fun _ => hfirst ▸ hsign⟩
    · rw [hbracket]
      simp [isSymbol]
    · rw [hbracket]
    · obtain ⟨k, rfl⟩ := Nat.exists_eq_add_of_le hlow
      rw [hpiece (by omega)]
      exact hcut.inner _ (List.getElem_mem _)
    · obtain ⟨k, rfl⟩ := Nat.exists_eq_add_of_lt hlow
      have hk : k < unders.length := by
        rw [List.length_cons] at hhigh
        omega
      have hat : endless (before ++ c :: LineStore.closing c :: after)
          (common.length + 1 + k + 1) = unders[k] :=
        hpiece (k := k + 1) (Nat.succ_lt_succ hk)
      rw [hat]
      exact hunders (hfirst ▸ hkind) _ (List.getElem_mem _)

theorem not_isLineEnd (h : isInner c = true) : isLineEnd c = false := by
  rw [Bool.eq_false_iff]
  intro hend
  have hall : isInner '\r' = false ∧ isInner '\n' = false ∧ isInner '\u2028' = false ∧
      isInner '\u2029' = false := by decide +kernel
  simp only [isLineEnd, Bool.or_eq_true, decide_eq_true_eq] at hend
  rcases hend with ((rfl | rfl) | rfl) | rfl <;> simp [hall] at h

theorem scan_lineEnd {t : Token} (ht : t ∈ scan pos text) (hk : t.kind = .lineEnd) :
    ∃ d ∈ t.text, isLineEnd d = true := by
  fun_induction scan pos text with
  | case1 => cases ht
  | case2 pos d rest kind more hl token ih =>
    rcases List.mem_cons.mp ht with rfl | ht
    · have hlexeme : (lexeme d rest).1 = .lineEnd := by
        rw [hl]
        exact hk
      exact ⟨d, List.mem_cons_self, lexeme_lineEnd hlexeme⟩
    · exact ih ht

/-- A token that ends the line begins with a character that does. -/
theorem endless_lineEnd {j : Nat} (h : (endless text j).kind = .lineEnd) :
    ∃ d ∈ (endless text j).text, isLineEnd d = true := by
  cases j with
  | zero => cases h
  | succ j =>
    rw [endless_succ] at h ⊢
    cases hget : (scan 0 text)[j]? with
    | none =>
      rw [hget] at h
      cases h
    | some t =>
      rw [hget] at h
      rw [Option.getD_some] at h ⊢
      exact scan_lineEnd (List.mem_of_getElem? hget) h

namespace Parted

variable {text' : Text} {j k m n : Nat}

section Piece

variable (h : Parted text text' c pos m n) (hlow : m ≤ j) (hj : j < n)

include h hlow hj

/-- The pieces before the bracket are no landmarks. -/
theorem piece_symbol (hd : isInner d = false) : (endless text' j).isSymbol d = false := by
  rw [Bool.eq_false_iff]
  intro hsymbol
  simp only [isSymbol, Bool.and_eq_true, decide_eq_true_eq] at hsymbol
  have hinner := h.inner j hlow hj d (List.mem_of_mem_head? hsymbol.2)
  rw [hd] at hinner
  cases hinner

theorem piece_lineEnd : (endless text' j).kind ≠ .lineEnd := by
  intro hkind
  obtain ⟨d, hd, hend⟩ := endless_lineEnd hkind
  rw [not_isLineEnd (h.inner j hlow hj d hd)] at hend
  cases hend

end Piece

/-- From token `m` on only that one of the old tokens may start before the place. -/
theorem early (h : Parted text text' c pos m n) (hlow : m ≤ j)
    (hearly : (endless text j).start < pos) : j = m ∧ m < n := by
  rcases Nat.eq_or_lt_of_le h.le with heq | hlt
  · have hle : (endless text m).start ≤ (endless text j).start := endless_le hlow
    rw [h.whole heq] at hle
    omega
  · refine ⟨?_, hlt⟩
    by_contra hne
    have hle : (endless text (m + 1)).start ≤ (endless text j).start :=
      endless_le (Nat.lt_of_le_of_ne hlow (Ne.symm hne))
    have hhigh := h.high hlt
    rw [endless_stop] at hhigh
    omega

/-- It is no symbol. -/
theorem early_symbol (h : Parted text text' c pos m n) (hlow : m ≤ j)
    (hearly : (endless text j).start < pos) (d : Char) : (endless text j).isSymbol d = false := by
  obtain ⟨rfl, hlt⟩ := h.early hlow hearly
  rw [Bool.eq_false_iff]
  intro hsymbol
  exact h.kind hlt (Matcher.isSymbol_kind hsymbol)

theorem start_le (h : Parted text text' c pos m n) (hlow : j ≤ m) :
    (endless text j).start ≤ pos := by
  refine Nat.le_trans (endless_le hlow) ?_
  rcases Nat.eq_or_lt_of_le h.le with heq | hlt
  · exact Nat.le_of_eq (h.whole heq)
  · exact Nat.le_of_lt (h.low hlt)

/-- Behind token `m` the place lies behind. -/
theorem lt_start (h : Parted text text' c pos m n) (hlow : m < j)
    (hsome : m = n → (endless text m).kind ≠ .textEnd) : pos < (endless text j).start := by
  have hle : (endless text (m + 1)).start ≤ (endless text j).start := endless_le hlow
  refine Nat.lt_of_lt_of_le ?_ hle
  rcases Nat.eq_or_lt_of_le h.le with heq | hlt
  · rw [← h.whole heq]
    exact endless_solid h.first (hsome heq)
  · rw [← endless_stop]
    exact h.high hlt

end Parted

end Token

end LineMarkup

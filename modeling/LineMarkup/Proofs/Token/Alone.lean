import LineMarkup.Proofs.Text.Escape
import LineMarkup.Proofs.Token.Feed

namespace LineMarkup

namespace Text

def standsAlone (c : Char) : Bool :=
  c = '\x60' || c = '*' || c = '/' || c = '\\' || c = '#'

/-- All that numbers are written with. -/
def isNumeral (c : Char) : Bool :=
  isHexDigit c || isSign c || isBaseLetter c || c = '.'

theorem standsAlone_classes (h : standsAlone c = true) :
    isNumeral c = false ∧ isWordContinuation c = false ∧ isHorizontalSpace c = false ∧
      isLineEnd c = false ∧ isLetterOrNumber c = false := by
  simp only [standsAlone, Bool.or_eq_true, decide_eq_true_eq] at h
  rcases h with (((rfl | rfl) | rfl) | rfl) | rfl <;> decide

end Text

namespace Token

open Text

variable {text before rest skipped more : Text} {c d : Char} {p : Char → Bool}

theorem mem_take_run (h : d ∈ text.take (Number.run p text)) : p d = true := by
  have heq := List.prefix_iff_eq_take.mp (List.takeWhile_prefix p (l := text))
  unfold Number.run at h
  rw [← heq] at h
  exact List.all_eq_true.mp List.all_takeWhile d h

namespace Number

theorem isNumeral_of_isHexDigit (h : isHexDigit c = true) : isNumeral c = true := by
  simp [isNumeral, h]

theorem isNumeral_of_isDigit (h : isDigit c = true) : isNumeral c = true := by
  apply isNumeral_of_isHexDigit
  simp [isHexDigit, h]

/-- The characters that a part of a number takes from a text. -/
def Numeral (n : Nat) (text : Text) : Prop :=
  ∀ d ∈ text.take n, isNumeral d = true

theorem numeral_zero (text : Text) : Numeral 0 text := by
  simp [Numeral]

theorem numeral_succ (hc : isNumeral c = true) (h : Numeral n rest) :
    Numeral (n + 1) (c :: rest) := by
  intro d hd
  rw [List.take_succ_cons] at hd
  rcases List.mem_cons.mp hd with rfl | hd
  · exact hc
  · exact h d hd

theorem numeral_add (h : Numeral n text) (h' : Numeral m (text.drop n)) :
    Numeral (n + m) text := by
  intro d hd
  rw [List.take_add] at hd
  rcases List.mem_append.mp hd with hd | hd
  · exact h d hd
  · exact h' d hd

theorem run_numeral (hp : ∀ c, p c = true → isNumeral c = true) (text : Text) :
    Numeral (run p text) text :=
  fun _ hd => hp _ (mem_take_run hd)

theorem sign_numeral (text : Text) : Numeral (sign text) text := by
  fun_cases sign text with
  | case1 c rest hs =>
    apply numeral_succ
    · simp [isNumeral, hs]
    · exact numeral_zero rest
  | case2 => exact numeral_zero _
  | case3 => exact numeral_zero _

theorem fraction_numeral (hp : ∀ c, p c = true → isNumeral c = true) (text : Text) :
    Numeral (fraction p text) text := by
  fun_cases fraction p text with
  | case1 => exact numeral_zero _
  | case2 rest =>
    apply numeral_succ
    · rfl
    · exact run_numeral hp rest
  | case3 => exact numeral_zero _

theorem exponent_numeral (text : Text) : Numeral (exponent text) text := by
  fun_cases exponent text with
  | case1 => exact numeral_zero _
  | case2 c rest he signs digits =>
    apply numeral_succ
    · simp only [Bool.or_eq_true, decide_eq_true_eq] at he
      rcases he with rfl | rfl <;> rfl
    · exact numeral_add (sign_numeral rest) (run_numeral (fun _ => isNumeral_of_isDigit) _)
  | case3 => exact numeral_zero _
  | case4 => exact numeral_zero _

theorem magnitude_numeral (hp : ∀ c, p c = true → isNumeral c = true) (text : Text) :
    Numeral (magnitude p text) text := by
  fun_cases magnitude p text with
  | case1 => exact numeral_zero _
  | case2 whole _ upToFraction =>
    apply numeral_add
    · exact numeral_add (run_numeral hp text) (fraction_numeral hp _)
    · exact exponent_numeral _

theorem unsigned_numeral (text : Text) : Numeral (unsigned text) text := by
  fun_cases unsigned text with
  | case1 => exact numeral_zero _
  | case2 c rest hb digits =>
    apply numeral_succ
    · simp [isNumeral, hb]
    · apply magnitude_numeral
      split
      · exact fun _ => isNumeral_of_isHexDigit
      · exact fun _ => isNumeral_of_isDigit
  | case3 => exact magnitude_numeral (fun _ => isNumeral_of_isDigit) _
  | case4 => exact numeral_zero _

theorem length_numeral (text : Text) : Numeral (length text) text := by
  fun_cases length text with
  | case1 => exact numeral_zero _
  | case2 => exact numeral_add (sign_numeral text) (unsigned_numeral _)

end Number

theorem mem_take_wordTail (h : d ∈ rest.take (wordTail rest)) : isWordContinuation d = true := by
  have hle : wordTail rest ≤ Number.run isWordContinuation rest := by
    have := (List.dropWhile_sublist (· = '_') (l := (rest.takeWhile isWordContinuation).reverse))
    simpa [wordTail, Number.run] using this.length_le
  exact mem_take_run ((List.take_prefix_take_left hle).subset h)

theorem take_one (h : rest.take 1 = skipped ++ d :: more) : skipped = [] := by
  have hlength := congrArg List.length h
  simp only [List.length_take, List.length_append, List.length_cons] at hlength
  apply List.eq_nil_of_length_eq_zero
  omega

/-- Of what a backslash takes only the first character may stand alone. -/
theorem take_escaped (hd : standsAlone d = true)
    (h : rest.take (escaped rest) = skipped ++ d :: more) : skipped = [] := by
  revert h
  fun_cases escaped rest with
  | case1 rest digits hdigits =>
    intro h
    obtain ⟨_, hbrace⟩ := hdigits
    have hm : d ∈ ('u' :: '\x7b' :: rest).take (digits + 3) := by
      rw [h]
      simp
    rw [List.take_succ_cons, List.take_succ_cons, List.take_add_one, ← List.head?_drop,
      hbrace] at hm
    simp only [List.mem_cons, List.mem_append, Option.toList_some, List.not_mem_nil, or_false] at hm
    rcases hm with rfl | rfl | hm | rfl
    · cases hd
    · cases hd
    · have := Number.isNumeral_of_isHexDigit (mem_take_run hm)
      rw [(standsAlone_classes hd).1] at this
      cases this
    · cases hd
  | case2 => exact take_one
  | case3 => exact take_one

/-- A character that stands alone is the first one of its lexeme, or it is escaped. -/
theorem lexeme_hides (hd : standsAlone d = true)
    (h : rest.take (lexeme c rest).2 = skipped ++ d :: more) : c = '\\' ∧ skipped = [] := by
  obtain ⟨hnumeral, hword, hblank, hend, _⟩ := standsAlone_classes hd
  have hm : d ∈ rest.take (lexeme c rest).2 := by
    rw [h]
    simp
  revert h hm
  fun_cases lexeme c rest with
  | case1 _ _ n hn =>
    intro _ hm
    have hall := Number.length_numeral (c :: rest)
    rw [hn] at hall
    have := hall d (List.mem_cons_of_mem c hm)
    simp [hnumeral] at this
  | case2 => simp
  | case3 =>
    intro _ hm
    have := mem_take_wordTail hm
    simp [hword] at this
  | case4 => simp
  | case5 => simp
  | case6 _ _ hc =>
    intro h _
    exact ⟨hc, take_escaped hd h⟩
  | case7 =>
    intro _ hm
    have := mem_take_run hm
    simp [hblank] at this
  | case8 =>
    intro _ hm
    split at hm
    · rename_i hfeed
      cases rest with
      | nil => cases hfeed.2
      | cons e rest =>
        obtain rfl : d = e := by simpa using hm
        obtain rfl : d = '\n' := by simpa using hfeed.2
        cases hend
    · simp at hm
  | case9 => simp

theorem lexeme_alone (hc : standsAlone c = true) (hn : c ≠ '\\') (rest : Text) :
    lexeme c rest = (.symbol, 0) := by
  obtain ⟨hnumeral, _, hblank, hend, hletter⟩ := standsAlone_classes hc
  have hnumber : (isDigit c || isBaseLetter c || isSign c) = false := by
    simp only [isNumeral, isHexDigit, Bool.or_eq_false_iff] at hnumeral
    simp [hnumeral]
  simp [lexeme, hnumber, hletter, hn, hblank, hend]

/-- A backslash on its own has a blank after it, or nothing. -/
theorem lexeme_backslash (h : (lexeme '\\' rest).2 = 0) :
    ∀ d ∈ rest.head?, (isHorizontalSpace d || isLineEnd d) = true := by
  have hnumber : (isDigit '\\' || isBaseLetter '\\' || isSign '\\') = false := by decide
  have hletter : isLetterOrNumber '\\' = false := by decide
  intro d hd
  obtain ⟨more, rfl⟩ := List.head?_eq_some_iff.mp hd
  apply Classical.byContradiction
  intro hblank
  have hescaped : escaped (d :: more) ≠ 0 := by
    fun_cases escaped (d :: more) <;> simp
  simp only [lexeme, hnumber, hletter, Bool.false_eq_true, ↓reduceIte, if_neg hblank] at h
  exact hescaped h

end Token

end LineMarkup

import LineMarkup.Proofs.Token.Tiling

namespace LineMarkup.Token

open Text

variable {line text : Text} {p : Char → Bool}

namespace Number

theorem run_le (p : Char → Bool) (text : Text) : run p text ≤ text.length :=
  (List.takeWhile_sublist p).length_le

theorem run_feed (hp : p '\n' = false) (line text : Text) :
    run p (line ++ '\n' :: text) = run p line := by
  induction line with
  | nil => simp [run, hp]
  | cons c line ih =>
    simp only [run, List.cons_append, List.takeWhile_cons] at ih ⊢
    split <;> simp [ih]

theorem sign_le (text : Text) : sign text ≤ text.length := by
  fun_cases sign text <;> simp

theorem sign_feed (line text : Text) : sign (line ++ '\n' :: text) = sign line := by
  cases line with
  | nil => rfl
  | cons c line => rfl

theorem fraction_le (p : Char → Bool) (text : Text) : fraction p text ≤ text.length := by
  fun_cases fraction p text
  · exact Nat.zero_le _
  · exact Nat.succ_le_succ (run_le p _)
  · exact Nat.zero_le _

theorem fraction_feed (hp : p '\n' = false) (line text : Text) :
    fraction p (line ++ '\n' :: text) = fraction p line := by
  cases line with
  | nil => rfl
  | cons c line =>
    by_cases hc : c = '.'
    · subst hc
      simp only [List.cons_append, fraction, run_feed hp]
    · simp [fraction, hc]

theorem exponent_le (text : Text) : exponent text ≤ text.length := by
  fun_cases exponent text
  · exact Nat.zero_le _
  · rename_i c rest _ signs digits _
    have hs : signs ≤ rest.length := sign_le rest
    have hd : digits ≤ (rest.drop signs).length := run_le isDigit _
    simp only [List.length_drop] at hd
    simp only [List.length_cons]
    omega
  · exact Nat.zero_le _
  · exact Nat.zero_le _

theorem exponent_feed (line text : Text) : exponent (line ++ '\n' :: text) = exponent line := by
  cases line with
  | nil => rfl
  | cons c line =>
    simp only [List.cons_append, exponent, sign_feed,
      List.drop_append_of_le_length (sign_le line), run_feed (p := isDigit) rfl]

theorem magnitude_le (p : Char → Bool) (text : Text) : magnitude p text ≤ text.length := by
  fun_cases magnitude p text
  · exact Nat.zero_le _
  · rename_i whole _ upToFraction
    have hw : whole ≤ text.length := run_le p text
    have hf := fraction_le p (text.drop whole)
    have he := exponent_le (text.drop upToFraction)
    simp only [List.length_drop] at hf he
    have hu : upToFraction = whole + fraction p (text.drop whole) := rfl
    omega

theorem magnitude_feed (hp : p '\n' = false) (line text : Text) :
    magnitude p (line ++ '\n' :: text) = magnitude p line := by
  have hw := run_le p line
  have hf := fraction_le p (line.drop (run p line))
  rw [List.length_drop] at hf
  simp only [magnitude, run_feed hp, List.drop_append_of_le_length hw, fraction_feed hp]
  rw [List.drop_append_of_le_length (by omega), exponent_feed]

theorem unsigned_le (text : Text) : unsigned text ≤ text.length := by
  fun_cases unsigned text
  · exact Nat.zero_le _
  · exact Nat.succ_le_succ (magnitude_le _ _)
  · exact magnitude_le _ _
  · exact Nat.zero_le _

theorem unsigned_feed (line text : Text) : unsigned (line ++ '\n' :: text) = unsigned line := by
  cases line with
  | nil => rfl
  | cons c line =>
    have hp : (if c = 'x' then isHexDigit else isDigit) '\n' = false := by split <;> rfl
    have hd := magnitude_feed (p := isDigit) rfl (c :: line) text
    rw [List.cons_append] at hd
    simp only [List.cons_append, unsigned, magnitude_feed hp, hd]

theorem length_le (text : Text) : length text ≤ text.length := by
  fun_cases length text
  · exact Nat.zero_le _
  · rename_i digits _
    have hs := sign_le text
    have hd : digits ≤ (text.drop (sign text)).length := unsigned_le _
    simp only [List.length_drop] at hd
    omega

theorem length_feed (line text : Text) : length (line ++ '\n' :: text) = length line := by
  simp only [length, sign_feed, List.drop_append_of_le_length (sign_le line), unsigned_feed]

end Number

theorem takeWhile_feed (hp : p '\n' = false) (line text : Text) :
    (line ++ '\n' :: text).takeWhile p = line.takeWhile p := by
  induction line with
  | nil => simp [hp]
  | cons c line ih =>
    simp only [List.cons_append, List.takeWhile_cons]
    split <;> simp [ih]

theorem wordTail_le (rest : Text) : wordTail rest ≤ rest.length := by
  have hdrop := List.dropWhile_sublist (· = '_') (l := (rest.takeWhile isWordContinuation).reverse)
  have hle := hdrop.length_le
  rw [List.length_reverse] at hle
  exact Nat.le_trans hle (List.takeWhile_sublist _).length_le

theorem escaped_le (rest : Text) (hn : rest ≠ []) : escaped rest ≤ rest.length := by
  have hone : 1 ≤ rest.length := List.length_pos_iff.mpr hn
  fun_cases escaped rest
  · rename_i rest digits hd
    have hlt : digits < rest.length := by
      apply Classical.byContradiction
      intro hge
      rw [List.drop_eq_nil_of_le (by omega)] at hd
      cases hd.2
    simp only [List.length_cons]
    omega
  · exact hone
  · exact hone

/-- A code point in braces ends on its line. -/
theorem escaped_feed (hn : line ≠ []) (text : Text) :
    escaped (line ++ '\n' :: text) = escaped line := by
  obtain ⟨c, line, rfl⟩ := List.exists_cons_of_ne_nil hn
  by_cases hc : c = 'u'
  · subst hc
    cases line with
    | nil => simp [escaped]
    | cons d line =>
      by_cases hd : d = '\x7b'
      · subst hd
        have hhead : ((line ++ '\n' :: text).drop (Number.run isHexDigit line)).head? =
            some '\x7d' ↔ (line.drop (Number.run isHexDigit line)).head? = some '\x7d' := by
          rw [List.drop_append_of_le_length (Number.run_le isHexDigit line)]
          cases line.drop (Number.run isHexDigit line) <;> simp
        simp only [List.cons_append, escaped, Number.run_feed (p := isHexDigit) rfl, hhead]
      · simp [escaped, hd]
  · simp [escaped, hc]

theorem lexeme_le (c : Char) (rest : Text) : (lexeme c rest).2 ≤ rest.length := by
  fun_cases lexeme c rest
  · rename_i n hn
    have := Number.length_le (c :: rest)
    rw [hn, List.length_cons] at this
    exact Nat.le_of_succ_le_succ this
  · exact Nat.zero_le _
  · exact wordTail_le rest
  · exact Nat.zero_le _
  · exact Nat.zero_le _
  · exact escaped_le _ (List.cons_ne_nil _ _)
  · exact Number.run_le isHorizontalSpace rest
  · split
    · rename_i hfeed
      cases rest with
      | nil => cases hfeed.2
      | cons => simp
    · exact Nat.zero_le _
  · exact Nat.zero_le _

/-- The lexeme at the start of a line without line ends. -/
theorem lexeme_feed (hc : isLineEnd c = false) (line text : Text) :
    lexeme c (line ++ '\n' :: text) = lexeme c line := by
  have hlen := Number.length_feed (c :: line) text
  rw [List.cons_append] at hlen
  have hword : wordTail (line ++ '\n' :: text) = wordTail line := by
    rw [wordTail, takeWhile_feed (by decide), wordTail]
  have hspace := Number.run_feed (p := isHorizontalSpace) (by decide) line text
  simp only [lexeme, hlen, hword, hspace, hc, Bool.false_eq_true, ↓reduceIte]
  split
  · rfl
  · split
    · rfl
    · split
      · cases line with
        | nil => simp [isLineEnd]
        | cons d line =>
          have := escaped_feed (List.cons_ne_nil d line) text
          rw [List.cons_append] at this
          simp only [List.cons_append, this]
      · rfl

theorem lexeme_feed_self (text : Text) : lexeme '\n' text = (.lineEnd, 0) := by
  have hdigit : (isDigit '\n' || isBaseLetter '\n' || isSign '\n') = false := by decide
  have hletter : isLetterOrNumber '\n' = false := by decide
  simp [lexeme, hdigit, hletter, isHorizontalSpace, isLineEnd]

theorem lexeme_lineEnd {c : Char} {rest : Text} (h : (lexeme c rest).1 = .lineEnd) :
    isLineEnd c = true := by
  revert h
  fun_cases lexeme c rest <;> grind

abbrev Face := TokenKind × Text

/-- Where a line starts. -/
def Face.feed : Face :=
  (.lineEnd, [])

def Face.ending : Face :=
  (.textEnd, [])

/-- What is in a token, wherever it stands and whatever a match has made of it. A line starts after
a line end as at the start of a text. -/
def face (token : Token) : Face :=
  if token.kind = .begin ∨ token.kind = .lineEnd then .feed else (token.kind, token.text)

def faces (text : Text) : List Face :=
  (scan 0 text).map face

theorem scan_faces (pos : Nat) (text : Text) : (scan pos text).map face = faces text := by
  have hany (pos pos' : Nat) : (scan pos text).map face = (scan pos' text).map face := by
    fun_induction scan pos text generalizing pos' with
    | case1 => rw [scan]
    | case2 pos c rest kind more hl token ih =>
      rw [scan, hl, List.map_cons, List.map_cons]
      exact congrArg (_ :: ·) (ih _)
  exact hany pos 0

theorem faces_cons (c : Char) (rest : Text) :
    faces (c :: rest) = face ⟨(lexeme c rest).1, 0, c :: rest.take (lexeme c rest).2, false⟩ ::
      faces (rest.drop (lexeme c rest).2) := by
  rw [faces, scan, List.map_cons, scan_faces]

/-- Lines are cut one after another. -/
theorem faces_feed (h : ∀ c ∈ line, isLineEnd c = false) (text : Text) :
    faces (line ++ '\n' :: text) = faces line ++ .feed :: faces text := by
  induction hn : line.length using Nat.strongRecOn generalizing line with
  | ind n ih =>
    cases line with
    | nil =>
      rw [List.nil_append, faces_cons, lexeme_feed_self]
      simp [faces, scan, face]
    | cons c line =>
      obtain ⟨hc, hline⟩ := List.forall_mem_cons.mp h
      have hle := lexeme_le c line
      rw [List.cons_append, faces_cons, lexeme_feed hc, List.take_append_of_le_length hle,
        List.drop_append_of_le_length hle, faces_cons,
        ih _ ?_ (fun d hd => hline d (List.mem_of_mem_drop hd)) rfl]
      · rfl
      · rw [← hn, List.length_drop, List.length_cons]
        omega

/-- Within a line there is neither another start of a line nor an end. -/
theorem faces_inner (h : ∀ c ∈ line, isLineEnd c = false) :
    ∀ x ∈ faces line, x.1 ≠ .lineEnd ∧ x.1 ≠ .textEnd := by
  induction hn : line.length using Nat.strongRecOn generalizing line with
  | ind n ih =>
    cases line with
    | nil => simp [faces, scan]
    | cons c line =>
      obtain ⟨hc, hline⟩ := List.forall_mem_cons.mp h
      rw [faces_cons]
      refine List.forall_mem_cons.mpr
        ⟨?_, ih _ ?_ (fun d hd => hline d (List.mem_of_mem_drop hd)) rfl⟩
      · obtain ⟨hb, he⟩ := lexeme_kind c line
        have hl : (lexeme c line).1 ≠ .lineEnd := by
          intro hl
          rw [lexeme_lineEnd hl] at hc
          cases hc
        simp [face, hb, he, hl]
      · rw [← hn, List.length_drop, List.length_cons]
        omega

end LineMarkup.Token

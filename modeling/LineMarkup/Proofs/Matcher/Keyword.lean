import LineMarkup.Proofs.Matcher.Ordered
import LineMarkup.Proofs.Token.Numbered

namespace LineMarkup

namespace Token

open Text Number

variable {text rest word front : Text} {c d : Char} {pos : Nat} {t : Token}

/-- The word tokens that a text begins with. -/
def wordTokens (pos : Nat) (text : Text) : List Token :=
  (scan pos text).takeWhile (·.kind = .word)

theorem isWordContinuation_of_isLetterOrNumber (h : isLetterOrNumber c = true) :
    isWordContinuation c = true := by
  simp [isWordContinuation, h]

theorem isBaseLetter_classes (h : isBaseLetter c = true) :
    isLetterOrNumber c = true ∧ isSign c = false := by
  simp only [isBaseLetter, Bool.or_eq_true, decide_eq_true_eq] at h
  rcases h with (rfl | rfl) | rfl <;> decide

/-- A base letter that announces no number is a token of its own. -/
theorem lexeme_baseLetter (hc : isBaseLetter c = true) (hn : Number.length (c :: rest) = 0) :
    lexeme c rest = (.word, 0) := by
  simp [lexeme, hc, hn, (isBaseLetter_classes hc).2]

theorem length_pos_of_isDigit (hc : isDigit c = true) (rest : Text) :
    Number.length (c :: rest) ≠ 0 := by
  have hsign : isSign c = false := by
    by_contra hs
    simp only [isSign, Bool.not_eq_false, Bool.or_eq_true, decide_eq_true_eq] at hs
    rcases hs with rfl | rfl <;> cases hc
  have hbase : isBaseLetter c = false := by
    by_contra hb
    simp only [isBaseLetter, Bool.not_eq_false, Bool.or_eq_true, decide_eq_true_eq] at hb
    rcases hb with (rfl | rfl) | rfl <;> cases hc
  simp [Number.length, sign, hsign, unsigned, hbase, magnitude, run, hc]

/-- A word token is a single base letter, or it takes all that continues it. -/
theorem lexeme_word_cases (h : (lexeme c rest).1 = .word) :
    (isBaseLetter c = true ∧ lexeme c rest = (.word, 0)) ∨
    (isBaseLetter c = false ∧ isLetterOrNumber c = true ∧
      lexeme c rest = (.word, wordTail rest)) := by
  revert h
  fun_cases lexeme c rest with
  | case2 _ hstart hzero =>
    intro h
    have hdigit : isDigit c ≠ true := fun hd => length_pos_of_isDigit hd _ hzero
    have hsign : isSign c ≠ true := fun hs => by simp [hs] at h
    left
    refine ⟨by simpa [hdigit, hsign] using hstart, by simp [hsign]⟩
  | case3 _ hstart hletter =>
    intro _
    right
    simp only [Bool.or_eq_true, not_or, Bool.not_eq_true] at hstart
    exact ⟨hstart.1.2, hletter, rfl⟩
  | _ => simp

theorem lexeme_word_head (h : (lexeme c rest).1 = .word) : isLetterOrNumber c = true := by
  rcases lexeme_word_cases h with ⟨hbase, _⟩ | ⟨_, hletter, _⟩
  · exact (isBaseLetter_classes hbase).1
  · exact hletter

/-- Of what continues a word only underscores are left behind it. -/
theorem takeWhile_wordTail (rest : Text) : ∃ n,
    rest.takeWhile isWordContinuation = rest.take (wordTail rest) ++ List.replicate n '_' ∧
    (rest.drop (wordTail rest)).takeWhile isWordContinuation = List.replicate n '_' := by
  let left := (rest.takeWhile isWordContinuation).rtakeWhile (· = '_')
  have hsplit : rest.takeWhile isWordContinuation = rest.take (wordTail rest) ++ left := by
    rw [take_wordTail]
    simp [left, List.rdropWhile, List.rtakeWhile, ← List.reverse_append]
  have hleft : left = List.replicate left.length '_' := by
    rw [List.eq_replicate_iff]
    exact ⟨rfl, fun d hd => by simpa using List.mem_rtakeWhile_imp hd⟩
  have hdrop : rest.drop (wordTail rest) = left ++ rest.dropWhile isWordContinuation := by
    have hwhole := List.takeWhile_append_dropWhile (p := isWordContinuation) (l := rest)
    rw [hsplit, List.append_assoc] at hwhole
    exact List.append_cancel_left ((List.take_append_drop _ rest).trans hwhole.symm)
  have hnone : (rest.dropWhile isWordContinuation).takeWhile isWordContinuation = [] := by
    rw [List.takeWhile_eq_nil_iff]
    exact fun hl => by simpa using List.dropWhile_get_zero_not isWordContinuation rest hl
  refine ⟨left.length, by rw [← hleft, hsplit], ?_⟩
  rw [hdrop, List.takeWhile_append_of_pos, hnone, List.append_nil, ← hleft]
  intro d hd
  rw [hleft] at hd
  rw [List.eq_of_mem_replicate hd]
  rfl

/-- Behind a word token that takes all that continues it there is no other one. -/
theorem wordTokens_behind (pos : Nat) (rest : Text) :
    wordTokens pos (rest.drop (wordTail rest)) = [] := by
  obtain ⟨n, _, hleft⟩ := takeWhile_wordTail rest
  cases hrest : rest.drop (wordTail rest) with
  | nil => simp [wordTokens, scan]
  | cons c more =>
    rw [wordTokens, scan_cons, List.takeWhile_cons_of_neg]
    intro hword
    have hletter := lexeme_word_head (of_decide_eq_true hword)
    rw [hrest, List.takeWhile_cons_of_pos (isWordContinuation_of_isLetterOrNumber hletter)] at hleft
    have hc : c ∈ List.replicate n '_' := hleft ▸ List.mem_cons_self
    obtain rfl := List.eq_of_mem_replicate hc
    exact absurd hletter (by decide)

theorem wordTokens_other (h : (lexeme c rest).1 ≠ .word) : wordTokens pos (c :: rest) = [] := by
  rw [wordTokens, scan_cons, List.takeWhile_cons_of_neg]
  simpa using h

theorem wordTokens_baseLetter (h : lexeme c rest = (.word, 0)) :
    wordTokens pos (c :: rest) =
      { kind := .word, start := pos, text := [c] } :: wordTokens (pos + Text.size [c]) rest := by
  rw [wordTokens, scan_cons, h]
  simp [wordTokens]

theorem wordTokens_letter (h : lexeme c rest = (.word, wordTail rest)) :
    wordTokens pos (c :: rest) =
      [{ kind := .word, start := pos, text := c :: rest.take (wordTail rest) }] := by
  rw [wordTokens, scan_cons, h, List.takeWhile_cons_of_pos (by simp)]
  congr 1
  exact wordTokens_behind _ rest

/-- The tokens of a word reach to its end but for underscores, unless there are only base letters:
a number may be cut off behind those. By induction on the text; at most one token is not a base
letter, and it is the last. -/
theorem wordTokens_reach
    (h : ∃ d ∈ (wordTokens pos text).flatMap Token.text, isBaseLetter d = false) :
    ∃ n, text.takeWhile isWordContinuation =
      (wordTokens pos text).flatMap Token.text ++ List.replicate n '_' := by
  induction text generalizing pos with
  | nil => simp [wordTokens, scan] at h
  | cons c rest ih =>
    by_cases hword : (lexeme c rest).1 = .word
    · have hc := isWordContinuation_of_isLetterOrNumber (lexeme_word_head hword)
      rw [List.takeWhile_cons_of_pos hc]
      rcases lexeme_word_cases hword with ⟨hbase, hone⟩ | ⟨_, _, hall⟩
      · rw [wordTokens_baseLetter hone, List.flatMap_cons] at h ⊢
        obtain ⟨d, hd, hnot⟩ := h
        rcases List.mem_append.mp hd with hd | hd
        · obtain rfl := List.mem_singleton.mp hd
          simp [hbase] at hnot
        · obtain ⟨n, hn⟩ := ih ⟨d, hd, hnot⟩
          exact ⟨n, congrArg (c :: ·) hn⟩
      · obtain ⟨n, hn, _⟩ := takeWhile_wordTail rest
        rw [wordTokens_letter hall, List.flatMap_singleton]
        exact ⟨n, congrArg (c :: ·) hn⟩
    · rw [wordTokens_other hword] at h
      simp at h

/-- Words that are cut at base letters at most: nothing in them is read as a number. -/
def isWhole : Text → Bool
  | [] => false
  | c :: rest =>
    if isBaseLetter c then !rest.head?.any isHexDigit && isWhole rest
    else isLetterOrNumber c && !isDigit c && rest.getLast? ≠ some '_'

theorem isWhole_some (h : isWhole word = true) : ∃ d ∈ word, isBaseLetter d = false := by
  fun_induction isWhole word with
  | case1 => cases h
  | case2 c rest _ ih =>
    rw [Bool.and_eq_true] at h
    obtain ⟨d, hd, hnot⟩ := ih h.2
    exact ⟨d, List.mem_cons_of_mem c hd, hnot⟩
  | case3 c rest hbase => exact ⟨c, List.mem_cons_self, Bool.eq_false_iff.mpr hbase⟩

theorem rdropWhile_underscores (h : word.getLast? ≠ some '_') (n : Nat) :
    (word ++ List.replicate n '_').rdropWhile (· = '_') = word := by
  have hkept : word.reverse.dropWhile (· = '_') = word.reverse := by
    rw [List.dropWhile_eq_self_iff]
    intro hl hd
    apply h
    rw [List.getLast?_eq_head?_reverse, List.head?_eq_getElem?, List.getElem?_eq_getElem hl]
    exact congrArg some (by simpa using hd)
  rw [List.rdropWhile, List.reverse_append, List.reverse_replicate,
    List.dropWhile_append_of_pos (by simp), hkept, List.reverse_reverse]

theorem length_of_isBaseLetter (hc : isBaseLetter c = true)
    (hrest : rest.head?.any isHexDigit = false) : Number.length (c :: rest) = 0 := by
  have hnone (p : Char → Bool) (hp : ∀ d, p d = true → isHexDigit d = true) :
      magnitude p rest = 0 := by
    have hrun : run p rest = 0 := by
      cases rest with
      | nil => rfl
      | cons d rest =>
        have hd : p d ≠ true := fun h => by simp [hp d h] at hrest
        simp [run, hd]
    simp [magnitude, hrun]
  have hhex := hnone isHexDigit (fun _ h => h)
  have hdec := hnone isDigit (fun d h => by simp [isHexDigit, h])
  have hdigits : magnitude (if c = 'x' then isHexDigit else isDigit) rest = 0 := by
    split
    · exact hhex
    · exact hdec
  simp [Number.length, sign, (isBaseLetter_classes hc).2, unsigned, hc, hdigits]

theorem lexeme_letter (hc : isLetterOrNumber c = true) (hdigit : isDigit c = false)
    (hbase : isBaseLetter c = false) : lexeme c rest = (.word, wordTail rest) := by
  have hsign : isSign c = false := by
    by_contra hs
    simp only [isSign, Bool.not_eq_false, Bool.or_eq_true, decide_eq_true_eq] at hs
    rcases hs with rfl | rfl <;> exact absurd hc (by decide)
  simp [lexeme, hdigit, hbase, hsign, hc]

/-- Where a text goes on with a whole word and underscores, its tokens are those of the word. -/
theorem wordTokens_whole (hw : isWhole word = true)
    (h : text.takeWhile isWordContinuation = word ++ List.replicate n '_') :
    (wordTokens pos text).flatMap Token.text = word := by
  induction word generalizing pos text with
  | nil => cases hw
  | cons c word ih =>
    obtain ⟨rest, rfl⟩ : ∃ rest, text = c :: rest := by
      obtain ⟨more, hmore⟩ := List.takeWhile_prefix isWordContinuation (l := text)
      rw [h] at hmore
      exact ⟨_, hmore.symm⟩
    have hcont : isWordContinuation c = true := by
      by_contra hnot
      rw [List.takeWhile_cons_of_neg hnot] at h
      cases h
    rw [List.takeWhile_cons_of_pos hcont] at h
    have hrest : rest.takeWhile isWordContinuation = word ++ List.replicate n '_' :=
      (List.cons.inj h).2
    rw [isWhole] at hw
    split at hw
    · rename_i hbase
      rw [Bool.and_eq_true] at hw
      have hhead : rest.head?.any isHexDigit = false := by
        obtain ⟨d, word, rfl⟩ := List.exists_cons_of_ne_nil (l := word) (by
          rintro rfl
          cases hw.2)
        obtain ⟨more, hmore⟩ := List.takeWhile_prefix isWordContinuation (l := rest)
        rw [hrest] at hmore
        rw [← hmore]
        simpa using hw.1
      rw [wordTokens_baseLetter (lexeme_baseLetter hbase (length_of_isBaseLetter hbase hhead)),
        List.flatMap_cons, ih hw.2 hrest]
      rfl
    · rename_i hbase
      simp only [Bool.and_eq_true, Bool.not_eq_true', decide_eq_true_eq] at hw
      obtain ⟨⟨hletter, hdigit⟩, hlast⟩ := hw
      have htaken : rest.take (wordTail rest) = word := by
        rw [take_wordTail, hrest, rdropWhile_underscores hlast]
      rw [wordTokens_letter (lexeme_letter hletter hdigit (Bool.eq_false_iff.mpr hbase)),
        List.flatMap_singleton, htaken]

/-- A whole word stands in the tokens just where the text goes on with it and with nothing but
underscores behind it. -/
theorem wordTokens_iff (hw : isWhole word = true) :
    (wordTokens pos text).flatMap Token.text = word ↔
      ∃ n, text.takeWhile isWordContinuation = word ++ List.replicate n '_' := by
  constructor
  · rintro rfl
    exact wordTokens_reach (isWhole_some hw)
  · rintro ⟨n, hn⟩
    exact wordTokens_whole hw hn

/-- Tokens that lie side by side reach as far as their texts. -/
theorem Tiles.stop_eq {tokens : List Token} (h : Tiles pos tokens limit) :
    limit = pos + Text.size (tokens.flatMap Token.text) := by
  induction tokens generalizing pos with
  | nil => exact h.symm
  | cons t tokens ih =>
    obtain ⟨rfl, ht⟩ := h
    rw [ih ht, List.flatMap_cons, Text.size_append, ← Nat.add_assoc]
    rfl

theorem wordTokens_tiles (pos : Nat) (text : Text) :
    Tiles pos (wordTokens pos text)
      (pos + Text.size ((wordTokens pos text).flatMap Token.text)) := by
  have htiles := scan_tiles pos text
  rw [← List.takeWhile_append_dropWhile (p := (·.kind = .word)) (l := scan pos text),
    tiles_append] at htiles
  obtain ⟨middle, hword, _⟩ := htiles
  exact hword.stop_eq ▸ hword

end Token

namespace Matcher

open Token (Stream Session endless endless_rest wordTokens)
open Token.Stream
open Token.Session (Deed)

theorem codeKeywords_isWhole : ∀ word ∈ codeKeywords, Token.isWhole word = true := by
  decide

variable {input : Nat → Token} {i j : Nat}

/-- A full word is all the word tokens that follow one another. -/
theorem fullWord_taken (h : Peg input fullWord i (some j)) :
    i < j ∧ (∀ k, i ≤ k → k < j → (input k).kind = .word) ∧ (input j).kind ≠ .word := by
  generalize hm : fullWord = m at h
  generalize hr : some j = r at h
  induction h generalizing j with
  | many1Last h h' =>
    obtain rfl := Matcher.many1.inj hm
    obtain rfl := Option.some.inj hr
    cases h with | kind hword =>
    cases h' with | kindMiss hnot =>
    refine ⟨Nat.lt_succ_self _, fun k hlow hhigh => ?_, hnot⟩
    obtain rfl : k = _ := Nat.le_antisymm (Nat.le_of_lt_succ hhigh) hlow
    exact hword
  | many1More h h' _ ih =>
    obtain rfl := Matcher.many1.inj hm
    obtain ⟨hlt, hwords, hnot⟩ := ih rfl hr
    cases h with | kind hword =>
    refine ⟨Nat.lt_of_succ_lt hlt, fun k hlow hhigh => ?_, hnot⟩
    rcases Nat.eq_or_lt_of_le hlow with rfl | hlow
    · exact hword
    · exact hwords k hlow hhigh
  | many1Miss => cases hr
  | _ => cases hm

theorem fullWord_missed (h : Peg input fullWord i none) : (input i).kind ≠ .word := by
  cases h with | many1Miss h =>
  cases h with | kindMiss h => exact h

/-- By induction on the number of words: each one is the head of what is left. -/
theorem takeWhile_words {tokens : List Token} {last : Token} (n : Nat)
    (hlast : last.kind ≠ .word)
    (hwords : ∀ k < n, ((tokens[k]?).getD last).kind = .word)
    (hend : ((tokens[n]?).getD last).kind ≠ .word) :
    tokens.takeWhile (·.kind = .word) =
      (List.range n).map fun k => (tokens[k]?).getD last := by
  induction n generalizing tokens with
  | zero =>
    cases tokens with
    | nil => rfl
    | cons t tokens => simpa using hend
  | succ n ih =>
    cases tokens with
    | nil => exact absurd (hwords 0 (Nat.succ_pos n)) hlast
    | cons t tokens =>
      have ht : t.kind = .word := hwords 0 (Nat.succ_pos n)
      have hrest := ih (fun k hk => hwords (k + 1) (Nat.succ_lt_succ hk)) hend
      rw [List.takeWhile_cons_of_pos (by simpa using ht), hrest, List.range_succ_eq_map,
        List.map_cons, List.map_map]
      rfl

/-- The tokens of a full word are the word tokens of the rest of the text. -/
theorem wordTokens_eq {start : Nat} {rest : Text} {last : Token} (hlast : last.kind ≠ .word)
    (hinput : ∀ k, input (i + k) = ((Token.scan start rest)[k]?).getD last)
    (h : Peg input fullWord i (some j)) :
    wordTokens start rest = (List.range' i (j - i)).map input := by
  obtain ⟨hlt, hwords, hend⟩ := fullWord_taken h
  rw [wordTokens, takeWhile_words (j - i) hlast, List.range'_eq_map_range, List.map_map]
  · exact List.map_congr_left fun k _ => (hinput k).symm
  · intro k hk
    rw [← hinput]
    exact hwords _ (Nat.le_add_right i k) (by omega)
  · rw [← hinput, Nat.add_sub_cancel' (Nat.le_of_lt hlt)]
    exact hend

theorem keyword_matched {start : Nat} {rest : Text} {last : Token} (hlast : last.kind ≠ .word)
    (hinput : ∀ k, input (i + k) = ((Token.scan start rest)[k]?).getD last)
    (h : Peg input (.keyword words) i (some j)) :
    wordTokens start rest = (List.range' i (j - i)).map input ∧
      (wordTokens start rest).flatMap Token.text ∈ words := by
  cases h with | keyword h hw =>
  have htokens := wordTokens_eq hlast hinput h
  refine ⟨htokens, ?_⟩
  rwa [htokens, List.flatMap_map]

theorem keyword_missed {start : Nat} {rest : Text} {last : Token} (hlast : last.kind ≠ .word)
    (hinput : ∀ k, input (i + k) = ((Token.scan start rest)[k]?).getD last)
    (hwords : [] ∉ words) (h : Peg input (.keyword words) i none) :
    (wordTokens start rest).flatMap Token.text ∉ words := by
  cases h with
  | keywordOther h hw => rwa [wordTokens_eq hlast hinput h, List.flatMap_map]
  | keywordMiss h =>
    have hnone := takeWhile_words 0 hlast (by simp) (hinput 0 ▸ fullWord_missed h)
    rwa [wordTokens, hnone]

/-- Whatever was done to a stream before, where its next token is not empty a keyword is matched
just where the longest run of characters that can continue a word is one of the keywords, but for
underscores at its end. The tokens taken are those of the keyword, and none of the underscores. -/
theorem codeKeyword_boundary (text : Text) (deeds : List Deed)
    (h : ((Session.ofText text).actAll deeds).stream.fetch.1.text ≠ []) :
    let stream := ((Session.ofText text).actAll deeds).stream
    let start := stream.fetch.1.start
    let outcome := codeKeyword.run stream
    ∃ before rest, text = before ++ rest ∧ Text.size before = start ∧
      (outcome.1 = true ↔ ∃ word ∈ codeKeywords, ∃ n,
        rest.takeWhile Text.isWordContinuation = word ++ List.replicate n '_') ∧
      (outcome.1 = false → outcome.2.position = stream.position) ∧
      ∀ word ∈ codeKeywords, ∀ n,
        rest.takeWhile Text.isWordContinuation = word ++ List.replicate n '_' →
        let taken := outcome.2.takenSince stream.position
        Token.Tiles start taken (start + Text.size word) ∧ taken.flatMap Token.text = word := by
  intro stream start outcome
  let session := (Session.ofText text).actAll deeds
  have hfollows : Session.Follows text session := (Session.ofText_follows text).actAll deeds
  have hfetch : stream.fetch.1.unmarked = endless text session.next := hfollows.fetch
  have hnext : (endless text session.next).text ≠ [] := by
    rw [← hfetch]
    exact h
  obtain ⟨before, rest, htext, hstart, hinput⟩ := endless_rest hnext
  have hplace : Text.size before = start := by
    rw [hstart, ← hfetch]
    rfl
  rw [hplace] at hinput
  have hlast : (Token.ending text.size).kind ≠ .word := by simp [Token.ending]
  have hpeg : Peg (endless text) codeKeyword session.next (result session.released outcome) :=
    (keyword_agrees hfollows codeKeywords).peg
  have hiff {word : Text} (hw : word ∈ codeKeywords) :
      (wordTokens start rest).flatMap Token.text = word ↔
        ∃ n, rest.takeWhile Text.isWordContinuation = word ++ List.replicate n '_' :=
    Token.wordTokens_iff (codeKeywords_isWhole word hw)
  have hmatched : outcome.1 = true ↔
      (wordTokens start rest).flatMap Token.text ∈ codeKeywords := by
    rw [result] at hpeg
    split at hpeg
    · rename_i hyes
      exact iff_of_true hyes (keyword_matched hlast hinput hpeg).2
    · rename_i hno
      exact iff_of_false hno (keyword_missed hlast hinput (by decide) hpeg)
  refine ⟨before, rest, htext, hplace, ?_, (run_returns codeKeyword stream).back,
    fun word hw n hn => ?_⟩
  · rw [hmatched]
    constructor
    · intro hw
      exact ⟨_, hw, (hiff hw).mp rfl⟩
    · rintro ⟨word, hw, hn⟩
      rwa [(hiff hw).mpr hn]
  · intro taken
    have hword : (wordTokens start rest).flatMap Token.text = word := (hiff hw).mpr ⟨n, hn⟩
    have hyes : outcome.1 = true := hmatched.mpr (hword ▸ hw)
    rw [result, if_pos hyes] at hpeg
    have htokens : taken.map Token.unmarked = wordTokens start rest := by
      have hlength : session.released.length + outcome.2.position - session.next =
          outcome.2.position - stream.position := Nat.add_sub_add_left _ _ _
      rw [(keyword_matched hlast hinput hpeg).1, hlength]
      exact takenSince_unmarked (follows_run hfollows codeKeyword) stream.position
    rw [← Token.tiles_unmarked, ← Session.unmarked_text, htokens]
    exact ⟨hword ▸ Token.wordTokens_tiles start rest, hword⟩

/-- A keyword in two tokens, with an underscore behind it, after a comment was looked for. -/
theorem codeKeyword_boundary_break :
    let stream := ((Session.ofText "#break_ x".toList).actAll
      [.access .fetch, .access .fetch, .access .release, .attempt (.symbols "//".toList)]).stream
    let outcome := codeKeyword.run stream
    stream.fetch.1.text ≠ [] ∧ outcome.1 = true ∧
      Token.Tiles 1 (outcome.2.takenSince stream.position) 6 ∧
      (outcome.2.takenSince stream.position).flatMap Token.text = "break".toList := by
  have hfetch : ((Session.ofText "#break_ x".toList).actAll
      [.access .fetch, .access .fetch, .access .release,
        .attempt (.symbols "//".toList)]).stream.fetch.1 =
      { kind := .word, start := 1, text := "b".toList } := by cbv
  have hnext : ((Session.ofText "#break_ x".toList).actAll
      [.access .fetch, .access .fetch, .access .release,
        .attempt (.symbols "//".toList)]).stream.fetch.1.text ≠ [] := by
    rw [hfetch]
    decide
  obtain ⟨before, rest, htext, hstart, hmatched, _, htaken⟩ :=
    codeKeyword_boundary "#break_ x".toList [.access .fetch, .access .fetch, .access .release,
      .attempt (.symbols "//".toList)] hnext
  rw [hfetch] at hstart htaken
  have hrest : rest = "break_ x".toList := by
    have hsize : Text.size before = 1 := hstart
    obtain ⟨middle, hbefore, hmiddle⟩ := Text.split_of_size_le (a := "#".toList)
      (b := "break_ x".toList) (by exact htext) (by rw [hsize]; decide)
    rw [hbefore, Text.size_append] at hsize
    have hnone : middle = [] := Text.size_eq_zero (Nat.add_left_cancel hsize)
    rw [hmiddle, hnone, List.nil_append]
  subst hrest
  have hrun : "break_ x".toList.takeWhile Text.isWordContinuation =
      "break".toList ++ List.replicate 1 '_' := by decide
  have hword : "break".toList ∈ codeKeywords := by decide
  exact ⟨hnext, hmatched.mpr ⟨_, hword, 1, hrun⟩, htaken _ hword 1 hrun⟩

end Matcher

end LineMarkup

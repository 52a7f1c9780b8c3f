import LineMarkup.Proofs.Token.Cut
import Mathlib.Data.List.Chain
import Mathlib.Data.List.DropRight

namespace LineMarkup.Token

open Text Number

variable {text before rest : Text} {c : Char} {pos : Nat} {p : Char → Bool} {t : Token}

theorem drop_run (p : Char → Bool) (text : Text) :
    text.drop (run p text) = text.dropWhile p := by
  induction text with
  | nil => rfl
  | cons c text ih =>
    cases hc : p c with
    | false => simp [run, hc]
    | true =>
      simp only [run, List.takeWhile_cons, List.dropWhile_cons, hc, ↓reduceIte, List.length_cons,
        List.drop_succ_cons]
      exact ih

/-- A run stops at the first character that does not belong to it. -/
theorem after_run (h : text.drop (run p text) = c :: rest) : p c = false := by
  rw [drop_run] at h
  have hhead := List.head?_dropWhile_not p text
  rw [h] at hhead
  exact hhead

theorem take_wordTail (rest : Text) :
    rest.take (wordTail rest) = (rest.takeWhile isWordContinuation).rdropWhile (· = '_') := by
  have hword := List.takeWhile_prefix isWordContinuation (l := rest)
  have hkept := (List.rdropWhile_prefix (· = '_') (rest.takeWhile isWordContinuation)).trans hword
  have heq := List.prefix_iff_eq_take.mp hkept
  rw [heq, wordTail, List.rdropWhile, List.length_reverse]

theorem wordTail_last (hc : c ≠ '_') (rest : Text) :
    (c :: rest.take (wordTail rest)).getLast? ≠ some '_' := by
  rw [take_wordTail]
  generalize hkept : (rest.takeWhile isWordContinuation).rdropWhile (· = '_') = kept
  intro hlast
  by_cases hnil : kept = []
  · rw [hnil, List.getLast?_singleton, Option.some.injEq] at hlast
    exact hc hlast
  · subst hkept
    have hnot := List.rdropWhile_last_not (· = '_') _ hnil
    rw [List.getLast?_cons, List.getLast?_eq_some_getLast hnil] at hlast
    exact hnot (by simpa using hlast)

theorem lexeme_word (h : (lexeme c rest).1 = .word) :
    (c :: rest.take (lexeme c rest).2).getLast? ≠ some '_' := by
  revert h
  fun_cases lexeme c rest with
  | case2 _ hc =>
    intro _ hlast
    obtain rfl : c = '_' := by simpa using hlast
    exact absurd hc (by decide)
  | case3 _ _ hc =>
    intro _
    apply wordTail_last
    rintro rfl
    exact absurd hc (by decide)
  | _ => simp

/-- A blank takes all blanks that follow. -/
theorem lexeme_whitespace (h : (lexeme c rest).1 = .whitespace) :
    isHorizontalSpace c = true ∧ (lexeme c rest).2 = run isHorizontalSpace rest := by
  revert h
  fun_cases lexeme c rest with
  | case7 _ _ _ _ hc => exact fun _ => ⟨hc, rfl⟩
  | case2 => split <;> simp
  | _ => simp

/-- A carriage return takes the line feed that follows. -/
theorem lexeme_return (h : (lexeme c rest).1 = .lineEnd)
    (hreturn : c :: rest.take (lexeme c rest).2 = ['\r']) :
    (rest.drop (lexeme c rest).2).head? ≠ some '\n' := by
  revert h hreturn
  fun_cases lexeme c rest with
  | case8 c rest =>
    intro _ hreturn hfeed
    obtain ⟨rfl, hnone⟩ := List.cons.inj hreturn
    split at hfeed
    · rename_i hboth
      obtain ⟨more, rfl⟩ := List.head?_eq_some_iff.mp hboth.2
      simp at hnone
    · rename_i hnot
      exact hnot ⟨rfl, hfeed⟩
  | case2 c rest => split <;> simp
  | _ => simp

/-- Neither are both tokens blanks, nor do they make up one line break of two characters. -/
structure Separate (a b : Token) : Prop where
  blank : ¬ (a.kind = .whitespace ∧ b.kind = .whitespace)
  lineBreak : ¬ (a.kind = .lineEnd ∧ a.text = ['\r'] ∧
    b.kind = .lineEnd ∧ b.text.head? = some '\n')

theorem beginning_separate (b : Token) : Separate beginning b :=
  ⟨by simp [beginning], by simp [beginning]⟩

theorem separate_ending (a : Token) (limit : Nat) : Separate a (ending limit) :=
  ⟨by simp [ending], by simp [ending]⟩

theorem scan_head (ht : t ∈ (scan pos text).head?) :
    ∃ c rest, text = c :: rest ∧ t.kind = (lexeme c rest).1 ∧
      t.text = c :: rest.take (lexeme c rest).2 := by
  cases text with
  | nil => simp [scan] at ht
  | cons c rest =>
    rw [scan_cons, List.head?_cons, Option.mem_some] at ht
    subst ht
    exact ⟨c, rest, rfl, rfl, rfl⟩

theorem scan_separate (pos : Nat) (text : Text) : (scan pos text).IsChain Separate := by
  induction hn : text.length using Nat.strongRecOn generalizing pos text with
  | ind n ih =>
    cases text with
    | nil => simp [scan]
    | cons c rest =>
      rw [scan_cons, List.isChain_cons]
      refine ⟨fun next hnext => ?_, ih _ ?_ _ _ rfl⟩
      · obtain ⟨d, more, hrest, hkind, htext⟩ := scan_head hnext
        constructor
        · rintro ⟨hblank, hblank'⟩
          -- The run of blanks has stopped before the next token.
          rw [(lexeme_whitespace hblank).2] at hrest
          have hstop := after_run hrest
          rw [(lexeme_whitespace (hkind ▸ hblank')).1] at hstop
          cases hstop
        · rintro ⟨hend, hreturn, _, hfeed⟩
          apply lexeme_return hend hreturn
          rw [hrest]
          rwa [htext] at hfeed
      · rw [← hn, List.length_drop, List.length_cons]
        omega

theorem scan_text (pos : Nat) (text : Text) : (scan pos text).flatMap Token.text = text := by
  induction hn : text.length using Nat.strongRecOn generalizing pos text with
  | ind n ih =>
    cases text with
    | nil => simp [scan]
    | cons c rest =>
      rw [scan_cons, List.flatMap_cons, ih _ ?_ _ _ rfl, List.cons_append, List.take_append_drop]
      rw [← hn, List.length_drop, List.length_cons]
      omega

/-- Each token that is scanned is the lexeme at its place in the text. -/
theorem scan_lexeme (before : Text) (ht : t ∈ scan (Text.size before) text) :
    ∃ front c rest, text = front ++ c :: rest ∧
      t = { kind := (lexeme c rest).1, start := Text.size (before ++ front)
            text := c :: rest.take (lexeme c rest).2 } := by
  induction hn : text.length using Nat.strongRecOn generalizing before text with
  | ind n ih =>
    cases text with
    | nil => simp [scan] at ht
    | cons c rest =>
      rw [scan_cons, List.mem_cons, ← size_append] at ht
      rcases ht with rfl | ht
      · exact ⟨[], c, rest, rfl, by rw [List.append_nil]⟩
      · obtain ⟨front, d, more, hrest, rfl⟩ := ih _ (by
          rw [← hn, List.length_drop, List.length_cons]
          omega) _ ht rfl
        refine ⟨c :: rest.take (lexeme c rest).2 ++ front, d, more, ?_, ?_⟩
        · rw [List.append_assoc, ← hrest, List.cons_append, List.take_append_drop]
        · rw [List.append_assoc]

theorem scan_symbol (ht : t ∈ scan 0 text) (hk : t.kind = .symbol) : ∃ c, t.text = [c] := by
  obtain ⟨_, c, rest, _, rfl⟩ := scan_lexeme [] ht
  refine ⟨c, ?_⟩
  rw [lexeme_symbol c rest hk, List.take_zero]

theorem scan_word (ht : t ∈ scan 0 text) (hk : t.kind = .word) : t.text.getLast? ≠ some '_' := by
  obtain ⟨_, c, rest, _, rfl⟩ := scan_lexeme [] ht
  exact lexeme_word hk

/-- Between an empty token at either end the tokens lie side by side, none of them empty, and give
the text back. Each one reaches as far as it has to: blanks are in one token, and so is a line break
of two characters. No word ends in an underscore, and a symbol is one character. -/
theorem tokenize_partition (text : Text) :
    ∃ tokens, tokenize text = { kind := .begin, start := 0, text := [] } :: tokens ++
        [{ kind := .textEnd, start := text.size, text := [] }] ∧
      (∀ t ∈ tokens, t.kind ≠ .begin ∧ t.kind ≠ .textEnd ∧ t.text ≠ []) ∧
      Tiles 0 tokens text.size ∧ tokens.flatMap Token.text = text ∧
      (tokenize text).IsChain Separate ∧
      (∀ t ∈ tokens, t.kind = .word → t.text.getLast? ≠ some '_') ∧
      ∀ t ∈ tokens, t.kind = .symbol → ∃ c, t.text = [c] := by
  refine ⟨scan 0 text, rfl, fun t ht => ?_, ?_, scan_text 0 text, ?_, fun t => scan_word,
    fun t => scan_symbol⟩
  · obtain ⟨hkind, hsize, _⟩ := scan_genuine ht
    simp only [isSentinel, Bool.or_eq_false_iff, decide_eq_false_iff_not] at hkind
    refine ⟨hkind.1, hkind.2, fun hnil => ?_⟩
    simp [Token.size, hnil] at hsize
  · have htiles := scan_tiles 0 text
    rwa [Nat.zero_add] at htiles
  · rw [tokenize, List.cons_append, List.isChain_cons, List.isChain_append]
    refine ⟨fun next _ => beginning_separate next, scan_separate 0 text, .singleton _, ?_⟩
    rintro last - next hnext
    obtain rfl := Option.some.inj hnext
    exact separate_ending last text.size

end LineMarkup.Token

import LineMarkup.Proofs.Token.Alone
import LineMarkup.Proofs.Token.Placing
import Mathlib.Data.List.Forall2

namespace LineMarkup.Token

open Text

variable {text before rest front pattern : Text} {c d : Char} {pos limit n : Nat}
  {tokens more a b : List Token}

/-- Between two parts of a text nothing is escaped but a blank. -/
def Cuts (before rest : Text) : Prop :=
  escapesNext before = true → ∀ d ∈ rest.head?, (isHorizontalSpace d || isLineEnd d) = true

theorem cuts_start (rest : Text) : Cuts [] rest := by
  intro h
  cases h

/-- A character that stands alone is not escaped at a cut. -/
theorem Cuts.alone (h : Cuts before (c :: rest)) (hc : standsAlone c = true) :
    escapesNext before = false := by
  obtain ⟨_, _, hblank, hend, _⟩ := standsAlone_classes hc
  cases he : escapesNext before with
  | false => rfl
  | true =>
    have := h he c rfl
    simp [hblank, hend] at this

/-- Each lexeme ends with a cut. -/
theorem Cuts.next (h : Cuts before (c :: rest)) :
    Cuts (before ++ c :: rest.take (lexeme c rest).2) (rest.drop (lexeme c rest).2) := by
  intro he
  have hslash : standsAlone '\\' = true := by decide
  rcases List.eq_nil_or_concat (rest.take (lexeme c rest).2) with hnil | ⟨skipped, last, hlast⟩
  · rw [hnil, escapesNext_concat, Bool.and_eq_true, decide_eq_true_eq] at he
    obtain ⟨rfl, _⟩ := he
    rcases List.take_eq_nil_iff.mp hnil with hzero | rfl
    · rw [hzero, List.drop_zero]
      exact lexeme_backslash hzero
    · simp
  · rw [hlast, List.concat_eq_append, ← List.cons_append, ← List.append_assoc,
      escapesNext_concat, Bool.and_eq_true, decide_eq_true_eq] at he
    obtain ⟨rfl, hnot⟩ := he
    have hends : rest.take (lexeme c rest).2 = skipped ++ ['\\'] :=
      hlast.trans List.concat_eq_append
    obtain ⟨rfl, rfl⟩ := lexeme_hides hslash hends
    simp [h.alone hslash] at hnot

theorem scan_cons (pos : Nat) (c : Char) (rest : Text) :
    scan pos (c :: rest) =
      { kind := (lexeme c rest).1, start := pos, text := c :: rest.take (lexeme c rest).2 } ::
      scan (pos + Text.size (c :: rest.take (lexeme c rest).2)) (rest.drop (lexeme c rest).2) := by
  rw [scan]
  rfl

/-- A backslash that begins a lexeme takes the character behind it. -/
theorem Cuts.of_slash (h : Cuts front ('\\' :: rest)) : escapesNext (front ++ ['\\']) = true := by
  have hslash : standsAlone '\\' = true := by decide
  rw [escapesNext_concat, h.alone hslash]
  rfl

/-- A text is cut before all that no lexeme goes on over, unless it is escaped. -/
theorem scan_to {skipped : Text} (hstays : ∀ {d : Char} {a : Text}, (a = [] → d ≠ '\\') →
      (lexeme d (a ++ rest)).2 ≤ a.length)
    (hcuts : Cuts front (skipped ++ rest)) (he : escapesNext (front ++ skipped) = false) :
    ∃ pieces, scan (Text.size front) (skipped ++ rest) =
        pieces ++ scan (Text.size (front ++ skipped)) rest ∧
      pieces.flatMap Token.text = skipped := by
  induction hlength : skipped.length using Nat.strongRecOn generalizing front skipped with
  | ind n ih =>
    cases skipped with
    | nil => exact ⟨[], by simp, rfl⟩
    | cons d a =>
      have hn : a = [] → d ≠ '\\' := by
        rintro rfl rfl
        rw [hcuts.of_slash] at he
        cases he
      have hstays := hstays hn
      rw [List.cons_append] at hcuts
      have hnext := hcuts.next
      rw [List.take_append_of_le_length hstays, List.drop_append_of_le_length hstays] at hnext
      have hsplit : front ++ d :: a = (front ++ d :: a.take (lexeme d (a ++ rest)).2) ++
          a.drop (lexeme d (a ++ rest)).2 := by
        rw [List.append_assoc, List.cons_append, List.take_append_drop]
      obtain ⟨pieces, hpieces, htext⟩ := ih _ (by
        rw [← hlength, List.length_drop, List.length_cons]
        omega) hnext (hsplit ▸ he) rfl
      rw [List.cons_append, scan_cons, List.take_append_of_le_length hstays,
        List.drop_append_of_le_length hstays, ← size_append, hpieces, ← hsplit]
      refine ⟨_ :: pieces, rfl, ?_⟩
      rw [List.flatMap_cons, htext, List.cons_append, List.take_append_drop]

/-- Tokens that are left are those of the rest of the text. -/
theorem scan_rest (h : scan (Text.size front) text ++ List.replicate n (ending limit) = a ++ b)
    (hc : Cuts front text) :
    ∃ before rest k, text = before ++ rest ∧ Cuts (front ++ before) rest ∧
      b = scan (Text.size (front ++ before)) rest ++ List.replicate k (ending limit) := by
  induction a generalizing front text n with
  | nil => exact ⟨[], text, n, rfl, by simpa using hc, by simpa using h.symm⟩
  | cons t a ih =>
    cases text with
    | nil =>
      -- The text is at its end, so that an end token was taken.
      cases n with
      | zero => simp [scan] at h
      | succ n =>
        rw [List.replicate_succ, scan, List.nil_append, List.cons_append, List.cons.injEq] at h
        have hends : scan (Text.size front) [] ++ List.replicate n (ending limit) = a ++ b := by
          rw [scan, List.nil_append]
          exact h.2
        exact ih hends hc
    | cons c rest =>
      rw [scan_cons, List.cons_append, List.cons_append, List.cons.injEq] at h
      obtain ⟨_, h⟩ := h
      rw [← size_append] at h
      obtain ⟨before, rest', k, hrest, hcuts, hb⟩ := ih h hc.next
      rw [List.append_assoc] at hcuts hb
      refine ⟨(c :: rest.take (lexeme c rest).2) ++ before, rest', k, ?_, hcuts, hb⟩
      rw [List.append_assoc, ← hrest, List.cons_append, List.take_append_drop]

/-- Symbols in a row spell what stands there. -/
theorem scan_spelled (h : scan pos rest ++ List.replicate n (ending limit) = tokens ++ more)
    (hs : List.Forall₂ (fun t c => Token.isSymbol t c = true) tokens pattern) :
    pattern <+: rest ∧ Tiles pos tokens (pos + Text.size pattern) := by
  induction hs generalizing pos rest with
  | nil => simp
  | @cons t c tokens pattern ht _ ih =>
    cases rest with
    | nil =>
      have hend : t = ending limit := by
        apply List.eq_of_mem_replicate (n := n)
        rw [scan, List.nil_append] at h
        rw [h]
        simp
      rw [hend] at ht
      cases ht
    | cons d rest =>
      rw [scan_cons, List.cons_append, List.cons_append, List.cons.injEq] at h
      obtain ⟨rfl, h⟩ := h
      simp only [isSymbol, List.head?_cons, Bool.and_eq_true, decide_eq_true_eq,
        Option.some.injEq] at ht
      obtain ⟨hkind, rfl⟩ := ht
      rw [lexeme_symbol d rest hkind, List.take_zero] at h ⊢
      rw [List.drop_zero] at h
      obtain ⟨hbegins, htiles⟩ := ih h
      refine ⟨by simpa using hbegins, rfl, ?_⟩
      simpa [stop, Token.size, Nat.add_assoc] using htiles

theorem scan_alone (hc : standsAlone c = true) (hn : c ≠ '\\') (pos : Nat) (rest : Text) :
    scan pos (c :: rest) =
      { kind := .symbol, start := pos, text := [c] } :: scan (pos + c.utf8Size) rest := by
  simp [scan_cons, lexeme_alone hc hn]

/-- Within a token there is no place for a pattern but at its start. -/
theorem not_occursAt_within (hcut : Cuts before (c :: rest)) (hd : standsAlone d = true)
    (hn : ¬ (d :: pattern) <+: c :: rest) (hlow : Text.size before ≤ pos)
    (hhigh : pos < Text.size before + Text.size (c :: rest.take (lexeme c rest).2)) :
    ¬ OccursAt (before ++ c :: rest) (d :: pattern) pos := by
  rintro ⟨front, after, htext, rfl, hescaped⟩
  rw [List.append_assoc] at htext
  obtain ⟨middle, rfl, hmiddle⟩ := split_of_size_le htext hlow
  cases middle with
  | nil =>
    apply hn
    rw [hmiddle]
    simp
  | cons e middle =>
    obtain ⟨rfl, hrest⟩ := List.cons.inj hmiddle
    have hwithin : Text.size middle < Text.size (rest.take (lexeme c rest).2) := by
      simp only [size_append, size_cons] at hhigh
      omega
    have hsplit : rest.take (lexeme c rest).2 ++ rest.drop (lexeme c rest).2 =
        middle ++ (d :: pattern ++ after) := by
      rw [List.take_append_drop]
      exact hrest
    obtain ⟨inner, htake, hinner⟩ := split_of_size_le hsplit.symm (Nat.le_of_lt hwithin)
    cases inner with
    | nil =>
      rw [htake] at hwithin
      simp at hwithin
    | cons e' inner =>
      obtain ⟨rfl, _⟩ := List.cons.inj hinner
      obtain ⟨rfl, rfl⟩ := lexeme_hides hd htake
      have hslash : standsAlone '\\' = true := by decide
      simp [hcut.alone hslash] at hescaped

end LineMarkup.Token

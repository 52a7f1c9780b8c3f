import LineMarkup.Proofs.Matcher.Cursor
import LineMarkup.Proofs.Text.Boundary

namespace LineMarkup.Token

open Text (Boundary HasAt)

variable {text : Text} {token : Token} {c : Char}

/-- The token is a piece of the text at its start, and a symbol is one character. -/
structure LiesIn (text : Text) (token : Token) : Prop where
  place : ∃ before after, text = before ++ token.text ++ after ∧ Text.size before = token.start
  symbol : token.kind = .symbol → ∃ c, token.text = [c]

namespace LiesIn

theorem discard (h : LiesIn text token) : LiesIn text token.discard :=
  ⟨h.place, h.symbol⟩

theorem start (h : LiesIn text token) : Boundary text token.start := by
  obtain ⟨before, after, ht, hs⟩ := h.place
  exact ⟨before, token.text ++ after, by rw [ht, List.append_assoc], hs⟩

theorem stop (h : LiesIn text token) : Boundary text token.stop := by
  obtain ⟨before, after, ht, hs⟩ := h.place
  exact ⟨before ++ token.text, after, ht, by rw [Text.size_append, hs]; rfl⟩

/-- A symbol token is a character of the text. -/
theorem hasAt (h : LiesIn text token) (hs : token.isSymbol c = true) :
    HasAt text c token.start ∧ token.stop = token.start + c.utf8Size := by
  simp only [isSymbol, Bool.and_eq_true, decide_eq_true_eq] at hs
  obtain ⟨d, hd⟩ := h.symbol hs.1
  rw [hd, List.head?_cons, Option.some.injEq] at hs
  obtain ⟨before, after, ht, hb⟩ := h.place
  refine ⟨⟨before, after, ?_, hb⟩, ?_⟩
  · rw [ht, hd, hs.2]
    simp
  · rw [Token.stop, size, hd, hs.2]
    simp

end LiesIn

theorem lexeme_symbol (c : Char) (rest : Text) (h : (lexeme c rest).1 = .symbol) :
    (lexeme c rest).2 = 0 := by
  revert h
  fun_cases lexeme c rest <;> grind

theorem scan_liesIn (before : Text) {text : Text} (ht : t ∈ scan (Text.size before) text) :
    LiesIn (before ++ text) t := by
  generalize hp : Text.size before = pos at ht
  fun_induction scan pos text generalizing before with
  | case1 => simp at ht
  | case2 pos c rest kind more hl token =>
    rename_i ih
    rcases List.mem_cons.mp ht with rfl | ht
    · refine ⟨⟨before, rest.drop more, ?_, hp⟩, fun hk => ⟨c, ?_⟩⟩
      · simp [token]
      · have hm := lexeme_symbol c rest (by rw [hl]; exact hk)
        rw [hl] at hm
        obtain rfl : more = 0 := hm
        rfl
    · have hstop : Text.size (before ++ token.text) = token.stop := by
        rw [Text.size_append, hp]
        rfl
      have := ih (before ++ token.text) hstop ht
      simpa [token] using this

theorem beginning_liesIn (text : Text) : LiesIn text beginning :=
  ⟨⟨[], text, rfl, rfl⟩, by simp [beginning]⟩

theorem ending_liesIn (text : Text) : LiesIn text (ending text.size) :=
  ⟨⟨text, [], by simp [ending], rfl⟩, by simp [ending]⟩

namespace Stream

open Matcher (Found Missed)

/-- The tokens ahead lie in a text. -/
structure Placed (text : Text) (s : Stream) : Prop where
  stop : s.stop = text.size
  ahead : ∀ t ∈ ahead s, t.LiesIn text

theorem ofText_placed (text : Text) : Placed text (ofText text) := by
  refine ⟨rfl, fun t ht => ?_⟩
  rcases List.mem_cons.mp ht with rfl | ht
  · exact beginning_liesIn text
  · have := scan_liesIn [] ht
    rwa [List.nil_append] at this

namespace Placed

/-- What holds of the tokens ahead also holds of end tokens. -/
theorem more (h : Placed text s)
    (hall : tokens = Stream.ahead s ++ List.replicate n (ending s.stop)) :
    ∀ t ∈ tokens, t.LiesIn text := by
  intro t ht
  rw [hall] at ht
  rcases List.mem_append.mp ht with ht | ht
  · exact h.ahead t ht
  · rw [List.eq_of_mem_replicate ht, h.stop]
    exact ending_liesIn text

theorem found (h : Placed text s) (hm : Found m s s' lead rest) :
    Placed text s'.release ∧ ∀ t ∈ s'.taken, t.LiesIn text := by
  obtain ⟨n, hall⟩ := hm.all
  have hl := h.more hall
  refine ⟨⟨hm.stop.trans h.stop, fun t ht => hl t (List.mem_append_right _ ht)⟩, fun t ht => ?_⟩
  rw [hm.taken] at ht
  rcases List.mem_append.mp ht with ht | ht
  · obtain ⟨t', ht', rfl⟩ := List.mem_map.mp ht
    exact (hl t' (by simp [ht'])).discard
  · exact hl t (by simp [ht])

theorem fetch (h : Placed text s) :
    s.fetch.1.LiesIn text ∧ Placed text s.fetch.2.release := by
  obtain ⟨n, hall⟩ := Reads.fetch_ahead s
  have hl := h.more hall
  exact ⟨hl _ List.mem_cons_self, (fetch_stop s).trans h.stop,
    fun t ht => hl t (List.mem_cons_of_mem _ ht)⟩

end Placed

end Stream

end LineMarkup.Token

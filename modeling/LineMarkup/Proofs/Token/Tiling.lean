import LineMarkup.Token.Scan

namespace LineMarkup.Token

/-- The first token starts at `pos`, each other one where the one before stops, the last stops at
`limit`. -/
def Tiles (pos : Nat) : List Token → Nat → Prop
  | [], limit => pos = limit
  | token :: rest, limit => token.start = pos ∧ Tiles token.stop rest limit

@[simp] theorem tiles_nil : Tiles pos [] limit ↔ pos = limit := Iff.rfl

@[simp] theorem tiles_cons :
    Tiles pos (token :: rest) limit ↔ token.start = pos ∧ Tiles token.stop rest limit := Iff.rfl

theorem tiles_append :
    Tiles pos (a ++ b) limit ↔ ∃ middle, Tiles pos a middle ∧ Tiles middle b limit := by
  induction a generalizing pos with
  | nil => simp
  | cons token a ih => simp [ih, and_assoc]

theorem start_le_stop (token : Token) : token.start ≤ token.stop :=
  Nat.le_add_right _ _

theorem Tiles.le (h : Tiles pos tokens limit) : pos ≤ limit := by
  induction tokens generalizing pos with
  | nil => exact Nat.le_of_eq h
  | cons token rest ih =>
    obtain ⟨rfl, ht⟩ := h
    exact Nat.le_trans token.start_le_stop (ih ht)

/-- A part of the tokens keeps within the whole. -/
theorem Tiles.bounds (h : Tiles pos tokens limit) (ht : t ∈ tokens) :
    pos ≤ t.start ∧ t.stop ≤ limit := by
  obtain ⟨before, after, rfl⟩ := List.append_of_mem ht
  obtain ⟨middle, hb, rfl, ha⟩ := tiles_append.mp h
  exact ⟨hb.le, ha.le⟩

theorem Tiles.start_unique (h : Tiles pos tokens limit) (h' : Tiles pos' tokens limit) :
    pos = pos' := by
  cases tokens with
  | nil => exact h.trans h'.symm
  | cons t tokens => exact h.1.symm.trans h'.1

theorem Tiles.stop_unique (h : Tiles limit tokens pos) (h' : Tiles limit tokens pos') :
    pos = pos' := by
  induction tokens generalizing limit with
  | nil => exact h.symm.trans h'
  | cons t tokens ih => exact ih h.2 h'.2

/-- One token with some text in it is enough for progress. -/
theorem Tiles.lt (h : Tiles pos tokens limit) (ht : t ∈ tokens) (hs : 0 < t.size) :
    pos < limit := by
  obtain ⟨hl, hr⟩ := h.bounds ht
  have : t.stop = t.start + t.size := rfl
  omega

@[simp] theorem discard_start : (discard token).start = token.start := rfl

@[simp] theorem discard_stop : (discard token).stop = token.stop := rfl

@[simp] theorem discard_kind : (discard token).kind = token.kind := rfl

@[simp] theorem discard_size : (discard token).size = token.size := rfl

@[simp] theorem discard_discarded : (discard token).discarded = true := rfl

/-- A token as it was cut from the text. -/
def unmarked (token : Token) : Token :=
  { token with discarded := false }

@[simp] theorem unmarked_discard : (discard token).unmarked = token.unmarked := rfl

@[simp] theorem unmarked_ending : (ending limit).unmarked = ending limit := rfl

theorem tiles_unmarked : Tiles pos (tokens.map unmarked) limit ↔ Tiles pos tokens limit := by
  induction tokens generalizing pos with
  | nil => simp
  | cons t tokens ih => exact and_congr Iff.rfl ih

theorem tiles_discard : Tiles pos (tokens.map discard) limit ↔ Tiles pos tokens limit := by
  induction tokens generalizing pos with
  | nil => simp
  | cons token rest ih => simp [ih]

/-- End tokens are empty and all at one place. -/
theorem tiles_endings : Tiles limit (List.replicate n (ending limit)) limit := by
  induction n with
  | zero => rfl
  | succ n ih => exact ⟨rfl, ih⟩

/-- A token cut from a text, as it comes from the scanner. -/
structure Genuine (token : Token) : Prop where
  kind : token.isSentinel = false
  size : 0 < token.size
  kept : token.discarded = false

theorem lexeme_kind (c : Char) (rest : Text) :
    (lexeme c rest).1 ≠ .begin ∧ (lexeme c rest).1 ≠ .textEnd := by
  fun_cases lexeme c rest <;> grind

theorem scan_genuine {text : Text} (ht : t ∈ scan pos text) : t.Genuine := by
  fun_induction scan pos text with
  | case1 => simp at ht
  | case2 pos c rest kind more hl token ih =>
    rcases List.mem_cons.mp ht with rfl | ht
    · obtain ⟨hb, he⟩ := lexeme_kind c rest
      rw [hl] at hb he
      have hc : 0 < c.utf8Size := Char.utf8Size_pos c
      refine ⟨by simp [isSentinel, token, hb, he], ?_, rfl⟩
      simp only [size, token, Text.size_cons]
      omega
    · exact ih ht

theorem scan_tiles (pos : Nat) (text : Text) :
    Tiles pos (scan pos text) (pos + Text.size text) := by
  fun_induction scan pos text with
  | case1 => rfl
  | case2 pos c rest kind more _ token ih =>
    refine ⟨rfl, ?_⟩
    have hs : token.stop + Text.size (rest.drop more) = pos + Text.size (c :: rest) := by
      have hr : Text.size rest = Text.size (rest.take more) + Text.size (rest.drop more) := by
        rw [← Text.size_append, List.take_append_drop]
      simp only [token, stop, size, Text.size_cons, hr]
      omega
    exact hs ▸ ih

end LineMarkup.Token

import LineMarkup.Text.Basic

namespace LineMarkup.Text

variable {text : Text} {pos : Nat} {c : Char}

/-- A position between characters, or at one of the ends. -/
def Boundary (text : Text) (pos : Nat) : Prop :=
  ∃ before after, text = before ++ after ∧ size before = pos

/-- The character at a position. -/
def HasAt (text : Text) (c : Char) (pos : Nat) : Prop :=
  ∃ before after, text = before ++ c :: after ∧ size before = pos

theorem boundary_zero (text : Text) : Boundary text 0 :=
  ⟨[], text, rfl, rfl⟩

theorem boundary_size (text : Text) : Boundary text text.size :=
  ⟨text, [], (List.append_nil text).symm, rfl⟩

theorem HasAt.start (h : HasAt text c pos) : Boundary text pos := by
  obtain ⟨before, after, ht, hs⟩ := h
  exact ⟨before, c :: after, ht, hs⟩

theorem HasAt.stop (h : HasAt text c pos) : Boundary text (pos + c.utf8Size) := by
  obtain ⟨before, after, ht, hs⟩ := h
  exact ⟨before ++ [c], after, by simp [ht], by simp [hs]⟩

theorem HasAt.lt_size (h : HasAt text c pos) : pos < text.size := by
  obtain ⟨before, after, rfl, rfl⟩ := h
  have := c.utf8Size_pos
  rw [size_append, size_cons]
  omega

theorem before?_append (before after : Text) :
    before? (before ++ after) (size before) = some before := by
  induction before with
  | nil =>
    rw [size_nil]
    cases after <;> rfl
  | cons c before ih =>
    have hc := Char.utf8Size_pos c
    have hpos : size (c :: before) ≠ 0 := by
      rw [size_cons]
      omega
    rw [List.cons_append, before?.eq_3 _ _ _ hpos, size_cons, if_neg (by omega),
      Nat.add_sub_cancel_left, ih, Option.map_some]

theorem Boundary.le_size (h : Boundary text pos) : pos ≤ text.size := by
  obtain ⟨before, after, rfl, rfl⟩ := h
  rw [size_append]
  omega

/-- A boundary is the start, or one of the text after the first character. -/
theorem boundary_cons : Boundary (c :: text) pos ↔
    pos = 0 ∨ c.utf8Size ≤ pos ∧ Boundary text (pos - c.utf8Size) := by
  constructor
  · rintro ⟨before, after, htext, rfl⟩
    cases before with
    | nil => exact .inl rfl
    | cons d before =>
      obtain ⟨rfl, rfl⟩ := List.cons.inj htext
      refine .inr ⟨Nat.le_add_right .., before, after, rfl, ?_⟩
      rw [size_cons, Nat.add_sub_cancel_left]
  · rintro (rfl | ⟨hle, before, after, rfl, hsize⟩)
    · exact boundary_zero _
    · refine ⟨c :: before, after, rfl, ?_⟩
      rw [size_cons]
      omega

theorem boundary_nextBoundary (text : Text) (pos : Nat) :
    Boundary text (nextBoundary text pos) := by
  fun_induction nextBoundary text pos with
  | case1 text => exact boundary_zero text
  | case2 => exact boundary_zero []
  | case3 c rest pos _ ih =>
    exact boundary_cons.mpr (.inr ⟨Nat.le_add_right .., by rwa [Nat.add_sub_cancel_left]⟩)

/-- No boundary is between a position and its next boundary. -/
theorem nextBoundary_le {boundary : Nat} (hb : Boundary text boundary) (h : pos ≤ boundary) :
    nextBoundary text pos ≤ boundary := by
  fun_induction nextBoundary text pos generalizing boundary with
  | case1 | case2 => exact Nat.zero_le _
  | case3 c rest pos hpos ih =>
    rcases boundary_cons.mp hb with rfl | ⟨hle, hrest⟩
    · exact absurd (Nat.le_zero.mp h) hpos
    · have := ih hrest (by omega)
      omega

theorem le_nextBoundary (h : pos ≤ text.size) : pos ≤ nextBoundary text pos := by
  fun_induction nextBoundary text pos with
  | case1 => exact Nat.le_refl _
  | case2 pos => cases h
  | case3 c rest pos _ ih =>
    rw [size_cons] at h
    have := ih (by omega)
    omega

theorem nextBoundary_of_size_le (h : text.size ≤ pos) : nextBoundary text pos = text.size := by
  fun_induction nextBoundary text pos with
  | case1 text => exact (Nat.le_zero.mp h).symm
  | case2 => rfl
  | case3 c rest pos _ ih =>
    rw [size_cons] at h ⊢
    rw [ih (by omega)]

theorem nextBoundary_mono {first last : Nat} (h : first ≤ last) :
    nextBoundary text first ≤ nextBoundary text last := by
  rcases Nat.le_total last text.size with hle | hge
  · exact nextBoundary_le (boundary_nextBoundary text last)
      (Nat.le_trans h (le_nextBoundary hle))
  · rw [nextBoundary_of_size_le hge]
    exact (boundary_nextBoundary text first).le_size

end LineMarkup.Text

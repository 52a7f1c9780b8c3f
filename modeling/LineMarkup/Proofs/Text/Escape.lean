import LineMarkup.Proofs.Text.Boundary

namespace LineMarkup.Text

variable {text pattern a b c d : Text} {pos : Nat}

/-- Whether the character after these is escaped. Then the last of them is a backslash that is not
escaped itself. -/
def escapesNext (before : Text) : Bool :=
  before.foldl (fun escaped c => c = '\\' && !escaped) false

/-- The pattern stands at a position and is not escaped there. -/
def OccursAt (text pattern : Text) (pos : Nat) : Prop :=
  ∃ before after, text = before ++ pattern ++ after ∧ size before = pos ∧
    escapesNext before = false

/-- The pattern stands nowhere from `start` on up to before `stop`, but where it is escaped. -/
def Absent (text pattern : Text) (start stop : Nat) : Prop :=
  ∀ pos, start ≤ pos → pos < stop → ¬ OccursAt text pattern pos

@[simp] theorem escapesNext_concat (before : Text) (c : Char) :
    escapesNext (before ++ [c]) = (c = '\\' && !escapesNext before) := by
  simp [escapesNext]

theorem size_eq_zero (h : size text = 0) : text = [] := by
  cases text with
  | nil => rfl
  | cons c rest =>
    have := c.utf8Size_pos
    rw [size_cons] at h
    omega

/-- Of two beginnings of a text the longer one goes on from the shorter one. -/
theorem split_of_size_le (h : a ++ b = c ++ d) (hs : size a ≤ size c) :
    ∃ middle, c = a ++ middle ∧ b = middle ++ d := by
  rcases List.append_eq_append_iff.mp h with ⟨middle, hc, hb⟩ | ⟨middle, ha, hd⟩
  · exact ⟨middle, hc, hb⟩
  · have hmiddle : middle = [] := by
      apply size_eq_zero
      rw [ha, size_append] at hs
      omega
    subst hmiddle
    exact ⟨[], by simpa using ha.symm, by simpa using hd.symm⟩

theorem OccursAt.le_size (h : OccursAt text pattern pos) : pos + size pattern ≤ size text := by
  obtain ⟨before, after, rfl, rfl, _⟩ := h
  simp only [size_append]
  omega

theorem Absent.trans {start middle stop : Nat} (h : Absent text pattern start middle)
    (h' : Absent text pattern middle stop) : Absent text pattern start stop := by
  intro pos hlow hhigh
  rcases Nat.lt_or_ge pos middle with hlt | hge
  · exact h pos hlow hlt
  · exact h' pos hge hhigh

end LineMarkup.Text

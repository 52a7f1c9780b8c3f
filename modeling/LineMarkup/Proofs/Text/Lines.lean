import LineMarkup.Text.Basic

namespace LineMarkup.Text

variable {separator : Char} {piece text : Text} {pieces : List Text}

theorem split_of_not_mem (h : separator ∉ piece) : split separator piece = [piece] := by
  induction piece with
  | nil => rfl
  | cons c rest ih =>
    have hc := List.ne_of_not_mem_cons h
    have hrest := List.not_mem_of_not_mem_cons h
    simp only [split, Ne.symm hc, ↓reduceIte, ih hrest]

theorem split_append (h : separator ∉ piece) :
    split separator (piece ++ separator :: text) = piece :: split separator text := by
  induction piece with
  | nil => simp [split]
  | cons c rest ih =>
    have hc := List.ne_of_not_mem_cons h
    have hrest := List.not_mem_of_not_mem_cons h
    simp only [List.cons_append, split, Ne.symm hc, ↓reduceIte, ih hrest]

theorem split_join (h : ∀ piece ∈ pieces, separator ∉ piece) (hn : pieces ≠ []) :
    split separator (join separator pieces) = pieces := by
  induction pieces with
  | nil => exact absurd rfl hn
  | cons piece more ih =>
    obtain ⟨hp, hmore⟩ := List.forall_mem_cons.mp h
    cases more with
    | nil => exact split_of_not_mem hp
    | cons next more =>
      rw [join, split_append hp, ih hmore (List.cons_ne_nil _ _)]
      exact List.cons_ne_nil _ _

theorem not_mem_of_mem_split (h : piece ∈ split separator text) : separator ∉ piece := by
  induction text generalizing piece with
  | nil =>
    rw [List.mem_singleton.mp h]
    exact List.not_mem_nil
  | cons c rest ih =>
    simp only [split] at h
    split at h
    · rcases List.mem_cons.mp h with rfl | h
      · exact List.not_mem_nil
      · exact ih h
    · rename_i hc
      split at h
      · rw [List.mem_singleton.mp h]
        exact List.not_mem_cons_of_ne_of_not_mem (Ne.symm hc) List.not_mem_nil
      · rename_i first more hs
        rcases List.mem_cons.mp h with rfl | h
        · exact List.not_mem_cons_of_ne_of_not_mem (Ne.symm hc) (ih (hs ▸ List.mem_cons_self))
        · exact ih (hs ▸ List.mem_cons_of_mem _ h)

theorem join_split (text : Text) : join separator (split separator text) = text := by
  induction text with
  | nil => rfl
  | cons c rest ih =>
    simp only [split]
    split
    · rename_i hc
      have hn : split separator rest ≠ [] := split_ne_nil
      obtain ⟨piece, more, hs⟩ := List.exists_cons_of_ne_nil hn
      rw [hs] at ih ⊢
      rw [join, ih, hc]
      · rfl
      · exact List.cons_ne_nil _ _
    · split <;> rename_i hs
      · exact absurd hs split_ne_nil
      · rename_i piece more
        rw [hs] at ih
        cases more with
        | nil =>
          obtain rfl : piece = rest := ih
          rfl
        | cons next more =>
          rw [join, List.cons_append]
          · exact congrArg (c :: ·) ih
          · exact List.cons_ne_nil _ _

theorem mem_of_mem_split (h : piece ∈ split separator text) (hc : c ∈ piece) : c ∈ text := by
  induction text generalizing piece with
  | nil =>
    rw [List.mem_singleton.mp h] at hc
    cases hc
  | cons d rest ih =>
    simp only [split] at h
    split at h
    · rcases List.mem_cons.mp h with rfl | h
      · cases hc
      · exact List.mem_cons_of_mem _ (ih h hc)
    · split at h
      · rw [List.mem_singleton.mp h] at hc
        exact List.mem_cons.mpr (.inl (List.mem_singleton.mp hc))
      · rename_i first more hs
        rcases List.mem_cons.mp h with rfl | h
        · rcases List.mem_cons.mp hc with rfl | hc
          · exact List.mem_cons_self
          · exact List.mem_cons_of_mem _ (ih (hs ▸ List.mem_cons_self) hc)
        · exact List.mem_cons_of_mem _ (ih (hs ▸ List.mem_cons_of_mem _ h) hc)

/-- What stands before a text goes to its first piece. -/
theorem split_prepend (h : separator ∉ front) (hs : split separator text = piece :: pieces) :
    split separator (front ++ text) = (front ++ piece) :: pieces := by
  induction front with
  | nil => exact hs
  | cons c rest ih =>
    have hc := List.ne_of_not_mem_cons h
    simp only [List.cons_append, split, Ne.symm hc, ↓reduceIte,
      ih (List.not_mem_of_not_mem_cons h)]

/-- What stands behind a text goes to its last piece. -/
theorem split_postpend (h : separator ∉ back) (text : Text) :
    ∃ pieces last, split separator text = pieces ++ [last] ∧
      split separator (text ++ back) = pieces ++ [last ++ back] := by
  induction text with
  | nil => exact ⟨[], [], rfl, split_of_not_mem h⟩
  | cons c rest ih =>
    obtain ⟨pieces, last, hrest, hlonger⟩ := ih
    simp only [List.cons_append, split, hrest, hlonger]
    split
    · exact ⟨[] :: pieces, last, rfl, rfl⟩
    · cases pieces with
      | nil => exact ⟨[], c :: last, rfl, rfl⟩
      | cons piece pieces => exact ⟨(c :: piece) :: pieces, last, rfl, rfl⟩

/-- Lines put together to a text are found again. -/
theorem lines_unlines (h : ∀ line ∈ pieces, '\n' ∉ line) (hn : pieces ≠ []) :
    lines (unlines pieces) = pieces :=
  split_join h hn

theorem unlines_cons (piece : Text) (b : List Text) :
    ∃ after, unlines (piece :: b) = piece ++ after := by
  cases b with
  | nil => exact ⟨[], (List.append_nil piece).symm⟩
  | cons next b => exact ⟨_, rfl⟩

theorem unlines_lines (text : Text) : unlines (lines text) = text :=
  join_split text

end LineMarkup.Text

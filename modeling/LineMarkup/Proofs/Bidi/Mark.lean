import Mathlib.Data.List.Basic
import LineMarkup.Bidi.Display
import LineMarkup.Proofs.Text.Boundary

namespace LineMarkup.Bidi.Mark

open Text (Boundary)

variable {a b c mark : Mark} {marks : List Mark} {pos : Nat}

theorem pos_le_of_precedes (h : a.precedes b = true) : a.pos ≤ b.pos := by
  simp only [precedes, Bool.or_eq_true, Bool.and_eq_true, decide_eq_true_eq] at h
  omega

/-- At the position of a closing mark no opening mark comes before it. -/
theorem pos_lt_of_precedes {stop : Nat} (h : a.precedes b = true) (ha : a.reach = some stop)
    (hb : b.reach = none) : a.pos < b.pos := by
  simpa [precedes, ha, hb] using h

/-- Of the opening marks at one position those of longer ranges come first. -/
theorem longer_of_precedes {l r : Nat} (h : a.precedes b = true) (ha : a.reach = some l)
    (hb : b.reach = some r) : a.pos < b.pos ∨ a.pos = b.pos ∧ r ≤ l := by
  simpa [precedes, ha, hb] using h

theorem precedes_total (a b : Mark) : (a.precedes b || b.precedes a) = true := by
  rcases Nat.lt_trichotomy a.pos b.pos with hlt | heq | hgt
  · simp [precedes, hlt]
  · cases ha : a.reach <;> cases hb : b.reach <;> simp [precedes, heq, ha, hb, Nat.le_total]
  · simp [precedes, hgt]

theorem precedes_trans (hab : a.precedes b = true) (hbc : b.precedes c = true) :
    a.precedes c = true := by
  have hle := pos_le_of_precedes hab
  have hle' := pos_le_of_precedes hbc
  rcases Nat.lt_or_ge a.pos c.pos with hlt | hge
  · simp [precedes, hlt]
  · obtain ⟨hpos, hpos'⟩ : a.pos = b.pos ∧ b.pos = c.pos := by omega
    cases ha : a.reach with
    | none => simp [precedes, ha, hpos, hpos']
    | some l =>
      cases hb : b.reach with
      | none =>
        have := pos_lt_of_precedes hab ha hb
        omega
      | some m =>
        cases hc : c.reach with
        | none =>
          have := pos_lt_of_precedes hbc hb hc
          omega
        | some r =>
          have hl := longer_of_precedes hab ha hb
          have hr := longer_of_precedes hbc hb hc
          have hle : r ≤ l := by omega
          simp [precedes, ha, hc, hpos, hpos', hle]

theorem ofIsolates_sorted (text : Text) (isolates : List Isolate) :
    (ofIsolates text isolates).Pairwise (fun a b => a.precedes b = true) := by
  apply List.pairwise_mergeSort
  · intro a b c
    exact precedes_trans
  · exact precedes_total

theorem ofIsolates_ascending (text : Text) (isolates : List Isolate) :
    (ofIsolates text isolates).Pairwise (fun a b => a.pos ≤ b.pos) :=
  (ofIsolates_sorted text isolates).imp pos_le_of_precedes

/-- A mark opens or closes a range between two boundaries. -/
theorem mem_ofIsolates {text : Text} {isolates : List Isolate}
    (h : mark ∈ ofIsolates text isolates) :
    ∃ start stop direction, Boundary text start ∧ Boundary text stop ∧ start < stop ∧
      (mark = { pos := start, reach := some stop, char := opening direction } ∨
        mark = { pos := stop, reach := none, char := popDirectionalIsolate }) := by
  obtain ⟨isolate, _, hmark⟩ := List.mem_flatMap.mp (List.mem_mergeSort.mp h)
  simp only [ofIsolate] at hmark
  split at hmark
  · rename_i hlt
    exact ⟨_, _, isolate.direction, Text.boundary_nextBoundary text isolate.first,
      Text.boundary_nextBoundary text (isolate.last + 1), hlt, List.mem_pair.mp hmark⟩
  · cases hmark

theorem boundary_of_mem {text : Text} {isolates : List Isolate}
    (h : mark ∈ ofIsolates text isolates) : Boundary text mark.pos := by
  obtain ⟨start, stop, _, hstart, hstop, _, rfl | rfl⟩ := mem_ofIsolates h
  · exact hstart
  · exact hstop

theorem lt_of_mem_dropWhile (hs : marks.Pairwise (fun a b => a.pos ≤ b.pos))
    (h : mark ∈ marks.dropWhile (·.pos ≤ pos)) : pos < mark.pos := by
  induction hs with
  | nil => cases h
  | @cons first rest hfirst _ ih =>
    rw [List.dropWhile_cons] at h
    split at h
    · exact ih h
    · rename_i hle
      have hlt : pos < first.pos := by simpa using hle
      rcases List.mem_cons.mp h with rfl | h
      · exact hlt
      · exact Nat.lt_of_lt_of_le hlt (hfirst mark h)

/-- Bytes of the marks up to a position. -/
def sizeUpTo (pos : Nat) (marks : List Mark) : Nat :=
  Text.size ((marks.takeWhile (·.pos ≤ pos)).map char)

@[simp] theorem sizeUpTo_nil (pos : Nat) : sizeUpTo pos [] = 0 := rfl

theorem sizeUpTo_cons (h : mark.pos ≤ pos) :
    sizeUpTo pos (mark :: marks) = mark.char.utf8Size + sizeUpTo pos marks := by
  simp [sizeUpTo, h]

theorem sizeUpTo_cons_of_lt (h : pos < mark.pos) : sizeUpTo pos (mark :: marks) = 0 := by
  simp [sizeUpTo, h]

theorem sizeUpTo_eq_zero {bound : Nat} (h : ∀ m ∈ marks, bound ≤ m.pos) (hlt : pos < bound) :
    sizeUpTo pos marks = 0 := by
  cases marks with
  | nil => rfl
  | cons mark marks =>
    exact sizeUpTo_cons_of_lt (Nat.lt_of_lt_of_le hlt (h mark List.mem_cons_self))

theorem sizeUpTo_append {earlier : List Mark} (h : ∀ m ∈ earlier, m.pos ≤ pos) :
    sizeUpTo pos (earlier ++ marks) = Text.size (earlier.map char) + sizeUpTo pos marks := by
  induction earlier with
  | nil => exact (Nat.zero_add _).symm
  | cons mark earlier ih =>
    obtain ⟨hmark, hearlier⟩ := List.forall_mem_cons.mp h
    rw [List.cons_append, sizeUpTo_cons hmark, ih hearlier, List.map_cons, Text.size_cons,
      Nat.add_assoc]

theorem sizeUpTo_le {earlier : List Mark} (h : pos < mark.pos) :
    sizeUpTo pos (earlier ++ mark :: marks) ≤ Text.size (earlier.map char) := by
  induction earlier with
  | nil => exact Nat.le_of_eq (sizeUpTo_cons_of_lt h)
  | cons first earlier ih =>
    rw [List.cons_append, List.map_cons, Text.size_cons]
    rcases Nat.lt_or_ge pos first.pos with hlt | hge
    · rw [sizeUpTo_cons_of_lt hlt]
      exact Nat.zero_le _
    · rw [sizeUpTo_cons hge]
      exact Nat.add_le_add_left ih _

theorem sizeUpTo_mono {first last : Nat} (h : first ≤ last) (marks : List Mark) :
    sizeUpTo first marks ≤ sizeUpTo last marks := by
  induction marks with
  | nil => exact Nat.le_refl _
  | cons mark marks ih =>
    rcases Nat.lt_or_ge first mark.pos with hlt | hge
    · rw [sizeUpTo_cons_of_lt hlt]
      exact Nat.zero_le _
    · rw [sizeUpTo_cons hge, sizeUpTo_cons (Nat.le_trans hge h)]
      exact Nat.add_le_add_left ih _

end LineMarkup.Bidi.Mark

import LineMarkup.Proofs.Token.Cut
import LineMarkup.Proofs.Token.Session

namespace LineMarkup.Token

open Session (endless_of_getElem endless_of_length_le)

variable {text text' : Text} {i k l : Nat} {c : Char}

theorem endless_stop (text : Text) (k : Nat) :
    (endless text k).stop = (endless text (k + 1)).start := by
  let tokens := beginning :: scan 0 text ++ List.replicate (k + 2) (ending text.size)
  have htiles : Tiles 0 tokens text.size := by
    have hscan := scan_tiles 0 text
    rw [Nat.zero_add] at hscan
    exact tiles_append.mpr ⟨text.size, ⟨rfl, hscan⟩, tiles_endings⟩
  have hlength : k + 1 < tokens.length := by
    simp only [tokens, List.length_append, List.length_replicate]
    omega
  have hk : tokens[k] = endless text k := endless_of_getElem (List.getElem?_eq_getElem _)
  have hnext : tokens[k + 1] = endless text (k + 1) :=
    endless_of_getElem (List.getElem?_eq_getElem _)
  rw [← List.take_append_drop k tokens, List.drop_eq_getElem_cons (Nat.lt_of_succ_lt hlength),
    List.drop_eq_getElem_cons hlength, hk, hnext] at htiles
  obtain ⟨_, _, _, hstart, _⟩ := tiles_append.mp htiles
  exact hstart.symm

theorem endless_le (h : k ≤ l) : (endless text k).start ≤ (endless text l).start := by
  induction h with
  | refl => exact Nat.le_refl _
  | step _ ih => exact Nat.le_trans ih (endless_stop text _ ▸ start_le_stop _)

theorem getD_endings (tokens : List Token) (n k : Nat) (last : Token) :
    ((tokens ++ List.replicate n last)[k]?).getD last = (tokens[k]?).getD last := by
  rw [List.getElem?_append]
  split
  · rfl
  · rename_i hge
    rw [List.getElem?_eq_none (Nat.le_of_not_lt hge), List.getElem?_replicate]
    split <;> rfl

theorem endless_succ (text : Text) (i : Nat) :
    endless text (i + 1) = ((scan 0 text)[i]?).getD (ending text.size) :=
  getD_endings (scan 0 text) 1 i (ending text.size)

/-- Tokens are numbered behind those that the text begins with. -/
theorem endless_behind {front rest : List Token} {t : Token} (h : scan 0 text = front ++ rest)
    (ht : rest[k]? = some t) : endless text (front.length + 1 + k) = t := by
  rw [Nat.add_right_comm, endless_succ, h, List.getElem?_append_right (Nat.le_add_right _ _),
    Nat.add_sub_cancel_left, ht, Option.getD_some]

/-- Tokens that two texts begin with have the same numbers in both. -/
theorem endless_alike {front rest rest' : List Token} (h : scan 0 text = front ++ rest)
    (h' : scan 0 text' = front ++ rest') (hk : k < front.length + 1) :
    endless text' k = endless text k := by
  cases k with
  | zero => rfl
  | succ k =>
    have hk := Nat.lt_of_succ_lt_succ hk
    rw [endless_succ, endless_succ, h, h', List.getElem?_append_left hk,
      List.getElem?_append_left hk, List.getElem?_eq_getElem hk, Option.getD_some,
      Option.getD_some]

/-- From a token with some text in it on, the numbered tokens are those of the rest of the text. -/
theorem endless_rest (h : (endless text i).text ≠ []) :
    ∃ before rest, text = before ++ rest ∧ Text.size before = (endless text i).start ∧
      ∀ k, endless text (i + k) =
        ((scan (Text.size before) rest)[k]?).getD (ending text.size) := by
  cases i with
  | zero => exact absurd rfl h
  | succ i =>
    have hscan : scan (Text.size []) text ++ List.replicate 0 (ending text.size) =
        (scan 0 text).take i ++ (scan 0 text).drop i := by
      rw [List.replicate_zero, List.append_nil, List.take_append_drop]
      rfl
    obtain ⟨before, rest, n, htext, _, hdrop⟩ := scan_rest hscan (cuts_start text)
    rw [List.nil_append] at hdrop
    have hnext (k : Nat) : endless text (i + 1 + k) =
        ((scan (Text.size before) rest)[k]?).getD (ending text.size) := by
      rw [Nat.add_right_comm, endless_succ, ← List.getElem?_drop, hdrop, getD_endings]
    refine ⟨before, rest, htext, ?_, hnext⟩
    have hfirst := hnext 0
    cases rest with
    | nil =>
      rw [scan] at hfirst
      exact absurd (congrArg Token.text hfirst) h
    | cons c rest =>
      rw [scan_cons] at hfirst
      exact (congrArg Token.start hfirst).symm

/-- A symbol comes before the end of the text. -/
theorem le_length_of_isSymbol (hi : (endless text i).isSymbol c = true) :
    i ≤ (scan 0 text).length := by
  by_contra hn
  rw [endless_of_length_le (Nat.lt_of_not_le hn)] at hi
  cases hi

theorem endless_genuine (hi : (endless text i).isSymbol c = true) (hk : 0 < k) (hki : k ≤ i) :
    (endless text k).Genuine := by
  have hlength := le_length_of_isSymbol hi
  obtain ⟨k, rfl⟩ := Nat.exists_eq_add_of_lt hk
  have hlt : k < (scan 0 text).length := by omega
  have hget : (beginning :: scan 0 text ++ List.replicate 0 (ending text.size))[0 + k + 1]? =
      some (scan 0 text)[k] := by
    rw [List.replicate_zero, List.append_nil, Nat.zero_add, List.getElem?_cons_succ,
      List.getElem?_eq_getElem hlt]
  rw [← endless_of_getElem hget]
  exact scan_genuine (List.getElem_mem hlt)

theorem endless_lt (hi : (endless text i).isSymbol c = true) (hk : 0 < k) (hki : k < i) :
    (endless text k).start < (endless text i).start := by
  have hsize := (endless_genuine hi hk (Nat.le_of_lt hki)).size
  have hstop : (endless text k).stop = (endless text k).start + (endless text k).size := rfl
  have hnext : (endless text (k + 1)).start ≤ (endless text i).start := endless_le hki
  rw [← endless_stop] at hnext
  omega

theorem not_textEnd (hi : (endless text i).isSymbol c = true) (hki : k ≤ i) :
    (endless text k).kind ≠ .textEnd := by
  intro hend
  rcases Nat.eq_zero_or_pos k with rfl | hk
  · cases hend
  · have := (endless_genuine hi hk hki).kind
    simp [isSentinel, hend] at this

end LineMarkup.Token

import LineMarkup.Proofs.Token.Numbered

namespace LineMarkup

namespace Token

open Text (size_append split_of_size_le)

variable {text before rest : Text} {c d : Char} {i k pos : Nat}

/-- A character that stands alone is a token of its own where it is not escaped. -/
theorem endless_alone (hc : Text.standsAlone c = true) (hn : c ≠ '\\')
    (he : Text.escapesNext before = false) : ∃ i,
      (endless (before ++ c :: rest) i).isSymbol c = true ∧
        (endless (before ++ c :: rest) i).start = Text.size before := by
  have hstays {d : Char} {a : Text} (hd : a = [] → d ≠ '\\') :
      (lexeme d (a ++ c :: rest)).2 ≤ a.length := by
    by_contra hlong
    rw [Nat.not_le] at hlong
    obtain ⟨n, hlength⟩ := Nat.exists_eq_add_of_lt hlong
    have htake : (a ++ c :: rest).take (lexeme d (a ++ c :: rest)).2 = a ++ c :: rest.take n := by
      rw [hlength, Nat.add_assoc, List.take_length_add_append, List.take_succ_cons]
    obtain ⟨hslash, hnil⟩ := lexeme_hides hc htake
    exact hd hnil hslash
  obtain ⟨pieces, hscan, _⟩ := scan_to hstays (cuts_start _) he
  rw [List.nil_append, Text.size_nil, scan_alone hc hn] at hscan
  refine ⟨pieces.length + 1, ?_⟩
  rw [endless_succ, hscan, List.getElem?_append_right (Nat.le_refl _), Nat.sub_self]
  simp [isSymbol]

/-- A symbol is one character, and the next tokens are those of the text behind it. -/
theorem endless_symbol (h : (endless text i).isSymbol c = true) :
    ∃ before rest, text = before ++ c :: rest ∧ Text.size before = (endless text i).start ∧
      (endless text i).stop = Text.size (before ++ [c]) ∧
      ∀ k, endless text (i + 1 + k) =
        ((scan (Text.size (before ++ [c])) rest)[k]?).getD (ending text.size) := by
  simp only [isSymbol, Bool.and_eq_true, decide_eq_true_eq] at h
  obtain ⟨hkind, hhead⟩ := h
  have hne : (endless text i).text ≠ [] := by
    intro hnil
    simp [hnil] at hhead
  obtain ⟨before, rest, htext, hstart, hnext⟩ := endless_rest hne
  have hfirst : endless text i = ((scan (Text.size before) rest)[0]?).getD (ending text.size) :=
    hnext 0
  cases rest with
  | nil =>
    rw [scan] at hfirst
    exact absurd (congrArg Token.text hfirst) hne
  | cons d rest =>
    rw [scan_cons, List.getElem?_cons_zero, Option.getD_some] at hfirst
    have hsymbol : (lexeme d rest).1 = .symbol := by
      rw [← hkind, hfirst]
    have hone := lexeme_symbol d rest hsymbol
    rw [hone, List.take_zero] at hfirst
    obtain rfl : d = c := by simpa [hfirst] using hhead
    refine ⟨before, rest, htext, hstart, ?_, fun k => ?_⟩
    · rw [hfirst, stop, Token.size, size_append]
    · rw [Nat.add_assoc, Nat.add_comm 1 k, hnext, scan_cons, hone, List.getElem?_cons_succ,
        List.take_zero, List.drop_zero, size_append]

theorem endless_extent (h : (endless text i).isSymbol c = true) :
    (endless text i).stop = (endless text i).start + c.utf8Size := by
  obtain ⟨before, _, _, hstart, hstop, _⟩ := endless_symbol h
  rw [hstop, size_append, hstart, Text.size_cons, Text.size_nil, Nat.add_zero]

/-- What the text says of a symbol and of what comes right after it. -/
theorem endless_placed (h : (endless text i).isSymbol c = true)
    (hstart : (endless text i).start = Text.size before) (htext : text = before ++ rest) :
    ∃ after, rest = c :: after ∧ ∀ k, endless text (i + 1 + k) =
      ((scan (Text.size (before ++ [c])) after)[k]?).getD (ending text.size) := by
  obtain ⟨front, after, hsplit, hfront, _, hnext⟩ := endless_symbol h
  obtain ⟨middle, rfl, hrest⟩ := split_of_size_le (htext.symm.trans hsplit) (by omega)
  have hmiddle : middle = [] := by
    apply Text.size_eq_zero
    rw [size_append] at hfront
    omega
  subst hmiddle
  exact ⟨after, hrest, by simpa using hnext⟩

/-- The character before a token that follows a symbol. -/
theorem getLast_of_symbol (h : (endless text i).isSymbol c = true)
    (hnext : (endless text (i + 1)).start = Text.size before) (htext : text = before ++ rest) :
    before.getLast? = some c := by
  obtain ⟨front, after, hsplit, _, hstop, _⟩ := endless_symbol h
  rw [endless_stop, hnext] at hstop
  have hsplit : before ++ rest = (front ++ [c]) ++ after := by
    rw [← htext, hsplit, List.append_assoc, List.singleton_append]
  obtain ⟨middle, heq, _⟩ := split_of_size_le hsplit (Nat.le_of_eq hstop)
  have hmiddle : middle = [] := by
    apply Text.size_eq_zero
    rw [heq, size_append] at hstop
    omega
  rw [← List.append_nil before, ← hmiddle, ← heq, List.getLast?_append_of_ne_nil]
  · rfl
  · exact List.cons_ne_nil _ _

/-- A symbol that ends where another one begins is the token before it. -/
theorem succ_of_stop (hi : (endless text i).isSymbol c = true)
    (hk : (endless text k).isSymbol d = true)
    (hstop : (endless text k).stop = (endless text i).start) : i = k + 1 := by
  have hfilled : (endless text k).start < (endless text k).stop := by
    have := d.utf8Size_pos
    rw [endless_extent hk]
    omega
  rw [endless_stop] at hstop hfilled
  rcases Nat.lt_trichotomy i (k + 1) with hlt | rfl | hgt
  · have hle : (endless text i).start ≤ (endless text k).start :=
      endless_le (Nat.le_of_lt_succ hlt)
    omega
  · rfl
  · have hlt : (endless text (k + 1)).start < (endless text i).start :=
      endless_lt hi (Nat.succ_pos k) hgt
    omega

/-- What takes up room is not the end of the text. -/
theorem kind_ne_textEnd (h : (endless text k).start < (endless text k).stop) :
    (endless text k).kind ≠ .textEnd := by
  cases k with
  | zero => exact nofun
  | succ k =>
    rw [endless_succ] at h ⊢
    cases hget : (scan 0 text)[k]? with
    | none =>
      rw [hget] at h
      exact absurd h (Nat.lt_irrefl _)
    | some t =>
      intro hend
      have hgenuine := (scan_genuine (List.mem_of_getElem? hget)).kind
      rw [Option.getD_some] at hend
      simp [isSentinel, hend] at hgenuine

/-- All tokens but the first and those at the end of the text take up room. -/
theorem endless_solid (hk : 0 < k) (hkind : (endless text k).kind ≠ .textEnd) :
    (endless text k).start < (endless text (k + 1)).start := by
  have hsize : 0 < (endless text k).size := by
    by_contra hnone
    obtain ⟨k, rfl⟩ := Nat.exists_eq_succ_of_ne_zero (Nat.ne_of_gt hk)
    rw [endless_succ] at hnone hkind
    cases hget : (scan 0 text)[k]? with
    | none =>
      rw [hget] at hkind
      exact hkind rfl
    | some t =>
      rw [hget] at hnone
      exact hnone (scan_genuine (List.mem_of_getElem? hget)).size
  have hstop : (endless text k).stop = (endless text k).start + (endless text k).size := rfl
  rw [← endless_stop]
  omega

end Token

end LineMarkup

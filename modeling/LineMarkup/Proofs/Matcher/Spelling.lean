import LineMarkup.Proofs.Matcher.Taking
import LineMarkup.Proofs.Token.Cut

namespace LineMarkup.Matcher

open Text (standsAlone)
open Token (Stream Tiles ending scan unmarked)
open Token.Stream

variable {text before rest : Text} {s s' : Stream} {pos limit n : Nat} {tokens : List Token}

theorem isSymbol_unmarked (t : Token) (c : Char) : t.unmarked.isSymbol c = t.isSymbol c :=
  rfl

theorem run_symbols (text : Text) (s : Stream) :
    (run (.symbols text) s).1 = (spell text s).1 ∧
      ((spell text s).1 = true → run (.symbols text) s = spell text s) := by
  unfold run
  rcases spell text s with ⟨_ | _, after⟩ <;> simp

/-- A mark that is matched takes one symbol for each character. -/
theorem spell_takes (h : spell text s = (true, s')) :
    ∃ tokens n, s'.consumed = tokens.reverse ++ s.consumed ∧
      tokens ++ ahead s' = ahead s ++ List.replicate n (ending s.stop) ∧
      List.Forall₂ (fun t c => Token.isSymbol t c = true) tokens text := by
  induction text generalizing s with
  | nil =>
    obtain ⟨-, rfl⟩ := Prod.mk.inj h
    exact ⟨[], 0, rfl, by simp, .nil⟩
  | cons c text ih =>
    unfold spell at h
    simp only at h
    split at h
    · rename_i hc
      obtain ⟨tokens, n, htaken, hahead, hall⟩ := ih h
      obtain ⟨k, hk⟩ := Reads.fetch_ahead s
      refine ⟨s.fetch.1 :: tokens, k + n, ?_, ?_, .cons hc hall⟩
      · rw [htaken, fetch_consumed]
        simp
      · rw [List.cons_append, hahead, fetch_stop, ← List.cons_append, hk, List.append_assoc,
          List.replicate_append_replicate]
    · cases h

/-- A mark in the text is matched. -/
theorem spell_of_scan {mark after : Text}
    (hm : ∀ c ∈ mark, standsAlone c = true ∧ c ≠ '\\')
    (h : (ahead s).map unmarked = scan pos (mark ++ after) ++ tokens) :
    (spell mark s).1 = true := by
  induction mark generalizing s pos with
  | nil => rfl
  | cons c mark ih =>
    obtain ⟨⟨halone, hslash⟩, hrest⟩ := List.forall_mem_cons.mp hm
    rw [List.cons_append, Token.scan_alone halone hslash, List.cons_append] at h
    obtain ⟨t, more, hahead, ht, hmore⟩ := List.map_eq_cons_iff.mp h
    obtain ⟨hfetch, hafter⟩ := fetch_of_ahead hahead
    have hc : s.fetch.1.isSymbol c = true := by
      rw [hfetch, ← isSymbol_unmarked, ht]
      simp [Token.isSymbol]
    unfold spell
    simp only [hc, ↓reduceIte]
    apply ih hrest
    rw [hafter]
    exact hmore

end LineMarkup.Matcher

import LineMarkup.Parser.Rule
import LineMarkup.Proofs.Matcher.Choice

namespace LineMarkup.Matcher

/-- A match may take the character as a token of its own. -/
def includes (c : Char) : Matcher → Bool
  | .kind k => k = .symbol
  | .symbol d => d = c
  | .symbols text => text.contains c
  | .keyword _ | .test _ | .look _ => false
  | .seq first second | .alt first second => first.includes c || second.includes c
  | .optional body | .many1 body | .discard body => body.includes c

/-- The last token of a match may be the character. -/
def endsIn (c : Char) : Matcher → Bool
  | .kind k => k = .symbol
  | .symbol d => d = c
  | .symbols text => text.getLast? = some c
  | .keyword _ | .test _ | .look _ => false
  | .seq first second => second.endsIn c || !second.takes (fun _ => true) && first.endsIn c
  | .alt first second => first.endsIn c || second.endsIn c
  | .optional body | .many1 body | .discard body => body.endsIn c

def isLone (c : Char) : Matcher → Bool
  | .symbol d => d = c
  | _ => false

/-- A hash is left out of the match, and the character comes behind it. -/
def isHashed (c : Char) : Matcher → Bool
  | .seq (.discard (.symbol d)) (.symbol e) => d = '#' && e = c
  | _ => false

variable {input : Nat → Token} {m : Matcher} {i j k : Nat} {c d : Char}

theorem eq_of_isLone (h : m.isLone c = true) : m = .symbol c := by
  unfold isLone at h
  split at h
  · rw [of_decide_eq_true h]
  · cases h

theorem eq_of_isHashed (h : m.isHashed c = true) :
    m = .seq (.discard (.symbol '#')) (.symbol c) := by
  unfold isHashed at h
  split at h
  · simp only [Bool.and_eq_true, decide_eq_true_eq] at h
    rw [h.1, h.2]
  · cases h

theorem isSymbol_unique {token : Token} (hc : token.isSymbol c = true)
    (hd : token.isSymbol d = true) : c = d := by
  simp only [Token.isSymbol, Bool.and_eq_true, decide_eq_true_eq] at hc hd
  have := hc.2.symm.trans hd.2
  simpa using this

namespace Peg

theorem includes (h : Peg input m i (some j)) (hlow : i ≤ k) (hhigh : k < j)
    (hk : (input k).isSymbol c = true) : m.includes c = true := by
  generalize hr : some j = r at h
  induction h generalizing j with
  | @kind i _ hkind =>
    obtain rfl := Option.some.inj hr
    obtain rfl : k = i := by omega
    simp [Matcher.includes, ← hkind, isSymbol_kind hk]
  | @symbol i d hd =>
    obtain rfl := Option.some.inj hr
    obtain rfl : k = i := by omega
    simp [Matcher.includes, isSymbol_unique hd hk]
  | @symbols text i hs =>
    obtain rfl := Option.some.inj hr
    obtain ⟨n, rfl⟩ := Nat.exists_eq_add_of_le hlow
    have hn : n < text.length := by omega
    have hsame := isSymbol_unique (hs n _ (List.getElem?_eq_getElem hn)) hk
    simp [Matcher.includes, ← hsame]
  | keyword h _ ih => simpa [Matcher.includes, fullWord] using ih hlow hhigh hr
  | @seq _ _ middle _ _ h h' ih ih' =>
    rw [Matcher.includes, Bool.or_eq_true]
    rcases Nat.lt_or_ge k middle with hlt | hge
    · exact .inl (ih hlow hlt rfl)
    · exact .inr (ih' hge hhigh hr)
  | alt _ ih =>
    rw [Matcher.includes, Bool.or_eq_true]
    exact .inl (ih hlow hhigh hr)
  | altOther _ _ _ ih' =>
    rw [Matcher.includes, Bool.or_eq_true]
    exact .inr (ih' hlow hhigh hr)
  | optional _ ih | many1Last _ _ ih | discard _ ih => exact ih hlow hhigh hr
  | @many1More _ _ middle _ h h' ih ih' =>
    obtain rfl := Option.some.inj hr
    rcases Nat.lt_or_ge k middle with hlt | hge
    · exact ih hlow hlt rfl
    · exact ih' hge hhigh rfl
  | test | optionalMiss | look =>
    obtain rfl := Option.some.inj hr
    omega
  | _ => cases hr

theorem endsIn (h : Peg input m i (some (j + 1))) (hlt : i ≤ j)
    (hj : (input j).isSymbol c = true) : m.endsIn c = true := by
  generalize hr : some (j + 1) = r at h
  induction h generalizing j with
  | @kind i _ hkind =>
    obtain rfl : j = i := Nat.succ.inj (Option.some.inj hr)
    simp [Matcher.endsIn, ← hkind, isSymbol_kind hj]
  | @symbol i d hd =>
    obtain rfl : j = i := Nat.succ.inj (Option.some.inj hr)
    simp [Matcher.endsIn, isSymbol_unique hd hj]
  | @symbols text i hs =>
    have hend := Option.some.inj hr
    obtain ⟨n, rfl⟩ := Nat.exists_eq_add_of_le hlt
    have hn : n = text.length - 1 := by omega
    have hlast : n < text.length := by omega
    have hsame := isSymbol_unique (hs n _ (List.getElem?_eq_getElem hlast)) hj
    subst hn
    simp [Matcher.endsIn, List.getLast?_eq_getElem?, hsame, List.getElem?_eq_getElem hlast]
  | keyword h _ ih => simpa [Matcher.endsIn, fullWord] using ih hlt hj hr
  | @seq _ _ middle _ _ h h' ih ih' =>
    rw [Matcher.endsIn, Bool.or_eq_true, Bool.and_eq_true, Bool.not_eq_true']
    subst hr
    rcases Nat.lt_or_ge j middle with hlt' | hge
    · have hmiddle : middle = j + 1 := Nat.le_antisymm h'.le hlt'
      right
      refine ⟨Bool.eq_false_iff.mpr fun htakes => ?_, ih hlt hj (by rw [hmiddle])⟩
      obtain ⟨n, hlow, hhigh, _⟩ := h'.takes htakes
      omega
    · exact .inl (ih' hge hj rfl)
  | alt _ ih =>
    rw [Matcher.endsIn, Bool.or_eq_true]
    exact .inl (ih hlt hj hr)
  | altOther _ _ _ ih' =>
    rw [Matcher.endsIn, Bool.or_eq_true]
    exact .inr (ih' hlt hj hr)
  | optional _ ih | many1Last _ _ ih | discard _ ih => exact ih hlt hj hr
  | @many1More _ _ middle _ h h' ih ih' =>
    rw [← Option.some.inj hr] at h' ih'
    rcases Nat.lt_or_ge j middle with hlt' | hge
    · have hmiddle : middle = j + 1 := Nat.le_antisymm h'.le hlt'
      exact ih hlt hj (by rw [hmiddle])
    · exact ih' hge hj rfl
  | test | optionalMiss | look =>
    have := Option.some.inj hr
    omega
  | _ => cases hr

theorem not_isSymbol (h : Peg input (.symbol c) i none) : (input i).isSymbol c = false := by
  cases h with
  | symbolMiss h => exact h

/-- A bracket is the last token of the match that it opens something with. -/
theorem sign (h : Peg input m i (some j)) (hm : m.isLone c = true ∨ m.isHashed c = true)
    (hc : c ≠ '#') (hlow : i ≤ k) (hhigh : k < j) (hk : (input k).isSymbol c = true) :
    j = k + 1 := by
  rcases hm with hm | hm
  · rw [eq_of_isLone hm] at h
    cases h
    omega
  · rw [eq_of_isHashed hm] at h
    cases h with | seq h h' =>
    cases h with | discard h =>
    cases h with | symbol hhash =>
    cases h' with | symbol _ =>
    by_cases hki : k = i
    · exact absurd (isSymbol_unique hk (hki ▸ hhash)) hc
    · omega

/-- Where a name is read but no call, no bracket of a call comes behind the name. -/
theorem name_uncalled (h : Peg input identifier i (some j)) (hn : Peg input Rule.functionName i none) :
    (input j).isSymbol '(' = false ∧ (input j).isSymbol '[' = false := by
  unfold Rule.functionName at hn
  cases hn with
  | seq h' hlook =>
    obtain rfl := Option.some.inj (h'.unique h)
    cases hlook with
    | lookMiss halt =>
      cases halt with
      | altOther h h' => exact ⟨h.not_isSymbol, h'.not_isSymbol⟩
  | seqMiss h' => cases h'.unique h

end Peg

end LineMarkup.Matcher

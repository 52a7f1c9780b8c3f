import LineMarkup.Matcher.Phrase
import LineMarkup.Proofs.Matcher.Discarding

namespace LineMarkup.Matcher

/-- From this place on the symbols spell a text. -/
def Spells (input : Nat → Token) (text : Text) (i : Nat) : Prop :=
  ∀ k c, text[k]? = some c → (input (i + k)).isSymbol c = true

/-- What stands in the tokens from `i` up to before `j`. -/
def textBetween (input : Nat → Token) (i j : Nat) : Text :=
  (List.range' i (j - i)).flatMap fun k => (input k).text

/-- A matcher at place `i` takes the tokens up to before `j` where the result is `some j`, and fails
where it is `none`. Of two alternatives the second counts only where the first fails, and what is
repeated is repeated until it fails. -/
inductive Peg (input : Nat → Token) : Matcher → Nat → Option Nat → Prop
  | kind (h : (input i).kind = k) : Peg input (.kind k) i (some (i + 1))
  | kindMiss (h : (input i).kind ≠ k) : Peg input (.kind k) i none
  | symbol (h : (input i).isSymbol c = true) : Peg input (.symbol c) i (some (i + 1))
  | symbolMiss (h : (input i).isSymbol c = false) : Peg input (.symbol c) i none
  | symbols (h : Spells input text i) : Peg input (.symbols text) i (some (i + text.length))
  | symbolsMiss (h : ¬ Spells input text i) : Peg input (.symbols text) i none
  | keyword (h : Peg input fullWord i (some j)) (hw : textBetween input i j ∈ words) :
    Peg input (.keyword words) i (some j)
  | keywordOther (h : Peg input fullWord i (some j)) (hw : textBetween input i j ∉ words) :
    Peg input (.keyword words) i none
  | keywordMiss (h : Peg input fullWord i none) : Peg input (.keyword words) i none
  | test : Peg input (.test true) i (some i)
  | testMiss : Peg input (.test false) i none
  | seq (h : Peg input first i (some j)) (h' : Peg input second j r) :
    Peg input (.seq first second) i r
  | seqMiss (h : Peg input first i none) : Peg input (.seq first second) i none
  | alt (h : Peg input first i (some j)) : Peg input (.alt first second) i (some j)
  | altOther (h : Peg input first i none) (h' : Peg input second i r) :
    Peg input (.alt first second) i r
  | optional (h : Peg input body i (some j)) : Peg input (.optional body) i (some j)
  | optionalMiss (h : Peg input body i none) : Peg input (.optional body) i (some i)
  | many1Last (h : Peg input body i (some j)) (h' : Peg input body j none) :
    Peg input (.many1 body) i (some j)
  | many1More (h : Peg input body i (some j)) (h' : Peg input (.many1 body) j (some k)) :
    Peg input (.many1 body) i (some k)
  | many1Miss (h : Peg input body i none) : Peg input (.many1 body) i none
  | look (h : Peg input body i (some j)) : Peg input (.look body) i (some i)
  | lookMiss (h : Peg input body i none) : Peg input (.look body) i none
  | discard (h : Peg input body i r) : Peg input (.discard body) i r

variable {input : Nat → Token} {m body : Matcher} {i j k : Nat} {r r' : Option Nat}
  {q : TokenKind → Bool}

namespace Peg

/-- What is matched at least once is matched here. -/
theorem body_of_many1 (h : Peg input (.many1 body) i (some j)) :
    ∃ k, Peg input body i (some k) := by
  cases h with
  | many1Last h => exact ⟨_, h⟩
  | many1More h => exact ⟨_, h⟩

/-- The reading leaves no choice. -/
theorem unique (h : Peg input m i r) (h' : Peg input m i r') : r = r' := by
  induction h generalizing r' with
  | kind hk | symbol hk | symbols hk => cases h' <;> simp_all
  | kindMiss hk | symbolMiss hk | symbolsMiss hk => cases h' <;> simp_all
  | test | testMiss => cases h'; rfl
  | keyword _ hw ih =>
    cases h' with
    | keyword h => exact ih h
    | keywordOther h hw' =>
      obtain rfl := Option.some.inj (ih h)
      exact absurd hw hw'
    | keywordMiss h => cases ih h
  | keywordOther _ hw ih =>
    cases h' with
    | keyword h hw' =>
      obtain rfl := Option.some.inj (ih h)
      exact absurd hw' hw
    | keywordOther | keywordMiss => rfl
  | keywordMiss _ ih =>
    cases h' with
    | keyword h => cases ih h
    | keywordOther | keywordMiss => rfl
  | seq _ _ ih ih' =>
    cases h' with
    | seq h h' =>
      obtain rfl := Option.some.inj (ih h)
      exact ih' h'
    | seqMiss h => cases ih h
  | seqMiss _ ih =>
    cases h' with
    | seq h => cases ih h
    | seqMiss => rfl
  | alt _ ih =>
    cases h' with
    | alt h => exact ih h
    | altOther h => cases ih h
  | altOther _ _ ih ih' =>
    cases h' with
    | alt h => cases ih h
    | altOther _ h' => exact ih' h'
  | optional _ ih =>
    cases h' with
    | optional h => exact ih h
    | optionalMiss h => cases ih h
  | optionalMiss _ ih =>
    cases h' with
    | optional h => cases ih h
    | optionalMiss => rfl
  | look _ ih =>
    cases h' with
    | look => rfl
    | lookMiss h => cases ih h
  | lookMiss _ ih =>
    cases h' with
    | look h => cases ih h
    | lookMiss => rfl
  | many1Last _ _ ih ih' =>
    cases h' with
    | many1Last h => exact ih h
    | many1More h h' =>
      obtain rfl := Option.some.inj (ih h)
      obtain ⟨_, hbody⟩ := body_of_many1 h'
      cases ih' hbody
    | many1Miss h => cases ih h
  | many1More _ _ ih ih' =>
    cases h' with
    | many1Last h h' =>
      obtain rfl := Option.some.inj (ih h)
      cases ih' (.many1Miss h')
    | many1More h h' =>
      obtain rfl := Option.some.inj (ih h)
      exact ih' h'
    | many1Miss h => cases ih h
  | many1Miss _ ih =>
    cases h' with
    | many1Last h | many1More h => cases ih h
    | many1Miss => rfl
  | discard _ ih =>
    cases h' with
    | discard h => exact ih h

theorem le (h : Peg input m i (some j)) : i ≤ j := by
  generalize hr : some j = r at h
  induction h generalizing j with
  | kind | symbol =>
    obtain rfl := Option.some.inj hr
    exact Nat.le_succ _
  | symbols =>
    obtain rfl := Option.some.inj hr
    exact Nat.le_add_right _ _
  | keyword _ _ ih | alt _ ih | optional _ ih | many1Last _ _ ih | discard _ ih => exact ih hr
  | test | optionalMiss | look => exact Nat.le_of_eq (Option.some.inj hr).symm
  | seq _ _ ih ih' | many1More _ _ ih ih' => exact Nat.le_trans (ih rfl) (ih' hr)
  | altOther _ _ _ ih' => exact ih' hr
  | _ => cases hr

/-- Of the tokens that are taken one at least is of a kind in `q`. -/
theorem takes (h : Peg input m i (some j)) (hm : Matcher.takes q m = true) :
    ∃ k, i ≤ k ∧ k < j ∧ q (input k).kind = true := by
  generalize hr : some j = r at h
  induction h generalizing j with
  | @kind i k hk =>
    obtain rfl := Option.some.inj hr
    exact ⟨i, Nat.le_refl i, Nat.lt_succ_self i, hk ▸ hm⟩
  | @symbol i c hc =>
    obtain rfl := Option.some.inj hr
    exact ⟨i, Nat.le_refl i, Nat.lt_succ_self i, isSymbol_kind hc ▸ hm⟩
  | @symbols text i hs =>
    obtain rfl := Option.some.inj hr
    simp only [Matcher.takes, Bool.and_eq_true, Bool.not_eq_true', List.isEmpty_eq_false_iff] at hm
    obtain ⟨c, rest, rfl⟩ := List.exists_cons_of_ne_nil hm.1
    have hc : (input i).isSymbol c = true := hs 0 c rfl
    refine ⟨i, Nat.le_refl i, ?_, isSymbol_kind hc ▸ hm.2⟩
    rw [List.length_cons]
    omega
  | keyword _ _ ih | discard _ ih | many1Last _ _ ih => exact ih hm hr
  | alt _ ih =>
    simp only [Matcher.takes, Bool.and_eq_true] at hm
    exact ih hm.1 hr
  | seq h h' ih ih' =>
    simp only [Matcher.takes, Bool.or_eq_true] at hm
    rcases hm with hm | hm
    · obtain ⟨k, hlow, hhigh, hq⟩ := ih hm rfl
      exact ⟨k, hlow, Nat.lt_of_lt_of_le hhigh (hr ▸ h').le, hq⟩
    · obtain ⟨k, hlow, hhigh, hq⟩ := ih' hm hr
      exact ⟨k, Nat.le_trans h.le hlow, hhigh, hq⟩
  | altOther _ _ _ ih' =>
    simp only [Matcher.takes, Bool.and_eq_true] at hm
    exact ih' hm.2 hr
  | many1More h h' ih =>
    obtain rfl := Option.some.inj hr
    obtain ⟨k, hlow, hhigh, hq⟩ := ih hm rfl
    exact ⟨k, hlow, Nat.lt_of_lt_of_le hhigh h'.le, hq⟩
  | test | optional | optionalMiss | look => cases hm
  | _ => cases hr

end Peg

/-- Whatever is repeated takes a token of the text each time, not only end tokens. -/
def Productive (input : Nat → Token) : Matcher → Prop
  | .seq first second | .alt first second => Productive input first ∧ Productive input second
  | .optional body | .look body | .discard body => Productive input body
  | .many1 body => Productive input body ∧ ∀ i j, Peg input body i (some j) →
      ∃ k, i ≤ k ∧ k < j ∧ (input k).kind ≠ .textEnd
  | _ => True

/-- Whatever is repeated takes some token, as can be seen from its shape. -/
def advances : Matcher → Bool
  | .seq first second | .alt first second => first.advances && second.advances
  | .optional body | .look body | .discard body => body.advances
  | .many1 body => body.advances && body.takes notEnd
  | _ => true

theorem productive_of_advances (h : m.advances = true) : Productive input m := by
  induction m with
  | seq _ _ ih ih' | alt _ _ ih ih' =>
    simp only [advances, Bool.and_eq_true] at h
    exact ⟨ih h.1, ih' h.2⟩
  | optional _ ih | look _ ih | discard _ ih => exact ih h
  | many1 body ih =>
    simp only [advances, Bool.and_eq_true] at h
    refine ⟨ih h.1, fun i j hbody => ?_⟩
    obtain ⟨k, hlow, hhigh, hk⟩ := hbody.takes h.2
    refine ⟨k, hlow, hhigh, fun hend => ?_⟩
    rw [hend] at hk
    cases hk
  | _ => trivial

end LineMarkup.Matcher

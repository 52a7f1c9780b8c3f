import LineMarkup.Proofs.Parser.Progress
import LineMarkup.Proofs.Parser.Unbidden

namespace LineMarkup

open Matcher (Peg)
open Token (endless)

namespace Parser

variable {text : Text} {p p' : Parser} {c : Char} {i k l : Nat}

theorem opens_push {actions : List Action} (h : Action.opens c actions = true) (p : Parser) :
    (p.perform actions).events = .push (p.perform actions).top p.mark.stop :: p.events ∧
      (p.perform actions).top.kind.opening? = some c := by
  unfold Action.opens at h
  split at h
  · exact ⟨rfl, of_decide_eq_true h⟩
  · cases h

/-- What a round does that takes a bracket. It opens something with the bracket, or the bracket is
loose where code does not stand. -/
theorem Turn.bracket (h : Turn text k p p' l) (hc : c ∈ brackets)
    (hi : (endless text i).isSymbol c = true) (hlow : k ≤ i) (hhigh : i < l) :
    l = i + 1 ∧
      ((∃ earlier, p'.events = .push p'.top (endless text (i + 1)).start :: earlier ∧
          p'.top.kind.opening? = some c) ∨
        (k = i ∧ p.top.kind.holdsCode = false ∧ (c = '(' → p.top.kind.holdsMath = false) ∧
          ∃ token : Token, token.unmarked = endless text i ∧
            p'.events = .loose token p.top :: p.events)) := by
  have hsharp : c ≠ '#' := by
    rintro rfl
    revert hc
    decide
  cases h with
  | line _ _ hmatched =>
    have hincludes := hmatched.reads.includes hlow hhigh hi
    cases hincludes
  | short acs rule listed hmatched long =>
    have hminds := Rule.within_minds hc acs rule listed
    simp only [Rule.minds, hmatched.reads.includes hlow hhigh hi, Rule.opens, Bool.not_true,
      Bool.false_or, Bool.and_eq_true, beq_iff_eq] at hminds
    omega
  | @rule j _ acs n rule listed missed p₁ hmatched hr =>
    have hminds := Rule.within_minds hc acs rule (List.mem_of_getElem? listed)
    simp only [Rule.minds, Bool.and_eq_true, List.all_eq_true] at hminds
    rcases Nat.lt_or_ge i j with hij | hji
    · simp only [hmatched.reads.includes hlow hij hi, Rule.opens, Bool.not_true, Bool.false_or,
        Bool.and_eq_true, Bool.or_eq_true, List.isEmpty_iff] at hminds
      obtain ⟨⟨⟨⟨⟨hsign, hactions⟩, _⟩, hnexts⟩, hother⟩, _⟩ := hminds
      have hj : j = i + 1 := hmatched.reads.sign hsign hsharp hlow hij hi
      cases hr with
      | onward next hnext => simp [hnexts] at hnext
      | otherwise _ p₂ hpassed result =>
        obtain ⟨hevents, hkind⟩ := opens_push hactions p₁
        have htop : p'.top = (p₁.perform rule.actions).top := by
          rw [result, hother]
          exact hpassed.top
        refine ⟨hj, .inl ⟨p₁.events, ?_, htop ▸ hkind⟩⟩
        rw [htop, ← hj, ← hmatched.mark (by omega), ← hevents, result, hother]
        exact hpassed.events
    · cases hr with
      | onward next hnext p₂ hmatched' result =>
        have hnext := hminds.2 next hnext
        simp only [hmatched'.reads.includes hji hhigh hi, Continuation.opens, Bool.not_true,
          Bool.false_or, Bool.and_eq_true] at hnext
        have hl : l = i + 1 := hmatched'.reads.sign (.inl hnext.1) hsharp hji hhigh hi
        obtain ⟨hevents, hkind⟩ := opens_push hnext.2 p₂
        refine ⟨hl, .inl ⟨p₂.events, ?_, result ▸ hkind⟩⟩
        rw [← hl, ← hmatched'.mark (by omega), result]
        exact hevents
      | otherwise => omega
  | loose acs missed token same events =>
    obtain rfl : k = i := by omega
    refine ⟨rfl, .inr ⟨rfl, ?_, fun hround => ?_, token, same, events⟩⟩
    · rw [Bool.eq_false_iff]
      intro hcode
      obtain ⟨rule, hrule, hlone⟩ := Rule.within_code hc acs hcode
      have hmiss := missed rule hrule
      rw [Matcher.eq_of_isLone hlone] at hmiss
      simp [hmiss.not_isSymbol] at hi
    · rw [Bool.eq_false_iff]
      intro hmath
      obtain ⟨rule, hrule, hlone⟩ := Rule.within_math acs hmath
      have hmiss := missed rule hrule
      rw [Matcher.eq_of_isLone hlone, ← hround] at hmiss
      simp [hmiss.not_isSymbol] at hi

/-- Right inside of brackets the closing one closes them. -/
theorem Turn.closing (h : Turn text k p p' l) (hc : c ∈ brackets) (hr : Rooted p)
    (htop : p.top.kind.opening? = some c)
    (hk : (endless text k).isSymbol (LineStore.closing c) = true) :
    ∃ later, p'.events = later ++ .pop p.top (endless text (k + 1)).start false :: p.events := by
  have hlapses : p.top.kind.lapses = false := by
    revert htop
    cases p.top.kind <;> simp [Construct.opening?, Construct.lapses]
  obtain ⟨below, rest, hstack⟩ := hr.below_of_ne (by
    intro hroot
    rw [hroot] at htop
    cases htop)
  have hfirst {rule : Rule} (hb : rule.Blunt p.top.kind) {j : Nat}
      (hreads : Peg (endless text) rule.pattern k (some j)) :
      k < j ∧ rule.pattern.includes (LineStore.closing c) = true := by
    have hlt : k < j := hb.lt_of_lasting hreads hlapses
    exact ⟨hlt, hreads.includes (Nat.le_refl k) hlt hk⟩
  cases h with
  | line hends =>
    revert hends htop
    cases p.top.kind <;> simp [Construct.opening?, Construct.endsWithLine]
  | short acs rule listed hmatched long =>
    obtain ⟨_, hincludes⟩ := hfirst (Rule.within_blunt acs rule listed) hmatched.reads
    have hshuts := (Rule.within_shuts hc acs htop).1 rule listed
    simp only [hincludes, Rule.shuts, Bool.not_true, Bool.false_or, Bool.and_eq_true,
      beq_iff_eq] at hshuts
    omega
  | @rule j _ acs n rule listed missed p₁ hmatched hr =>
    have hmem := List.mem_of_getElem? listed
    obtain ⟨hkj, hincludes⟩ := hfirst (Rule.within_blunt acs rule hmem) hmatched.reads
    have hshuts := (Rule.within_shuts hc acs htop).1 rule hmem
    simp only [hincludes, Rule.shuts, Bool.not_true, Bool.false_or, Bool.and_eq_true,
      beq_iff_eq] at hshuts
    have hreads := hmatched.reads
    rw [Matcher.eq_of_isLone hshuts.1.1] at hreads
    have hj : j = k + 1 := by
      cases hreads
      rfl
    have hpop : (p₁.perform rule.actions).events =
        .pop p.top (endless text (k + 1)).start false :: p.events := by
      rw [hshuts.1.2, ← hj, ← hmatched.mark hkj, ← hmatched.events]
      simp only [perform, List.foldl_cons, List.foldl_nil, act, pop, hmatched.stack, hstack, report]
    obtain ⟨later, hlater⟩ := hr.events
    exact ⟨later, by rw [← hlater, hpop]⟩
  | loose acs missed =>
    obtain ⟨rule, hrule, hlone⟩ := (Rule.within_shuts hc acs htop).2
    have hmiss := missed rule hrule
    rw [Matcher.eq_of_isLone hlone] at hmiss
    simp [hmiss.not_isSymbol] at hk

/-- A parser at its end has come to the end of the text. -/
theorem Coming.kind_atEnd (h : Coming text k p) (hend : p.stream.atEnd = true) :
    (endless text k).kind = .textEnd := by
  obtain ⟨⟨released, hk, hf⟩, hpoised⟩ := h
  have hnone : p.stream.remaining = 0 := by
    rw [Token.Stream.remaining_eq, Token.Stream.atEnd_iff.mp hend]
    rfl
  have hposition : p.stream.position = 0 := List.length_eq_zero_iff.mpr hpoised.consumed
  have hends : endless text k = Token.ending text.size := by
    apply hf.ends
    simp only [Token.Session.next, Token.Session.base, hposition, hnone, hk]
    exact Nat.le_refl _
  rw [hends]
  rfl

/-- Then it has passed all symbols. -/
theorem Coming.not_atEnd (h : Coming text k p) (hi : (endless text i).isSymbol c = true)
    (hki : k ≤ i) : p.stream.atEnd = false := by
  rw [Bool.eq_false_iff]
  exact fun hend => Token.not_textEnd hi hki (h.kind_atEnd hend)

end Parser

end LineMarkup

import LineMarkup.Parser.Run
import LineMarkup.Proofs.Parser.Acceptance
import LineMarkup.Proofs.Parser.Action

namespace LineMarkup.Parser

open Matcher (Found Missed)
open Token.Stream

/-- The parser `p'` is `p` after the patterns `ms` did not match, one after another. Only the stream
has been looked into. -/
structure Tried (limit pos : Nat) (ms : List Matcher) (p p' : Parser) : Prop where
  events : p'.events = p.events
  stack : p'.stack = p.stack
  mark : p'.mark = p.mark
  poised : Poised limit pos p'.stream
  left : left p'.stream = left p.stream
  unmarked : ∃ n, (ahead p'.stream).map Token.unmarked =
    (ahead p.stream).map Token.unmarked ++ List.replicate n (Token.ending limit)
  ahead : (∀ m ∈ ms, m.plain = true) →
    ∃ n, ahead p'.stream = ahead p.stream ++ List.replicate n (Token.ending limit)

namespace Tried

theorem refl (h : Poised limit pos (stream p)) : Tried limit pos [] p p :=
  ⟨rfl, rfl, rfl, h, rfl, ⟨0, by simp⟩, fun _ => ⟨0, by simp⟩⟩

/-- Where content may start makes no difference to what was looked into. -/
theorem again (h : Tried limit pos ms p p') (acs : Bool) :
    Tried limit pos ms p { p' with atContentStart := acs } :=
  ⟨h.events, h.stack, h.mark, h.poised, h.left, h.unmarked, h.ahead⟩

theorem refused (h : Tried limit pos ms p p') (hr : Refused m limit pos p' p'' lead) :
    Tried limit pos (ms ++ [m]) p p'' := by
  obtain ⟨he, hs, _, hm⟩ := hr.kept
  refine ⟨he.trans h.events, hs.trans h.stack, hm.trans h.mark, hr.poised,
    hr.left_eq.trans h.left, ?_, fun hp => ?_⟩
  · obtain ⟨n, hn⟩ := h.unmarked
    obtain ⟨k, hk⟩ := hr.unmarked_ahead
    refine ⟨n + k, ?_⟩
    rw [hk, hn, h.poised.stop, List.append_assoc, List.replicate_append_replicate]
  · obtain ⟨n, hn⟩ := h.ahead (fun m hm => hp m (List.mem_append_left _ hm))
    obtain ⟨k, hk⟩ := hr.ahead_eq (hp m (by simp))
    refine ⟨n + k, ?_⟩
    rw [hk, hn, h.poised.stop, List.append_assoc, List.replicate_append_replicate]

theorem clean (h : Tried limit pos ms p p') (hp : ∀ m ∈ ms, m.plain = true)
    (hc : Clean p.stream) : Clean p'.stream := by
  obtain ⟨n, hn⟩ := h.ahead hp
  intro t ht hd
  rw [hn] at ht
  rcases List.mem_append.mp ht with ht | ht
  · exact hc t ht hd
  · rw [List.eq_of_mem_replicate ht] at hd
    cases hd

theorem top (h : Tried limit pos ms p p') : p'.top = p.top := by
  simp only [Parser.top, h.stack]

end Tried

/-- What follows a match whose actions have been taken: one of the continuations, or none. -/
inductive Proceeds (limit pos : Nat) (rule : Rule) (p p' : Parser) : Prop
  | onward (next : Continuation) (listed : next ∈ rule.continuations) (p₁ p₂ : Parser)
      (ms : List Matcher) (plain : ∀ m ∈ ms, m.plain = true) (tried : Tried limit pos ms p p₁)
      (accepted : Accepted next.pattern limit pos pos' p₁ p₂ lead rest)
      (result : p' = p₂.perform next.actions)
      (outside : next.outsideCode = true → p.top.kind.holdsCode = false)
  | otherwise (p₁ : Parser) (ms : List Matcher) (plain : ∀ m ∈ ms, m.plain = true)
      (tried : Tried limit pos ms p p₁) (result : p' = p₁.perform rule.otherwise)

theorem proceed_cases (hs : ∀ next ∈ continuations,
      next ∈ rule.continuations ∧ next.pattern.plain = true ∧ next.pattern.tidy = true)
    (plain : ∀ m ∈ ms, m.plain = true) (tried : Tried limit pos ms p p₁) :
    Proceeds limit pos rule p (p₁.proceed rule.otherwise continuations) := by
  induction continuations generalizing p₁ ms with
  | nil => exact .otherwise p₁ ms plain tried rfl
  | cons next rest ih =>
    obtain ⟨⟨hmem, hplain, htidy⟩, hrest⟩ := List.forall_mem_cons.mp hs
    simp only [proceed]
    split
    · exact ih hrest plain tried
    · rename_i hskip
      rcases accept_cases htidy tried.poised with ⟨p₂, _, _, _, hacc, ha⟩ | ⟨p₂, _, hacc, hr⟩
      · rw [hacc]
        refine .onward next hmem p₁ p₂ ms plain tried ha rfl (fun ho => ?_)
        simpa [ho, tried.top] using hskip
      · rw [hacc]
        refine ih hrest (fun m hm => ?_) (tried.refused hr)
        rcases List.mem_append.mp hm with hm | hm
        · exact plain m hm
        · rwa [List.mem_singleton.mp hm]

/-- What a rule does after its pattern has matched. -/
inductive Follows (limit pos : Nat) (rule : Rule) (p p' : Parser) : Prop
  | short (few : p.mark.chars < rule.minLength) (result : p' = p)
  | full (proceeds : Proceeds limit pos rule (p.perform rule.actions) p')

/-- A rule that only ends the innermost construct does that. -/
theorem follow_ends (p : Parser) (hr : rule.ends = true) : p.follow rule = p.pop := by
  obtain ⟨hactions, hmin, hnext, hother⟩ := Rule.ends_of hr
  simp [follow, proceed, perform, act, hactions, hmin, hnext, hother]

theorem follow_cases (hr : rule.sound = true) (h : Poised limit pos (stream p)) :
    Follows limit pos rule p (p.follow rule) := by
  simp only [follow]
  split
  · rename_i hf
    exact .short hf rfl
  · have htried : Tried limit pos [] (p.perform rule.actions) (p.perform rule.actions) :=
      .refl (by rwa [perform_stream])
    refine .full (proceed_cases (fun next hn => ?_) (by simp) htried)
    simp only [Rule.sound, Rule.accords, Bool.and_eq_true, List.all_eq_true] at hr
    obtain ⟨⟨hp, _⟩, ⟨ht, _⟩, _⟩ := hr.2 next hn
    exact ⟨hn, hp, ht⟩

/-- What a round can do. The patterns of rules that came before did not match. -/
inductive Round (limit pos : Nat) (p p' : Parser) : Prop
  | line (kind : p.top.kind.endsWithLine = true) (p₁ : Parser)
      (accepted : Accepted (.kind .lineEnd) limit pos pos' p p₁ lead rest)
      (acs : Bool) (result : p' = { p₁.pop with atContentStart := acs })
  | rule (acs : Bool) (rule : Rule) (listed : rule ∈ Rule.within p.top.kind acs) (p₁ p₂ : Parser)
      (ms : List Matcher) (tried : Tried limit pos ms p p₁)
      (plain : (∀ r ∈ Rule.within p.top.kind acs, r.pattern.plain = true) →
        ∀ m ∈ ms, m.plain = true)
      (accepted : Accepted rule.pattern limit pos pos' p₁ p₂ lead rest)
      (result : p' = p₂.follow rule)
  | loose (acs : Bool) (p₁ p₂ : Parser) (ms : List Matcher) (tried : Tried limit pos ms p p₁)
      (plain : ∀ m ∈ ms, m.plain = true)
      (unmatched : p₁.tryRules (Rule.within p.top.kind acs) = (false, p₂))
      (tried' : Tried limit pos ((Rule.within p.top.kind acs).map Rule.pattern) p₁ p₂)
      (result : p' = p₂.takeLoose p.top)

theorem tryRules_cases (hs : ∀ rule ∈ rules, rule.sound = true)
    (tried : Tried limit pos ms p p₁) :
    (∃ rule ∈ rules, ∃ p₂ p₃ ms' pos' lead rest, p₁.tryRules rules = (true, p₃.follow rule) ∧
      (∀ m ∈ ms', m ∈ rules.map Rule.pattern) ∧ Tried limit pos (ms ++ ms') p p₂ ∧
      Accepted rule.pattern limit pos pos' p₂ p₃ lead rest) ∨
    (∃ p₂, p₁.tryRules rules = (false, p₂) ∧
      Tried limit pos (ms ++ rules.map Rule.pattern) p p₂) := by
  induction rules generalizing p₁ ms with
  | nil => exact .inr ⟨p₁, rfl, by simpa using tried⟩
  | cons rule rules ih =>
    obtain ⟨hrule, hrules⟩ := List.forall_mem_cons.mp hs
    have htidy : rule.pattern.tidy = true := by
      simp only [Rule.sound, Rule.accords, Bool.and_eq_true] at hrule
      exact hrule.1.1.1.1
    simp only [tryRules]
    rcases accept_cases htidy tried.poised with
      ⟨p₂, pos', lead, rest, hacc, ha⟩ | ⟨p₂, lead, hacc, hr⟩
    · rw [hacc]
      refine .inl ⟨rule, List.mem_cons_self, p₁, p₂, [], pos', lead, rest, rfl, by simp, ?_, ha⟩
      rwa [List.append_nil]
    · rw [hacc]
      rcases ih hrules (tried.refused hr) with
        ⟨r, hmem, p₃, p₄, ms', pos', lead, rest, hf, hin, ht, ha⟩ | ⟨p₃, hf, ht⟩
      · refine .inl ⟨r, List.mem_cons_of_mem _ hmem, p₃, p₄, rule.pattern :: ms', pos', lead, rest,
          hf, ?_, by simpa using ht, ha⟩
        intro m hm
        rcases List.mem_cons.mp hm with rfl | hm
        · exact List.mem_cons_self
        · exact List.mem_cons_of_mem _ (hin m hm)
      · exact .inr ⟨p₃, hf, by simpa using ht⟩

/-- The second half of a round, once the innermost construct has not ended with the line. -/
theorem attempt_round (tried : Tried limit pos ms p p₁) (plain : ∀ m ∈ ms, m.plain = true)
    (acs : Bool) : ∃ ok p', p₁.tryRules (Rule.within p.top.kind acs) = (ok, p') ∧
      Round limit pos p (if ok then p' else p'.takeLoose p.top) := by
  have hs := Rule.within_sound p.top.kind acs
  rcases tryRules_cases hs tried with
    ⟨rule, hm, p₂, p₃, ms', pos', lead, rest, hf, hin, ht, ha⟩ | ⟨p₂, hf, _⟩
  · refine ⟨true, _, hf, .rule acs rule hm p₂ p₃ (ms ++ ms') ht (fun hp m hm => ?_) ha rfl⟩
    rcases List.mem_append.mp hm with hm | hm
    · exact plain m hm
    · obtain ⟨r, hr, rfl⟩ := List.mem_map.mp (hin m hm)
      exact hp r hr
  · -- The patterns count from `p₁` on here: those tried before are no rules.
    rcases tryRules_cases hs (.refl tried.poised) with
      ⟨_, _, _, _, _, _, _, _, hf', _⟩ | ⟨p₃, hf', ht⟩
    · rw [hf] at hf'
      cases hf'
    · exact ⟨false, p₃, hf', .loose acs p₁ p₃ ms tried plain hf' ht rfl⟩

theorem step_round (h : Poised limit pos (stream p)) : Round limit pos p p.step := by
  by_cases hk : p.top.kind.endsWithLine = true
  · have htidy : (Matcher.kind .lineEnd).tidy = true := rfl
    rcases accept_cases htidy h with ⟨p₁, pos', lead, rest, hacc, ha⟩ | ⟨p₁, lead, hacc, hr⟩
    · exact .line hk p₁ ha (p₁.pop.atContentStart || p₁.pop.top.kind.holdsContent)
        (by simp only [step, hk, hacc, ↓reduceIte])
    · have ht := ((Tried.refl h).refused hr).again
        (p₁.atContentStart && !p.top.kind.holdsContent)
      obtain ⟨ok, p₂, hrules, hround⟩ :=
        attempt_round ht (by simp [Matcher.plain]) p₁.atContentStart
      cases ok <;> simpa only [step, hk, hacc, hrules, ↓reduceIte, Bool.false_eq_true] using hround
  · have ht := (Tried.refl h).again (p.atContentStart && !p.top.kind.holdsContent)
    obtain ⟨ok, p₂, hrules, hround⟩ := attempt_round ht (by simp) p.atContentStart
    cases ok <;> simpa only [step, hk, hrules, ↓reduceIte, Bool.false_eq_true] using hround

end LineMarkup.Parser

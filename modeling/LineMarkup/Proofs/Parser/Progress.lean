import LineMarkup.Proofs.Parser.Nesting

namespace LineMarkup

namespace Token.Stream

theorem left_fetch (s : Stream) :
    (if Matcher.notEnd s.fetch.1.kind then 1 else 0) + left s.fetch.2 = left s := by
  obtain ⟨n, hall⟩ := Reads.fetch_ahead s
  rw [← left_more s n, ← hall, List.countP_cons, Nat.add_comm]
  rfl

end Token.Stream

namespace Parser

open Token.Stream

/-- At least the number of rounds that are left. A token that is taken may open one frame, and every
open frame may cost one round. -/
def weight (p : Parser) : Nat :=
  if p.stream.atEnd then 0 else 2 * left p.stream + 1 + p.stack.length

theorem weight_le (p : Parser) : p.weight ≤ 2 * left p.stream + 1 + p.stack.length := by
  unfold weight
  split
  · exact Nat.zero_le _
  · exact Nat.le_refl _

theorem weight_of_more {p : Parser} (h : p.stream.atEnd = false) :
    p.weight = 2 * left p.stream + 1 + p.stack.length := by
  simp [weight, h]

theorem pop_length (p : Parser) : p.pop.stack.length ≤ p.stack.length := by
  unfold pop
  split
  · rename_i hs
    simp [hs]
  · exact Nat.le_refl _

theorem perform_length (p : Parser) (actions : List Action) :
    (p.perform actions).stack.length ≤ p.stack.length + Action.pushes actions := by
  induction actions generalizing p with
  | nil => exact Nat.le_refl _
  | cons action actions ih =>
    have hrest := ih (p.act action)
    have hact : (p.act action).stack.length ≤ p.stack.length + Action.pushes [action] := by
      cases action with
      | push | instant | startContent => exact Nat.le_refl _
      | pop => exact pop_length p
      | popMath =>
        exact popMath_induction (P := fun q => q.stack.length ≤ p.stack.length)
          (fun q h => Nat.le_trans (pop_length q) h) (Nat.le_refl _)
    have hsum : Action.pushes (action :: actions) =
        Action.pushes [action] + Action.pushes actions := by
      rw [← List.singleton_append, Action.pushes, List.countP_append]
      rfl
    change ((p.act action).perform actions).stack.length ≤ _
    omega

/-- A rule opens one frame at most, whatever follows its match. -/
theorem follow_length (hr : rule.sound = true) (hm : rule.modest = true)
    (h : Poised limit pos (stream p)) :
    (p.follow rule).stack.length ≤ p.stack.length + 1 ∧
      left (p.follow rule).stream ≤ left p.stream := by
  simp only [Rule.modest, Bool.and_eq_true, decide_eq_true_eq, List.all_eq_true] at hm
  obtain ⟨⟨hother, hnext⟩, hown⟩ := hm
  cases follow_cases hr h with
  | short _ result =>
    rw [result]
    exact ⟨Nat.le_succ _, Nat.le_refl _⟩
  | full hp =>
    have hl := p.perform_length rule.actions
    have hs := congrArg left (p.perform_stream rule.actions)
    cases hp with
    | onward next listed p₁ p₂ ms _ ht ha result =>
      have hl' := p₂.perform_length next.actions
      have hle := ha.left_le
      have hsum := hnext next listed
      rw [ha.kept.2.1, ht.stack] at hl'
      rw [result, perform_stream]
      rw [ht.left, hs] at hle
      exact ⟨by omega, hle⟩
    | otherwise p₁ ms _ ht result =>
      have hl' := p₁.perform_length rule.otherwise
      rw [ht.stack] at hl'
      rw [result, perform_stream, ht.left, hs]
      exact ⟨by omega, Nat.le_refl _⟩

theorem takeLoose_weight (h : Poised limit pos (stream p)) (frame : Frame) :
    (p.takeLoose frame).weight < 2 * left p.stream + 1 + p.stack.length := by
  have hleft := left_fetch p.stream
  by_cases hk : Matcher.notEnd p.stream.fetch.1.kind = true
  · have hle := weight_le (p.takeLoose frame)
    rw [if_pos hk] at hleft
    have hstream : left (p.takeLoose frame).stream = left p.stream.fetch.2 := rfl
    have hstack : (p.takeLoose frame).stack = p.stack := rfl
    rw [hstream, hstack] at hle
    omega
  · have hkind : p.stream.fetch.1.kind = .textEnd := by
      revert hk
      cases p.stream.fetch.1.kind <;> simp [Matcher.notEnd]
    have hahead : ahead p.stream.fetch.2 = [] := by
      apply Classical.byContradiction
      intro hn
      have hends := List.singleton_append ▸ endsOnce_fetch h.ends
      exact hends.left hn _ List.mem_cons_self hkind
    have hzero : (p.takeLoose frame).weight = 0 := by
      have : (p.takeLoose frame).stream.atEnd = true := atEnd_iff.mpr hahead
      simp [weight, this]
    omega

theorem step_weight (h : Steady limit start pos p) (hend : p.stream.atEnd = false) :
    p.step.weight < p.weight := by
  cases step_round h.poised with
  | line kind p₁ ha acs result =>
    have hle := weight_le p.step
    have hpop := pop_length p₁
    have hleft := (ha.moves h.poised rfl).2.2
    have hstack : p.step.stack = p₁.pop.stack := by rw [result]
    have hstream : p.step.stream = p₁.pop.stream := by rw [result]
    rw [hstack, hstream, pop_stream] at hle
    rw [ha.kept.2.1] at hpop
    rw [weight_of_more hend]
    omega
  | rule acs rule listed p₁ p₂ ms ht plain ha result =>
    have hr := Rule.within_sound p.top.kind acs rule listed
    have hle := weight_le p.step
    have hcases := Rule.within_moves p.top.kind acs rule listed
    rw [Bool.or_eq_true, Bool.and_eq_true] at hcases
    rw [weight_of_more hend]
    rcases hcases with hm | ⟨hl, hends⟩
    · have hleft := (ha.moves ht.poised hm).2.2
      obtain ⟨hstack, hleft'⟩ := follow_length hr (Rule.within_modest _ _ rule listed) ha.poised
      rw [ha.kept.2.1, ht.stack] at hstack
      rw [ht.left] at hleft
      rw [result] at hle ⊢
      omega
    · obtain ⟨below, rest, hs⟩ := h.rooted.below hl
      have hs' : p₂.stack = p.top :: below :: rest := by rw [ha.kept.2.1, ht.stack, hs]
      have hleft := ha.left_le
      have hlen : p₂.pop.stack.length + 1 = p.stack.length := by simp [pop, hs', hs]
      rw [ht.left] at hleft
      rw [result, follow_ends p₂ hends] at hle ⊢
      rw [pop_stream] at hle
      omega
  | loose acs p₁ p₂ ms ht plain unmatched ht' result =>
    have hlt := takeLoose_weight ht'.poised p.top
    rw [ht'.left, ht.left, ht'.stack, ht.stack] at hlt
    rwa [result, weight_of_more hend]

theorem rounds_atEnd (h : Steady limit start pos p) (hf : p.weight ≤ fuel) :
    (rounds fuel p).stream.atEnd = true := by
  induction fuel generalizing pos p with
  | zero =>
    cases hend : p.stream.atEnd with
    | true => exact hend
    | false =>
      rw [weight_of_more hend] at hf
      omega
  | succ fuel ih =>
    simp only [rounds]
    cases hend : p.stream.atEnd with
    | true => exact hend
    | false =>
      obtain ⟨pos', _, hs⟩ := step_steady h
      have := step_weight h hend
      exact ih hs (by omega)

theorem weight_le_roundLimit (p : Parser) : p.weight ≤ p.roundLimit := by
  have hle := weight_le p
  have hlen : left p.stream ≤ (ahead p.stream).length := List.countP_le_length
  simp only [roundLimit, remaining_eq]
  omega

/-- The rounds of a parse suffice. -/
theorem ofText_atEnd (text : Text) (carried : List Construct) :
    ((ofText text carried).rounds (ofText text carried).roundLimit).stream.atEnd = true :=
  rounds_atEnd (ofText_steady text carried) (weight_le_roundLimit _)

end Parser

end LineMarkup

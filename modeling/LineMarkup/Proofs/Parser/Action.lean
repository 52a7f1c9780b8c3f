import LineMarkup.Parser.State
import LineMarkup.Proofs.Parser.Grammar

namespace LineMarkup.Parser

/-- Closing math is closing the innermost frame some times. -/
theorem popMath_induction {P : Parser → Prop} (hpop : ∀ p, P p → P p.pop) (h : P p) :
    P p.popMath := by
  have hwhile (kind : Construct) (fuel : Nat) : ∀ p, P p → P (popWhile kind fuel p) := by
    induction fuel with
    | zero => exact fun _ h => h
    | succ fuel ih =>
      intro p h
      simp only [popWhile]
      split
      · exact ih p.pop (hpop p h)
      · exact h
  simp only [popMath]
  split
  · exact hpop _ (hwhile _ _ p h)
  · exact hwhile _ _ p h

theorem perform_induction {P : Parser → Prop}
    (hact : ∀ action ∈ actions, ∀ p, P p → P (p.act action)) (h : P p) :
    P (p.perform actions) := by
  induction actions generalizing p with
  | nil => exact h
  | cons action actions ih =>
    obtain ⟨ha, hrest⟩ := List.forall_mem_cons.mp hact
    exact ih hrest (ha p h)

theorem pop_stream (p : Parser) : p.pop.stream = p.stream := by
  unfold pop
  split <;> rfl

theorem pop_mark (p : Parser) : p.pop.mark = p.mark := by
  unfold pop
  split <;> rfl

theorem pop_pushes (h : .push frame stop ∈ (pop p).events) : .push frame stop ∈ p.events := by
  unfold pop at h
  split at h
  · exact (List.mem_cons.mp h).resolve_left (by simp)
  · exact h

theorem pop_stack (hs : (stack p) = frame :: below :: rest) : p.pop.stack = below :: rest := by
  simp [pop, hs]

theorem act_stream (p : Parser) (action : Action) : (p.act action).stream = p.stream := by
  cases action with
  | push | instant | startContent => rfl
  | pop => exact pop_stream p
  | popMath =>
    exact popMath_induction (P := fun q => q.stream = p.stream)
      (fun q h => (pop_stream q).trans h) rfl

theorem act_mark (p : Parser) (action : Action) : (p.act action).mark = p.mark := by
  cases action with
  | push | instant | startContent => rfl
  | pop => exact pop_mark p
  | popMath =>
    exact popMath_induction (P := fun q => q.mark = p.mark)
      (fun q h => (pop_mark q).trans h) rfl

theorem perform_stream (p : Parser) (actions : List Action) :
    (p.perform actions).stream = p.stream :=
  perform_induction (P := fun q => q.stream = p.stream)
    (fun a _ q h => (act_stream q a).trans h) rfl

theorem perform_mark (p : Parser) (actions : List Action) : (p.perform actions).mark = p.mark :=
  perform_induction (P := fun q => q.mark = p.mark) (fun a _ q h => (act_mark q a).trans h) rfl

/-- The root frame is at the bottom. -/
def Rooted (p : Parser) : Prop :=
  p.stack.getLast? = some Frame.root

namespace Rooted

theorem pop (h : Rooted p) : Rooted p.pop := by
  unfold Parser.pop
  split
  · rename_i hs
    rwa [Rooted, hs, List.getLast?_cons_cons] at h
  · exact h

theorem push (h : Rooted p) (kind : Construct) : Rooted (p.push kind) := by
  have hs : p.stack ≠ [] := fun hn => by simp [Rooted, hn] at h
  obtain ⟨frame, rest, hs⟩ := List.exists_cons_of_ne_nil hs
  simp only [Rooted, Parser.push, hs, List.getLast?_cons_cons]
  rwa [Rooted, hs] at h

theorem act (h : Rooted p) (action : Action) : Rooted (p.act action) := by
  cases action with
  | push kind => exact h.push kind
  | pop => exact h.pop
  | instant | startContent => exact h
  | popMath => exact popMath_induction (fun _ h => h.pop) h

theorem perform (h : Rooted p) (actions : List Action) : Rooted (p.perform actions) :=
  perform_induction (fun a _ _ h => h.act a) h

theorem stack_eq (h : Rooted p) : ∃ below, p.stack = p.top :: below := by
  cases hs : p.stack with
  | nil => simp [Rooted, hs] at h
  | cons frame below => exact ⟨below, by simp [Parser.top, hs]⟩

theorem below_of_ne (h : Rooted p) (hn : p.top ≠ Frame.root) :
    ∃ below rest, p.stack = p.top :: below :: rest := by
  obtain ⟨rest, hs⟩ := h.stack_eq
  cases rest with
  | nil =>
    rw [Rooted, hs, List.getLast?_singleton, Option.some.injEq] at h
    exact absurd h hn
  | cons below rest => exact ⟨below, rest, hs⟩

/-- The root frame cannot be what lapses. -/
theorem below (h : Rooted p) (hl : p.top.kind.lapses = true) :
    ∃ below rest, p.stack = p.top :: below :: rest := by
  apply h.below_of_ne
  intro hroot
  rw [hroot] at hl
  cases hl

end Rooted

end LineMarkup.Parser

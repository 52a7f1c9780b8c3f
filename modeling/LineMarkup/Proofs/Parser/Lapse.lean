import LineMarkup.Proofs.Parser.Progress

namespace LineMarkup

namespace Parser

open Token.Stream

theorem ahead_of_showsWord (hm : Matcher.showsWord m = true) (hr : m.run s = (true, s')) :
    ∃ token rest, ahead s' = token :: rest ∧ token.kind = .word := by
  unfold Matcher.showsWord at hm
  split at hm
  · rename_i first
    simp only [Matcher.run, Matcher.one] at hr
    split at hr
    · rename_i after _
      by_cases hk : after.fetch.1.kind = .word
      · simp only [hk, decide_true, ↓reduceIte, Prod.mk.injEq, true_and] at hr
        rw [← hr, (rewind_fetch after).2.1]
        exact ⟨_, _, rfl, hk⟩
      · simp [hk] at hr
    · simp at hr
  · cases hm

/-- No frame lapses but the innermost one, and that only if it is of this kind. -/
structure Level (kind : Construct) (p : Parser) : Prop where
  rooted : Rooted p
  below : ∀ f ∈ p.stack.tail, f.kind.lapses = false
  innermost : p.top.kind.lapses = true → p.top.kind = kind

namespace Level

theorem of_stack (h : Level kind p) (hs : p'.stack = p.stack) : Level kind p' := by
  refine ⟨?_, hs ▸ h.below, ?_⟩
  · rw [Rooted, hs]
    exact h.rooted
  · simp only [Parser.top, hs]
    exact h.innermost

theorem pop (h : Level kind p) : Level last p.pop := by
  obtain ⟨rest, hs⟩ := h.rooted.stack_eq
  have hbelow := h.below
  rw [hs, List.tail_cons] at hbelow
  cases rest with
  | nil =>
    have hpop : p.pop = p := by simp [Parser.pop, hs]
    have htop : p.top = Frame.root := by
      have := h.rooted
      rwa [Rooted, hs, List.getLast?_singleton, Option.some.injEq] at this
    rw [hpop]
    refine ⟨h.rooted, by simp [hs], fun hl => ?_⟩
    rw [htop] at hl
    cases hl
  | cons below rest =>
    obtain ⟨hb, hrest⟩ := List.forall_mem_cons.mp hbelow
    have hpop := pop_stack hs
    refine ⟨h.rooted.pop, ?_, fun hl => ?_⟩
    · rwa [hpop]
    · have htop : p.pop.top = below := by rw [Parser.top, hpop, List.headD_cons]
      rw [htop, hb] at hl
      cases hl

theorem perform (h : Level kind p) (ho : Action.outcome kind actions = some last) :
    Level last (p.perform actions) := by
  induction actions generalizing kind p with
  | nil =>
    simp only [Action.outcome, Option.some.injEq] at ho
    exact ho ▸ h
  | cons action actions ih =>
    cases action with
    | push inner =>
      simp only [Action.outcome] at ho
      split at ho
      · cases ho
      · rename_i hl
        obtain ⟨rest, hs⟩ := h.rooted.stack_eq
        suffices hlevel : Level inner (p.push inner) from ih hlevel ho
        refine ⟨h.rooted.push inner, fun f hf => ?_, fun _ => rfl⟩
        have hf : f ∈ p.stack := hf
        rw [hs] at hf
        rcases List.mem_cons.mp hf with rfl | hf
        · cases hk : p.top.kind.lapses with
          | false => rfl
          | true => exact absurd (h.innermost hk ▸ hk) hl
        · exact h.below f (by rwa [hs])
    | pop => exact ih (h.pop) ho
    | instant | startContent => exact ih (h.of_stack rfl) ho
    | popMath => exact ih (popMath_induction (fun _ h => h.pop) h) ho

end Level

/-- What lapses is innermost, and it ends with the line or a word comes next. -/
structure Alert (p : Parser) : Prop where
  level : Level p.top.kind p
  next : p.top.kind.lapses = true → p.top.kind.endsWithLine = true ∨
    ∃ token rest, ahead p.stream = token :: rest ∧ token.kind = .word

theorem Level.alert (h : Level kind p) (hn : kind.lapses = true → kind.endsWithLine = true ∨
    ∃ token rest, ahead p.stream = token :: rest ∧ token.kind = .word) : Alert p := by
  refine ⟨⟨h.rooted, h.below, fun _ => rfl⟩, fun hl => ?_⟩
  have hk := h.innermost hl
  rw [hk] at hl ⊢
  exact hn hl

theorem follow_alert (hr : rule.sound = true) (ht : rule.tame inside = true)
    (hp : Poised limit pos (stream p)) (h : Level inside p) : Alert (p.follow rule) := by
  simp only [Rule.tame, Bool.and_eq_true, Bool.or_eq_true, beq_iff_eq, Bool.not_eq_true',
    Option.any_eq_true, List.all_eq_true] at ht
  obtain ⟨hmin, kind, hk, ⟨last, hlast, hlapse⟩, hnext⟩ := ht
  cases follow_cases hr hp with
  | short few result =>
    rw [result]
    refine h.alert (fun hl => ?_)
    rcases hmin with hmin | hmin
    · omega
    · rw [hmin] at hl
      cases hl
  | full hproceeds =>
    have hlevel := h.perform hk
    cases hproceeds with
    | onward next listed p₁ p₂ ms _ tried ha result =>
      obtain ⟨last, hlast, hlapse⟩ := hnext next listed
      obtain ⟨s, hrun, hstream, _⟩ := ha.run
      rw [result]
      refine ((hlevel.of_stack (ha.kept.2.1.trans tried.stack)).perform hlast).alert (fun hl => ?_)
      rw [perform_stream, hstream]
      rcases hlapse with (hno | hline) | hword
      · rw [hno] at hl
        cases hl
      · exact .inl hline
      · have := ahead_of_showsWord hword hrun
        exact .inr this
    | otherwise p₁ ms _ tried result =>
      rw [result]
      refine ((hlevel.of_stack tried.stack).perform hlast).alert (fun hl => ?_)
      rcases hlapse with hno | hline
      · rw [hno] at hl
        cases hl
      · exact .inl hline

theorem step_alert (hs : Steady limit start pos p) (h : Alert p) : Alert p.step := by
  cases step_round hs.poised with
  | line kind p₁ ha acs result =>
    have hlevel : Level .content p₁.pop := (h.level.of_stack ha.kept.2.1).pop
    have hagain : Level .content { p₁.pop with atContentStart := acs } := hlevel.of_stack rfl
    rw [result]
    exact hagain.alert (fun hl => by cases hl)
  | rule acs rule listed p₁ p₂ ms ht plain ha result =>
    rw [result]
    exact follow_alert (Rule.within_sound _ _ rule listed) (Rule.within_tame _ _ rule listed)
      ha.poised (h.level.of_stack (ha.kept.2.1.trans ht.stack))
  | loose acs p₁ p₂ ms ht plain unmatched ht' result =>
    have hlevel : Level p.top.kind (p₂.takeLoose p.top) :=
      h.level.of_stack (ht'.stack.trans ht.stack)
    rw [result]
    refine hlevel.alert (fun hl => .inl ?_)
    rw [unmatched_link hl unmatched]
    rfl

theorem rounds_alert (hs : Steady limit start pos p) (h : Alert p) (fuel : Nat) :
    Alert (rounds fuel p) := by
  induction fuel generalizing pos p with
  | zero => exact h
  | succ fuel ih =>
    simp only [rounds]
    split
    · exact h
    · obtain ⟨pos', _, hs'⟩ := step_steady hs
      exact ih hs' (step_alert hs h)

theorem ofText_alert (text : Text) (hc : ∀ kind ∈ carried, kind.lapses = false) :
    Alert (ofText text carried) := by
  have haround : ∀ f ∈ Frame.around carried, f.kind.lapses = false :=
    Frame.forall_mem_around rfl hc
  have hrooted := (ofText_steady text carried).rooted
  obtain ⟨rest, hs⟩ := hrooted.stack_eq
  have htop : (ofText text carried).top.kind.lapses = false :=
    haround _ (hs ▸ List.mem_cons_self : (ofText text carried).top ∈ (ofText text carried).stack)
  refine ⟨⟨hrooted, fun f hf => haround f (List.mem_of_mem_tail hf), fun _ => rfl⟩, fun hl => ?_⟩
  rw [htop] at hl
  cases hl

end Parser

namespace Parse

open Token.Stream

/-- What goes on after a text does not lapse, as long as nothing around the text does. -/
theorem unclosed_lasts (text : Text) (hc : ∀ kind ∈ carried, kind.lapses = false) :
    ∀ f ∈ (ofText text carried).unclosed, f.kind.lapses = false := by
  let parser := Parser.ofText text carried
  obtain ⟨⟨hrooted, hbelow, _⟩, hnext⟩ := Parser.rounds_alert (Parser.ofText_steady text carried)
    (Parser.ofText_alert text hc) parser.roundLimit
  obtain ⟨rest, hs⟩ := hrooted.stack_eq
  have hend := atEnd_iff.mp (Parser.ofText_atEnd text carried)
  intro f hf
  simp only [ofText] at hf
  rw [hs, List.dropWhile_cons] at hf
  split at hf
  · rw [hs, List.tail_cons] at hbelow
    exact hbelow f ((List.dropWhile_sublist _).subset hf)
  · rename_i hline
    rcases List.mem_cons.mp hf with rfl | hf
    · cases hl : (Parser.top _).kind.lapses with
      | false => rfl
      | true =>
        rcases hnext hl with hyes | ⟨token, more, hahead, _⟩
        · exact absurd hyes hline
        · rw [hend] at hahead
          cases hahead
    · rw [hs, List.tail_cons] at hbelow
      exact hbelow f hf

end Parse

end LineMarkup

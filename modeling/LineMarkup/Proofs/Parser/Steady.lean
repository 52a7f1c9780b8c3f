import LineMarkup.Proofs.Parser.Closing
import LineMarkup.Proofs.Parser.Round

namespace LineMarkup.Parser

open Token.Stream
open Token (Tiles)

/-- All that was reported lies before the cursor. -/
structure Ready (limit : Nat) (start : List Frame) (pos : Nat) (p : Parser) : Prop where
  trace : Trace limit start p.events p.stack
  ended : EndedBy pos p.events
  poised : Poised limit pos p.stream
  rooted : Rooted p

/-- The cursor stands where the mark ends. -/
structure Settled (limit : Nat) (start : List Frame) (pos : Nat) (p : Parser) : Prop extends
    Closing limit start p where
  mark : p.mark.stop = pos
  poised : Poised limit pos p.stream
  clean : Clean p.stream
  rooted : Rooted p

/-- What holds between two rounds. The mark may have stayed behind, because a token without a range
was taken, but not if the innermost frame may end without a token. -/
structure Steady (limit : Nat) (start : List Frame) (pos : Nat) (p : Parser) : Prop extends
    Ready limit start pos p where
  marked : p.mark.stop ≤ pos
  clean : Clean p.stream
  lapse : p.top.kind.lapses = true → EndedBy p.mark.stop p.events

/-- Where content may start makes no difference to what was reported. -/
theorem Steady.again (h : Steady limit start pos p) (acs : Bool) :
    Steady limit start pos { p with atContentStart := acs } :=
  ⟨⟨h.trace, h.ended, h.poised, h.rooted⟩, h.marked, h.clean, h.lapse⟩

theorem Ready.tried (h : Ready limit start pos p) (ht : Tried limit pos ms p p') :
    Ready limit start pos p' := by
  refine ⟨?_, ht.events ▸ h.ended, ht.poised, ?_⟩
  · rw [ht.events, ht.stack]
    exact h.trace
  · rw [Rooted, ht.stack]
    exact h.rooted

theorem Ready.accepted (h : Ready limit start pos p)
    (ha : Accepted m limit pos pos' p p' lead rest) :
    Trace limit start p'.events p'.stack ∧ Rooted p' := by
  obtain ⟨he, hs, _⟩ := ha.kept
  rw [Rooted, he, hs]
  exact ⟨h.trace, h.rooted⟩

theorem Ready.settled (h : Ready limit start pos p)
    (ha : Accepted m limit pos pos' p p' lead rest) (hm : m.moves = true) :
    Settled limit start pos' p' := by
  obtain ⟨htrace, hrooted⟩ := h.accepted ha
  obtain ⟨hn, haway, _⟩ := ha.moves h.poised hm
  obtain ⟨_, _, hmark⟩ := ha.moved hn
  refine ⟨⟨htrace, ?_, hmark ▸ haway⟩, hmark, ha.poised, ha.clean hn, hrooted⟩
  rw [ha.kept.1, hmark]
  exact h.ended.mono ha.le

theorem Ready.opening (h : Ready limit start pos p)
    (ha : Accepted m limit pos pos' p p' lead rest) (hm : m.firm = true) :
    Opening limit start p' := by
  obtain ⟨hfill, hn⟩ := ha.firm h.poised hm
  obtain ⟨hstart, _, _⟩ := ha.moved hn
  refine ⟨(h.accepted ha).1, ?_, hfill⟩
  rw [ha.kept.1]
  exact h.ended.mono hstart

namespace Settled

theorem ready (h : Settled limit start pos p) : Ready limit start pos p :=
  ⟨h.trace, h.mark ▸ h.ended, h.poised, h.rooted⟩

theorem steady (h : Settled limit start pos p) : Steady limit start pos p :=
  ⟨h.ready, Nat.le_of_eq h.mark, h.clean, fun _ => h.ended⟩

theorem tried (h : Settled limit start pos p) (ht : Tried limit pos ms p p')
    (plain : ∀ m ∈ ms, m.plain = true) : Settled limit start pos p' := by
  obtain ⟨htrace, _, _, hrooted⟩ := h.ready.tried ht
  refine ⟨⟨htrace, ?_, ht.mark ▸ h.away⟩, ht.mark ▸ h.mark, ht.poised, ht.clean plain h.clean,
    hrooted⟩
  rw [ht.events, ht.mark]
  exact h.ended

/-- Actions after which all has ended leave the cursor and the mark where they are. -/
theorem performed (h : Settled limit start pos p)
    (hc : Closing limit start (p.perform actions)) :
    Settled limit start pos (p.perform actions) := by
  refine ⟨hc, ?_, ?_, ?_, h.rooted.perform actions⟩
  · rw [perform_mark]
    exact h.mark
  · rw [perform_stream]
    exact h.poised
  · rw [perform_stream]
    exact h.clean

theorem perform (h : Settled limit start pos p) (ha : actions.all Action.closes = true) :
    Settled limit start pos (p.perform actions) :=
  h.performed (h.toClosing.perform ha)

end Settled

theorem Ready.performed (h : Ready limit start pos p)
    (ha : Accepted m limit pos pos' p p' lead rest) (hm : m.moves = true)
    (hacc : Rule.accords m actions = true) : Settled limit start pos' (p'.perform actions) := by
  have hs := h.settled ha hm
  simp only [Rule.accords, Bool.and_eq_true, Bool.or_eq_true] at hacc
  obtain ⟨⟨_, horder⟩, hfirm | hclose⟩ := hacc
  · exact hs.performed ((h.opening ha hfirm).perform horder)
  · exact hs.perform hclose

theorem Settled.proceeds (h : Settled limit start pos p) (hr : rule.sound = true)
    (hp : Proceeds limit pos rule p p') : ∃ pos', pos ≤ pos' ∧ Settled limit start pos' p' := by
  simp only [Rule.sound, Bool.and_eq_true, List.all_eq_true] at hr
  obtain ⟨⟨_, hother⟩, hnext⟩ := hr
  cases hp with
  | onward next listed p₁ p₂ ms plain ht ha result =>
    obtain ⟨⟨_, hm⟩, hacc⟩ := hnext next listed
    exact ⟨_, ha.le, result ▸ (h.tried ht plain).ready.performed ha hm hacc⟩
  | otherwise p₁ ms plain ht result =>
    exact ⟨pos, Nat.le_refl _,
      result ▸ (h.tried ht plain).perform (List.all_eq_true.mpr hother)⟩

/-- After a match of a rule that takes some token. -/
theorem Ready.follow (h : Ready limit start pos p) (hr : rule.sound = true)
    (ha : Accepted rule.pattern limit pos pos' p p' lead rest) (hm : rule.pattern.moves = true) :
    ∃ pos'', pos ≤ pos'' ∧ Settled limit start pos'' (p'.follow rule) := by
  cases follow_cases hr ha.poised with
  | short _ result =>
    rw [result]
    exact ⟨pos', ha.le, h.settled ha hm⟩
  | full hp =>
    have hacc : Rule.accords rule.pattern rule.actions = true := by
      simp only [Rule.sound, Bool.and_eq_true] at hr
      exact hr.1.1
    obtain ⟨pos'', hle, hs⟩ := (h.performed ha hm hacc).proceeds hr hp
    exact ⟨pos'', Nat.le_trans ha.le hle, hs⟩

/-- A rule that always matches is found if no other is. -/
theorem tryRules_broken (hb : Rule.broken ∈ rules) (p : Parser) : (p.tryRules rules).1 = true := by
  induction rules generalizing p with
  | nil => cases hb
  | cons rule rules ih =>
    simp only [tryRules]
    split
    · rfl
    · rename_i p' hacc
      rcases List.mem_cons.mp hb with rfl | hb
      · cases hacc
      · exact ih hb p'

/-- A link ends before a blank. -/
theorem tryRules_inLink {p : Parser} (hk : p.stream.fetch.1.kind = .whitespace) :
    (p.tryRules Rule.inLink).1 = true := by
  have hrun : ((Matcher.look (Matcher.any
      [.kind .whitespace, .symbol ']', .symbol ')', .symbol '\x7d'])).run p.stream).1 = true := by
    simp [Matcher.run, Matcher.any, Matcher.one, hk]
  simp only [Rule.inLink, tryRules, accept]
  split
  · rfl
  · rename_i hacc
    split at hacc
    · cases hacc
    · rename_i hr
      rw [hr] at hrun
      cases hrun

/-- Of the constructs that lapse, links alone leave tokens that nothing wants. -/
theorem unmatched_link {p p' : Parser} (hl : inside.lapses = true)
    (hu : p.tryRules (Rule.within inside acs) = (false, p')) : inside = .link := by
  have hbroken (hb : Rule.broken ∈ Rule.within inside acs) : False := by
    have := tryRules_broken hb p
    rw [hu] at this
    cases this
  cases inside <;> try cases hl
  · rfl
  · exact (hbroken (by simp [Rule.within, Rule.inMathChain, Construct.holdsContent,
      Construct.holdsMath, Construct.holdsCode])).elim
  · exact (hbroken (by simp [Rule.within, Rule.inCodeChain, Construct.holdsContent,
      Construct.holdsMath, Construct.holdsCode])).elim

/-- A token that nothing wants has a range if the innermost frame may end without a token. -/
theorem loose_kept {p₁ p₂ : Parser} (hl : inside.lapses = true) (hclean : Clean p₂.stream)
    (hu : p₁.tryRules (Rule.within inside acs) = (false, p₂))
    (ht : ∃ n, ahead p₂.stream = ahead p₁.stream ++ List.replicate n (Token.ending limit)) :
    p₂.stream.fetch.1.discarded = false := by
  obtain rfl := unmatched_link hl hu
  cases ha : ahead p₂.stream with
  | nil =>
    rw [(fetch_of_end ha).1]
    rfl
  | cons token rest =>
    rw [(fetch_of_ahead ha).1]
    cases hd : token.discarded with
    | false => rfl
    | true =>
      have hblank := hclean token (by simp [ha]) hd
      obtain ⟨n, hn⟩ := ht
      have hk : p₁.stream.fetch.1.kind = .whitespace := by
        cases h₁ : ahead p₁.stream with
        | nil =>
          rw [ha, h₁, List.nil_append] at hn
          have := List.eq_of_mem_replicate (hn ▸ List.mem_cons_self : token ∈ _)
          rw [this] at hd
          cases hd
        | cons first more =>
          rw [ha, h₁, List.cons_append, List.cons.injEq] at hn
          rw [(fetch_of_ahead h₁).1, ← hn.1]
          exact hblank
      have := tryRules_inLink hk
      change p₁.tryRules Rule.inLink = _ at hu
      rw [hu] at this
      cases this

theorem Ready.takeLoose (h : Ready limit start pos p) (hm : p.mark.stop ≤ pos)
    (hl : p.top.kind.lapses = true → p.stream.fetch.1.discarded = false) :
    ∃ pos', pos ≤ pos' ∧ Steady limit start pos' (p.takeLoose p.top) := by
  obtain ⟨below, hs⟩ := h.rooted.stack_eq
  obtain ⟨hpos, hpoised, hclean⟩ := h.poised.fetch
  rcases hf : p.stream.fetch with ⟨token, after⟩
  rw [hf] at hpos hpoised hclean hl
  have htok := Token.start_le_stop token
  have hended : EndedBy token.stop (.loose token p.top :: p.events) :=
    endedBy_cons.mpr ⟨Nat.le_refl _, h.ended.mono (hpos ▸ htok)⟩
  have hcover : (p.mark.cover [token]).stop = token.stop := by
    have htiles : Tiles token.start [token] token.stop := ⟨rfl, rfl⟩
    exact (Mark.cover_range p.mark htiles (List.cons_ne_nil _ _)).2.2
  have htrace : Trace limit start (.loose token p.top :: p.events) p.stack := by
    rw [hs]
    exact .loose (hs ▸ h.trace) (hpos ▸ h.ended)
  have htop : (p.takeLoose p.top).top = p.top := by simp only [top, Parser.takeLoose, report]
  refine ⟨token.stop, hpos ▸ htok, ⟨?_, ?_, ?_, h.rooted⟩, ?_, ?_, ?_⟩
  · simpa only [Parser.takeLoose, hf, report] using htrace
  · simpa only [Parser.takeLoose, hf, report] using hended
  · simpa only [Parser.takeLoose, hf, report] using hpoised
  · simp only [Parser.takeLoose, hf, report]
    split
    · exact Nat.le_trans hm (hpos ▸ htok)
    · exact Nat.le_of_eq hcover
  · simpa only [Parser.takeLoose, hf, report] using hclean
  · intro hlapse
    rw [htop] at hlapse
    have hd : token.discarded = false := hl hlapse
    simp only [Parser.takeLoose, hf, report, hd, Bool.false_eq_true, ↓reduceIte]
    rw [hcover]
    exact hended

/-- The innermost frame ends without a token of its own. -/
theorem Steady.lapsed (h : Steady limit start pos p) (hl : p.top.kind.lapses = true)
    (ha : Accepted m limit pos pos' p p' lead rest) : Steady limit start pos' p'.pop := by
  obtain ⟨he, hs, _⟩ := ha.kept
  have hmark : p'.mark.stop ≤ pos' ∧ EndedBy p'.mark.stop p'.events ∧ Clean p'.stream := by
    by_cases hn : lead ++ rest = []
    · obtain ⟨hmark, rfl, n, hall⟩ := ha.still hn
      rw [hmark, he]
      refine ⟨h.marked, h.lapse hl, fun t ht hd => ?_⟩
      rw [hall] at ht
      rcases List.mem_append.mp ht with ht | ht
      · exact h.clean t ht hd
      · rw [List.eq_of_mem_replicate ht] at hd
        cases hd
    · obtain ⟨_, _, hmark⟩ := ha.moved hn
      rw [hmark, he]
      exact ⟨Nat.le_refl _, h.ended.mono ha.le, ha.clean hn⟩
  obtain ⟨hle, hended, hclean⟩ := hmark
  have htop : p'.top = p.top := by simp only [top, hs]
  obtain ⟨htrace, hrooted⟩ := h.accepted ha
  obtain ⟨hpop, hend⟩ := pop_trace htrace hended (.inr (.inl (htop ▸ hl)))
  refine ⟨⟨hpop, hend.mono hle, ?_, hrooted.pop⟩, ?_, ?_, ?_⟩
  · rw [pop_stream]
    exact ha.poised
  · rw [pop_mark]
    exact hle
  · rw [pop_stream]
    exact hclean
  · rw [pop_mark]
    exact fun _ => hend

theorem Steady.tried (h : Steady limit start pos p) (ht : Tried limit pos ms p p')
    (plain : ∀ m ∈ ms, m.plain = true) : Steady limit start pos p' := by
  refine ⟨h.toReady.tried ht, ht.mark ▸ h.marked, ht.clean plain h.clean, fun hl => ?_⟩
  rw [ht.events, ht.mark]
  exact h.lapse (ht.top ▸ hl)

theorem within_plain (hl : inside.lapses = true) :
    ∀ rule ∈ Rule.within inside acs, rule.pattern.plain = true := by
  apply List.all_eq_true.mp
  cases inside <;> cases hl <;> cases acs <;> decide

theorem step_steady (h : Steady limit start pos p) :
    ∃ pos', pos ≤ pos' ∧ Steady limit start pos' p.step := by
  cases step_round h.poised with
  | line kind p₁ ha acs result =>
    have hs : Settled limit start _ (p₁.perform [.pop]) := (h.toReady.settled ha rfl).perform rfl
    rw [result]
    exact ⟨_, ha.le, hs.steady.again acs⟩
  | rule acs rule listed p₁ p₂ ms ht plain ha result =>
    rw [result]
    have hcases := Rule.within_moves p.top.kind acs rule listed
    rw [Bool.or_eq_true, Bool.and_eq_true] at hcases
    rcases hcases with hm | ⟨hl, hends⟩
    · obtain ⟨pos', hle, hs⟩ :=
        (h.toReady.tried ht).follow (Rule.within_sound _ _ rule listed) ha hm
      exact ⟨pos', hle, hs.steady⟩
    · rw [follow_ends p₂ hends]
      have hs := h.tried ht (plain (within_plain hl))
      exact ⟨_, ha.le, hs.lapsed (ht.top ▸ hl) ha⟩
  | loose acs p₁ p₂ ms ht plain unmatched ht' result =>
    have h₁ := h.tried ht plain
    have h₂ := h₁.toReady.tried ht'
    have htop : p₂.top = p.top := ht'.top.trans ht.top
    rw [result, ← htop]
    refine h₂.takeLoose (ht'.mark ▸ h₁.marked) (fun hl => ?_)
    have hp : ∀ m ∈ (Rule.within p.top.kind acs).map Rule.pattern, m.plain = true := by
      intro m hm
      obtain ⟨rule, hr, rfl⟩ := List.mem_map.mp hm
      exact within_plain (htop ▸ hl) rule hr
    exact loose_kept (htop ▸ hl) (ht'.clean hp h₁.clean) unmatched (ht'.ahead hp)

theorem rounds_steady (h : Steady limit start pos p) (fuel : Nat) :
    ∃ pos', Steady limit start pos' (rounds fuel p) := by
  induction fuel generalizing pos p with
  | zero => exact ⟨pos, h⟩
  | succ fuel ih =>
    simp only [rounds]
    split
    · exact ⟨pos, h⟩
    · obtain ⟨pos', _, hs⟩ := step_steady h
      exact ih hs

end LineMarkup.Parser

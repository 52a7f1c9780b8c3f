import LineMarkup.Proofs.Parser.Action

namespace LineMarkup.Parser

/-- All that was reported has ended where the mark ends, so that frames can end there too. -/
structure Closing (limit : Nat) (start : List Frame) (p : Parser) : Prop where
  trace : Trace limit start p.events p.stack
  ended : EndedBy p.mark.stop p.events
  away : 0 < p.mark.stop ∨ limit = 0

/-- A construct can begin with the mark. -/
structure Opening (limit : Nat) (start : List Frame) (p : Parser) : Prop where
  trace : Trace limit start p.events p.stack
  before : EndedBy p.mark.start p.events
  filled : p.mark.start < p.mark.stop

theorem Opening.closing (h : Opening limit start p) : Closing limit start p :=
  ⟨h.trace, h.before.mono (Nat.le_of_lt h.filled), .inl (Nat.zero_lt_of_lt h.filled)⟩

theorem Opening.push (h : Opening limit start p) (kind : Construct) :
    Closing limit start (p.push kind) := by
  have hc := h.closing
  exact ⟨.push h.trace rfl h.filled hc.ended (.clear h.before),
    endedBy_cons.mpr ⟨Nat.le_refl _, hc.ended⟩, hc.away⟩

theorem Opening.instant (h : Opening limit start p) (kind : Construct) :
    Closing limit start (p.instant kind) := by
  have hc := h.closing
  exact ⟨.instant h.trace h.filled h.before, endedBy_cons.mpr ⟨Nat.le_refl _, hc.ended⟩, hc.away⟩

/-- Math begins together with its delimiter. -/
theorem Opening.math (h : Opening limit start p) :
    Closing limit start ((p.instant .mathDelimiter).push .math) := by
  have hc := h.instant .mathDelimiter
  exact ⟨.push hc.trace rfl h.filled hc.ended (.math rfl rfl rfl h.before),
    endedBy_cons.mpr ⟨Nat.le_refl _, hc.ended⟩, hc.away⟩

/-- The innermost frame ends where the mark ends. -/
theorem pop_trace {p : Parser} (ht : Trace limit start p.events p.stack)
    (he : EndedBy p.mark.stop p.events)
    (hf : 0 < p.mark.stop ∨ p.top.kind.lapses = true ∨ limit = 0) :
    Trace limit start p.pop.events p.pop.stack ∧ EndedBy p.mark.stop p.pop.events := by
  unfold pop
  split
  · rename_i frame below rest hs
    rw [hs] at ht
    have htop : p.top = frame := by simp [top, hs]
    rw [htop] at hf
    refine ⟨.pop ht (ht.frames_le he frame List.mem_cons_self) ?_ he,
      endedBy_cons.mpr ⟨Nat.le_refl _, he⟩⟩
    rcases ht.frames_filled he frame List.mem_cons_self with hlt | hb
    · exact .inl hlt
    · rwa [ht.frames_before frame hb]
  · exact ⟨ht, he⟩

namespace Closing

theorem pop (h : Closing limit start p) : Closing limit start p.pop := by
  have hf : 0 < p.mark.stop ∨ p.top.kind.lapses = true ∨ limit = 0 :=
    h.away.imp_right .inr
  obtain ⟨ht, he⟩ := pop_trace h.trace h.ended hf
  exact ⟨ht, (pop_mark p).symm ▸ he, (pop_mark p).symm ▸ h.away⟩

theorem act (h : Closing limit start p) (ha : action.closes = true) :
    Closing limit start (p.act action) := by
  cases action with
  | push | instant => cases ha
  | pop => exact h.pop
  | startContent => exact ⟨h.trace, h.ended, h.away⟩
  | popMath => exact popMath_induction (fun _ h => h.pop) h

theorem perform (h : Closing limit start p) (ha : actions.all Action.closes = true) :
    Closing limit start (p.perform actions) :=
  perform_induction (fun action hm _ h => h.act (List.all_eq_true.mp ha action hm)) h

end Closing

theorem Opening.perform (h : Opening limit start p) (ha : Action.orderly actions = true) :
    Closing limit start (p.perform actions) := by
  unfold Action.orderly at ha
  split at ha
  · exact h.math.perform ha
  · exact (h.push _).perform ha
  · exact (h.instant _).perform ha
  · exact h.closing.perform ha

end LineMarkup.Parser

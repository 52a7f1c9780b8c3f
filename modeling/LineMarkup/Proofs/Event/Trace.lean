import LineMarkup.Event

namespace LineMarkup

namespace Construct

/-- Ends without a token of its own: the next one only shows that it has ended. -/
def lapses : Construct → Bool
  | .link | .mathChain | .codeChain => true
  | _ => false

end Construct

namespace Event

def start : Event → Nat
  | .push frame _ | .pop frame _ _ | .instant frame _ => frame.start
  | .loose token _ => token.start

def stop : Event → Nat
  | .push _ stop | .pop _ stop _ | .instant _ stop => stop
  | .loose token _ => token.stop

/-- Whether something begins at the start of the event. A pop only ends what began before. -/
def begins : Event → Bool
  | .pop _ _ _ => false
  | _ => true

/-- The delimiter of math is the one event that does not end before the next begins. -/
def isDelimiter : Event → Bool
  | .instant frame _ => frame.kind = .mathDelimiter
  | _ => false

/-- The range of what an event completes. -/
def range? : Event → Option (Nat × Nat)
  | .push _ _ => none
  | .pop frame stop _ | .instant frame stop => some (frame.start, stop)
  | .loose token _ => some (token.start, token.stop)

/-- All that an event spans. -/
def extent (e : Event) : Nat × Nat :=
  (e.start, e.stop)

theorem extent_of_range {e : Event} (h : e.range? = some r) : r = e.extent := by
  cases e <;> simp only [range?, Option.some.injEq, reduceCtorEq] at h <;> exact h.symm

/-- The stack after an event, the innermost frame first. A pop has to name the innermost frame, and
so has a loose token. -/
def replay? (stack : List Frame) : Event → Option (List Frame)
  | .push frame _ => some (frame :: stack)
  | .pop frame _ _ => if stack.head? = some frame then some stack.tail else none
  | .instant _ _ => some stack
  | .loose _ frame => if stack.head? = some frame then some stack else none

def replayAll? (stack : List Frame) (events : List Event) : Option (List Frame) :=
  events.foldlM replay? stack

end Event

/-- One range ends before the other begins, or one holds the other. -/
def Laminar (a b : Nat × Nat) : Prop :=
  a.2 ≤ b.1 ∨ b.2 ≤ a.1 ∨ (a.1 ≤ b.1 ∧ b.2 ≤ a.2) ∨ (b.1 ≤ a.1 ∧ a.2 ≤ b.2)

theorem Laminar.symm (h : Laminar a b) : Laminar b a := by
  rcases h with h | h | h | h
  · exact .inr (.inl h)
  · exact .inl h
  · exact .inr (.inr (.inr h))
  · exact .inr (.inr (.inl h))

def EndedBy (pos : Nat) (events : List Event) : Prop :=
  ∀ e ∈ events, e.stop ≤ pos

theorem EndedBy.mono (h : EndedBy pos events) (hp : pos ≤ pos') : EndedBy pos' events :=
  fun e he => Nat.le_trans (h e he) hp

theorem endedBy_cons : EndedBy pos (e :: events) ↔ e.stop ≤ pos ∧ EndedBy pos events :=
  List.forall_mem_cons

/-- An event begins where all before it has ended. Only math begins together with the delimiter that
is met just before. Of the events before, the latest is the first. -/
inductive BeginsAfter : Event → List Event → Prop
  | clear (ended : EndedBy event.start earlier) : BeginsAfter event earlier
  | math (kind : frame.kind = .math) (mark : delimiter.kind = .mathDelimiter)
      (start : delimiter.start = frame.start) (ended : EndedBy frame.start earlier) :
      BeginsAfter (.push frame stop) (.instant delimiter stop' :: earlier)

/-- An event that begins something lies after all before it, or it is math with its delimiter. -/
theorem BeginsAfter.laminar (h : BeginsAfter e earlier) (hm : e' ∈ earlier) :
    Laminar e.extent e'.extent := by
  cases h with
  | clear ended => exact .inr (.inl (ended e' hm))
  | math _ _ hs ended =>
    rcases List.mem_cons.mp hm with rfl | hm
    · simp only [Laminar, Event.extent, Event.start, Event.stop, hs]
      omega
    · exact .inr (.inl (ended e' hm))

/-- But for the delimiter of math, all has ended before anything begins. -/
theorem BeginsAfter.ended (h : BeginsAfter event es) (he : e ∈ es) (hd : e.isDelimiter = false) :
    e.stop ≤ event.start := by
  cases h with
  | clear hb => exact hb e he
  | math _ mark _ hb =>
    rcases List.mem_cons.mp he with rfl | he
    · simp [Event.isDelimiter, mark] at hd
    · exact hb e he

/-- Events, the latest first, that lead from the frames `start`, which were opened before the text,
to those of the last argument. In a text of size `limit` a frame ends at its start only if the text
is empty or the frame lapses. -/
inductive Trace (limit : Nat) (start : List Frame) : List Event → List Frame → Prop
  | nil (before : ∀ f ∈ start, f.start = 0) : Trace limit start [] start
  | push (trace : Trace limit start es stack) (new : frame.carried = false)
      (filled : frame.start < stop) (ended : EndedBy stop es)
      (begins : BeginsAfter (.push frame stop) es) :
      Trace limit start (.push frame stop :: es) (frame :: stack)
  | pop (trace : Trace limit start es (frame :: stack)) (within : frame.start ≤ stop)
      (filled : frame.start < stop ∨ frame.kind.lapses = true ∨ limit = 0)
      (ended : EndedBy stop es) : Trace limit start (.pop frame stop implicit :: es) stack
  | instant (trace : Trace limit start es stack) (filled : frame.start < stop)
      (begins : EndedBy frame.start es) : Trace limit start (.instant frame stop :: es) stack
  | loose (trace : Trace limit start es (frame :: stack)) (begins : EndedBy token.start es) :
      Trace limit start (.loose token frame :: es) (frame :: stack)

namespace Trace

theorem replayAll (h : Trace limit start es stack) :
    Event.replayAll? start es.reverse = some stack := by
  induction h with
  | nil => rfl
  | push _ _ _ _ _ ih | pop _ _ _ _ ih | instant _ _ _ ih | loose _ _ ih =>
    rw [Event.replayAll?] at ih ⊢
    rw [List.reverse_cons, List.foldlM_append, ih]
    simp [Event.replay?]

theorem start_le_stop (h : Trace limit start es stack) : ∀ e ∈ es, e.start ≤ e.stop := by
  induction h with
  | nil => simp
  | push _ _ hf _ _ ih | instant _ hf _ ih =>
    exact List.forall_mem_cons.mpr ⟨Nat.le_of_lt hf, ih⟩
  | pop _ hw _ _ ih => exact List.forall_mem_cons.mpr ⟨hw, ih⟩
  | loose _ _ ih => exact List.forall_mem_cons.mpr ⟨Nat.le_add_right _ _, ih⟩

/-- The ends never go back. -/
theorem stops (h : Trace limit start es stack) :
    es.Pairwise (fun later earlier => earlier.stop ≤ later.stop) := by
  induction h with
  | nil => exact .nil
  | push _ _ _ he _ ih | pop _ _ _ he ih => exact .cons he ih
  | instant _ hf hb ih => exact .cons (hb.mono (Nat.le_of_lt hf)) ih
  | loose _ hb ih => exact .cons (hb.mono (Nat.le_add_right _ _)) ih

theorem beginsAfter (h : Trace limit start (later ++ e :: earlier) stack)
    (hb : e.begins = true) : BeginsAfter e earlier := by
  induction later generalizing stack with
  | nil =>
    cases h with
    | push _ _ _ _ hb => exact hb
    | pop => cases hb
    | instant _ _ hb | loose _ hb => exact .clear hb
  | cons _ later ih => cases h <;> exact ih (by assumption)

theorem frames_before (h : Trace limit start es stack) : ∀ f ∈ start, f.start = 0 := by
  induction h with
  | nil h0 => exact h0
  | _ => assumption

/-- Open frames have some text before any position where all has ended, but for those from before
the text. -/
theorem frames_filled (h : Trace limit start es stack) (he : EndedBy pos es) :
    ∀ f ∈ stack, f.start < pos ∨ f ∈ start := by
  induction h with
  | nil => exact fun f hf => .inr hf
  | push _ _ hf _ _ ih =>
    obtain ⟨hs, he⟩ := endedBy_cons.mp he
    exact List.forall_mem_cons.mpr ⟨.inl (Nat.lt_of_lt_of_le hf hs), ih he⟩
  | pop _ _ _ _ ih => exact fun f hf => ih (endedBy_cons.mp he).2 f (List.mem_cons_of_mem _ hf)
  | instant _ _ _ ih | loose _ _ ih => exact ih (endedBy_cons.mp he).2

/-- Open frames are from before the text, or have been pushed. -/
theorem frames_pushed (h : Trace limit start es stack) :
    ∀ f ∈ stack, f ∈ start ∨ ∃ stop : Nat, .push f stop ∈ es ∧ f.start < stop := by
  induction h with
  | nil => exact fun f hf => .inl hf
  | push _ _ hf _ _ ih =>
    refine List.forall_mem_cons.mpr ⟨.inr ⟨_, List.mem_cons_self, hf⟩, fun f hm => ?_⟩
    exact (ih f hm).imp_right (fun ⟨stop, hp, hlt⟩ => ⟨stop, List.mem_cons_of_mem _ hp, hlt⟩)
  | pop _ _ _ _ ih =>
    intro f hm
    exact (ih f (List.mem_cons_of_mem _ hm)).imp_right
      (fun ⟨stop, hp, hlt⟩ => ⟨stop, List.mem_cons_of_mem _ hp, hlt⟩)
  | instant _ _ _ ih | loose _ _ ih =>
    intro f hm
    exact (ih f hm).imp_right
      (fun ⟨stop, hp, hlt⟩ => ⟨stop, List.mem_cons_of_mem _ hp, hlt⟩)

theorem frames_le (h : Trace limit start es stack) (he : EndedBy pos es) :
    ∀ f ∈ stack, f.start ≤ pos := by
  intro f hf
  rcases h.frames_filled he f hf with hlt | hb
  · exact Nat.le_of_lt hlt
  · exact h.frames_before f hb ▸ Nat.zero_le _

theorem frames_le_push (h : Trace limit start es stack)
    (hb : BeginsAfter (.push frame stop) es) : ∀ f ∈ stack, f.start ≤ frame.start := by
  cases hb with
  | clear he => exact h.frames_le he
  | math _ _ _ he =>
    cases h with
    | instant h _ _ => exact h.frames_le he

/-- Inner frames begin no earlier than outer ones. -/
theorem frames_nested (h : Trace limit start es stack) :
    stack.Pairwise (fun inner outer => outer.start ≤ inner.start) := by
  induction h with
  | nil h0 =>
    refine List.pairwise_of_forall_mem_list (fun a ha b hb => ?_)
    rw [h0 b hb]
    exact Nat.zero_le _
  | push h _ _ _ hb ih => exact .cons (h.frames_le_push hb) ih
  | pop _ _ _ _ ih => exact ih.tail
  | instant _ _ _ ih | loose _ _ ih => exact ih

/-- What was reported while a frame is open lies before the frame or inside of it. -/
theorem frames_apart (h : Trace limit start es stack) :
    ∀ f ∈ stack, ∀ e ∈ es, e.stop ≤ f.start ∨ f.start ≤ e.start := by
  induction h with
  | nil => simp
  | @push es frame stack stop h _ _ _ hb ih =>
    refine List.forall_mem_cons.mpr ⟨fun e he => ?_, fun f hf e he => ?_⟩
    · rcases List.mem_cons.mp he with rfl | he
      · exact .inr (Nat.le_refl _)
      · cases hb with
        | clear ended => exact .inl (ended e he)
        | math _ _ hs ended =>
          rcases List.mem_cons.mp he with rfl | he
          · exact .inr (Nat.le_of_eq hs.symm)
          · exact .inl (ended e he)
    · rcases List.mem_cons.mp he with rfl | he
      · exact .inr (h.frames_le_push hb f hf)
      · exact ih f hf e he
  | @pop es frame stack stop implicit h hw _ _ ih =>
    intro f hf e he
    rcases List.mem_cons.mp he with rfl | he
    · exact .inr ((List.pairwise_cons.mp (h.frames_nested)).1 f hf)
    · exact ih f (List.mem_cons_of_mem _ hf) e he
  | instant h _ hb ih | loose h hb ih =>
    intro f hf e he
    rcases List.mem_cons.mp he with rfl | he
    · exact .inr (h.frames_le hb f hf)
    · exact ih f hf e he

theorem extents_laminar (h : Trace limit start es stack) :
    es.Pairwise (fun later earlier => Laminar later.extent earlier.extent) := by
  induction h with
  | nil => exact .nil
  | push _ _ _ _ hb ih => exact .cons (fun _ he => hb.laminar he) ih
  | pop h _ _ ended ih =>
    refine .cons (fun e he => ?_) ih
    rcases h.frames_apart _ List.mem_cons_self e he with ha | hi
    · exact .inr (.inl ha)
    · exact .inr (.inr (.inl ⟨hi, ended e he⟩))
  | instant _ _ hb ih | loose _ hb ih => exact .cons (fun e he => .inr (.inl (hb e he))) ih

theorem laminar (h : Trace limit start es stack) :
    (es.filterMap Event.range?).Pairwise Laminar := by
  refine List.pairwise_filterMap.mpr (h.extents_laminar.imp fun hl a ha b hb => ?_)
  rwa [Event.extent_of_range ha, Event.extent_of_range hb]

end Trace

end LineMarkup

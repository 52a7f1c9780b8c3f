import LineMarkup.Proofs.Event.Trace
import LineMarkup.Span.Record

namespace LineMarkup

/-- The frame that a new span is recorded for. -/
def Event.recorded? : Event → Option Frame
  | .push frame _ => some frame
  | .instant frame _ =>
    if frame.kind = .codeVariable || frame.kind = .codeFunction then some frame else none
  | _ => none

theorem Event.recorded_eq (h : Event.recorded? e = some frame) :
    e.begins = true ∧ e.start = frame.start := by
  cases e with
  | push | instant => grind [Event.recorded?, Event.begins, Event.start]
  | pop | loose => cases h

namespace Span

/-- What stays the same for as long as a span is recorded. -/
def ident (span : Span) : Nat × Construct × Nat :=
  (span.id, span.kind, span.first)

namespace Record

variable {span : Span} {spans : List Span} {kind : Construct} {last : Nat} {implicit : Bool}

theorem closeInnermost_ident (spans : List Span) :
    (closeInnermost kind last implicit spans).map ident = spans.map ident := by
  induction spans with
  | nil => rfl
  | cons span rest ih =>
    simp only [closeInnermost]
    split
    · split <;> rfl
    · rw [List.map_cons, ih, List.map_cons]

/-- What is closed is the innermost open span. -/
theorem closeInnermost_unclosed (h : ∀ span ∈ (unclosed spans).head?, span.kind = kind) :
    unclosed (closeInnermost kind last implicit spans) = (unclosed spans).tail := by
  induction spans with
  | nil => rfl
  | cons span rest ih =>
    simp only [closeInnermost]
    by_cases ho : span.isOpen = true
    · have hk : span.kind = kind := by
        apply h
        simp [unclosed, ho]
      rw [if_pos ho, if_pos hk, unclosed, List.filter_cons_of_neg (by simp [isOpen]), unclosed,
        List.filter_cons_of_pos ho, List.tail_cons]
    · rw [if_neg ho, unclosed, List.filter_cons_of_neg ho, unclosed, List.filter_cons_of_neg ho]
      apply ih
      rwa [unclosed, List.filter_cons_of_neg ho] at h

/-- One span is closed, or none if the innermost open one is of another kind. -/
theorem closeInnermost_split (kind : Construct) (last : Nat) (implicit : Bool)
    (spans : List Span) :
    closeInnermost kind last implicit spans = spans ∨
      ∃ inner span outer, spans = inner ++ span :: outer ∧ span.isOpen = true ∧
        span.kind = kind ∧ closeInnermost kind last implicit spans =
          inner ++ { span with last := some last, implicit } :: outer := by
  induction spans with
  | nil => exact .inl rfl
  | cons span rest ih =>
    simp only [closeInnermost]
    split
    · rename_i ho
      split
      · rename_i hk
        exact .inr ⟨[], span, rest, rfl, ho, hk, rfl⟩
      · exact .inl rfl
    · rcases ih with heq | ⟨inner, closed, outer, rfl, ho, hk, heq⟩
      · exact .inl (congrArg _ heq)
      · exact .inr ⟨span :: inner, closed, outer, rfl, ho, hk, congrArg _ heq⟩

theorem mem_closeInnermost (h : span ∈ closeInnermost kind last implicit spans) :
    span ∈ spans ∨ span.last = some last := by
  rcases closeInnermost_split kind last implicit spans with
    heq | ⟨inner, closed, outer, rfl, _, _, heq⟩
  · exact .inl (heq ▸ h)
  · rw [heq, List.mem_append, List.mem_cons] at h
    rcases h with h | rfl | h
    · exact .inl (List.mem_append_left _ h)
    · exact .inr rfl
    · exact .inl (List.mem_append_right _ (List.mem_cons_of_mem _ h))

/-- What new spans are recorded as, from an id on. -/
def births (base : Nat) : Nat → List Frame → List (Nat × Construct × Nat)
  | _, [] => []
  | id, frame :: rest => (id, frame.kind, base + frame.start) :: births base (id + 1) rest

theorem births_append (base id : Nat) (a b : List Frame) :
    births base id (a ++ b) = births base id a ++ births base (id + a.length) b := by
  induction a generalizing id with
  | nil => rfl
  | cons frame a ih =>
    rw [List.cons_append, births, births, List.cons_append, ih, List.length_cons]
    congr 3
    omega

theorem births_ids (base id : Nat) (frames : List Frame) :
    (births base id frames).map (·.1) = List.range' id frames.length := by
  induction frames generalizing id with
  | nil => rfl
  | cons frame frames ih => simp [births, ih, List.range'_succ]

theorem births_firsts (base id : Nat) (frames : List Frame) :
    (births base id frames).map (·.2.2) = frames.map (base + ·.start) := by
  induction frames generalizing id with
  | nil => rfl
  | cons frame frames ih => simp [births, ih]

theorem see_base (r : Record) (e : Event) : (r.see e).base = r.base := by
  cases e with
  | instant =>
    simp only [see]
    split <;> rfl
  | _ => rfl

theorem seeAll_cons (r : Record) (e : Event) (events : List Event) :
    r.seeAll (e :: events) = (r.see e).seeAll events := rfl

theorem seeAll_append (r : Record) (a b : List Event) :
    r.seeAll (a ++ b) = (r.seeAll a).seeAll b :=
  List.foldl_append

theorem seeAll_base (r : Record) (events : List Event) : (r.seeAll events).base = r.base := by
  induction events generalizing r with
  | nil => rfl
  | cons e events ih => exact (ih (r.see e)).trans (see_base r e)

theorem see_nextId (r : Record) (e : Event) :
    (r.see e).nextId = r.nextId + e.recorded?.toList.length := by
  cases e with
  | instant frame stop =>
    simp only [see, Event.recorded?]
    split <;> rfl
  | _ => rfl

theorem see_ident (r : Record) (e : Event) :
    (r.see e).spans.map ident =
      births r.base r.nextId e.recorded?.toList ++ r.spans.map ident := by
  cases e with
  | push => rfl
  | pop => exact closeInnermost_ident r.spans
  | instant frame stop =>
    simp only [see, Event.recorded?]
    split <;> rfl
  | loose => rfl

theorem seeAll_nextId (r : Record) (events : List Event) :
    (r.seeAll events).nextId = r.nextId + (events.filterMap Event.recorded?).length := by
  induction events generalizing r with
  | nil => rfl
  | cons e events ih =>
    have := ih (r.see e)
    rw [see_nextId] at this
    rw [seeAll_cons, ← List.singleton_append, List.filterMap_append, List.length_append,
      ← Nat.add_assoc]
    cases he : e.recorded? <;> simpa [he] using this

/-- New spans come after those that were there, and none is lost. -/
theorem seeAll_ident (r : Record) (events : List Event) :
    (r.seeAll events).spans.map ident =
      (births r.base r.nextId (events.filterMap Event.recorded?)).reverse ++
        r.spans.map ident := by
  induction events generalizing r with
  | nil => rfl
  | cons e events ih =>
    have := ih (r.see e)
    rw [see_nextId, see_base, see_ident] at this
    rw [seeAll_cons, ← List.singleton_append, List.filterMap_append, births_append,
      List.reverse_append, List.append_assoc]
    cases he : e.recorded? <;> simpa [he, births] using this

end Record

end Span

end LineMarkup

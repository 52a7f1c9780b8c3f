import LineMarkup.Proofs.Parser.Nesting
import LineMarkup.Proofs.Span.Order

namespace LineMarkup

/-- The root frame was there before any frame that is opened in a text. -/
theorem Frame.getLast_of_push (hn : Frame.carried frame = false)
    (hr : (frame :: stack).getLast? = some Frame.root) : stack.getLast? = some Frame.root := by
  cases stack with
  | nil =>
    rw [List.getLast?_singleton, Option.some.injEq] at hr
    rw [hr] at hn
    cases hn
  | cons => rwa [List.getLast?_cons_cons] at hr

theorem Trace.earlier (h : Trace limit frames (later ++ es) stack)
    (hr : stack.getLast? = some Frame.root) :
    ∃ stack', Trace limit frames es stack' ∧ stack'.getLast? = some Frame.root := by
  induction later generalizing stack with
  | nil => exact ⟨stack, h, hr⟩
  | cons e later ih =>
    cases h with
    | push h hn _ _ _ => exact ih h (Frame.getLast_of_push hn hr)
    | pop h _ _ _ =>
      refine ih h ?_
      obtain ⟨below, rest, rfl⟩ : ∃ below rest, stack = below :: rest :=
        List.exists_cons_of_ne_nil (fun hn => by simp [hn] at hr)
      rwa [List.getLast?_cons_cons]
    | instant h _ _ => exact ih h hr
    | loose h _ => exact ih h hr

namespace Span

/-- The frames of a parse, the innermost first, each with the id of the span that is recorded for
it. There is none for the root frame. Ids from `nextId` on are unused. -/
structure Owners where
  stack : List (Frame × Option Nat)
  nextId : Nat

namespace Owners

def start (carried : List Span) (nextId : Nat) : Owners :=
  { stack := ((Frame.root, none) ::
      carried.map (fun span => (Frame.carriedOver span.kind, some span.id))).reverse
    nextId }

/-- Names get an id too, though they are never open. -/
def see (o : Owners) : Event → Owners
  | .push frame _ => { stack := (frame, some o.nextId) :: o.stack, nextId := o.nextId + 1 }
  | .pop _ _ _ => { o with stack := o.stack.tail }
  | .instant frame _ =>
    if frame.kind = .codeVariable || frame.kind = .codeFunction then
      { o with nextId := o.nextId + 1 }
    else o
  | .loose _ _ => o

def seeAll (o : Owners) (events : List Event) : Owners :=
  events.foldl see o

/-- The owners along events, the latest first. -/
def along (carried : List Span) (id : Nat) (es : List Event) : Owners :=
  (start carried id).seeAll es.reverse

variable {carried : List Span} {base id : Nat} {stack : List Frame}

theorem along_cons (carried : List Span) (id : Nat) (e : Event) (es : List Event) :
    along carried id (e :: es) = (along carried id es).see e := by
  rw [along, seeAll, List.reverse_cons, List.foldl_append]
  rfl

theorem along_nextId (carried : List Span) (base id : Nat) (es : List Event) :
    (along carried id es).nextId = (Record.along carried base id es).nextId := by
  induction es with
  | nil => rfl
  | cons e es ih =>
    rw [along_cons, Record.along_cons]
    cases e with
    | push => exact congrArg (· + 1) ih
    | pop | loose => exact ih
    | instant frame stop =>
      simp only [see, Record.see]
      split
      · exact congrArg (· + 1) ih
      · exact ih

/-- The owners have the frames of the parse. -/
theorem along_frames (h : Trace limit (Frame.around (carried.map kind)) es stack) (id : Nat) :
    (along carried id es).stack.map (·.1) = stack := by
  generalize hf : Frame.around (carried.map kind) = frames at h
  induction h with
  | nil => simp [along, seeAll, start, ← hf, Frame.around]
  | push _ _ _ _ _ ih =>
    rw [along_cons]
    exact congrArg (_ :: ·) ih
  | pop _ _ _ _ ih =>
    rw [along_cons]
    change (along carried id _).stack.tail.map _ = _
    rw [List.map_tail, ih, List.tail_cons]
  | instant _ _ _ ih =>
    rw [along_cons]
    simp only [see]
    split <;> exact ih
  | loose _ _ ih =>
    rw [along_cons]
    exact ih

/-- Any frame but the last one is an open span. -/
theorem innermost_kind {owners : List (Frame × Option Nat)} {spans : List Span}
    (hall : owners.map (fun owner => (owner.1.kind, owner.2)) =
      spans.map (fun span => (span.kind, some span.id)) ++ [bottom])
    (hframes : owners.map (·.1) = frame :: below :: rest) :
    ∃ span inner, spans = span :: inner ∧ span.kind = frame.kind := by
  obtain ⟨owner, outer, rfl, rfl, houter⟩ := List.map_eq_cons_iff.mp hframes
  obtain ⟨next, more, rfl, _⟩ := List.map_eq_cons_iff.mp houter
  cases spans with
  | nil => cases hall
  | cons span inner =>
    have hkinds : (owner.1.kind, owner.2) = (span.kind, some span.id) := (List.cons.inj hall).1
    exact ⟨span, inner, rfl, (Prod.mk.inj hkinds).1.symm⟩

/-- The open spans are the frames, but for the root frame. -/
theorem along_unclosed (h : Trace limit (Frame.around (carried.map kind)) es stack)
    (hr : stack.getLast? = some Frame.root) (ho : ∀ span ∈ carried, span.isOpen = true)
    (base id : Nat) :
    (along carried id es).stack.map (fun owner => (owner.1.kind, owner.2)) =
      (unclosed (Record.along carried base id es).spans).map (fun span => (span.kind, some span.id))
        ++ [(Frame.root.kind, none)] := by
  generalize hf : Frame.around (carried.map kind) = frames at h
  induction h with
  | nil =>
    have hall : unclosed carried.reverse = carried.reverse :=
      List.filter_eq_self.mpr (fun span hm => ho span (List.mem_reverse.mp hm))
    have hstart : (Record.along carried base id []).spans = carried.reverse := rfl
    rw [hstart, hall]
    simp [along, seeAll, start, Frame.carriedOver]
  | @push es stack frame stop h hn _ _ _ ih =>
    have := ih (Frame.getLast_of_push hn hr)
    rw [along_cons, Record.along_cons]
    simp only [see, Record.see, Record.add, unclosed]
    rw [List.map_cons, List.filter_cons_of_pos (by simp [isOpen]), List.map_cons, List.cons_append,
      this, along_nextId carried base]
    rfl
  | @pop es frame stack stop implicit h _ _ _ ih =>
    obtain ⟨below, rest, rfl⟩ : ∃ below rest, stack = below :: rest :=
      List.exists_cons_of_ne_nil (fun hn => by simp [hn] at hr)
    have hall := ih (by rwa [List.getLast?_cons_cons])
    have hk := innermost_kind hall (along_frames (hf ▸ h) id)
    rw [along_cons, Record.along_cons]
    change (along carried id es).stack.tail.map _ =
      (unclosed (Record.closeInnermost _ _ _ _)).map _ ++ _
    obtain ⟨span, inner, hu, hkind⟩ := hk
    rw [Record.closeInnermost_unclosed (by simp [hu, hkind]), List.map_tail, hall, hu]
    rfl
  | @instant es stack stop frame _ _ _ ih =>
    have := ih hr
    rw [along_cons, Record.along_cons]
    simp only [see, Record.see]
    split
    · simpa [Record.add, unclosed, isOpen] using this
    · exact this
  | loose _ _ ih =>
    rw [along_cons, Record.along_cons]
    exact ih hr

end Owners

end Span

end LineMarkup

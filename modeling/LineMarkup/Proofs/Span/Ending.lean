import LineMarkup.Proofs.Parser.Bracketing
import LineMarkup.Proofs.Span.Barren

namespace LineMarkup.Span

variable {carried : List Span} {base : Nat} {es : List Event} {span : Span}

/-- The event that a span has ended with. -/
inductive EndedAlong (base : Nat) (es : List Event) (span : Span) : Prop
  | met (frame : Frame) (stop : Nat) (event : .instant frame stop ∈ es)
      (name : frame.kind.isName = true) (kind : frame.kind = span.kind)
      (first : span.first = base + frame.start)
      (last : span.last = some (max (base + stop - 1) (base + frame.start)))
  | closed (frame : Frame) (stop : Nat) (event : .pop frame stop span.implicit ∈ es)
      (kind : frame.kind = span.kind)
      (last : span.last = some (max (base + stop - 1) (base + frame.start)))

theorem EndedAlong.more (h : EndedAlong base es span) (e : Event) :
    EndedAlong base (e :: es) span := by
  cases h with
  | met frame stop event name kind first last =>
    exact .met frame stop (List.mem_cons_of_mem _ event) name kind first last
  | closed frame stop event kind last =>
    exact .closed frame stop (List.mem_cons_of_mem _ event) kind last

namespace Record

/-- By induction on the events. A pop ends the one span that it closes, and a name is recorded with
its end. -/
theorem along_endedAlong (ho : ∀ span ∈ carried, span.isOpen = true) (id : Nat) :
    ∀ span ∈ (along carried base id es).spans, span.isOpen = false → EndedAlong base es span := by
  induction es with
  | nil =>
    intro span hs hended
    rw [ho span (List.mem_reverse.mp hs)] at hended
    cases hended
  | cons e es ih =>
    rw [along_cons]
    cases e with
    | push frame stop =>
      exact List.forall_mem_cons.mpr ⟨by simp [isOpen], fun span hs hended => (ih span hs hended).more _⟩
    | pop frame stop implicit =>
      intro span hs hended
      simp only [see] at hs
      rcases closeInnermost_split frame.kind ((along carried base id es).lastOf frame stop) implicit
          (along carried base id es).spans with heq | ⟨inner, closed, outer, hall, _, hk, heq⟩
      · exact (ih span (heq ▸ hs) hended).more _
      · rw [hall] at ih
        rw [heq] at hs
        rcases List.mem_append.mp hs with hs | hs
        · exact (ih span (List.mem_append_left _ hs) hended).more _
        · rcases List.mem_cons.mp hs with rfl | hs
          · refine .closed frame stop List.mem_cons_self hk.symm ?_
            rw [lastOf, along_base]
          · exact (ih span (List.mem_append_right _ (List.mem_cons_of_mem _ hs)) hended).more _
    | instant frame stop =>
      simp only [see]
      split
      · rename_i hname
        refine List.forall_mem_cons.mpr ⟨fun _ => ?_, fun span hs hended => (ih span hs hended).more _⟩
        refine .met frame stop List.mem_cons_self ?_ rfl ?_ ?_
        · simp only [Bool.or_eq_true, decide_eq_true_eq] at hname
          rcases hname with hname | hname <;> rw [hname] <;> rfl
        · rw [along_base]
        · rw [lastOf, along_base]
      · exact fun span hs hended => (ih span hs hended).more _
    | loose => exact fun span hs hended => (ih span hs hended).more _

/-- What has ended stays as it is. -/
theorem along_kept {id : Nat} (hs : span ∈ (along carried base id es).spans)
    (hended : span.isOpen = false) (later : List Event) :
    span ∈ (along carried base id (later ++ es)).spans := by
  induction later with
  | nil => exact hs
  | cons e later ih =>
    rw [List.cons_append, along_cons]
    cases e with
    | push frame stop => exact List.mem_cons_of_mem _ ih
    | pop frame stop implicit =>
      simp only [see]
      rcases closeInnermost_split frame.kind ((along carried base id (later ++ es)).lastOf frame stop)
          implicit (along carried base id (later ++ es)).spans with
        heq | ⟨inner, closed, outer, hall, hopen, _, heq⟩
      · rwa [heq]
      · rw [heq]
        rw [hall] at ih
        rcases List.mem_append.mp ih with hm | hm
        · exact List.mem_append_left _ hm
        · refine List.mem_append_right _ (List.mem_cons_of_mem _ ?_)
          refine (List.mem_cons.mp hm).resolve_left fun heq => ?_
          rw [heq, hopen] at hended
          cases hended
    | instant frame stop =>
      simp only [see]
      split
      · exact List.mem_cons_of_mem _ ih
      · exact ih
    | loose => exact ih

/-- A span is found to end without a mark of its own only when it ends. -/
theorem along_explicit (hc : ∀ span ∈ carried, span.implicit = false) (id : Nat) :
    ∀ span ∈ (along carried base id es).spans, span.isOpen = true → span.implicit = false := by
  induction es with
  | nil => exact fun span hs _ => hc span (List.mem_reverse.mp hs)
  | cons e es ih =>
    rw [along_cons]
    cases e with
    | push => exact List.forall_mem_cons.mpr ⟨fun _ => rfl, ih⟩
    | pop frame stop implicit =>
      intro span hs hopen
      rcases mem_closeInnermost hs with hs | hlast
      · exact ih span hs hopen
      · simp [isOpen, hlast] at hopen
    | instant frame stop =>
      simp only [see]
      split
      · exact List.forall_mem_cons.mpr ⟨by simp [isOpen], ih⟩
      · exact ih
    | loose => exact ih

/-- The innermost open span is closed by what names its kind. -/
theorem mem_closeInnermost_head {spans : List Span} {kind : Construct} (last : Nat)
    (implicit : Bool) (h : (unclosed spans).head? = some span) (hk : span.kind = kind) :
    { span with last := some last, implicit } ∈ closeInnermost kind last implicit spans := by
  induction spans with
  | nil => cases h
  | cons first rest ih =>
    simp only [closeInnermost]
    by_cases ho : first.isOpen = true
    · rw [unclosed, List.filter_cons_of_pos ho, List.head?_cons] at h
      obtain rfl := Option.some.inj h
      rw [if_pos ho, if_pos hk]
      exact List.mem_cons_self
    · rw [unclosed, List.filter_cons_of_neg ho] at h
      rw [if_neg ho]
      exact List.mem_cons_of_mem _ (ih h)

/-- A construct that is closed by the event right after the one that opened it. -/
theorem along_pair {frame : Frame} {stop last : Nat} {later earlier : List Event}
    (he : es = later ++ .pop frame last false :: .push frame stop :: earlier)
    (hlast : max (base + last - 1) (base + frame.start) = pos) (carried : List Span) (id : Nat) :
    ∃ span ∈ (along carried base id es).spans,
      span.kind = frame.kind ∧ span.first = base + frame.start ∧ span.last = some pos := by
  let span : Span :=
    { id := (along carried base id earlier).nextId
      kind := frame.kind
      first := base + frame.start
      last := some pos }
  have hm : span ∈
      (along carried base id (.pop frame last false :: .push frame stop :: earlier)).spans := by
    rw [along_cons, along_cons]
    simp [see, add, closeInnermost, isOpen, lastOf, along_base, span, hlast]
  exact ⟨span, he ▸ along_kept hm rfl later, rfl, rfl, rfl⟩

end Record

end LineMarkup.Span

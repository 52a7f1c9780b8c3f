import LineMarkup.Proofs.Span.Recording

namespace LineMarkup

namespace Trace

theorem recorded_filled (h : Trace limit start es stack) :
    ∀ e ∈ es, ∀ f, e.recorded? = some f → f.start < e.stop := by
  induction h with
  | nil => simp
  | push _ _ hf _ _ ih =>
    refine List.forall_mem_cons.mpr ⟨fun f hr => ?_, ih⟩
    obtain rfl := Option.some.inj hr
    exact hf
  | instant _ hf _ ih =>
    refine List.forall_mem_cons.mpr ⟨fun f hr => ?_, ih⟩
    rw [← (Event.recorded_eq hr).2]
    exact hf
  | pop _ _ _ _ ih | loose _ _ ih =>
    exact List.forall_mem_cons.mpr ⟨fun f hr => (by cases hr), ih⟩

/-- What is recorded begins before any position where all has ended. -/
theorem recorded_lt (h : Trace limit start es stack) (he : EndedBy pos es) :
    ∀ f ∈ es.filterMap Event.recorded?, f.start < pos := by
  intro f hf
  obtain ⟨e, hm, hr⟩ := List.mem_filterMap.mp hf
  exact Nat.lt_of_lt_of_le (h.recorded_filled e hm f hr) (he e hm)

/-- A delimiter of math is not recorded. -/
theorem recorded_before (h : Trace limit start es stack) (hb : BeginsAfter e es) :
    ∀ f ∈ es.filterMap Event.recorded?, f.start < e.start := by
  cases hb with
  | clear he => exact h.recorded_lt he
  | math _ hk _ he =>
    cases h with
    | instant h _ _ =>
      rw [List.filterMap_cons_none (by simp [Event.recorded?, hk])]
      exact h.recorded_lt he

theorem recorded_ascending (h : Trace limit start es stack) :
    (es.filterMap Event.recorded?).Pairwise (fun later earlier => earlier.start < later.start) := by
  induction h with
  | nil => exact .nil
  | push h _ _ _ hb ih => exact .cons (h.recorded_before hb) ih
  | pop _ _ _ _ ih | loose _ _ ih => exact ih
  | instant h hf hb ih =>
    rw [List.filterMap_cons]
    split
    · exact ih
    · rename_i hr
      exact .cons ((Event.recorded_eq hr).2 ▸ h.recorded_before (.clear hb)) ih

/-- Whatever is recorded after a loose token begins after it. -/
theorem recorded_after (h : Trace limit start (later ++ .loose token owner :: earlier) stack) :
    ∀ f ∈ later.filterMap Event.recorded?, token.stop ≤ f.start := by
  intro f hf
  obtain ⟨e, hm, hr⟩ := List.mem_filterMap.mp hf
  obtain ⟨hb, hstart⟩ := Event.recorded_eq hr
  obtain ⟨after, between, rfl⟩ := List.append_of_mem hm
  rw [List.append_assoc, List.cons_append] at h
  have hloose : .loose token owner ∈ between ++ .loose token owner :: earlier := by simp
  exact hstart ▸ (h.beginsAfter hb).ended hloose rfl

end Trace

namespace Span.Record

variable {carried : List Span} {base id : Nat}

/-- The record of a line along events, the latest first. -/
def along (carried : List Span) (base id : Nat) (es : List Event) : Record :=
  (start carried base id).seeAll es.reverse

theorem along_cons (carried : List Span) (base id : Nat) (e : Event) (es : List Event) :
    along carried base id (e :: es) = (along carried base id es).see e := by
  rw [along, List.reverse_cons, seeAll_append]
  rfl

theorem along_base (carried : List Span) (base id : Nat) (es : List Event) :
    (along carried base id es).base = base :=
  seeAll_base _ _

theorem along_ident (carried : List Span) (base id : Nat) (es : List Event) :
    (along carried base id es).spans.map ident =
      (births base id (es.filterMap Event.recorded?).reverse).reverse ++
        (carried.map ident).reverse := by
  rw [along, seeAll_ident, List.filterMap_reverse, start, List.map_reverse]

theorem along_firsts (carried : List Span) (base id : Nat) (es : List Event) :
    (along carried base id es).spans.map first =
      (es.filterMap Event.recorded?).map (base + ·.start) ++ (carried.map first).reverse := by
  have := congrArg (List.map (·.2.2)) (along_ident carried base id es)
  rw [List.map_append, List.map_reverse, births_firsts, List.map_reverse, List.reverse_reverse,
    List.map_reverse, List.map_map, List.map_map] at this
  exact this

/-- The spans of a line begin one after another. -/
theorem along_ascending (h : Trace limit frames es stack)
    (hc : carried.Pairwise (fun a b : Span => a.first < b.first))
    (hb : ∀ span ∈ carried, span.first < base) :
    (along carried base id es).spans.Pairwise
      (fun later earlier => earlier.first < later.first) := by
  rw [← List.pairwise_map (f := first) (R := fun later earlier => earlier < later), along_firsts]
  refine List.pairwise_append.mpr ⟨?_, ?_, ?_⟩
  · exact List.pairwise_map.mpr (h.recorded_ascending.imp (fun hlt => Nat.add_lt_add_left hlt base))
  · exact List.pairwise_reverse.mpr (List.pairwise_map.mpr hc)
  · intro a ha b hm
    obtain ⟨frame, _, rfl⟩ := List.mem_map.mp ha
    obtain ⟨span, hs, rfl⟩ := List.mem_map.mp (List.mem_reverse.mp hm)
    exact Nat.lt_add_right frame.start (hb span hs)

/-- Where a span may have ended. -/
structure Ended (limit base : Nat) (es : List Event) (first last : Nat) : Prop where
  filled : first ≤ last
  inside : base ≤ last
  ended : ∃ e ∈ es, last ≤ base + e.stop ∧ (0 < limit → last < base + e.stop)

theorem Ended.more {first last : Nat} (h : Ended limit base es first last) (e : Event) :
    Ended limit base (e :: es) first last := by
  obtain ⟨hf, hi, e', hm, hl⟩ := h
  exact ⟨hf, hi, e', List.mem_cons_of_mem _ hm, hl⟩

theorem lastOf_bounds (r : Record) (frame : Frame) (stop : Nat) :
    r.base + frame.start ≤ r.lastOf frame stop ∧ r.base + stop - 1 ≤ r.lastOf frame stop ∧
      (frame.start ≤ stop → r.lastOf frame stop ≤ r.base + stop) ∧
      (frame.start < stop → r.lastOf frame stop < r.base + stop) := by
  unfold lastOf
  omega

/-- A span of the line begins before any event that ends it. -/
theorem along_first_lt (h : Trace limit frames es stack)
    (hb : ∀ span ∈ carried, span.first < base) (he : EndedBy pos es) (id : Nat) :
    ∀ span ∈ (along carried base id es).spans, span.first < base + pos ∨ span.first < base := by
  intro span hs
  have hm := List.mem_map_of_mem (f := first) hs
  rw [along_firsts] at hm
  rcases List.mem_append.mp hm with hm | hm
  · obtain ⟨frame, hf, heq⟩ := List.mem_map.mp hm
    have := h.recorded_lt he frame hf
    omega
  · obtain ⟨old, ho, heq⟩ := List.mem_map.mp (List.mem_reverse.mp hm)
    have := hb old ho
    omega

/-- The last position that an event gives, whether it is a pop or a name. -/
theorem lastOf_ended {first : Nat} (hf : frame.start < stop ∨ limit = 0) (hw : frame.start ≤ stop)
    (hr : base = Record.base r) (hs : e.stop = stop)
    (hfirst : first < base + stop ∨ first < base) :
    Ended limit base (e :: es) first (r.lastOf frame stop) := by
  obtain ⟨hstart, hstop, hle, hlt⟩ := lastOf_bounds r frame stop
  have := hle hw
  refine ⟨by omega, by omega, e, List.mem_cons_self, by omega, fun hpos => ?_⟩
  have := hlt (by omega)
  omega

theorem along_ended (h : Trace limit frames es stack)
    (hl : ∀ f ∈ frames, f.kind.lapses = false)
    (ho : ∀ span ∈ carried, span.isOpen = true) (hb : ∀ span ∈ carried, span.first < base) :
    ∀ span ∈ (along carried base id es).spans, ∀ last, span.last = some last →
      Ended limit base es span.first last := by
  induction h with
  | nil =>
    intro span hs last hlast
    have := ho span (List.mem_reverse.mp hs)
    simp [isOpen, hlast] at this
  | push h _ hf _ _ ih =>
    rw [along_cons]
    intro span hs last hlast
    rcases List.mem_cons.mp hs with rfl | hs
    · cases hlast
    · exact (ih span hs last hlast).more _
  | @pop es frame stack stop implicit h hw hf he ih =>
    have hended : EndedBy stop (.pop frame stop implicit :: es) :=
      endedBy_cons.mpr ⟨Nat.le_refl _, he⟩
    have hfirst := along_first_lt (.pop h hw hf he) hb hended id
    rw [along_cons] at hfirst ⊢
    intro span hs last hlast
    rcases mem_closeInnermost hs with hs' | heq
    · exact (ih span hs' last hlast).more _
    · rw [heq, Option.some.injEq] at hlast
      rw [← hlast]
      refine lastOf_ended (e := .pop frame stop implicit) ?_ hw (along_base _ _ _ _).symm rfl
        (hfirst span hs)
      rcases h.frames_filled he frame List.mem_cons_self with hlt | hm
      · exact .inl hlt
      · exact hf.imp_right (fun h => h.resolve_left (by simp [hl frame hm]))
  | @instant es stack stop frame h hf _ ih =>
    rw [along_cons]
    intro span hs last hlast
    simp only [see] at hs
    split at hs
    · rcases List.mem_cons.mp hs with rfl | hs
      · obtain rfl := Option.some.inj hlast
        refine lastOf_ended (e := .instant frame stop) (.inl hf) (Nat.le_of_lt hf)
          (along_base _ _ _ _).symm rfl (.inl ?_)
        rw [along_base]
        exact Nat.add_lt_add_left hf base
      · exact (ih span hs last hlast).more _
    · exact (ih span hs last hlast).more _
  | loose _ _ ih =>
    rw [along_cons]
    exact fun span hs last hlast => (ih span hs last hlast).more _

end Span.Record

end LineMarkup

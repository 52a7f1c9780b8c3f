import LineMarkup.Proofs.Parser.Bracketing
import LineMarkup.Proofs.Span.Ending
import LineMarkup.Proofs.Span.Mirror

namespace LineMarkup

/-- The event changes nothing of what is in effect at a position, but for constructs of the kinds in
`light`. -/
def Event.Spares (light : Construct → Bool) (pos : Nat) : Event → Prop
  | .push frame _ => light frame.kind = true ∨ pos ≤ frame.start
  | .pop frame stop _ => light frame.kind = true ∨ pos < stop ∨ pos ≤ frame.start
  | .instant frame _ => light frame.kind = true ∨ pos ≤ frame.start ∨ frame.kind.isName = false
  | .loose _ _ => True

namespace Span

variable {carried spans : List Span} {base limit edge id pos : Nat} {frames stack : List Frame}
  {later earlier es : List Event} {light : Construct → Bool} {span : Span}

/-- Where a span begins, and whether it is in effect at a position and of no light kind. -/
def bears (light : Construct → Bool) (pos : Nat) (span : Span) : (Construct × Nat) × Bool :=
  ((span.kind, span.first), holds pos span && !light span.kind)

namespace Record

theorem closeInnermost_bears {kind : Construct} {last : Nat} {implicit : Bool}
    (h : light kind = true ∨ pos ≤ last) (spans : List Span) :
    (closeInnermost kind last implicit spans).map (bears light pos) =
      spans.map (bears light pos) := by
  induction spans with
  | nil => rfl
  | cons span rest ih =>
    simp only [closeInnermost]
    split
    · rename_i hopen
      split
      · rename_i hkind
        have hlast : span.last = none := Option.isNone_iff_eq_none.mp hopen
        rcases h with hlight | hpos
        · simp [bears, hkind, hlight]
        · simp [bears, holds, hlast, hpos]
      · rfl
    · rw [List.map_cons, ih, List.map_cons]

theorem seeAll_bears (r : Record) (h : ∀ e ∈ es, e.Spares light pos) :
    ∃ new, (r.seeAll es).spans.map (bears light (r.base + pos)) =
        new ++ r.spans.map (bears light (r.base + pos)) ∧ ∀ s ∈ new, s.2 = false := by
  induction es generalizing r with
  | nil => exact ⟨[], rfl, by simp⟩
  | cons e es ih =>
    obtain ⟨he, hrest⟩ := List.forall_mem_cons.mp h
    obtain ⟨new, hnew, hall⟩ := ih (r.see e) hrest
    rw [see_base] at hnew
    have hbegun {frame : Frame} (last : Option Nat) (implicit : Bool)
        (hf : light frame.kind = true ∨ pos ≤ frame.start) :
        ∃ s, ((r.add frame last implicit).spans.map (bears light (r.base + pos))) =
          [s] ++ r.spans.map (bears light (r.base + pos)) ∧ s.2 = false := by
      refine ⟨_, rfl, ?_⟩
      rcases hf with hlight | hstart
      · simp [bears, hlight]
      · simp [bears, holds, hstart]
    have hsee : ∃ more, (r.see e).spans.map (bears light (r.base + pos)) =
        more ++ r.spans.map (bears light (r.base + pos)) ∧ ∀ s ∈ more, s.2 = false := by
      cases e with
      | push frame stop =>
        obtain ⟨s, heq, hs⟩ := hbegun none false he
        exact ⟨[s], heq, by simpa using hs⟩
      | pop frame stop implicit =>
        obtain ⟨hstart, hstop, _⟩ := lastOf_bounds r frame stop
        refine ⟨[], closeInnermost_bears (he.imp_right fun he => ?_) r.spans, by simp⟩
        omega
      | instant frame stop =>
        simp only [see]
        split
        · rename_i hname
          have hf : light frame.kind = true ∨ pos ≤ frame.start := by
            refine he.imp_right fun he => he.resolve_right fun hnot => ?_
            simp only [Bool.or_eq_true, decide_eq_true_eq] at hname
            rcases hname with hname | hname <;> rw [hname] at hnot <;> cases hnot
          obtain ⟨s, heq, hs⟩ := hbegun (some (r.lastOf frame stop)) true hf
          exact ⟨[s], heq, by simpa using hs⟩
        · exact ⟨[], rfl, by simp⟩
      | loose => exact ⟨[], rfl, by simp⟩
    obtain ⟨more, hmore, hlight⟩ := hsee
    refine ⟨new ++ more, by rw [seeAll_cons, hnew, hmore, List.append_assoc], fun s hs => ?_⟩
    exact (List.mem_append.mp hs).elim (hall s) (hlight s)

/-- The spans in effect that are of no light kind, as far as `bears` tells. -/
def burden (light : Construct → Bool) (pos : Nat) (spans : List Span) : List (Construct × Nat) :=
  ((spans.map (bears light pos)).filter (·.2)).map (·.1)

theorem mem_burden (h : span ∈ spans) (hh : holds pos span = true) (hk : light span.kind = false) :
    (span.kind, span.first) ∈ burden light pos spans := by
  refine List.mem_map.mpr
    ⟨bears light pos span, List.mem_filter.mpr ⟨List.mem_map_of_mem h, ?_⟩, rfl⟩
  simp [bears, hh, hk]

theorem exists_of_burden {kind : Construct} {first : Nat}
    (h : (kind, first) ∈ burden light pos spans) :
    ∃ span ∈ spans, span.kind = kind ∧ span.first = first ∧ holds pos span = true ∧
      light span.kind = false := by
  obtain ⟨s, hs, heq⟩ := List.mem_map.mp h
  obtain ⟨hs, hheavy⟩ := List.mem_filter.mp hs
  obtain ⟨span, hm, rfl⟩ := List.mem_map.mp hs
  simp only [bears, Bool.and_eq_true, Bool.not_eq_true'] at hheavy
  obtain ⟨rfl, rfl⟩ := Prod.mk.inj heq
  exact ⟨span, hm, rfl, rfl, hheavy⟩

theorem burden_ascending
    (hd : spans.Pairwise (fun later earlier : Span => earlier.first < later.first)) :
    (burden light pos spans).Pairwise (fun later earlier => earlier.2 < later.2) :=
  List.pairwise_map.mpr ((List.pairwise_map.mpr hd).filter _)

/-- The innermost span in effect is of a light kind, or it is the first of those that are not. -/
theorem find_burden (light : Construct → Bool) (pos : Nat) (spans : List Span) :
    let found := ((spans.find? (holds pos)).map kind).getD .content
    light found = true ∨ ((burden light pos spans).head?.map (·.1)).getD .content = found := by
  intro found
  induction spans with
  | nil => exact .inr rfl
  | cons span rest ih =>
    cases hh : holds pos span with
    | false =>
      have hskip : burden light pos (span :: rest) = burden light pos rest := by
        simp [burden, bears, hh]
      simpa only [found, List.find?_cons_of_neg (p := holds pos) (a := span) (by simp [hh]),
        hskip] using ih
    | true =>
      have hfound : found = span.kind := by
        simp only [found, List.find?_cons_of_pos hh, Option.map_some, Option.getD_some]
      cases hk : light span.kind with
      | true => exact .inl (hfound ▸ hk)
      | false =>
        right
        simp [burden, bears, hh, hk, hfound]

theorem seeAll_burden (r : Record) (h : ∀ e ∈ es, e.Spares light pos) :
    burden light (r.base + pos) (r.seeAll es).spans = burden light (r.base + pos) r.spans := by
  obtain ⟨new, hnew, hall⟩ := seeAll_bears r h
  have hnone : new.filter (·.2) = [] := by
    rw [List.filter_eq_nil_iff]
    exact fun s hs => by simp [hall s hs]
  rw [burden, hnew, List.filter_append, hnone, List.nil_append]
  rfl

theorem along_append (carried : List Span) (base id : Nat) (later earlier : List Event) :
    along carried base id (later ++ earlier) =
      (along carried base id earlier).seeAll later.reverse := by
  rw [along, List.reverse_append, seeAll_append]
  rfl

theorem along_burden (carried : List Span) (base id : Nat) (earlier : List Event)
    (h : ∀ e ∈ later, e.Spares light pos) :
    burden light (base + pos) (along carried base id (later ++ earlier)).spans =
      burden light (base + pos) (along carried base id earlier).spans := by
  have hsame := seeAll_burden (along carried base id earlier)
    fun e he => h e (List.mem_reverse.mp he)
  rwa [along_base, ← along_append] at hsame

/-- Where all that was closed has ended, what is open counts. -/
theorem open_burden (h : Trace limit (Frame.around (carried.map kind)) earlier stack)
    (he : EndedBy pos earlier) (hc : Carried base carried) (hlimit : earlier ≠ [] → 0 < limit)
    (id : Nat) : burden light (base + pos) (along carried base id earlier).spans =
      ((unclosed (along carried base id earlier).spans).filter (!light ·.kind)).map
        (fun span => (span.kind, span.first)) := by
  have hl : ∀ f ∈ Frame.around (carried.map kind), f.kind.lapses = false :=
    Frame.forall_mem_around rfl (List.forall_mem_map.mpr hc.lasting)
  rw [← along_holds h he hl hc.opened hc.before hlimit (Nat.le_refl _), List.filter_filter]
  simp only [burden, List.filter_map, List.map_map]
  congr 1
  apply List.filter_congr
  intro span _
  simp [bears, Bool.and_comm]

theorem head_burden (h : Trace limit (Frame.around (carried.map kind)) earlier stack)
    (hr : stack.getLast? = some Frame.root) (he : EndedBy pos earlier) (hc : Carried base carried)
    (hlimit : earlier ≠ [] → 0 < limit) (hlight : light .content = false) (id : Nat) :
    ((burden light (base + pos) (along carried base id earlier).spans).head?.map (·.1)).getD
        .content = ((stack.map Frame.kind).find? (!light ·)).getD .content := by
  rw [open_burden h he hc hlimit, (Mirrors.along h hr hc.opened base id).kinds,
    List.find?_append, List.find?_map, List.head?_map, List.head?_filter, Option.map_map]
  change _ = ((Option.map kind (List.find? (fun span => !light span.kind) _)).or _).getD _
  cases (unclosed (along carried base id earlier).spans).find? (fun span => !light span.kind) with
  | none => simp [Frame.root, Frame.carriedOver, hlight]
  | some span => rfl

/-- What counts of what is open stands for a frame. -/
theorem frame_of_burden (h : Trace limit (Frame.around (carried.map kind)) earlier stack)
    (hr : stack.getLast? = some Frame.root) (he : EndedBy pos earlier) (hc : Carried base carried)
    (hlimit : earlier ≠ [] → 0 < limit) (id : Nat) {around : Construct} {first : Nat}
    (hm : (around, first) ∈ burden light (base + pos) (along carried base id earlier).spans) :
    ∃ frame ∈ stack, frame.kind = around ∧
      (base ≤ first → frame.carried = false ∧ first = base + frame.start) := by
  rw [open_burden h he hc hlimit] at hm
  obtain ⟨span, hspan, heq⟩ := List.mem_map.mp hm
  obtain ⟨rfl, rfl⟩ := Prod.mk.inj heq
  obtain ⟨frames, rfl, hall⟩ := Mirrors.along h hr hc.opened base id
  obtain ⟨frame, hframe, hstands⟩ : ∃ frame ∈ frames, StandsFor carried base span frame := by
    have hopen := List.mem_of_mem_filter hspan
    clear hspan hm h hr
    generalize unclosed (along carried base id earlier).spans = opened at hall hopen
    induction hall with
    | nil => cases hopen
    | cons hstands _ ih =>
      rcases List.mem_cons.mp hopen with rfl | hopen
      · exact ⟨_, List.mem_cons_self, hstands⟩
      · obtain ⟨frame, hframe, hstands⟩ := ih hopen
        exact ⟨frame, List.mem_cons_of_mem _ hframe, hstands⟩
  refine ⟨frame, List.mem_append_left _ hframe, hstands.kind.symm, fun hlow => ?_⟩
  cases hcarried : frame.carried with
  | true =>
    have hbefore := hc.before span (hstands.carried hcarried)
    omega
  | false => exact ⟨rfl, hstands.first hcarried⟩

/-- What is found in a list of spans, the latest first, is the latest. -/
theorem find_latest {p : Span → Bool} {found : Span}
    (hd : spans.Pairwise (fun later earlier => earlier.first < later.first))
    (h : spans.find? p = some found) (hs : span ∈ spans) (hp : p span = true) :
    span.first ≤ found.first := by
  induction spans with
  | nil => cases hs
  | cons first rest ih =>
    obtain ⟨hfirst, hrest⟩ := List.pairwise_cons.mp hd
    cases hholds : p first with
    | true =>
      rw [List.find?_cons_of_pos hholds] at h
      obtain rfl := Option.some.inj h
      rcases List.mem_cons.mp hs with rfl | hs
      · exact Nat.le_refl _
      · exact Nat.le_of_lt (hfirst span hs)
    | false =>
      rw [List.find?_cons_of_neg (by simp [hholds])] at h
      rcases List.mem_cons.mp hs with rfl | hs
      · rw [hp] at hholds
        cases hholds
      · exact ih hrest h hs

theorem eq_of_first (hd : spans.Pairwise (fun later earlier : Span => earlier.first < later.first))
    {a b : Span} (ha : a ∈ spans) (hb : b ∈ spans) (heq : a.first = b.first) : a = b := by
  have hnodup : (spans.map first).Nodup :=
    List.pairwise_map.mpr (hd.imp fun hlt => Nat.ne_of_gt hlt)
  exact List.inj_on_of_nodup_map hnodup ha hb heq

/-- What is opened has a span. -/
theorem exists_of_push {frame : Frame} {stop : Nat} (h : .push frame stop ∈ es)
    (carried : List Span) (base id : Nat) : ∃ span ∈ (along carried base id es).spans,
      span.kind = frame.kind ∧ span.first = base + frame.start := by
  obtain ⟨later, earlier, rfl⟩ := List.append_of_mem h
  have hadded : ∃ span ∈ (along carried base id (.push frame stop :: earlier)).spans,
      span.kind = frame.kind ∧ span.first = base + frame.start := by
    rw [along_cons]
    refine ⟨_, List.mem_cons_self, rfl, ?_⟩
    rw [along_base]
  obtain ⟨span, hm, hkind, hfirst⟩ := hadded
  have hident := List.mem_append_right
    (births (along carried base id (.push frame stop :: earlier)).base
      (along carried base id (.push frame stop :: earlier)).nextId
      (later.reverse.filterMap Event.recorded?)).reverse
    (List.mem_map_of_mem (f := ident) hm)
  rw [← seeAll_ident, ← along_append] at hident
  obtain ⟨old, ho, heq⟩ := List.mem_map.mp hident
  obtain ⟨hkind', hfirst'⟩ := Prod.mk.inj (Prod.mk.inj heq).2
  exact ⟨old, ho, hkind'.trans hkind, hfirst'.trans hfirst⟩

/-- A span that was begun before, and is of no light kind, was there before the events that spare
the position. -/
theorem exists_before (h : ∀ e ∈ later, e.Spares light pos)
    (hs : span ∈ (along carried base id (later ++ earlier)).spans)
    (hk : light span.kind = false) (hleaf : span.kind.isName = false)
    (hfirst : span.first < base + pos) :
    ∃ old ∈ (along carried base id earlier).spans, old.kind = span.kind ∧
      old.first = span.first := by
  have hm := List.mem_map_of_mem (f := ident) hs
  rw [along_append, seeAll_ident, List.mem_append, List.mem_reverse] at hm
  rcases hm with hm | hm
  · obtain ⟨f, hf, heq⟩ := mem_births hm
    obtain ⟨e, he, hr⟩ := List.mem_filterMap.mp hf
    obtain ⟨hkind, hstart⟩ := Prod.mk.inj heq
    have hkind : span.kind = f.kind := hkind
    have hstart : span.first = base + f.start := by
      rw [along_base] at hstart
      exact hstart
    have hspares := h e (List.mem_reverse.mp he)
    rw [hkind] at hk hleaf
    cases e with
    | push frame stop =>
      obtain rfl := Option.some.inj hr
      have := hspares.resolve_left (by simp [hk])
      omega
    | instant frame stop =>
      simp only [Event.recorded?] at hr
      split at hr
      · rename_i hname
        obtain rfl := Option.some.inj hr
        simp only [Bool.or_eq_true, decide_eq_true_eq] at hname
        rcases hname with hname | hname <;> rw [hname] at hleaf <;> cases hleaf
      · cases hr
    | pop | loose => cases hr
  · obtain ⟨old, ho, heq⟩ := List.mem_map.mp hm
    obtain ⟨hkind, hfirst⟩ := Prod.mk.inj (Prod.mk.inj heq).2
    exact ⟨old, ho, hkind, hfirst⟩

/-- What has ended without a mark of its own, and not before the events that spare the position,
was open then. -/
theorem exists_unended (h : Trace limit (Frame.around (carried.map kind)) (later ++ earlier) stack)
    (hc : Carried base carried) (hspares : ∀ e ∈ later, e.Spares light pos)
    (hpops : ∀ frame stop, .pop frame stop true ∉ earlier)
    (hm : span ∈ (along carried base id (later ++ earlier)).spans)
    (hheavy : light span.kind = false) (hleaf : span.kind.isName = false)
    (hfirst : span.first < base + pos) (himplicit : span.implicit = true) :
    ∃ old ∈ (along carried base id earlier).spans, old.kind = span.kind ∧
      old.first = span.first ∧ old.isOpen = true := by
  obtain ⟨old, hold, hkind, hsame⟩ := exists_before hspares hm hheavy hleaf hfirst
  refine ⟨old, hold, hkind, hsame, ?_⟩
  by_contra hclosed
  rw [Bool.not_eq_true] at hclosed
  have hkept := along_kept hold hclosed later
  obtain rfl := eq_of_first (along_ascending h hc.ascending hc.before) hkept hm hsame
  cases along_endedAlong hc.opened id old hold hclosed with
  | met frame stop event name kind =>
    rw [kind, hleaf] at name
    cases name
  | closed frame stop event =>
    rw [himplicit] at event
    exact hpops frame stop event

/-- Where something counts, and what is around the position is something else, this was begun
later. -/
theorem exists_inner (hd : spans.Pairwise (fun later earlier => earlier.first < later.first))
    (hm : span ∈ spans) (hh : holds pos span = true) (hk : light span.kind = false)
    (hother : ((burden light pos spans).head?.map (·.1)).getD .content ≠ span.kind) :
    ∃ kind first, (kind, first) ∈ burden light pos spans ∧ span.first < first := by
  have hin := mem_burden hm hh hk
  have hsorted : (burden light pos spans).Pairwise (fun later earlier => earlier.2 < later.2) :=
    burden_ascending hd
  cases hopened : burden light pos spans with
  | nil =>
    rw [hopened] at hin
    cases hin
  | cons inner outer =>
    rw [hopened] at hin hsorted hother
    refine ⟨inner.1, inner.2, List.mem_cons_self, ?_⟩
    rcases List.mem_cons.mp hin with rfl | hin
    · exact absurd rfl hother
    · exact (List.pairwise_cons.mp hsorted).1 _ hin

/-- Where something that is about to end with the line still counts behind its end, and what is
around the position is something else, that something began right before the position. -/
theorem find_behind (h : Trace limit (Frame.around (carried.map kind)) (later ++ earlier) stack)
    (hr : stack.getLast? = some Frame.root) (hc : Carried base carried)
    (hspares : ∀ e ∈ later, e.Spares light pos)
    (hpops : ∀ frame stop, .pop frame stop true ∉ earlier)
    (hfound : (along carried base id (later ++ earlier)).spans.find? (holds (base + pos - 1)) =
      some span)
    (hk : span.kind.endsWithLine = true) (hheavy : light span.kind = false)
    (himplicit : span.implicit = true)
    (hother : ((burden light (base + pos) (along carried base id earlier).spans).head?.map
      (·.1)).getD .content ≠ span.kind) :
    ∃ here, (along carried base id (later ++ earlier)).spans.find? (holds (base + pos)) =
      some here ∧ here.first + 1 = base + pos ∧ light here.kind = false ∧
      (here.kind, here.first) ∈
        burden light (base + pos) (along carried base id earlier).spans := by
  have hm := List.mem_of_find?_eq_some hfound
  have hascending : (along carried base id (later ++ earlier)).spans.Pairwise
      (fun later earlier => earlier.first < later.first) :=
    along_ascending h hc.ascending hc.before
  obtain ⟨_, htrace, _⟩ := h.earlier hr
  obtain ⟨hfirst, _⟩ := holds_iff.mp (List.find?_some hfound)
  have hbefore : span.first < base + pos := Nat.lt_of_lt_of_le hfirst (Nat.sub_le _ _)
  have hleaf : span.kind.isName = false := by
    revert hk
    cases span.kind <;> simp [Construct.endsWithLine, Construct.isName]
  obtain ⟨old, hold, hkind, hsame, hopen⟩ :=
    exists_unended h hc hspares hpops hm hheavy hleaf hbefore himplicit
  obtain ⟨kind, first, hburden, hlt⟩ : ∃ kind first,
      (kind, first) ∈ burden light (base + pos) (along carried base id earlier).spans ∧
        span.first < first := by
    have hnone : old.last = none := Option.isNone_iff_eq_none.mp hopen
    have hholds : holds (base + pos) old = true :=
      holds_iff.mpr ⟨hsame ▸ hbefore, fun last hlast => by simp [hnone] at hlast⟩
    rw [← hkind] at hheavy hother
    rw [← hsame]
    exact exists_inner (along_ascending htrace hc.ascending hc.before) hold hholds hheavy hother
  rw [← along_burden carried base id earlier hspares] at hburden
  obtain ⟨around, haround, rfl, rfl, hholds, hlight⟩ := exists_of_burden hburden
  obtain ⟨hlow, hlast⟩ := holds_iff.mp hholds
  have hright : ¬ around.first < base + pos - 1 := by
    intro hlow'
    have hbefore : holds (base + pos - 1) around = true :=
      holds_iff.mpr ⟨hlow', fun last hl => Nat.le_trans (Nat.sub_le _ _) (hlast last hl)⟩
    exact absurd (find_latest hascending hfound haround hbefore) (Nat.not_le.mpr hlt)
  cases hhere : (along carried base id (later ++ earlier)).spans.find? (holds (base + pos)) with
  | none =>
    rw [List.find?_eq_none] at hhere
    exact absurd hholds (hhere around haround)
  | some here =>
    have hle := find_latest hascending hhere haround hholds
    obtain ⟨hhigh, _⟩ := holds_iff.mp (List.find?_some hhere)
    obtain rfl := eq_of_first hascending (List.mem_of_find?_eq_some hhere) haround (by omega)
    refine ⟨here, rfl, by omega, hlight, ?_⟩
    rw [← along_burden carried base id earlier hspares]
    exact hburden

end Record

end Span

end LineMarkup

import LineMarkup.Proofs.Parser.Barren
import LineMarkup.Proofs.Span.Mirror

namespace LineMarkup.Span

variable {carried spans : List Span} {base limit stop : Nat} {es later earlier : List Event}
  {stack : List Frame} {frame : Frame} {id : Nat}

/-- If the earlier span is barren, the later one begins behind its end. -/
def Clear (later earlier : Span) : Prop :=
  earlier.kind.isBarren = true → ∃ last, earlier.last = some last ∧ last < later.first

/-- Only a name, or what ends with its line, is closed without a mark of its own. -/
def EndsAlone (span : Span) : Prop :=
  span.implicit = true →
    span.kind.endsWithLine = true ∨ span.kind = .codeVariable ∨ span.kind = .codeFunction

/-- Both what is open and where nothing begins are known at any event. -/
theorem trace_sheltered {frames : List Frame} (h : Trace limit frames (later ++ es) stack)
    (hs : Sheltered frames (later ++ es) stack) (hr : stack.getLast? = some Frame.root) :
    ∃ stack', Trace limit frames es stack' ∧ Sheltered frames es stack' ∧
      stack'.getLast? = some Frame.root := by
  induction later generalizing stack with
  | nil => exact ⟨stack, h, hs, hr⟩
  | cons e later ih =>
    cases h with
    | push h hn _ _ _ =>
      cases hs with
      | push hs _ _ => exact ih h hs (Frame.getLast_of_push hn hr)
    | pop h _ _ _ =>
      cases hs with
      | pop hs =>
        refine ih h hs ?_
        rw [List.getLast?_cons, hr, Option.getD_some]
    | instant h _ _ =>
      cases hs with
      | instant hs _ => exact ih h hs hr
    | loose h _ =>
      cases hs with
      | loose hs => exact ih h hs hr

/-- The open spans are of the kinds of the frames. -/
theorem Mirrors.kinds (h : Mirrors carried base spans stack) :
    stack.map Frame.kind = (unclosed spans).map kind ++ [Frame.root.kind] := by
  obtain ⟨frames, rfl, hall⟩ := h
  rw [List.map_append]
  congr 1
  generalize unclosed spans = opened at hall
  induction hall with
  | nil => rfl
  | cons hs _ ih => rw [List.map_cons, List.map_cons, hs.kind, ih]

namespace Record

/-- Before anything begins, whatever has ended has ended. -/
theorem along_ended_before (h : Trace limit frames es stack) (hlimit : 0 < limit)
    (hl : ∀ f ∈ frames, f.kind.lapses = false)
    (ho : ∀ span ∈ carried, span.isOpen = true) (hb : ∀ span ∈ carried, span.first < base)
    (hbegins : BeginsAfter e es) (id : Nat) :
    ∀ span ∈ (along carried base id es).spans, ∀ last, span.last = some last →
      last < base + e.start := by
  have hclear (es : List Event) (stack : List Frame) (h : Trace limit frames es stack)
      (he : EndedBy e.start es) :
      ∀ span ∈ (along carried base id es).spans, ∀ last, span.last = some last →
        last < base + e.start := by
    intro span hs last hlast
    obtain ⟨_, _, e', hm, _, hlt⟩ := along_ended h hl ho hb span hs last hlast
    have := he e' hm
    have := hlt hlimit
    omega
  cases hbegins with
  | clear he => exact hclear es stack h he
  | math _ mark _ he =>
    -- The delimiter is not recorded, and all before it has ended.
    cases h with
    | instant h =>
      rw [along_cons]
      simp only [see, mark, reduceCtorEq, decide_false, Bool.or_self, Bool.false_eq_true,
        ↓reduceIte]
      exact hclear _ _ h he

/-- To close a span that nothing is behind of makes no difference. -/
theorem closeInnermost_clear (h : spans.Pairwise Clear) (kind : Construct) (last : Nat)
    (implicit : Bool) : (closeInnermost kind last implicit spans).Pairwise Clear := by
  rcases closeInnermost_split kind last implicit spans with
    heq | ⟨inner, span, outer, rfl, ho, _, heq⟩
  · rwa [heq]
  · rw [heq]
    obtain ⟨hinner, houter, hacross⟩ := List.pairwise_append.mp h
    obtain ⟨hspan, houter⟩ := List.pairwise_cons.mp houter
    refine List.pairwise_append.mpr
      ⟨hinner, List.pairwise_cons.mpr ⟨hspan, houter⟩, fun a ha b hb => ?_⟩
    rcases List.mem_cons.mp hb with rfl | hb
    · intro hk
      obtain ⟨_, hlast, _⟩ := hacross a ha span List.mem_cons_self hk
      rw [Option.isNone_iff_eq_none.mp ho] at hlast
      cases hlast
    · exact hacross a ha b (List.mem_cons_of_mem _ hb)

/-- While no barren frame is open no barren span is. -/
theorem closed_of_barren (h : Mirrors carried base spans stack)
    (hs : ∀ f ∈ stack, f.kind.isBarren = false) {span : Span} (hm : span ∈ spans)
    (hk : span.kind.isBarren = true) : ∃ last, span.last = some last := by
  cases hl : span.last with
  | some last => exact ⟨last, rfl⟩
  | none =>
    have hopen : span ∈ unclosed spans := List.mem_filter.mpr ⟨hm, by simp [isOpen, hl]⟩
    have hkind : span.kind ∈ stack.map Frame.kind := by
      rw [h.kinds]
      exact List.mem_append_left _ (List.mem_map_of_mem hopen)
    obtain ⟨f, hf, heq⟩ := List.mem_map.mp hkind
    rw [← heq, hs f hf] at hk
    cases hk

/-- By induction on the events. What begins is recorded while no barren span is open, and those that
have ended have ended before it. -/
theorem along_clear (h : Trace limit (Frame.around (carried.map kind)) es stack)
    (hs : Sheltered (Frame.around (carried.map kind)) es stack)
    (hr : stack.getLast? = some Frame.root) (he : EndedBy limit es)
    (hc : Carried base carried) (hclear : carried.reverse.Pairwise Clear) (id : Nat) :
    (along carried base id es).spans.Pairwise Clear := by
  have hl : ∀ f ∈ Frame.around (carried.map kind), f.kind.lapses = false :=
    Frame.forall_mem_around rfl (List.forall_mem_map.mpr hc.lasting)
  have hnew {es stack} {e : Event} (ht : Trace limit (Frame.around (carried.map kind)) es stack)
      (hr : stack.getLast? = some Frame.root) (hout : ∀ f ∈ stack, f.kind.isBarren = false)
      (hbegins : BeginsAfter e es) (hlimit : 0 < limit) {span : Span}
      (hspan : span ∈ (along carried base id es).spans) (hk : span.kind.isBarren = true) :
      ∃ last, span.last = some last ∧ last < base + e.start := by
    obtain ⟨last, hlast⟩ :=
      closed_of_barren (Mirrors.along ht hr hc.opened base id) hout hspan hk
    exact ⟨last, hlast,
      along_ended_before ht hlimit hl hc.opened hc.before hbegins id span hspan last hlast⟩
  induction h with
  | nil => exact hclear
  | push ht hn hfilled _ hbegins ih =>
    obtain ⟨hstop, he⟩ := endedBy_cons.mp he
    cases hs with
    | push hs hout _ =>
      have hr' := Frame.getLast_of_push hn hr
      rw [along_cons]
      refine List.pairwise_cons.mpr ⟨fun span hm hk => ?_, ih hs hr' he⟩
      rw [along_base]
      exact hnew ht hr' hout hbegins (Nat.lt_of_le_of_lt (Nat.zero_le _)
        (Nat.lt_of_lt_of_le hfilled hstop)) hm hk
  | pop _ _ _ _ ih =>
    obtain ⟨_, he⟩ := endedBy_cons.mp he
    cases hs with
    | pop hs =>
      rw [along_cons]
      refine closeInnermost_clear (ih hs ?_ he) _ _ _
      rw [List.getLast?_cons, hr, Option.getD_some]
  | @instant es stack stop frame ht hfilled hended ih =>
    obtain ⟨hstop, he⟩ := endedBy_cons.mp he
    cases hs with
    | instant hs hout =>
      rw [along_cons]
      simp only [see]
      split
      · refine List.pairwise_cons.mpr ⟨fun span hm hk => ?_, ih hs hr he⟩
        rw [along_base]
        exact hnew (e := .instant frame stop) ht hr hout (.clear hended) (Nat.lt_of_le_of_lt (Nat.zero_le _)
          (Nat.lt_of_lt_of_le hfilled hstop)) hm hk
      · exact ih hs hr he
  | loose _ _ ih =>
    obtain ⟨_, he⟩ := endedBy_cons.mp he
    cases hs with
    | loose hs =>
      rw [along_cons]
      exact ih hs hr he

/-- Where a frame is opened, what is in effect is what is open around it. -/
theorem find_push (h : Trace limit (Frame.around (carried.map kind))
      (later ++ .push frame stop :: earlier) stack)
    (hr : stack.getLast? = some Frame.root)
    (he : EndedBy limit (later ++ .push frame stop :: earlier)) (hk : frame.kind ≠ .math)
    (hc : Carried base carried) (id : Nat) :
    ((along carried base id (later ++ .push frame stop :: earlier)).spans.find?
        (holds (base + frame.start))).map ident =
      (unclosed (along carried base id earlier).spans).head?.map ident := by
  have hl : ∀ f ∈ Frame.around (carried.map kind), f.kind.lapses = false :=
    Frame.forall_mem_around rfl (List.forall_mem_map.mpr hc.lasting)
  obtain ⟨_, htrace, _⟩ := h.earlier hr
  have hbefore : EndedBy frame.start earlier := by
    cases htrace with
    | push _ _ _ _ hbegins =>
      cases hbegins with
      | clear hended => exact hended
      | math hmath => exact absurd hmath hk
  have hfilled : frame.start < stop :=
    htrace.recorded_filled _ List.mem_cons_self frame rfl
  have hlimit : stop ≤ limit := he _ (List.mem_append_right _ List.mem_cons_self)
  have hsplit : later ++ .push frame stop :: earlier =
      (later ++ [Event.push frame stop]) ++ earlier := by simp
  have hstops : ∀ e ∈ later ++ [Event.push frame stop], base + frame.start < base + e.stop := by
    intro e hm
    rcases List.mem_append.mp hm with hm | hm
    · have : stop ≤ e.stop := (List.pairwise_append.mp h.stops).2.2 e hm
        (.push frame stop) List.mem_cons_self
      omega
    · rw [List.mem_singleton.mp hm]
      exact Nat.add_lt_add_left hfilled base
  have hstarts : ∀ f ∈ (later ++ [Event.push frame stop]).filterMap Event.recorded?,
      base + frame.start ≤ base + f.start := by
    intro f hf
    rw [List.filterMap_append] at hf
    rcases List.mem_append.mp hf with hf | hf
    · have hpairs := h.recorded_ascending
      rw [List.filterMap_append] at hpairs
      have := (List.pairwise_append.mp hpairs).2.2 f hf frame List.mem_cons_self
      omega
    · rw [List.mem_singleton.mp hf]
  rw [hsplit] at h ⊢
  exact find_between h hr hbefore hl hc.opened hc.before (by omega) (Nat.le_refl _) hstops hstarts id

theorem mem_births {b : Nat × Construct × Nat} {frames : List Frame} {id : Nat}
    (h : b ∈ births base id frames) : ∃ f ∈ frames, b.2 = (f.kind, base + f.start) := by
  induction frames generalizing id with
  | nil => cases h
  | cons frame frames ih =>
    rcases List.mem_cons.mp h with rfl | h
    · exact ⟨frame, List.mem_cons_self, rfl⟩
    · obtain ⟨f, hf, hb⟩ := ih h
      exact ⟨f, List.mem_cons_of_mem _ hf, hb⟩

/-- A span that begins in the line was recorded for some event. -/
theorem along_begun (hb : ∀ span ∈ carried, span.first < base) {span : Span}
    (hs : span ∈ (along carried base id es).spans) (hbase : base ≤ span.first) :
    ∃ e ∈ es, ∃ f, e.recorded? = some f ∧ f.kind = span.kind ∧ span.first = base + f.start := by
  have hm := List.mem_map_of_mem (f := ident) hs
  rw [along_ident] at hm
  rcases List.mem_append.mp hm with hm | hm
  · obtain ⟨f, hf, heq⟩ := mem_births (List.mem_reverse.mp hm)
    obtain ⟨e, he, hr⟩ := List.mem_filterMap.mp (List.mem_reverse.mp hf)
    obtain ⟨hkind, hfirst⟩ := Prod.mk.inj heq
    exact ⟨e, he, f, hr, hkind.symm, hfirst⟩
  · obtain ⟨old, ho, heq⟩ := List.mem_map.mp (List.mem_reverse.mp hm)
    have hfirst : old.first = span.first := (Prod.mk.inj (Prod.mk.inj heq).2).2
    have := hb old ho
    omega

/-- Around a string literal that begins in the line there is math or code. -/
theorem find_literal (h : Trace limit (Frame.around (carried.map kind)) es stack)
    (hs : Sheltered (Frame.around (carried.map kind)) es stack)
    (hr : stack.getLast? = some Frame.root) (he : EndedBy limit es) (hc : Carried base carried)
    {span : Span} (hm : span ∈ (along carried base id es).spans)
    (hk : span.kind = .stringLiteral) (hbase : base ≤ span.first) :
    ∃ outer, (along carried base id es).spans.find? (holds span.first) = some outer ∧
      outer.kind.quotes = true := by
  obtain ⟨e, hmem, frame, hrecorded, hkind, hfirst⟩ := along_begun hc.before hm hbase
  rw [hk] at hkind
  obtain ⟨stop, rfl⟩ : ∃ stop, e = .push frame stop := by
    cases e with
    | push f stop => exact ⟨stop, by rw [Option.some.inj hrecorded]⟩
    | instant f stop =>
      simp only [Event.recorded?] at hrecorded
      split at hrecorded
      · obtain rfl := Option.some.inj hrecorded
        simp [hkind] at *
      · cases hrecorded
    | pop | loose => cases hrecorded
  obtain ⟨later, earlier, rfl⟩ := List.append_of_mem hmem
  have hfind := find_push h hr he (by simp [hkind]) hc id
  obtain ⟨_, htrace, hsheltered, hrooted⟩ := trace_sheltered h hs hr
  cases htrace with
  | push htrace hn _ _ _ =>
    cases hsheltered with
    | push _ _ holder =>
      have hkinds := (Mirrors.along htrace (Frame.getLast_of_push hn hrooted) hc.opened base id).kinds
      have hholder := holder hkind
      rw [hfirst]
      cases hopen : unclosed (along carried base id earlier).spans with
      | nil =>
        rw [hopen, List.map_nil, List.nil_append] at hkinds
        obtain ⟨top, rfl, htop⟩ := List.map_eq_singleton_iff.mp hkinds
        have := hholder top rfl
        rw [htop] at this
        cases this
      | cons inner outer =>
        rw [hopen, List.map_cons, List.cons_append] at hkinds
        obtain ⟨top, below, rfl, htop, _⟩ := List.map_eq_cons_iff.mp hkinds
        rw [hopen, List.head?_cons, Option.map_some] at hfind
        obtain ⟨found, hfound, hident⟩ := Option.map_eq_some_iff.mp hfind
        have hsame : found.kind = inner.kind := (Prod.mk.inj (Prod.mk.inj hident).2).1
        refine ⟨found, hfound, ?_⟩
        rw [hsame, ← htop]
        exact hholder top rfl

/-- Only names, and what the end of the line ends, have no closing mark of their own. -/
theorem along_endsAlone (hp : ∀ frame stop, .pop frame stop true ∈ es →
      frame.kind.endsWithLine = true)
    (hc : ∀ span ∈ carried, EndsAlone span) (id : Nat) :
    ∀ span ∈ (along carried base id es).spans, EndsAlone span := by
  induction es with
  | nil => exact fun span hs => hc span (List.mem_reverse.mp hs)
  | cons e es ih =>
    have hrest := ih fun frame stop hm => hp frame stop (List.mem_cons_of_mem _ hm)
    rw [along_cons]
    cases e with
    | push frame stop => exact List.forall_mem_cons.mpr ⟨nofun, hrest⟩
    | pop frame stop implicit =>
      intro span hs
      simp only [see] at hs
      rcases closeInnermost_split frame.kind ((along carried base id es).lastOf frame stop) implicit
          (along carried base id es).spans with heq | ⟨inner, closed, outer, hall, _, hk, heq⟩
      · exact hrest span (heq ▸ hs)
      · rw [hall] at hrest
        rw [heq] at hs
        rcases List.mem_append.mp hs with hs | hs
        · exact hrest span (List.mem_append_left _ hs)
        · rcases List.mem_cons.mp hs with rfl | hs
          · rintro rfl
            left
            rw [hk]
            exact hp frame stop List.mem_cons_self
          · exact hrest span (List.mem_append_right _ (List.mem_cons_of_mem _ hs))
    | instant frame stop =>
      simp only [see]
      split
      · rename_i hname
        refine List.forall_mem_cons.mpr ⟨fun _ => .inr ?_, hrest⟩
        simpa using hname
      · exact hrest
    | loose => exact hrest

end Record

end LineMarkup.Span

import LineMarkup.Proofs.Span.Stack

namespace LineMarkup.Span

/-- What a position before the end of a span sees of it. -/
def seen (pos : Nat) (span : Span) : (Nat × Construct × Nat) × Bool :=
  (span.ident, span.last.all (pos ≤ ·))

/-- A span is in effect after its first position and up to its last one. -/
def holds (pos : Nat) (span : Span) : Bool :=
  span.first < pos && span.last.all (pos ≤ ·)

theorem holds_iff {span : Span} {pos : Nat} :
    holds pos span = true ↔ span.first < pos ∧ ∀ last, span.last = some last → pos ≤ last := by
  cases hlast : span.last <;> simp [holds, hlast]

namespace Record

variable {carried : List Span} {base id pos : Nat} {stack : List Frame}

/-- To be closed later makes no difference. -/
theorem closeInnermost_seen {kind : Construct} {last : Nat} {implicit : Bool} (h : pos ≤ last)
    (spans : List Span) :
    (closeInnermost kind last implicit spans).map (seen pos) = spans.map (seen pos) := by
  induction spans with
  | nil => rfl
  | cons span rest ih =>
    simp only [closeInnermost]
    split
    · rename_i ho
      split
      · have hl : span.last = none := Option.isNone_iff_eq_none.mp ho
        simp [seen, ident, hl, h]
      · rfl
    · rw [List.map_cons, ih, List.map_cons]

theorem seeAll_seen (r : Record) (h : ∀ e ∈ events, pos < r.base + Event.stop e) :
    ∃ new, (r.seeAll events).spans.map (seen pos) = new ++ r.spans.map (seen pos) := by
  induction events generalizing r with
  | nil => exact ⟨[], rfl⟩
  | cons e events ih =>
    obtain ⟨he, hrest⟩ := List.forall_mem_cons.mp h
    obtain ⟨new, hnew⟩ := ih (r.see e) (by rwa [see_base])
    have hsee : ∃ more, (r.see e).spans.map (seen pos) = more ++ r.spans.map (seen pos) := by
      cases e with
      | push frame stop => exact ⟨[_], rfl⟩
      | pop frame stop implicit =>
        have hlast := (lastOf_bounds r frame stop).2.1
        have he : pos < r.base + stop := he
        exact ⟨[], closeInnermost_seen (by omega) r.spans⟩
      | instant frame stop =>
        simp only [see]
        split
        · exact ⟨[_], rfl⟩
        · exact ⟨[], rfl⟩
      | loose => exact ⟨[], rfl⟩
    obtain ⟨more, hmore⟩ := hsee
    exact ⟨new ++ more, by rw [seeAll_cons, hnew, hmore, List.append_assoc]⟩

/-- What is recorded from a position on, and what ends after it, makes no difference there. -/
theorem seeAll_find (r : Record) (hstops : ∀ e ∈ events, pos < r.base + Event.stop e)
    (hstarts : ∀ f ∈ events.filterMap Event.recorded?, pos ≤ r.base + f.start) :
    ((r.seeAll events).spans.find? (holds pos)).map (seen pos) =
      (r.spans.find? (holds pos)).map (seen pos) := by
  obtain ⟨new, hnew⟩ := seeAll_seen r hstops
  have hidents := congrArg (List.map Prod.fst) hnew
  rw [List.map_append, List.map_map, List.map_map] at hidents
  have hbirths := List.append_cancel_right (hidents.symm.trans (seeAll_ident r events))
  have hlate : ∀ s ∈ new, ¬ (s.1.2.2 < pos && s.2) = true := by
    intro s hs
    have hm : s.1.2.2 ∈ (new.map Prod.fst).map (·.2.2) :=
      List.mem_map_of_mem (List.mem_map_of_mem hs)
    rw [hbirths, List.map_reverse, births_firsts] at hm
    obtain ⟨frame, hf, heq⟩ := List.mem_map.mp (List.mem_reverse.mp hm)
    have := hstarts frame hf
    have : ¬ s.1.2.2 < pos := by omega
    simp [this]
  have hsplit : holds pos = (fun s => s.1.2.2 < pos && s.2) ∘ seen pos := rfl
  rw [hsplit, ← List.find?_map, hnew, List.find?_append, List.find?_eq_none.mpr hlate,
    Option.none_or, List.find?_map]

/-- Before a loose token what has ended has ended before the token. -/
theorem along_holds (h : Trace limit frames es stack) (he : EndedBy edge es)
    (hl : ∀ f ∈ frames, f.kind.lapses = false)
    (ho : ∀ span ∈ carried, span.isOpen = true) (hb : ∀ span ∈ carried, span.first < base)
    (hlimit : es ≠ [] → 0 < limit) (hpos : base + edge ≤ pos) :
    (along carried base id es).spans.filter (holds pos) =
      unclosed (along carried base id es).spans := by
  apply List.filter_congr
  intro span hs
  have hfirst := along_first_lt h hb he id span hs
  cases hlast : span.last with
  | none =>
    have : span.first < pos := by omega
    simp [holds, isOpen, hlast, this]
  | some last =>
    obtain ⟨_, _, e, hm, _, hlt⟩ := along_ended h hl ho hb span hs last hlast
    have := he e hm
    have := hlt (hlimit (List.ne_nil_of_mem hm))
    have : last < pos := by omega
    simp [holds, isOpen, hlast, this]

/-- Between the end of some events and the beginning of the later ones, what is in effect is what is
open after the earlier ones. -/
theorem find_between (h : Trace limit frames (later ++ earlier) stack)
    (hr : stack.getLast? = some Frame.root) (he : EndedBy edge earlier)
    (hl : ∀ f ∈ frames, f.kind.lapses = false)
    (ho : ∀ span ∈ carried, span.isOpen = true) (hb : ∀ span ∈ carried, span.first < base)
    (hlimit : 0 < limit) (hpos : base + edge ≤ pos)
    (hstops : ∀ e ∈ later, pos < base + Event.stop e)
    (hstarts : ∀ f ∈ later.filterMap Event.recorded?, pos ≤ base + f.start) (id : Nat) :
    ((along carried base id (later ++ earlier)).spans.find? (holds pos)).map ident =
      (unclosed (along carried base id earlier).spans).head?.map ident := by
  let before := along carried base id earlier
  have hbase : before.base = base := along_base _ _ _ _
  have hrun : along carried base id (later ++ earlier) = before.seeAll later.reverse := by
    rw [along, List.reverse_append, seeAll_append]
    rfl
  have hstops : ∀ e ∈ later.reverse, pos < before.base + e.stop :=
    fun e hm => hbase ▸ hstops e (List.mem_reverse.mp hm)
  have hstarts : ∀ f ∈ later.reverse.filterMap Event.recorded?, pos ≤ before.base + f.start := by
    intro f hf
    rw [List.filterMap_reverse] at hf
    exact hbase ▸ hstarts f (List.mem_reverse.mp hf)
  have hfind := congrArg (Option.map Prod.fst) (seeAll_find before hstops hstarts)
  rw [Option.map_map, Option.map_map] at hfind
  obtain ⟨_, htrace, _⟩ := h.earlier hr
  have hopen : before.spans.find? (holds pos) = (unclosed before.spans).head? := by
    rw [← along_holds htrace he hl ho hb (fun _ => hlimit) hpos, List.head?_filter]
  rw [hopen] at hfind
  rw [hrun]
  exact hfind

/-- What is in effect at a position within a loose token is what is open before the token. -/
theorem find_loose (h : Trace limit frames (later ++ .loose token owner :: earlier) stack)
    (hr : stack.getLast? = some Frame.root)
    (he : EndedBy limit (later ++ .loose token owner :: earlier))
    (hl : ∀ f ∈ frames, f.kind.lapses = false)
    (ho : ∀ span ∈ carried, span.isOpen = true) (hb : ∀ span ∈ carried, span.first < base)
    (hpos : base + token.start ≤ pos) (hlt : pos < base + token.stop) (id : Nat) :
    ((along carried base id (later ++ .loose token owner :: earlier)).spans.find? (holds pos)).map
        ident =
      (unclosed (along carried base id earlier).spans).head?.map ident := by
  have hlimit : token.stop ≤ limit := he _ (List.mem_append_right _ List.mem_cons_self)
  have hbefore : EndedBy token.start earlier := by
    obtain ⟨_, htrace, _⟩ := h.earlier hr
    cases htrace with
    | loose _ hbefore => exact hbefore
  have hsplit : later ++ .loose token owner :: earlier =
      (later ++ [Event.loose token owner]) ++ earlier := by simp
  have hstops : ∀ e ∈ later ++ [Event.loose token owner], pos < base + e.stop := by
    intro e hm
    rcases List.mem_append.mp hm with hm | hm
    · have : token.stop ≤ e.stop := (List.pairwise_append.mp h.stops).2.2 e hm
        (.loose token owner) List.mem_cons_self
      omega
    · rw [List.mem_singleton.mp hm]
      exact hlt
  have hstarts : ∀ f ∈ (later ++ [Event.loose token owner]).filterMap Event.recorded?,
      pos ≤ base + f.start := by
    intro f hf
    rw [List.filterMap_append] at hf
    rcases List.mem_append.mp hf with hf | hf
    · have := h.recorded_after f hf
      omega
    · cases hf
  rw [hsplit] at h ⊢
  exact find_between h hr hbefore hl ho hb (by omega) hpos hstops hstarts id

end Record

/-- At a position within a loose token the span of its frame is in effect, and none if that is the
root frame. -/
theorem owner_of_loose {carried : List Span} {base pos : Nat} {stack : List Frame}
    (h : Trace limit (Frame.around (carried.map kind)) (later ++ .loose token owner :: earlier)
      stack)
    (hr : stack.getLast? = some Frame.root)
    (he : EndedBy limit (later ++ .loose token owner :: earlier))
    (ho : ∀ span ∈ carried, span.isOpen = true ∧ span.first < base ∧ span.kind.lapses = false)
    (hpos : base + token.start ≤ pos) (hlt : pos < base + token.stop) (id : Nat) :
    ∃ id? outer, (Owners.along carried id earlier).stack = (owner, id?) :: outer ∧
      let found := (Record.along carried base id
        (later ++ .loose token owner :: earlier)).spans.find? (holds pos)
      (outer = [] → owner = Frame.root ∧ found = none) ∧
      (outer ≠ [] → ∃ span, found = some span ∧ id? = some span.id ∧ span.kind = owner.kind) := by
  have hl : ∀ f ∈ Frame.around (carried.map kind), f.kind.lapses = false :=
    Frame.forall_mem_around rfl (List.forall_mem_map.mpr (fun span hs => (ho span hs).2.2))
  have hopen := fun span hs => (ho span hs).1
  have hfind := Record.find_loose h hr he hl hopen (fun span hs => (ho span hs).2.1)
    hpos hlt id
  obtain ⟨stack', ht, hr'⟩ := h.earlier hr
  cases ht with
  | @loose _ _ rest _ ht _ =>
    have hframes := Owners.along_frames ht id
    have hunclosed := Owners.along_unclosed ht hr' hopen base id
    cases hs : (Owners.along carried id earlier).stack with
    | nil => simp [hs] at hframes
    | cons first outer =>
      rw [hs, List.map_cons, List.cons.injEq] at hframes
      rw [hs, List.map_cons] at hunclosed
      refine ⟨first.2, outer, by rw [← hframes.1], ?_⟩
      cases hu : unclosed (Record.along carried base id earlier).spans with
      | nil =>
        rw [hu] at hunclosed hfind
        rw [List.map_nil, List.nil_append, List.cons.injEq] at hunclosed
        obtain rfl := List.map_eq_nil_iff.mp hunclosed.2
        rw [← hframes.2, List.map_nil, List.getLast?_singleton, Option.some.injEq] at hr'
        exact ⟨fun _ => ⟨hr', Option.map_eq_none_iff.mp hfind⟩, fun hn => absurd rfl hn⟩
      | cons span inner =>
        rw [hu] at hunclosed hfind
        rw [List.map_cons, List.cons_append, List.cons.injEq] at hunclosed
        obtain ⟨hkind, hid⟩ := Prod.mk.inj hunclosed.1
        obtain ⟨found, hfound, hident⟩ := Option.map_eq_some_iff.mp hfind
        obtain ⟨hids, hkinds⟩ := Prod.mk.inj hident
        refine ⟨fun hn => by simp [hn] at hunclosed, fun _ => ⟨found, hfound, ?_, ?_⟩⟩
        · rw [hid, hids]
        · rw [(Prod.mk.inj hkinds).1, ← hkind, hframes.1]

end LineMarkup.Span

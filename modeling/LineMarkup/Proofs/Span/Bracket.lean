import LineMarkup.Proofs.Parser.Story
import LineMarkup.Proofs.Span.Order

namespace LineMarkup

open Text (HasAt)

namespace Span

/-- The span begins at its bracket, unless it is from before the line. -/
def Opens (text : Text) (base : Nat) (es : List Event) (span : Span) : Prop :=
  span.first < base ∨ ∃ c frame pos, span.kind.opening? = some c ∧
    .push frame (pos + 1) ∈ es ∧ span.first = base + pos ∧ HasAt text c pos

/-- The span ends at one of its brackets, if it ends at all. -/
def Closes (text : Text) (base : Nat) (es : List Event) (span : Span) : Prop :=
  ∀ last, span.last = some last → span.implicit = false ∧ span.first < last ∧
    ∃ c ∈ span.kind.closings, ∃ frame pos, .pop frame (pos + 1) false ∈ es ∧
      last = base + pos ∧ HasAt text c pos

/-- No span begins where another one ends, and where both end there is a dollar sign. -/
structure Apart (text : Text) (base : Nat) (a b : Span) : Prop where
  before : ∀ last, a.last = some last → b.first ≠ last
  after : ∀ last, b.last = some last → a.first ≠ last
  shared : ∀ last, a.last = some last → b.last = some last →
    ∃ pos, last = base + pos ∧ HasAt text '$' pos

theorem Apart.symm {a b : Span} (h : Apart text base a b) : Apart text base b a :=
  ⟨h.after, h.before, fun last ha hb => h.shared last hb ha⟩

def KeepsApart (text : Text) (base : Nat) (a b : Span) : Prop :=
  a.kind.isDelimited = true → b.kind.isDelimited = true → Apart text base a b

instance (text : Text) (base : Nat) : Std.Symm (KeepsApart text base) :=
  ⟨fun _ _ h hb ha => (h ha hb).symm⟩

/-- The delimited ones of some spans that were recorded along events. -/
structure Bracketed (text : Text) (base : Nat) (es : List Event) (spans : List Span) : Prop where
  opens : ∀ span ∈ spans, span.kind.isDelimited = true → span.Opens text base es
  closes : ∀ span ∈ spans, span.kind.isDelimited = true → span.Closes text base es
  apart : spans.Pairwise (KeepsApart text base)

variable {text : Text} {base id : Nat} {es : List Event} {span : Span} {spans carried : List Span}

theorem Opens.more (h : span.Opens text base es) (e : Event) : span.Opens text base (e :: es) := by
  rcases h with hlt | ⟨c, frame, pos, hc, hp, hfirst⟩
  · exact .inl hlt
  · exact .inr ⟨c, frame, pos, hc, List.mem_cons_of_mem _ hp, hfirst⟩

theorem Closes.more (h : span.Closes text base es) (e : Event) :
    span.Closes text base (e :: es) := by
  intro last hl
  obtain ⟨hi, hlt, c, hc, frame, pos, hp, hlast⟩ := h last hl
  exact ⟨hi, hlt, c, hc, frame, pos, List.mem_cons_of_mem _ hp, hlast⟩

/-- Where nothing is opened beyond, all spans begin before. -/
theorem Opens.lt {pos : Nat} (h : span.Opens text base es)
    (hp : ∀ frame stop, .push frame stop ∈ es → stop ≤ pos) : span.first < base + pos := by
  rcases h with hlt | ⟨_, frame, m, _, hm, hfirst, _⟩
  · omega
  · have := hp frame (m + 1) hm
    omega

namespace Bracketed

theorem nil (text : Text) (base : Nat) (es : List Event) : Bracketed text base es [] :=
  ⟨List.forall_mem_nil _, List.forall_mem_nil _, .nil⟩

theorem more (h : Bracketed text base es spans) (e : Event) :
    Bracketed text base (e :: es) spans :=
  ⟨fun span hs hd => (h.opens span hs hd).more e, fun span hs hd => (h.closes span hs hd).more e,
    h.apart⟩

theorem reverse (h : Bracketed text base es spans) : Bracketed text base es spans.reverse := by
  refine ⟨fun span hm => h.opens span (List.mem_reverse.mp hm),
    fun span hm => h.closes span (List.mem_reverse.mp hm), List.pairwise_reverse.mpr ?_⟩
  exact h.apart.imp (fun hab => Std.Symm.symm _ _ hab)

/-- Spans that are not delimited do not count. -/
theorem cons (h : Bracketed text base es spans) (hn : span.kind.isDelimited = false) :
    Bracketed text base es (span :: spans) := by
  refine ⟨List.forall_mem_cons.mpr ⟨fun hd => ?_, h.opens⟩,
    List.forall_mem_cons.mpr ⟨fun hd => ?_, h.closes⟩,
    .cons (fun _ _ hd => ?_) h.apart⟩ <;> simp [hn] at hd

/-- A new span begins after all brackets so far. -/
theorem push (h : Bracketed text base es spans) (ho : span.last = none)
    (hopens : span.kind.isDelimited = true → span.Opens text base es)
    (hafter : ∀ frame pos, .pop frame (pos + 1) false ∈ es → base + pos < span.first) :
    Bracketed text base es (span :: spans) := by
  refine ⟨List.forall_mem_cons.mpr ⟨hopens, h.opens⟩,
    List.forall_mem_cons.mpr ⟨fun _ last hl => ?_, h.closes⟩,
    .cons (fun other hm _ hd => ⟨fun last hl => ?_, fun last hl => ?_, fun last hl => ?_⟩) h.apart⟩
  · rw [ho] at hl
    cases hl
  · rw [ho] at hl
    cases hl
  · obtain ⟨_, _, _, _, frame, pos, hp, rfl, _⟩ := h.closes other hm hd last hl
    exact Nat.ne_of_gt (hafter frame pos hp)
  · rw [ho] at hl
    cases hl

/-- A span may be closed where no other one begins, and none ends but at a dollar sign. -/
theorem close {inner outer : List Span} {last : Nat} {implicit : Bool}
    (h : Bracketed text base es (inner ++ span :: outer))
    (hcloses : span.kind.isDelimited = true →
      Closes text base es { span with last := some last, implicit })
    (hothers : span.kind.isDelimited = true → ∀ other ∈ inner ++ outer,
      other.kind.isDelimited = true → other.first ≠ last ∧
        (other.last = some last → ∃ pos, last = base + pos ∧ HasAt text '$' pos)) :
    Bracketed text base es (inner ++ { span with last := some last, implicit } :: outer) := by
  obtain ⟨hopens, hends, hpairs⟩ := h
  have hsymm {a b : Span} (hab : KeepsApart text base a b) : KeepsApart text base b a :=
    Std.Symm.symm _ _ hab
  obtain ⟨hspan, hrest⟩ := List.pairwise_cons.mp ((List.pairwise_middle hsymm).mp hpairs)
  refine ⟨?_, ?_, (List.pairwise_middle hsymm).mpr (.cons (fun other hm hd hd' => ?_) hrest)⟩
  · -- Only the end of the span has changed.
    obtain ⟨hinner, houter⟩ := List.forall_mem_append.mp hopens
    obtain ⟨hown, houter⟩ := List.forall_mem_cons.mp houter
    exact List.forall_mem_append.mpr ⟨hinner, List.forall_mem_cons.mpr ⟨hown, houter⟩⟩
  · obtain ⟨hinner, houter⟩ := List.forall_mem_append.mp hends
    obtain ⟨_, houter⟩ := List.forall_mem_cons.mp houter
    exact List.forall_mem_append.mpr ⟨hinner, List.forall_mem_cons.mpr ⟨hcloses, houter⟩⟩
  · obtain ⟨hfirst, hlast⟩ := hothers hd other hm hd'
    refine ⟨fun l hl => ?_, (hspan other hm hd hd').after, fun l hl => ?_⟩
    · exact Option.some.inj hl ▸ hfirst
    · exact Option.some.inj hl ▸ hlast

/-- The innermost open span, if it is of this kind, ends with a character that closes it. -/
theorem pop {kind : Construct} (h : Bracketed text base es spans) (hclosed : ClosedBy text c pos es)
    (hc : c ∈ kind.closings) :
    Bracketed text base (.pop frame (pos + 1) false :: es)
      (Record.closeInnermost kind (base + pos) false spans) := by
  rcases Record.closeInnermost_split kind (base + pos) false spans with
    heq | ⟨inner, span, outer, rfl, _, rfl, heq⟩
  · rw [heq]
    exact h.more _
  · rw [heq]
    have hmem (other : Span) (hm : other ∈ inner ++ outer) : other ∈ inner ++ span :: outer := by
      rw [List.mem_append] at hm ⊢
      exact hm.imp_right (List.mem_cons_of_mem _)
    refine (h.more _).close (fun hd last hl => ?_) (fun hd other hm hd' => ⟨?_, fun hl => ?_⟩)
    · obtain rfl := Option.some.inj hl
      have hopens := h.opens span (List.mem_append_right _ List.mem_cons_self) hd
      exact ⟨rfl, hopens.lt hclosed.opened, c, hc, frame, pos, List.mem_cons_self, rfl,
        hclosed.sign⟩
    · exact Nat.ne_of_lt ((h.opens other (hmem other hm) hd').lt hclosed.opened)
    · obtain ⟨_, _, _, _, frame', pos', hp, hpos, _⟩ := h.closes other (hmem other hm) hd' _ hl
      obtain rfl : pos = pos' := by omega
      refine ⟨pos, rfl, ?_⟩
      by_cases hdollar : c = '$'
      · exact hdollar ▸ hclosed.sign
      · exact absurd (hclosed.ended hdollar _ hp) (Nat.not_succ_le_self pos)

/-- What is not delimited may end anywhere. -/
theorem pop_other {kind : Construct} (h : Bracketed text base es spans)
    (hk : kind.isDelimited = false) (e : Event) (last : Nat) (implicit : Bool) :
    Bracketed text base (e :: es) (Record.closeInnermost kind last implicit spans) := by
  rcases Record.closeInnermost_split kind last implicit spans with
    heq | ⟨inner, span, outer, rfl, _, rfl, heq⟩
  · rw [heq]
    exact h.more _
  · rw [heq]
    refine (h.more _).close (fun hd => ?_) (fun hd => ?_) <;> simp [hk] at hd

end Bracketed

theorem lastOf_closed {pos : Nat} (r : Record) (h : frame.start ≤ pos) :
    r.lastOf frame (pos + 1) = r.base + pos := by
  unfold Record.lastOf
  omega

end Span

open LineMarkup.Span in
/-- All delimited spans of a parse stand at their brackets. -/
theorem Reported.bracketed {carried : List Span} (h : Reported text start es stack)
    (ho : ∀ span ∈ carried, span.isOpen = true) (hb : ∀ span ∈ carried, span.first < base)
    (hk : ∀ f ∈ start, f.start = 0) (id : Nat) :
    Bracketed text base es (Record.along carried base id es).spans := by
  obtain ⟨ht, hs⟩ := h
  induction hs with
  | nil =>
    have hopen : ∀ span ∈ carried.reverse, span.last = none := fun span hm =>
      Option.isNone_iff_eq_none.mp (ho span (List.mem_reverse.mp hm))
    refine ⟨fun span hm _ => .inl (hb span (List.mem_reverse.mp hm)), fun span hm _ last hl => ?_,
      List.pairwise_of_forall_mem_list (fun a ha b hb _ _ => ⟨?_, ?_, ?_⟩)⟩
    · rw [hopen span hm] at hl
      cases hl
    · rw [hopen a ha]
      nofun
    · rw [hopen b hb]
      nofun
    · rw [hopen a ha]
      nofun
  | @push es stack stop frame hs _ _ _ _ _ _ opened ih =>
    cases ht with
    | push ht _ _ _ begins =>
      rw [Record.along_cons]
      refine ((ih ht).more _).push rfl (fun hd => ?_) (fun closing pos hm => ?_)
      · obtain ⟨c, hc⟩ := Construct.exists_opening hd
        obtain ⟨hat, hstop⟩ := opened c hc
        subst hstop
        refine .inr ⟨c, frame, frame.start, hc, List.mem_cons_self, ?_, hat⟩
        rw [Record.along_base]
      · have hm := (List.mem_cons.mp hm).resolve_left nofun
        have hle : pos + 1 ≤ frame.start := begins.ended hm rfl
        rw [Record.along_base]
        exact Nat.add_lt_add_left hle base
  | @pop es frame stack stop hs last closed ih =>
    cases ht with
    | pop ht =>
      rw [Record.along_cons]
      cases hd : frame.kind.isDelimited with
      | false => exact (ih ht).pop_other hd _ _ _
      | true =>
        obtain ⟨c, hc, pos, rfl, hclosed⟩ := closed (Construct.closings_ne_nil hd)
        -- The frame was there before its closing bracket.
        have hle : frame.start ≤ pos := by
          rcases ht.frames_pushed frame List.mem_cons_self with hf | ⟨stop, hp, hlt⟩
          · rw [hk frame hf]
            exact Nat.zero_le pos
          · exact Nat.le_trans (Nat.le_of_lt hlt) (hclosed.opened frame stop hp)
        have hlast := lastOf_closed (Record.along carried base id es) hle
        rw [Record.along_base] at hlast
        simp only [Record.see, hlast]
        exact (ih ht).pop hclosed hc
  | instant hs =>
    rename_i ih
    cases ht with
    | instant ht =>
      rw [Record.along_cons]
      simp only [Record.see]
      split
      · rename_i hname
        refine ((ih ht).more _).cons ?_
        simp only [Bool.or_eq_true, decide_eq_true_eq] at hname
        rcases hname with hname | hname <;> rw [hname] <;> rfl
      · exact (ih ht).more _
  | loose hs =>
    rename_i ih
    cases ht with
    | loose ht =>
      rw [Record.along_cons]
      exact (ih ht).more _

end LineMarkup

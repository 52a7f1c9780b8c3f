import LineMarkup.Proofs.Line.Spans
import Mathlib.Data.List.Forall2

namespace LineMarkup

namespace Span

variable {carried spans : List Span} {base id limit stop : Nat} {frame : Frame}
  {es : List Event} {stack frames : List Frame}

/-- A frame from before the line stands for a span that was open there. Any other begins where its
span does. -/
structure StandsFor (carried : List Span) (base : Nat) (span : Span) (frame : Frame) : Prop where
  kind : span.kind = frame.kind
  carried : frame.carried = true → span ∈ carried
  first : frame.carried = false → span.first = base + frame.start

/-- The open spans are the frames within the root frame, both the innermost first. -/
def Mirrors (carried : List Span) (base : Nat) (spans : List Span) (stack : List Frame) : Prop :=
  ∃ frames, stack = frames ++ [Frame.root] ∧
    List.Forall₂ (StandsFor carried base) (unclosed spans) frames

namespace Mirrors

theorem start (ho : ∀ span ∈ carried, span.isOpen = true) (base : Nat) :
    Mirrors carried base carried.reverse (Frame.around (carried.map kind)) := by
  refine ⟨(carried.map (fun span => Frame.carriedOver span.kind)).reverse, ?_, ?_⟩
  · simp [Frame.around]
  · have hall : unclosed carried.reverse = carried.reverse :=
      List.filter_eq_self.mpr (fun span hm => ho span (List.mem_reverse.mp hm))
    rw [hall, List.forall₂_reverse_iff, List.forall₂_map_right_iff, List.forall₂_same]
    intro span hm
    exact ⟨rfl, fun _ => hm, fun hn => by cases hn⟩

theorem push (h : Mirrors carried base spans stack) {span : Span} (ho : span.isOpen = true)
    (hs : StandsFor carried base span frame) :
    Mirrors carried base (span :: spans) (frame :: stack) := by
  obtain ⟨frames, rfl, hall⟩ := h
  refine ⟨frame :: frames, rfl, ?_⟩
  rw [unclosed, List.filter_cons_of_pos ho]
  exact .cons hs hall

theorem meet (h : Mirrors carried base spans stack) {span : Span} (ho : span.isOpen = false) :
    Mirrors carried base (span :: spans) stack := by
  obtain ⟨frames, rfl, hall⟩ := h
  refine ⟨frames, rfl, ?_⟩
  rwa [unclosed, List.filter_cons_of_neg (by simp [ho])]

/-- The innermost frame stands for the innermost open span, if it is not the root frame. -/
theorem innermost (h : Mirrors carried base spans (frame :: stack))
    (hr : stack.getLast? = some Frame.root) :
    ∃ span inner, unclosed spans = span :: inner ∧ StandsFor carried base span frame := by
  obtain ⟨frames, hstack, hall⟩ := h
  generalize unclosed spans = opened at hall ⊢
  cases hall with
  | nil =>
    obtain ⟨-, rfl⟩ := List.cons.inj hstack
    cases hr
  | @cons span top inner _ hs _ =>
    obtain ⟨rfl, -⟩ := List.cons.inj hstack
    exact ⟨span, inner, rfl, hs⟩

theorem pop (h : Mirrors carried base spans (frame :: stack))
    (hr : stack.getLast? = some Frame.root) (last : Nat) (implicit : Bool) :
    Mirrors carried base (Record.closeInnermost frame.kind last implicit spans) stack := by
  obtain ⟨span, inner, hu, hs⟩ := h.innermost hr
  obtain ⟨frames, hstack, hall⟩ := h
  rw [hu] at hall
  cases hall with
  | @cons _ top _ frames _ hall =>
    obtain ⟨-, rfl⟩ := List.cons.inj hstack
    refine ⟨frames, rfl, ?_⟩
    rwa [Record.closeInnermost_unclosed (by simp [hu, hs.kind]), hu, List.tail_cons]

/-- Each event keeps the record and the stack together. -/
theorem along (h : Trace limit (Frame.around (carried.map Span.kind)) es stack)
    (hr : stack.getLast? = some Frame.root) (ho : ∀ span ∈ carried, span.isOpen = true)
    (base id : Nat) : Mirrors carried base (Record.along carried base id es).spans stack := by
  generalize hf : Frame.around (carried.map Span.kind) = around at h
  induction h with
  | nil => exact hf ▸ start ho base
  | @push es stack frame stop h hn _ _ _ ih =>
    have hmirrors := ih (Frame.getLast_of_push hn hr)
    rw [Record.along_cons]
    apply hmirrors.push
    · rfl
    · exact ⟨rfl, fun hc => by simp [hn] at hc, fun _ => by simp [Record.along_base]⟩
  | @pop es frame stack stop implicit h _ _ _ ih =>
    obtain ⟨below, rest, rfl⟩ : ∃ below rest, stack = below :: rest :=
      List.exists_cons_of_ne_nil (fun hn => by simp [hn] at hr)
    have hmirrors := ih (by rwa [List.getLast?_cons_cons])
    rw [Record.along_cons]
    exact hmirrors.pop hr _ implicit
  | @instant es stack stop frame _ _ _ ih =>
    have hmirrors := ih hr
    rw [Record.along_cons]
    simp only [Record.see]
    split
    · exact hmirrors.meet rfl
    · exact hmirrors
  | loose _ _ ih =>
    rw [Record.along_cons]
    exact ih hr

end Mirrors

theorem isSorted_firsts (h : isSorted spans = true) :
    spans.Pairwise (fun a b => a.first ≤ b.first) := by
  induction spans with
  | nil => exact .nil
  | cons a rest ih =>
    cases rest with
    | nil => exact List.pairwise_singleton _ a
    | cons b rest =>
      rw [isSorted, Bool.and_eq_true] at h
      obtain ⟨hab, hrest⟩ := h
      have hle : a.first ≤ b.first := by
        simp only [precedes, Bool.or_eq_true, decide_eq_true_eq, Bool.and_eq_true] at hab
        omega
      have hpairs := ih hrest
      refine .cons (List.forall_mem_cons.mpr ⟨hle, fun c hc => ?_⟩) hpairs
      exact Nat.le_trans hle (List.rel_of_pairwise_cons hpairs hc)

/-- Open spans of a sorted list begin one after another, if no two of them begin together. -/
theorem unclosed_ascending (h : isSorted spans = true)
    (hd : ((unclosed spans).map first).Nodup) :
    (unclosed spans).Pairwise (fun a b => a.first < b.first) := by
  have hle := (isSorted_firsts h).filter isOpen
  have hne := List.pairwise_map.mp hd
  exact (hle.and hne).imp (fun ⟨hle, hne⟩ => Nat.lt_of_le_of_ne hle hne)

end Span

namespace Parse

open LineMarkup.Span

/-- The stack of a parse after any number of rounds, and after any of the events it reports, is
mirrored by the record of these events. -/
theorem rounds_mirrors {carried : List Span} (ho : ∀ span ∈ carried, span.isOpen = true)
    (text : Text) (base id n : Nat) :
    let p := (Parser.ofText text (carried.map kind)).rounds n
    let record := (Record.start carried base id).seeAll p.events.reverse
    Mirrors carried base record.spans p.stack := by
  intro p record
  obtain ⟨pos, hsteady⟩ := Parser.rounds_steady (Parser.ofText_steady text (carried.map kind)) n
  exact Mirrors.along hsteady.trace hsteady.rooted ho base id

theorem report_earlier {text : Text} {kinds : List Construct} {seen rest : List Event}
    (h : (ofText text kinds).report false = seen ++ rest) :
    ∃ stack, Trace text.size (Frame.around kinds) seen.reverse stack ∧
      stack.getLast? = some Frame.root := by
  obtain ⟨htrace, _⟩ := report_trace text kinds false
  rw [h, List.reverse_append] at htrace
  exact htrace.earlier (unclosed_rooted text kinds)

end Parse

namespace Analysis

open LineMarkup.Span

/-- Spans of earlier lines have been recorded in order, and each of those still open begins before
the line where no other one does. Then the open spans of the line are at any time the frames of its
parse within the root frame: after any number of rounds, and after any event, so that each pop finds
a span of its kind. Those that are left are, in the order of the list, the frames that go on after
the line. -/
theorem ofLine_mirrors (text : Text) (previous : List Span) (base id : Nat)
    (hs : isSorted previous = true) (hd : ((unclosed previous).map first).Nodup)
    (hb : ∀ span ∈ unclosed previous, span.first < base) :
    let carried := unclosed previous
    let kinds := carried.map kind
    let parse := Parse.ofText text kinds
    let record := fun events => (Record.start carried base id).seeAll events
    (∀ n, let p := (Parser.ofText text kinds).rounds n
      Mirrors carried base (record p.events.reverse).spans p.stack) ∧
    (∀ seen rest, parse.report false = seen ++ rest → ∃ stack,
      Event.replayAll? (Frame.around kinds) seen = some stack ∧
      Mirrors carried base (record seen).spans stack) ∧
    (∀ seen frame stop implicit rest,
      parse.report false = seen ++ .pop frame stop implicit :: rest →
      ∃ span inner, unclosed (record seen).spans = span :: inner ∧ span.kind = frame.kind) ∧
    ∃ frames, parse.unclosed = frames.reverse ++ [Frame.root] ∧
      List.Forall₂ (StandsFor carried base) (unclosed (ofLine text previous base id).1.spans)
        frames := by
  intro carried kinds parse record
  have ho : ∀ span ∈ carried, span.isOpen = true := fun span hm => (List.mem_filter.mp hm).2
  refine ⟨Parse.rounds_mirrors ho text base id, ?_, ?_, ?_⟩
  · intro seen rest hreport
    obtain ⟨stack, htrace, hrooted⟩ := Parse.report_earlier hreport
    have hreplay := htrace.replayAll
    have hmirrors := Mirrors.along htrace hrooted ho base id
    rw [List.reverse_reverse] at hreplay
    rw [Record.along, List.reverse_reverse] at hmirrors
    exact ⟨stack, hreplay, hmirrors⟩
  · intro seen frame stop implicit rest hreport
    rw [← List.singleton_append, ← List.append_assoc] at hreport
    obtain ⟨stack, htrace, hrooted⟩ := Parse.report_earlier hreport
    rw [List.reverse_append, List.reverse_singleton, List.singleton_append] at htrace
    cases htrace with
    | pop htrace _ _ _ =>
      obtain ⟨below, rest, rfl⟩ : ∃ below rest, stack = below :: rest :=
        List.exists_cons_of_ne_nil (fun hn => by simp [hn] at hrooted)
      have hmirrors :=
        Mirrors.along htrace (by rwa [List.getLast?_cons_cons]) ho base id
      rw [Record.along, List.reverse_reverse] at hmirrors
      obtain ⟨span, inner, hu, hs⟩ := hmirrors.innermost hrooted
      exact ⟨span, inner, hu, hs.kind⟩
  · obtain ⟨htrace, _⟩ := Parse.report_trace text kinds false
    have hrooted := Parse.unclosed_rooted text kinds
    obtain ⟨frames, hframes, hall⟩ := Mirrors.along htrace hrooted ho base id
    have hspans : (ofLine text previous base id).1.spans =
        (Record.along carried base id (parse.report false).reverse).spans.reverse := by
      rw [← Record.sorted_of_descending _
        (Record.along_ascending htrace (unclosed_ascending hs hd) hb), Record.along,
        List.reverse_reverse]
      rfl
    refine ⟨frames.reverse, ?_, ?_⟩
    · rw [List.reverse_reverse]
      exact hframes
    · rw [hspans, unclosed, List.filter_reverse, List.forall₂_reverse_iff]
      exact hall

/-- Strong prose, then math, in a block of content that was opened on an earlier line. -/
theorem mirrors_in_block :
    let previous : List Span :=
      [⟨0, .contentBlock, 0, none, false⟩, ⟨1, .strong, 1, some 3, false⟩]
    isSorted previous = true ∧ ((unclosed previous).map first).Nodup ∧
      (∀ span ∈ unclosed previous, span.first < 5) ∧
      ∃ frames, (Parse.ofText "*a* $(".toList ((unclosed previous).map kind)).unclosed =
          frames.reverse ++ [Frame.root] ∧
        List.Forall₂ (StandsFor (unclosed previous) 5)
          (unclosed (ofLine "*a* $(".toList previous 5 2).1.spans) frames := by
  intro previous
  have hs : isSorted previous = true := by decide
  have hd : ((unclosed previous).map first).Nodup := by decide
  have hb : ∀ span ∈ unclosed previous, span.first < 5 := by decide
  obtain ⟨_, _, _, hleft⟩ := ofLine_mirrors "*a* $(".toList previous 5 2 hs hd hb
  exact ⟨hs, hd, hb, hleft⟩

end Analysis

end LineMarkup

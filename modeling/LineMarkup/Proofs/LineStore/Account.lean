import LineMarkup.Proofs.LineStore.Closing
import LineMarkup.Proofs.Parser.Sparing
import LineMarkup.Proofs.Span.Spare

namespace LineMarkup

/-- A span that has not ended is not found to end without a mark of its own. -/
theorem Analysis.ofLine_explicit {previous : List Span} {base : Nat}
    (hc : Span.Carried base (Span.unclosed previous))
    (hp : ∀ span ∈ Span.unclosed previous, span.isOpen = true → span.implicit = false)
    (text : Text) (id : Nat) :
    ∀ span ∈ (ofLine text previous base id).1.spans, span.isOpen = true → span.implicit = false := by
  obtain ⟨es, _, _, _, hs, _⟩ := ofLine_along hc text id
  intro span hm
  rw [hs, List.mem_reverse] at hm
  exact Span.Record.along_explicit (fun span hm => hp span hm (hc.opened span hm)) id span hm

/-- No link goes on after its line. -/
theorem Span.Carried.unlinked {base : Nat} {carried : List Span} (h : Carried base carried) :
    ∀ kind ∈ carried.map Span.kind, kind ≠ .link := by
  intro kind hk hlink
  obtain ⟨span, hm, rfl⟩ := List.mem_map.mp hk
  have hlasts := h.lasting span hm
  rw [hlink] at hlasts
  cases hlasts

namespace Parse

/-- What ends with the line, the latest first. -/
def endings (parse : Parse) : List Event :=
  (parse.ended.map fun frame => .pop frame parse.stop true).reverse

theorem ofText_ended (text : Text) (carried : List Construct) :
    (ofText text carried).ended =
      (Parser.finish text carried).stack.takeWhile (·.kind.endsWithLine) :=
  rfl

/-- What ends with the line begins with the innermost construct. -/
theorem ofText_endings (text : Text) (carried : List Construct)
    (h : (Parser.finish text carried).top.kind.endsWithLine = true) :
    ∃ more, (ofText text carried).endings =
      more ++ [.pop (Parser.finish text carried).top text.size true] := by
  obtain ⟨_, hsteady⟩ := Parser.rounds_steady (Parser.ofText_steady text carried)
    (Parser.ofText text carried).roundLimit
  have hrooted : Parser.Rooted (Parser.finish text carried) := hsteady.rooted
  obtain ⟨below, hstack⟩ := hrooted.stack_eq
  refine ⟨((below.takeWhile (·.kind.endsWithLine)).map
    fun frame => .pop frame text.size true).reverse, ?_⟩
  rw [endings, ofText_ended, hstack, List.takeWhile_cons_of_pos (by exact h), List.map_cons,
    List.reverse_cons]
  rfl

theorem report_reverse (text : Text) (carried : List Construct) :
    ((ofText text carried).report false).reverse =
      (ofText text carried).endings ++ (Parser.finish text carried).events := by
  rw [report, List.reverse_append]
  exact congrArg _ (List.reverse_reverse _)

theorem finish_told (text : Text) (carried : List Construct) :
    Parser.Told text (Frame.around carried) (Parser.finish text carried) :=
  Parser.rounds_told (Parser.ofText_told text carried) (Parser.ofText_steady text carried) _

/-- Only at the end of a text something is closed without a mark of its own. -/
theorem finish_explicit (text : Text) (carried : List Construct) (frame : Frame) (stop : Nat) :
    .pop frame stop true ∉ (Parser.finish text carried).events := by
  intro hm
  cases (finish_told text carried).story.pop_explicit frame stop true hm

end Parse

namespace Document

open LineMarkup.Span (Record)

variable {d : Document} {line : Line} {span : Span} {frame : Frame} {token : Token}
  {later earlier es : List Event} {light : Construct → Bool} {around : Construct}
  {i id pos : Nat}

/-- What a line is parsed within admits what stands in it. -/
theorem Valid.orderly_within (h : Valid d) (i : Nat) :
    Parse.Orderly ((d.within i).map Span.kind) := by
  have horderly := h.orderly_before i
  rwa [lastAfter_none] at horderly

theorem Valid.explicit (h : Valid d) (hl : line ∈ d.lines) (hs : span ∈ line.analysis.spans) :
    span.isOpen = true → span.implicit = false :=
  h.chain.every (P := fun span => span.isOpen = true → span.implicit = false) grounded_none
    Analysis.ofLine_explicit (by simp [openAfter, Span.unclosed]) line hl span hs

/-- An account of line `i`: events, the latest first, that its spans were recorded along. -/
structure Account (d : Document) (i : Nat) (line : Line) (id : Nat) (es : List Event) : Prop where
  carried : Span.Carried line.start (d.within i)
  trace : ∃ stack, Trace line.text.size (Frame.around ((d.within i).map Span.kind)) es stack ∧
    stack.getLast? = some Frame.root
  ended : EndedBy line.text.size es
  spans : line.analysis.spans = (Record.along (d.within i) line.start id es).spans.reverse
  implicit : ∀ frame stop, .pop frame stop true ∈ es → frame.kind.endsWithLine = true

/-- The parse of a line is an account of it, with what ends with the line. -/
theorem Valid.account (h : Valid d) (hl : d.lines[i]? = some line) (hs : line.shebang = false) :
    ∃ id, Account d i line id ((Parse.ofText line.text ((d.within i).map Span.kind)).endings ++
      (Parser.finish line.text ((d.within i).map Span.kind)).events) := by
  obtain ⟨hc, id, hline⟩ := h.chain.ofLine hl hs
  have hopen : Span.unclosed (d.within i) = d.within i := List.filter_eq_self.mpr hc.opened
  obtain ⟨es, ht, hended, hes, hspans, _⟩ :=
    Analysis.ofLine_along (hopen.symm ▸ hc) line.text id
  rw [hopen] at ht hes hspans
  refine ⟨id, ?_⟩
  rw [← Parse.report_reverse, ← hes]
  refine ⟨hc, ⟨_, ht, Parse.unclosed_rooted _ _⟩, hended, by rw [hline, hspans],
    fun frame stop hm => ?_⟩
  rw [hes, List.mem_reverse] at hm
  exact Parse.report_implicit hm

/-- In effect at a loose token is the span of the frame that it stands in. -/
theorem Account.spanAt_loose (h : Account d i line id es) (hl : d.lines[i]? = some line)
    (hm : .loose token frame ∈ es) (hlow : line.start + token.start ≤ pos)
    (hhigh : pos < line.start + token.stop) :
    ((d.store.spanAt? i pos).map Span.kind).getD .content = frame.kind := by
  obtain ⟨later, earlier, rfl⟩ := List.append_of_mem hm
  obtain ⟨stack, ht, hr⟩ := h.trace
  obtain ⟨_, outer, _, hroot, howner⟩ := Span.owner_of_loose ht hr h.ended
    (fun span hm => ⟨h.carried.opened span hm, h.carried.before span hm,
      h.carried.lasting span hm⟩) hlow hhigh id
  rw [spanAt_eq hl, h.spans, List.reverse_reverse]
  by_cases ho : outer = []
  · obtain ⟨hframe, hnone⟩ := hroot ho
    rw [hnone, hframe]
    rfl
  · obtain ⟨span, hspan, _, hkind⟩ := howner ho
    rw [hspan, Option.map_some, Option.getD_some, hkind]

section Finished

variable (hsize : 0 < line.text.size)

include hsize

/-- What is around the end of a line is what is open there. -/
theorem Account.head_finished (h : Account d i line id es) (hlight : light .content = false) :
    ((Record.burden light (line.start + line.text.size) (Record.along (d.within i) line.start id
      (Parser.finish line.text ((d.within i).map Span.kind)).events).spans).head?.map (·.1)).getD
        .content =
    (((Parser.finish line.text ((d.within i).map Span.kind)).stack.map Frame.kind).find?
      (!light ·)).getD .content := by
  obtain ⟨_, hsteady⟩ := Parser.rounds_steady
    (Parser.ofText_steady line.text ((d.within i).map Span.kind)) _
  exact Record.head_burden hsteady.trace hsteady.rooted
    (hsteady.ended.mono hsteady.poised.tiles.le) h.carried (fun _ => hsize) hlight id

/-- A comment that ends with the line ends at its last position. -/
theorem Account.comment_ended
    (h : Account d i line id ((Parse.ofText line.text ((d.within i).map Span.kind)).endings ++
      (Parser.finish line.text ((d.within i).map Span.kind)).events))
    (htop : (Parser.finish line.text ((d.within i).map Span.kind)).top.kind = .commentLine) :
    ∃ span ∈ line.analysis.spans, span.kind = .commentLine ∧ span.implicit = true ∧
      span.first + 2 ≤ line.start + line.text.size ∧
      span.last = some (line.start + line.text.size - 1) := by
  obtain ⟨k, hfinish⟩ := Parser.ongoing_finish line.text h.carried.unlinked
  have hend : (Token.endless line.text k).start ≤ line.text.size := hfinish.steady.poised.tiles.le
  obtain ⟨more, hmore⟩ := Parse.ofText_endings line.text ((d.within i).map Span.kind)
    (by rw [htop]; rfl)
  generalize Parser.finish line.text ((d.within i).map Span.kind) = p at *
  have hrooted : p.stack.getLast? = some Frame.root := hfinish.steady.rooted
  obtain ⟨outer, rest, hstack⟩ := hfinish.steady.rooted.below_of_ne fun hroot => by
    rw [hroot] at htop
    cases htop
  have hmem : p.top ∈ p.stack := hstack ▸ List.mem_cons_self
  have hmirrors := Span.Mirrors.along hfinish.steady.trace hfinish.steady.rooted h.carried.opened
    line.start id
  rw [hstack] at hmirrors hrooted
  rw [List.getLast?_cons_cons] at hrooted
  obtain ⟨span, inner, hopen, hstands⟩ := hmirrors.innermost hrooted
  have hfirst : span.first + 2 ≤ line.start + line.text.size := by
    cases hcarried : p.top.carried with
    | true =>
      have := h.carried.before span (hstands.carried hcarried)
      omega
    | false =>
      have := hfinish.seated.comments p.top hmem (by rw [htop]; rfl) hcarried
      have := hstands.first hcarried
      omega
  have hlast : max (line.start + line.text.size - 1) (line.start + p.top.start) =
      line.start + line.text.size - 1 := by
    have htrace := hfinish.steady.trace
    rcases htrace.frames_filled (hfinish.steady.ended.mono hend) p.top hmem with hlt | hm
    · omega
    · have := htrace.frames_before p.top hm
      omega
  have hclosed := Record.mem_closeInnermost_head (line.start + line.text.size - 1) true
    (congrArg List.head? hopen) hstands.kind
  have hseen : { span with last := some (line.start + line.text.size - 1), implicit := true } ∈
      (Record.along (d.within i) line.start id
        (.pop p.top line.text.size true :: p.events)).spans := by
    rw [Record.along_cons]
    simpa only [Record.see, Record.lastOf, Record.along_base, hlast] using hclosed
  refine ⟨{ span with last := some (line.start + line.text.size - 1), implicit := true }, ?_,
    hstands.kind.trans htop, rfl, hfirst, rfl⟩
  rw [h.spans, List.mem_reverse, hmore, List.append_assoc]
  exact Record.along_kept hseen rfl more

end Finished

end Document

end LineMarkup

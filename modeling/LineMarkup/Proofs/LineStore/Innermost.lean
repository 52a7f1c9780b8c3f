import Mathlib
import LineMarkup.Proofs.LineStore.Lookup

namespace LineMarkup.Document

open LineMarkup.Span (Owners Record)

variable {d : Document} {line : Line} {before after : List Event} {token : Token} {frame : Frame}
variable {i pos : Nat}

/-- The spans that a line is parsed within. -/
def within (d : Document) (i : Nat) : List Span :=
  openAfter (d.lines.take i).getLast?

theorem spanAt_eq (hl : d.lines[i]? = some line) (pos : Nat) :
    d.store.spanAt? i pos = line.analysis.spans.reverse.find? (Span.holds pos) := by
  have hspans : d.store.lineSpans i = some line.analysis.spans := by simp [store, hl]
  simp only [LineStore.spanAt?, hspans]
  rfl

/-- Any line but an interpreter line is as it is parsed within the spans left open before it. -/
theorem Chain.ofLine (h : Chain none d.lines) (hl : d.lines[i]? = some line)
    (hs : line.shebang = false) :
    Span.Carried line.start (d.within i) ∧
      ∃ id, line.analysis = (Analysis.ofLine line.text (d.within i) line.start id).1 := by
  obtain ⟨hg, id, hline⟩ := h.getElem grounded_none hl
  rw [lastAfter_none] at hg hline
  generalize hprevious : (d.lines.take i).getLast? = previous at hg hline
  have hstart : line.start = startAfter previous := by rw [hline, parseLine_start]
  have hshebang : isShebang previous line.text = false := by
    rwa [hline, parseLine_shebang] at hs
  have hopen : Span.unclosed (openAfter previous) = openAfter previous :=
    List.filter_eq_self.mpr hg.opened
  rw [within, hprevious, hstart]
  refine ⟨hg, id, ?_⟩
  have hparse := (parseLine_ofLine hshebang id).1
  rw [← hline] at hparse
  rw [hparse, Analysis.ofLine, Analysis.ofLine, hopen]
  rfl

theorem Chain.spanAt_loose (h : Chain none d.lines) (hl : d.lines[i]? = some line)
    (hs : line.shebang = false)
    (he : (Parse.ofText line.text ((d.within i).map Span.kind)).events =
      before ++ .loose token frame :: after)
    (hlow : line.start + token.start ≤ pos) (hhigh : pos < line.start + token.stop) :
    ∃ id id? outer, line.analysis = (Analysis.ofLine line.text (d.within i) line.start id).1 ∧
      ((Owners.start (d.within i) id).seeAll before).stack = (frame, id?) :: outer ∧
      (outer = [] → frame = Frame.root ∧ d.store.spanAt? i pos = none) ∧
      (outer ≠ [] → ∃ span, d.store.spanAt? i pos = some span ∧ id? = some span.id ∧
        span.kind = frame.kind) := by
  obtain ⟨hc, id, hline⟩ := h.ofLine hl hs
  have hopen : Span.unclosed (d.within i) = d.within i := List.filter_eq_self.mpr hc.opened
  obtain ⟨es, ht, hended, hes, hspans, _⟩ := Analysis.ofLine_along (hopen.symm ▸ hc) line.text id
  rw [hopen] at ht hes hspans
  let parse := Parse.ofText line.text ((d.within i).map Span.kind)
  let pops := parse.ended.map (fun frame => Event.pop frame parse.stop true)
  have hsplit : es = (after ++ pops).reverse ++ .loose token frame :: before.reverse := by
    rw [hes, Parse.report, he]
    simp [pops, parse]
  rw [hsplit] at ht hended hspans
  obtain ⟨id?, outer, hstack, hroot, howner⟩ := Span.owner_of_loose ht
    (Parse.unclosed_rooted _ _) hended
    (fun span hm => ⟨hc.opened span hm, hc.before span hm, hc.lasting span hm⟩) hlow hhigh id
  rw [Owners.along, List.reverse_reverse] at hstack
  rw [spanAt_eq hl, hline, hspans, List.reverse_reverse]
  exact ⟨id, id?, outer, rfl, hstack, hroot, howner⟩

/-- At each position of a loose token the span in effect is that of the frame that the token stands
in, and there is none for the root frame. Thus the environment is the one of this frame. -/
theorem edited_environment {text : Text} {edits : List Edit}
    (hl : (edited text edits).lines[i]? = some line) (hs : line.shebang = false)
    (he : (Parse.ofText line.text (((edited text edits).within i).map Span.kind)).events =
      before ++ .loose token frame :: after)
    (hlow : line.start + token.start ≤ pos) (hhigh : pos < line.start + token.stop) :
    let d := edited text edits
    (∃ id id? outer, line.analysis = (Analysis.ofLine line.text (d.within i) line.start id).1 ∧
      ((Owners.start (d.within i) id).seeAll before).stack = (frame, id?) :: outer ∧
      (outer = [] → frame = Frame.root ∧ d.store.spanAt? i pos = none) ∧
      (outer ≠ [] → ∃ span, d.store.spanAt? i pos = some span ∧ id? = some span.id ∧
        span.kind = frame.kind)) ∧
    d.store.environment pos = .ofConstruct frame.kind := by
  intro d
  obtain ⟨hvalid, _⟩ := edited_valid text edits
  have hspan := hvalid.chain.spanAt_loose hl hs he hlow hhigh
  refine ⟨hspan, ?_⟩
  have hstop := Parse.loose_stop_le he
  have hline : d.store.lineOf? pos = some i := hvalid.lineOf_eq hl (by omega) (by omega)
  obtain ⟨_, _, outer, _, _, hroot, howner⟩ := hspan
  rw [LineStore.environment, hline]
  by_cases ho : outer = []
  · obtain ⟨hframe, hnone⟩ := hroot ho
    simp only [d, hnone, hframe]
    rfl
  · obtain ⟨span, hsome, _, hkind⟩ := howner ho
    simp only [d, hsome, hkind]

/-- Arguments that go on after a line that has moved. -/
theorem environment_of_arguments :
    let d := edited "#f(a\nb".toList [.insertLine 0 "x".toList]
    (∃ span, d.store.spanAt? 2 7 = some span ∧ span.kind = .codeArguments) ∧
      d.store.environment 7 = .code := by
  obtain ⟨hl, hw, he⟩ : (edited "#f(a\nb".toList [.insertLine 0 "x".toList]).lines[2]? = some {
        text := "b".toList
        start := 7
        seed := [(1, .codeArguments)]
        shebang := false
        analysis := { spans := [{ id := 1, kind := .codeArguments, first := 4, last := none }] } } ∧
      ((edited "#f(a\nb".toList [.insertLine 0 "x".toList]).within 2).map Span.kind =
        [.codeArguments] ∧
      (Parse.ofText "b".toList [.codeArguments]).events =
        [.loose { kind := .begin, start := 0, text := [] } (.carriedOver .codeArguments)] ++
        .loose { kind := .word, start := 0, text := "b".toList } (.carriedOver .codeArguments) ::
        [.loose { kind := .textEnd, start := 1, text := [] } (.carriedOver .codeArguments)] := by
    cbv
  have hpos : 7 + 0 ≤ 7 ∧ 7 < 7 + 1 := by decide
  obtain ⟨⟨_, _, outer, _, _, hroot, howner⟩, henvironment⟩ :=
    edited_environment hl rfl (hw ▸ he) hpos.1 hpos.2
  refine ⟨?_, henvironment⟩
  by_cases ho : outer = []
  · exact absurd (hroot ho).1 (by decide)
  · obtain ⟨span, hspan, _, hkind⟩ := howner ho
    exact ⟨span, hspan, hkind⟩

end LineMarkup.Document

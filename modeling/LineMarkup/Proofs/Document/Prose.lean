import Mathlib
import LineMarkup.Proofs.Document.Edit
import LineMarkup.Proofs.Line.Restart
import LineMarkup.Proofs.Marker.Prose

namespace LineMarkup

namespace Parse

variable {carried : List Construct}

/-- What goes on after a line is as orderly as what the line was parsed within. -/
theorem Orderly.goingOn (h : Orderly carried) (text : Text) :
    Orderly (ofText text carried).goingOn := by
  obtain ⟨stack, hr, _, hreport⟩ := reported text carried
  have hstack : (ofText text carried).ended ++ (ofText text carried).unclosed = stack := by
    have hpops := List.append_cancel_left (show _ ++ _ = _ from hreport)
    exact List.map_injective_iff.mpr (fun _ _ heq => (Event.pop.inj heq).1) hpops
  have hsuffix : (ofText text carried).unclosed <:+ stack := ⟨_, hstack⟩
  have hkinds := goingOn_kinds text carried
  constructor
  · have hsame : (Frame.around (ofText text carried).goingOn).map Frame.kind =
        (ofText text carried).unclosed.map Frame.kind := by
      rw [hkinds]
      simp [Frame.around, Frame.carriedOver, Function.comp_def]
    rw [hsame]
    exact (hr.story.nested_kinds h.nested).suffix (hsuffix.map _)
  · intro kind hk
    have hm : kind ∈ (ofText text carried).unclosed.map Frame.kind := by
      rw [hkinds]
      exact List.mem_append_left _ (List.mem_reverse.mpr hk)
    obtain ⟨f, hf, rfl⟩ := List.mem_map.mp hm
    rcases hr.story.frames_new f (hsuffix.subset hf) with hs | hl
    · exact h.frames f hs
    · exact hl

end Parse

namespace Document

variable {previous : Option Line} {lines : List Line} {line : Line} {d : Document}

/-- The constructs that the line after `previous` is parsed within. -/
def kindsAfter (previous : Option Line) : List Construct :=
  (openAfter previous).map Span.kind

theorem parseLine_orderly (hg : Grounded previous) (h : Parse.Orderly (kindsAfter previous))
    (text : Text) (id : Nat) :
    Parse.Orderly (kindsAfter (some (parseLine previous text id).1)) := by
  refine parseLine_spans (P := fun spans => Parse.Orderly (Span.unclosedKinds spans))
    Parse.orderly_nil (fun id => ?_) id
  have hgoing := Analysis.ofLine_unclosedKinds hg text id
  rw [Analysis.unclosedKinds] at hgoing
  rw [hgoing]
  exact h.goingOn text

theorem Chain.orderly (h : Chain previous lines) (hg : Grounded previous)
    (ho : Parse.Orderly (kindsAfter previous)) :
    Parse.Orderly (kindsAfter (lastAfter previous lines)) := by
  induction h with
  | nil => exact ho
  | parse id _ ih => exact ih (parseLine_grounded hg _ id) (parseLine_orderly hg ho _ id)

/-- No line has a mark of code, of a comment or of a sign in its prose. -/
theorem Valid.prose_apart (h : Valid d) (hl : line ∈ d.lines) :
    ∀ segment ∈ line.analysis.segments, ∀ m ∈ line.analysis.markers,
      m.kind.stylesProse = false →
        ∀ pos, segment.start ≤ pos → pos < segment.stop → ¬ (m.start ≤ pos ∧ pos < m.stop) := by
  obtain ⟨i, hi⟩ := List.mem_iff_getElem?.mp hl
  obtain ⟨hg, id, hline⟩ := h.chain.getElem grounded_none hi
  have hchain := h.chain
  rw [← List.take_append_drop i d.lines] at hchain
  have horderly := (Chain.append.mp hchain).1.orderly grounded_none Parse.orderly_nil
  generalize lastAfter none (d.lines.take i) = previous at hg hline horderly
  rw [hline]
  cases hs : isShebang previous line.text with
  | true =>
    rw [(parseLine_of_isShebang hs id).1]
    intro segment hm
    cases hm
  | false =>
    rw [(parseLine_ofLine hs id).1]
    exact Parse.prose_apart horderly line.text

/-- In a document that was edited in any way, what is prose in a line shares no position with what
is marked there, but for headings, emphasis and escapes. -/
theorem edited_prose (text : Text) (edits : List Edit) :
    let d := edited text edits
    ∀ line ∈ d.lines, ∀ segment ∈ line.analysis.segments, ∀ m ∈ line.analysis.markers,
      m.kind ∉ [MarkerKind.heading, .emphasis, .strong, .escape] →
        ∀ pos, segment.start ≤ pos → pos < segment.stop → ¬ (m.start ≤ pos ∧ pos < m.stop) := by
  intro d line hl segment hs m hm hk
  have hstyle : m.kind.stylesProse = false := by
    revert hk
    cases m.kind <;> decide
  exact (edited_valid text edits).1.prose_apart hl segment hs m hm hstyle

/-- Emphasized prose after a comment that began on the line before. -/
theorem prose_after_comment :
    let d := edited "/* a\nb".toList [.setLine 1 "b */ c *d @e*".toList]
    ∃ line ∈ d.lines, ⟨8, 10⟩ ∈ line.analysis.segments ∧
      ⟨.strong, 7, 13⟩ ∈ line.analysis.markers ∧ ⟨.comment, 0, 4⟩ ∈ line.analysis.markers ∧
      MarkerKind.comment ∉ [MarkerKind.heading, .emphasis, .strong, .escape] ∧
      8 ≤ 8 ∧ 8 < 10 ∧ ¬ (0 ≤ 8 ∧ 8 < 4) := by
  have hlines : (edited "/* a\nb".toList [.setLine 1 "b */ c *d @e*".toList]).lines.map
      (fun line => (line.analysis.segments, line.analysis.markers)) =
      [([], [⟨.comment, 0, 4⟩]),
        ([⟨4, 7⟩, ⟨8, 10⟩], [⟨.comment, 0, 4⟩, ⟨.reference, 10, 12⟩, ⟨.strong, 7, 13⟩])] := by
    cbv
  have hlast : ([⟨4, 7⟩, ⟨8, 10⟩],
      [⟨.comment, 0, 4⟩, ⟨.reference, 10, 12⟩, ⟨.strong, 7, 13⟩]) ∈
      (edited "/* a\nb".toList [.setLine 1 "b */ c *d @e*".toList]).lines.map
        (fun line => (line.analysis.segments, line.analysis.markers)) := by
    rw [hlines]
    simp
  obtain ⟨line, hl, heq⟩ := List.mem_map.mp hlast
  obtain ⟨hsegments, hmarkers⟩ := Prod.mk.inj heq
  have hs : ⟨8, 10⟩ ∈ line.analysis.segments := by
    rw [hsegments]
    simp
  have hm : ⟨.strong, 7, 13⟩ ∈ line.analysis.markers ∧
      ⟨.comment, 0, 4⟩ ∈ line.analysis.markers := by
    rw [hmarkers]
    simp
  have hk : MarkerKind.comment ∉ [MarkerKind.heading, .emphasis, .strong, .escape] := by decide
  exact ⟨line, hl, hs, hm.1, hm.2, hk, by decide, by decide,
    edited_prose "/* a\nb".toList [.setLine 1 "b */ c *d @e*".toList] line hl ⟨8, 10⟩ hs
      ⟨.comment, 0, 4⟩ hm.2 hk 8 (by decide) (by decide)⟩

end Document

end LineMarkup

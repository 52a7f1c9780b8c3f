import Mathlib
import LineMarkup.Proofs.Document.Continuity
import LineMarkup.Proofs.Span.Bracket

namespace LineMarkup

open LineMarkup.Span (Apart Bracketed Carried Record unclosed)
open Text (HasAt)

theorem Text.unlines_append (a b : List Text) (hb : b ≠ []) :
    ∃ before, unlines (a ++ b) = before ++ unlines b ∧ size before = Document.sizeOf a := by
  induction a with
  | nil => exact ⟨[], rfl, rfl⟩
  | cons piece a ih =>
    obtain ⟨before, heq, hs⟩ := ih
    refine ⟨piece ++ '\n' :: before, ?_, ?_⟩
    · have hne : a ++ b ≠ [] := fun hn => hb (List.append_eq_nil_iff.mp hn).2
      rw [unlines] at heq
      rw [List.cons_append, unlines, join.eq_3 _ _ _ hne, heq, List.append_assoc, List.cons_append]
    · have hbreak : '\n'.utf8Size = 1 := rfl
      rw [size_append, size_cons, hs, hbreak, Document.sizeOf]
      omega

namespace Analysis

/-- The end of the line ends nothing that is delimited. -/
theorem pops_bracketed {carried : List Span} {base id : Nat} {frames : List Frame}
    (h : Bracketed text base es (Record.along carried base id es).spans)
    (hf : ∀ f ∈ frames, f.kind.isDelimited = false) (limit : Nat) :
    Bracketed text base ((frames.map (fun f => .pop f limit true)).reverse ++ es)
      (Record.along carried base id
        ((frames.map (fun f => .pop f limit true)).reverse ++ es)).spans := by
  induction frames generalizing es with
  | nil => exact h
  | cons frame frames ih =>
    obtain ⟨hframe, hf⟩ := List.forall_mem_cons.mp hf
    rw [List.map_cons, List.reverse_cons, List.append_assoc]
    refine ih ?_ hf
    rw [List.singleton_append, Record.along_cons]
    exact h.pop_other hframe _ _ _

/-- All delimited spans of a line stand at their brackets. -/
theorem ofLine_bracketed {previous : List Span} {base : Nat}
    (hc : Carried base (unclosed previous)) (text : Text) (id : Nat) :
    ∃ es, Bracketed text base es (ofLine text previous base id).1.spans := by
  let parse := Parse.ofText text ((unclosed previous).map Span.kind)
  obtain ⟨_, _, _, rfl, hs, _⟩ := ofLine_along hc text id
  obtain ⟨stack, hr, _⟩ := Parse.reported text ((unclosed previous).map Span.kind)
  have hevents := hr.bracketed hc.opened hc.before
    (fun f hf => (hr.story.frames_carried f hf).2) id
  have hended : ∀ f ∈ parse.ended, f.kind.isDelimited = false := fun f hf =>
    Construct.not_delimited (List.all_eq_true.mp List.all_takeWhile f hf)
  have hall := pops_bracketed hevents hended parse.stop
  rw [← List.reverse_append] at hall
  rw [hs]
  exact ⟨_, hall.reverse⟩

end Analysis

namespace Document

variable {d : Document} {previous : Option Line} {line : Line} {span : Span} {c : Char}

theorem parseLine_bracketed (hg : Grounded previous) (text : Text) (id : Nat) :
    ∃ es, Bracketed text (startAfter previous) es
      (parseLine previous text id).1.analysis.spans :=
  parseLine_spans (P := fun spans => ∃ es, Bracketed text (startAfter previous) es spans)
    ⟨[], .nil _ _ _⟩ (Analysis.ofLine_bracketed hg text) id

namespace Valid

theorem bracketed (h : Valid d) (hl : line ∈ d.lines) :
    ∃ es, Bracketed line.text line.start es line.analysis.spans := by
  obtain ⟨i, hi⟩ := List.mem_iff_getElem?.mp hl
  obtain ⟨hg, id, hline⟩ := h.chain.getElem grounded_none hi
  have hbracketed := parseLine_bracketed hg line.text id
  rwa [← hline, ← parseLine_start _ line.text id, ← hline] at hbracketed

/-- The characters of a line are in the text, from the start of the line on. -/
theorem hasAt (h : Valid d) (hl : line ∈ d.lines) (hc : HasAt line.text c pos) :
    HasAt d.text c (line.start + pos) := by
  obtain ⟨front, rest, hsplit⟩ := List.append_of_mem hl
  have hchain := h.chain
  rw [hsplit] at hchain
  obtain ⟨hfront, hrest⟩ := Chain.append.mp hchain
  have hstart := hrest.head_start
  rw [hfront.startAfter_eq] at hstart
  obtain ⟨before, htext, hsize⟩ := Text.unlines_append (front.map Line.text)
    ((line :: rest).map Line.text) (List.cons_ne_nil _ _)
  obtain ⟨after, hline⟩ := Text.unlines_cons line.text (rest.map Line.text)
  obtain ⟨left, right, hc, hpos⟩ := hc
  refine ⟨before ++ left, right ++ after, ?_, ?_⟩
  · rw [Document.text, hsplit, List.map_append, htext, List.map_cons, hline, hc]
    simp
  · rw [Text.size_append, hsize, hpos, hstart]
    simp [startAfter]

/-- A span begins at its bracket, on the line where it was opened. -/
theorem opened (h : Valid d) (hl : line ∈ d.lines) (hs : span ∈ line.analysis.spans)
    (hd : span.kind.isDelimited = true) :
    ∃ c, span.kind.opening? = some c ∧ HasAt d.text c span.first := by
  obtain ⟨i, hi⟩ := List.mem_iff_getElem?.mp hl
  obtain ⟨a, origin, ha, horigin, _, hlow, _, hway⟩ := h.chain.span_origin hi hs
  obtain ⟨passed, same, hp, hm, hident, _⟩ := hway a (Nat.le_refl a) ha
  obtain rfl := Option.some.inj (hp.symm.trans horigin)
  obtain ⟨hkind, hfirst⟩ := Prod.mk.inj (Prod.mk.inj hident).2
  have hpassed := List.mem_of_getElem? horigin
  obtain ⟨es, hb⟩ := h.bracketed hpassed
  rcases hb.opens same hm (hkind ▸ hd) with hlt | ⟨c, _, pos, hc, _, heq, hat⟩
  · omega
  · refine ⟨c, hkind ▸ hc, ?_⟩
    rw [← hfirst, heq]
    exact h.hasAt hpassed hat

/-- A span that has ended ends at its bracket. -/
theorem closed (h : Valid d) (hl : line ∈ d.lines) (hs : span ∈ line.analysis.spans)
    (hd : span.kind.isDelimited = true) (hlast : span.last = some last) :
    span.implicit = false ∧ span.first < last ∧
      ∃ c ∈ span.kind.closings, HasAt d.text c last := by
  obtain ⟨es, hb⟩ := h.bracketed hl
  obtain ⟨hi, hlt, c, hc, _, pos, _, rfl, hat⟩ := hb.closes span hs hd last hlast
  exact ⟨hi, hlt, c, hc, h.hasAt hl hat⟩

end Valid

/-- In a document that was edited in any way, each delimited span begins at its opening bracket. If
it has ended, it was closed by a mark of its own, which is a closing bracket further on. -/
theorem edited_brackets (text : Text) (edits : List Edit) :
    let d := edited text edits
    ∀ line ∈ d.lines, ∀ span ∈ line.analysis.spans, span.kind.isDelimited = true →
      (∃ c, span.kind.opening? = some c ∧ HasAt d.text c span.first) ∧
      ∀ last, span.last = some last → span.implicit = false ∧ span.first < last ∧
        ∃ c ∈ span.kind.closings, HasAt d.text c last := by
  intro d line hl span hs hd
  obtain ⟨h, _⟩ := edited_valid text edits
  exact ⟨h.opened hl hs hd, fun last => h.closed hl hs hd⟩

/-- A dollar sign ends arguments that began on the line before, after that line was moved. -/
theorem brackets_of_arguments :
    let d := edited "\n\n(\n$".toList [.setLine 0 "x $".toList, .removeLine 1]
    ∃ line ∈ d.lines, ∃ span ∈ line.analysis.spans, span.kind.isDelimited = true ∧
      span.last = some 6 ∧
      (∃ c, span.kind.opening? = some c ∧ HasAt d.text c span.first) ∧
      span.implicit = false ∧ span.first < 6 ∧ ∃ c ∈ span.kind.closings, HasAt d.text c 6 := by
  have hspans : (edited "\n\n(\n$".toList [.setLine 0 "x $".toList, .removeLine 1]).lines.map
      (fun line => line.analysis.spans) =
      [[⟨1, .math, 2, none, false⟩],
        [⟨1, .math, 2, none, false⟩, ⟨2, .mathArguments, 4, none, false⟩],
        [⟨1, .math, 2, some 6, false⟩, ⟨2, .mathArguments, 4, some 6, false⟩]] := by
    cbv
  have hlast : [⟨1, .math, 2, some 6, false⟩, ⟨2, .mathArguments, 4, some 6, false⟩] ∈
      (edited "\n\n(\n$".toList [.setLine 0 "x $".toList, .removeLine 1]).lines.map
        (fun line => line.analysis.spans) := by
    rw [hspans]
    simp
  obtain ⟨line, hl, heq⟩ := List.mem_map.mp hlast
  have hs : ⟨2, .mathArguments, 4, some 6, false⟩ ∈ line.analysis.spans := by
    rw [heq]
    simp
  obtain ⟨hfirst, hends⟩ := edited_brackets "\n\n(\n$".toList
    [.setLine 0 "x $".toList, .removeLine 1] line hl _ hs rfl
  exact ⟨line, hl, _, hs, rfl, rfl, hfirst, hends 6 rfl⟩

end Document

end LineMarkup

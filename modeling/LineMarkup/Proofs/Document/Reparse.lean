import LineMarkup.Proofs.Document.Edit

namespace LineMarkup.Document

open LineMarkup.Span (Alike alike_unclosed)

variable {previous previous' : Option Line} {lines lines' : List Line}

namespace Line

/-- The line without the ids of its spans, which only tell spans apart. -/
def anonymous (line : Line) : Text × Nat × Analysis :=
  (line.text, line.start, { line.analysis with
    spans := line.analysis.spans.map (fun span => { span with id := 0 }) })

end Line

/-- Two lines after which a line is parsed in the same way. -/
structure Abreast (previous previous' : Option Line) : Prop where
  grounded : Grounded previous
  grounded' : Grounded previous'
  spans : List.Forall₂ (Alike (fun pos => pos) (fun _ _ => True)) (openAfter previous)
    (openAfter previous')
  start : startAfter previous' = startAfter previous
  first : previous'.isNone = previous.isNone

theorem anonymous_spans
    (h : List.Forall₂ (Alike (fun pos => pos) (fun _ _ => True)) spans spans') :
    spans'.map (fun span => { span with id := 0 }) =
      spans.map (fun span => { span with id := 0 }) := by
  induction h with
  | nil => rfl
  | cons hs _ ih =>
    rw [List.map_cons, List.map_cons, ih, hs.kind, hs.first, hs.last, hs.implicit, Option.map_id']

theorem Abreast.parse (h : Abreast previous previous') (text : Text) (id id' : Nat) :
    (parseLine previous' text id').1.anonymous = (parseLine previous text id).1.anonymous ∧
      Abreast (some (parseLine previous text id).1) (some (parseLine previous' text id').1) := by
  have hspans : ∃ analysis spans, (parseLine previous text id).1.analysis = analysis ∧
      (parseLine previous' text id').1.analysis = { analysis with spans } ∧
      List.Forall₂ (Alike (fun pos => pos) (fun _ _ => True)) analysis.spans spans := by
    have hs : isShebang previous' text = isShebang previous text := by rw [isShebang, h.first]; rfl
    cases hb : isShebang previous text with
    | true =>
      rw [hb] at hs
      rw [(parseLine_of_isShebang hb id).1, (parseLine_of_isShebang hs id').1]
      exact ⟨_, [], rfl, rfl, .nil⟩
    | false =>
      rw [hb] at hs
      rw [(parseLine_ofLine hb id).1, (parseLine_ofLine hs id').1]
      exact Analysis.ofLine_alike h.spans h.grounded h.grounded' (fun _ => by rw [h.start])
        (fun _ => trivial) text
  obtain ⟨analysis, spans, ha, ha', halike⟩ := hspans
  refine ⟨?_, parseLine_grounded h.grounded text id, parseLine_grounded h.grounded' text id',
    ?_, ?_, rfl⟩
  · simp only [Line.anonymous, parseLine_text, parseLine_start, h.start, ha, ha',
      anonymous_spans halike]
  · simp only [openAfter, Option.map_some, Option.getD_some, ha, ha']
    exact alike_unclosed halike
  · rw [parseLine_next, parseLine_next, h.start]

theorem Chain.anonymous_eq (h : Abreast previous previous') (hc : Chain previous lines)
    (hc' : Chain previous' lines') (ht : lines'.map Line.text = lines.map Line.text) :
    lines'.map Line.anonymous = lines.map Line.anonymous := by
  induction hc generalizing previous' lines' with
  | nil => rw [List.map_eq_nil_iff.mp ht]
  | @parse previous text lines id rest ih =>
    cases hc' with
    | nil => cases ht
    | @parse _ text' _ id' rest' =>
      rw [List.map_cons, List.map_cons, parseLine_text, parseLine_text, List.cons.injEq] at ht
      obtain ⟨rfl, ht⟩ := ht
      obtain ⟨hline, hnext⟩ := h.parse text' id id'
      rw [List.map_cons, List.map_cons, hline, ih hnext rest' ht]

/-- After any edits a document has the lines that its text has when it is parsed from scratch: at
the same positions, with the same markers, segments and isolates, and with the same spans but for
their ids. -/
theorem edited_eq_ofText (text : Text) (edits : List Edit) :
    (edited text edits).lines.map Line.anonymous =
      (ofText (edited text edits).text).lines.map Line.anonymous := by
  obtain ⟨hvalid, hn⟩ := edited_valid text edits
  have hfresh := (ofText_valid (edited text edits).text).1
  have hsingle : ∀ line ∈ (edited text edits).lines.map Line.text, '\n' ∉ line :=
    List.forall_mem_map.mpr hvalid.single
  refine (Chain.anonymous_eq ⟨grounded_none, grounded_none, .nil, rfl, rfl⟩ hvalid.chain
    hfresh.chain ?_).symm
  rw [ofText_texts, Document.text, Text.lines_unlines hsingle (by simpa using hn)]

end LineMarkup.Document

import Mathlib
import LineMarkup.Proofs.Line.Spans
import LineMarkup.Proofs.Parser.Restart

namespace LineMarkup

namespace Analysis

open LineMarkup.Span

variable {previous : List Span} {base : Nat}

/-- The open spans of a line are the constructs that go on after it. -/
theorem ofLine_unclosedKinds (hc : Carried base (unclosed previous)) (text : Text) (id : Nat) :
    (ofLine text previous base id).1.unclosedKinds =
      (Parse.ofText text (Span.unclosedKinds previous)).goingOn := by
  obtain ⟨es, ht, _, _, hs, _⟩ := ofLine_along hc text id
  have hrooted := Parse.unclosed_rooted text ((unclosed previous).map kind)
  have hframes := Owners.along_frames ht id
  have hunclosed := Owners.along_unclosed ht hrooted hc.opened base id
  have hkinds := congrArg (List.map Prod.fst) hunclosed
  have hall : (Parse.ofText text ((unclosed previous).map kind)).unclosed.map Frame.kind =
      (unclosed (Record.along (unclosed previous) base id es).spans).map kind ++
        [Frame.root.kind] := by
    rw [← hframes]
    simpa [Function.comp_def] using hkinds
  rw [Parse.goingOn_kinds] at hall
  have hopen := List.append_cancel_right hall
  rw [Analysis.unclosedKinds, Span.unclosedKinds, hs, unclosed, List.filter_reverse,
    List.map_reverse]
  exact (congrArg List.reverse hopen).symm.trans (List.reverse_reverse _)

/-- What is open after each line is what goes on after the lines up to it. -/
theorem getElem_unclosedKinds (hc : Carried base (unclosed previous)) (id : Nat)
    (lines : List Text) (i : Nat) :
    ((ofLinesFrom previous base id lines)[i]?).map unclosedKinds = (lines[i]?).map
      (fun _ => Parse.goingOnAfter (Span.unclosedKinds previous) (lines.take (i + 1))) := by
  induction lines generalizing previous base id i with
  | nil => rfl
  | cons line rest ih =>
    cases i with
    | zero => exact congrArg some (ofLine_unclosedKinds hc line id)
    | succ i =>
      have hnext := ih (ofLine_carried hc line id) (ofLine line previous base id).2 i
      rw [List.take_succ_cons, Parse.goingOnAfter_cons, ← ofLine_unclosedKinds hc line id]
      exact hnext

theorem length_ofLinesFrom (previous : List Span) (base id : Nat) (lines : List Text) :
    (ofLinesFrom previous base id lines).length = lines.length := by
  induction lines generalizing previous base id with
  | nil => rfl
  | cons line rest ih => exact congrArg (· + 1) (ih _ _ _)

theorem ofLinesFrom_unclosedKinds (hc : Carried base (unclosed previous)) (id : Nat) (line : Text)
    (rest : List Text) :
    ((ofLinesFrom previous base id (line :: rest)).getLast?).map unclosedKinds =
      some (Parse.goingOnAfter (Span.unclosedKinds previous) (line :: rest)) := by
  have hlast := getElem_unclosedKinds hc id (line :: rest) rest.length
  rw [List.getLast?_eq_getElem?, length_ofLinesFrom]
  simpa using hlast

/-- What is open after a text is what is open after its last line, as long as no end of a line is
needed twice. -/
theorem unclosedKinds_lines (text : Text) (hl : ∀ c ∈ text, Text.isLineEnd c = true → c = '\n')
    (hone : Parse.sharesNoEnd [] text.lines = true) :
    (ofLine text [] 0 0).1.unclosedKinds =
      (((ofText text).getLast?).map unclosedKinds).getD [] := by
  obtain ⟨line, rest, hlines⟩ : ∃ line rest, text.lines = line :: rest :=
    List.exists_cons_of_ne_nil Text.split_ne_nil
  have hinner : ∀ l ∈ line :: rest, ∀ c ∈ l, Text.isLineEnd c = false := by
    intro l hm c hc
    rw [← hlines] at hm
    apply Bool.eq_false_iff.mpr
    intro hend
    have hfeed := hl c (Text.mem_of_mem_split hm hc) hend
    exact Text.not_mem_of_mem_split hm (hfeed ▸ hc)
  have hnone : Parser.Lasting [] := ⟨by simp, by simp⟩
  have hwhole := Parse.goingOn_unlines hnone hinner (hlines ▸ hone)
  rw [← hlines, Text.unlines_lines] at hwhole
  have hfirst : Carried 0 (unclosed []) := .nil 0
  have hlast := ofLinesFrom_unclosedKinds hfirst 0 line rest
  rw [ofText, hlines, hlast, Option.getD_some, ofLine_unclosedKinds hfirst, ← hlines]
  exact hwhole

/-- The end of the first line ends a heading, that of the second line nothing. -/
theorem unclosedKinds_lines_entry :
    (∀ c ∈ "= T\n#[\n- *a".toList, Text.isLineEnd c = true → c = '\n') ∧
      Parse.sharesNoEnd [] (Text.lines "= T\n#[\n- *a".toList) = true ∧
      (ofLine "= T\n#[\n- *a".toList [] 0 0).1.unclosedKinds =
        (((ofText "= T\n#[\n- *a".toList).getLast?).map unclosedKinds).getD [] := by
  have hl : ∀ c ∈ "= T\n#[\n- *a".toList, Text.isLineEnd c = true → c = '\n' := by
    simp [Text.isLineEnd]
  have hone : Parse.sharesNoEnd [] (Text.lines "= T\n#[\n- *a".toList) = true := by cbv
  exact ⟨hl, hone, unclosedKinds_lines _ hl hone⟩

set_option maxRecDepth 2048 in
/-- A comment at the end of a line of code takes the end of the line. In one piece the code goes on
with the next line, where a bracket opens a block; line by line it has ended. -/
theorem comment_takes_code_end :
    (∀ c ∈ "#let x // c\n\x7b".toList, Text.isLineEnd c = true → c = '\n') ∧
      (ofLine "#let x // c\n\x7b".toList [] 0 0).1.unclosedKinds ≠
        (((ofText "#let x // c\n\x7b".toList).getLast?).map unclosedKinds).getD [] := by
  have hl : ∀ c ∈ "#let x // c\n\x7b".toList, Text.isLineEnd c = true → c = '\n' := by
    simp [Text.isLineEnd]
  have hwhole : (ofLine "#let x // c\n\x7b".toList [] 0 0).1.unclosedKinds =
      [.codeLine, .codeBlock] := by cbv
  have hlines :
      (((ofText "#let x // c\n\x7b".toList).getLast?).map unclosedKinds).getD [] = [] := by cbv
  rw [hwhole, hlines]
  exact ⟨hl, List.cons_ne_nil _ _⟩

end Analysis

end LineMarkup

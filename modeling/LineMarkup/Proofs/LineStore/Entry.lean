import LineMarkup.LineStore.Indentation
import LineMarkup.Proofs.LineStore.Innermost
import LineMarkup.Proofs.LineStore.Partner
import LineMarkup.Proofs.Parser.Entry
import LineMarkup.Proofs.Parser.Restart

namespace LineMarkup.Document

open LineMarkup.Span (ident)
open LineMarkup.Span.Record (births births_firsts)

variable {d : Document} {line : Line} {blanks rest : Text} {sign gap : Char} {i : Nat}

theorem isShebang_of_ne {previous : Option Line} {c : Char} (h : c ≠ '#') :
    isShebang previous (c :: rest) = false := by
  have hc : ('#' == c) = false := beq_false_of_ne h.symm
  change (previous.isNone && ('#' == c && _)) = false
  rw [hc, Bool.false_and, Bool.and_false]

/-- At the start of a line those spans are in effect that go on from the lines before. -/
theorem Valid.spanAt_start (h : Valid d) (hl : d.lines[i]? = some line)
    (hs : line.shebang = false) :
    (d.store.spanAt? i line.start).map Span.kind = ((d.within i).map Span.kind).getLast? := by
  obtain ⟨hc, id, hline⟩ := h.chain.ofLine hl hs
  have hopen : Span.unclosed (d.within i) = d.within i := List.filter_eq_self.mpr hc.opened
  obtain ⟨frames, _, hidents, _, _⟩ :=
    Analysis.ofLine_ident (hopen.symm ▸ hc) line.text id
  rw [← hline, hopen] at hidents
  obtain ⟨kept, fresh, hspans, hkept, hfresh⟩ := List.map_eq_append_iff.mp hidents
  have hkinds : kept.map Span.kind = (d.within i).map Span.kind := by
    have := congrArg (List.map (·.2.1)) hkept
    rwa [List.map_map, List.map_map] at this
  have hbefore : ∀ span ∈ kept, Span.holds line.start span = true := by
    intro span hm
    obtain ⟨old, ho, heq⟩ := List.mem_map.mp (hkept ▸ List.mem_map_of_mem (f := ident) hm)
    have hfirst : span.first = old.first := congrArg (·.2.2) heq.symm
    have hlast : span.last.all (line.start ≤ ·) = true := by
      rw [Option.all_eq_true]
      intro last hlast
      have hmem : span ∈ line.analysis.spans := hspans ▸ List.mem_append_left _ hm
      exact decide_eq_true (h.last_bounds hl hmem hlast).2.1
    rw [Span.holds, hfirst, hlast, Bool.and_true]
    exact decide_eq_true (hc.before old ho)
  have hbehind : ∀ span ∈ fresh.reverse, ¬ Span.holds line.start span = true := by
    intro span hm
    have hfirst : span.first ∈ (births line.start id frames).map (·.2.2) := by
      rw [← hfresh, List.map_map]
      exact List.mem_map_of_mem (f := Span.first) (List.mem_reverse.mp hm)
    rw [births_firsts] at hfirst
    obtain ⟨frame, _, heq⟩ := List.mem_map.mp hfirst
    simp [Span.holds, ← heq]
  rw [spanAt_eq hl, hspans, List.reverse_append, List.find?_append,
    List.find?_eq_none.mpr hbehind, Option.none_or, ← hkinds, List.getLast?_map]
  rcases List.eq_nil_or_concat kept with rfl | ⟨front, last, rfl⟩
  · rfl
  · have hlast := hbefore last (by simp)
    simp [hlast]

/-- A list entry may start a line if the parse of the line begins in prose. -/
theorem Valid.mayStartEntry_iff (h : Valid d) (hl : d.lines[i]? = some line)
    (hs : line.shebang = false) :
    d.store.mayStartEntry i = true ↔
      let parser := Parser.ofText line.text ((d.within i).map Span.kind)
      parser.top.kind = .content ∨ parser.top.kind = .contentBlock := by
  have hspan := h.spanAt_start hl hs
  have hi : i < d.store.lineCount := (store_lineCount d).symm ▸ (List.getElem?_eq_some_iff.mp hl).1
  simp only [LineStore.mayStartEntry, hi, store_lineStart hl, Parser.ofText_top, ← hspan,
    decide_true, Bool.true_and]
  cases d.store.spanAt? i line.start <;> simp

/-- A line that begins with blanks and a sign names no interpreter. -/
theorem Valid.markup_of_sign (h : Valid d) (hl : d.lines[i]? = some line)
    (blank : Text.IsBlankLine blanks) (signed : sign = '-' ∨ sign = '+')
    (split : line.text = blanks ++ sign :: rest) : line.shebang = false := by
  obtain ⟨_, id, hline⟩ := h.chain.getElem grounded_none hl
  rw [hline, parseLine_shebang, split]
  cases blanks with
  | nil => exact isShebang_of_ne (by rcases signed with rfl | rfl <;> decide)
  | cons c blanks =>
    apply isShebang_of_ne
    rintro rfl
    exact absurd (blank '#' List.mem_cons_self) (by decide)

/-- In a document that was edited in any way, a line that may start with a list entry and begins
with its sign has the entry marked at the sign. -/
theorem edited_entry {text : Text} {edits : List Edit}
    (hl : (edited text edits).lines[i]? = some line)
    (hm : (edited text edits).store.mayStartEntry i = true)
    (blank : ∀ c ∈ blanks, Text.isHorizontalSpace c = true) (signed : sign = '-' ∨ sign = '+')
    (spaced : Text.isHorizontalSpace gap = true)
    (split : line.text = blanks ++ sign :: gap :: rest) :
    ∃ marker ∈ line.analysis.markers, marker.kind = .listEntry ∧ marker.start = blanks.size := by
  obtain ⟨h, _⟩ := edited_valid text edits
  have hs := h.markup_of_sign hl blank signed split
  have htop := (h.mayStartEntry_iff hl hs).mp hm
  obtain ⟨hc, id, hline⟩ := h.chain.ofLine hl hs
  have hopen := List.filter_eq_self.mpr hc.opened
  rw [hline, Analysis.ofLine, Span.unclosed, hopen]
  exact Parser.entry_marked blank signed spaced split htop true

/-- The entry stands in a content block that began on an earlier line, which was moved down. -/
theorem entry_of_block :
    let d := edited "#[\n - b".toList [.insertLine 0 "x".toList]
    d.store.mayStartEntry 2 = true ∧ ∃ line, d.lines[2]? = some line ∧
      line.text = [' '] ++ '-' :: ' ' :: ['b'] ∧
      ∃ marker ∈ line.analysis.markers, marker.kind = .listEntry ∧ marker.start = 1 := by
  obtain ⟨htext, hm⟩ :
      ((edited "#[\n - b".toList [.insertLine 0 "x".toList]).lines[2]?.map Line.text) =
        some " - b".toList ∧
      (edited "#[\n - b".toList [.insertLine 0 "x".toList]).store.mayStartEntry 2 = true := by
    cbv
  obtain ⟨line, hl, htext⟩ := Option.map_eq_some_iff.mp htext
  have hsplit : line.text = [' '] ++ '-' :: ' ' :: ['b'] := htext
  have hspace : ∀ c ∈ [' '], Text.isHorizontalSpace c = true := by
    intro c hc
    rw [List.mem_singleton.mp hc]
    rfl
  exact ⟨hm, line, hl, hsplit, edited_entry hl hm hspace (.inl rfl) rfl hsplit⟩

end LineMarkup.Document

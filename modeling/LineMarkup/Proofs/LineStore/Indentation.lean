import Mathlib
import LineMarkup.LineStore.Indentation
import LineMarkup.Proofs.Document.Geometry
import LineMarkup.Proofs.LineStore.Partner

namespace LineMarkup

open Text (HasAt)

namespace Span

variable {spans : List Span} {span other : Span} {p : Span → Bool} {pos : Nat}

/-- In ascending spans the first hit begins before the others. -/
theorem first_le_of_find? (ha : spans.Pairwise (fun a b => a.first < b.first))
    (hf : spans.find? p = some span) (ho : other ∈ spans) (hp : p other = true) :
    span.first ≤ other.first := by
  obtain ⟨_, before, after, rfl, hbefore⟩ := List.find?_eq_some_iff_append.mp hf
  rcases List.mem_append.mp ho with ho | ho
  · have := hbefore other ho
    simp [hp] at this
  · rcases List.mem_cons.mp ho with rfl | ho
    · exact Nat.le_refl _
    · have hrest := (List.pairwise_append.mp ha).2.1
      exact Nat.le_of_lt ((List.pairwise_cons.mp hrest).1 other ho)

/-- A search that stops at the spans behind a position finds all that begin before it. -/
theorem find?_takeWhile (ha : spans.Pairwise (fun a b => a.first < b.first))
    (hp : ∀ span ∈ spans, p span = true → span.first ≤ pos) :
    (spans.takeWhile (·.first ≤ pos)).find? p = spans.find? p := by
  induction spans with
  | nil => rfl
  | cons head rest ih =>
    obtain ⟨hafter, ha⟩ := List.pairwise_cons.mp ha
    obtain ⟨hhead, hrest⟩ := List.forall_mem_cons.mp hp
    rw [List.takeWhile_cons]
    split
    · rw [List.find?_cons, List.find?_cons, ih ha hrest]
    · rename_i hbehind
      have hbehind : ¬ head.first ≤ pos := by simpa using hbehind
      refine (List.find?_eq_none.mpr (List.forall_mem_cons.mpr ⟨fun hp => ?_, ?_⟩)).symm
      · exact hbehind (hhead hp)
      · intro span hs hp
        have hlt := hafter span hs
        have hle := hrest span hs hp
        omega

end Span

namespace Construct

variable {kind : Construct}

theorem isDelimited_of_isIndenting (h : kind.isIndenting = true) : kind.isDelimited = true := by
  cases kind <;> simp_all [isIndenting, isDelimited]

theorem isIndenting_or_math (h : kind.isDelimited = true) :
    kind.isIndenting = true ∨ kind = .math := by
  cases kind <;> simp_all [isIndenting, isDelimited]

end Construct

namespace Document

variable {d : Document} {line : Line} {span : Span} {i j p q a b pos block : Nat}

theorem Chain.next_le {lines : List Line} {next : Line} (h : Chain none lines)
    (hl : lines[i]? = some line) (hn : lines[j]? = some next) (hlt : i < j) :
    line.next ≤ next.start := by
  obtain ⟨hi, rfl⟩ := List.getElem?_eq_some_iff.mp hl
  obtain ⟨hj, rfl⟩ := List.getElem?_eq_some_iff.mp hn
  exact List.pairwise_iff_getElem.mp h.apart i j hi hj hlt

namespace Valid

theorem lineOf_mono (h : Valid d) (hn : d.lines ≠ []) (hle : p ≤ q)
    (hp : d.store.lineOf? p = some a) (hq : d.store.lineOf? q = some b) : a ≤ b := by
  obtain ⟨ha, hstart, _⟩ := (h.lineOf_some_iff hn).mp hp
  obtain ⟨hb, _, hstop⟩ := (h.lineOf_some_iff hn).mp hq
  have hla := List.getElem?_eq_getElem ha
  have hlb := List.getElem?_eq_getElem hb
  rw [store_lineStart hla] at hstart
  rw [store_lineStart hlb, store_lineSize hlb] at hstop
  apply Nat.le_of_not_lt
  intro hlt
  have hnext := h.chain.next_le hlb hla hlt
  rw [Line.next] at hnext
  omega

/-- The line where a span begins holds its first position. -/
theorem startLine_eq (h : Valid d) (hl : d.lines[i]? = some line)
    (hs : span ∈ line.analysis.spans) :
    d.store.lineOf? span.first = some (d.store.startLine span i) ∧
      d.store.startLine span i ≤ i := by
  obtain ⟨a, origin, ha, horigin, _, hlow, hhigh, _⟩ := h.chain.span_origin hl hs
  have hlineOf := h.lineOf_eq horigin hlow (Nat.le_of_lt hhigh)
  have hstart : d.store.startLine span i = a := by
    rw [LineStore.startLine, store_lineStart hl, hlineOf]
    split
    · rename_i hle
      apply Nat.le_antisymm _ ha
      apply Nat.le_of_not_lt
      intro hlt
      have hnext := h.chain.next_le horigin hl hlt
      rw [Line.next] at hnext
      omega
    · rfl
  rw [hstart]
  exact ⟨hlineOf, ha⟩

theorem indentBlock_eq (h : Valid d) (hl : d.lines[i]? = some line)
    (hp : d.store.lineOf? pos = some i) :
    d.store.indentBlock? pos = some (((line.analysis.spans.find? (fun span =>
      span.kind.isIndenting && span.last = some pos)).map (d.store.startLine · i)).getD i) := by
  have hbefore : ∀ span ∈ line.analysis.spans,
      (span.kind.isIndenting && decide (span.last = some pos)) = true → span.first ≤ pos := by
    intro span hs hhit
    simp only [Bool.and_eq_true, decide_eq_true_eq] at hhit
    exact (h.last_bounds hl hs hhit.2).1
  rw [LineStore.indentBlock?, hp,
    ← Span.find?_takeWhile (h.ascending (List.mem_of_getElem? hl)) hbefore]
  simp [store_lineSpans hl]

/-- A closing bracket other than a dollar sign lines up with the line of its partner. -/
theorem indentBlock_of_partner (h : Valid d) (hm : d.store.matchingBracket q = some p)
    (hlt : p < q) (hn : ¬ HasAt d.text '$' q) :
    ∃ block, d.store.lineOf? p = some block ∧ d.store.indentBlock? q = some block := by
  obtain ⟨j, span, hs, ⟨hlast, rfl⟩ | ⟨rfl, hlast⟩⟩ := h.matching_some hm
  · obtain ⟨line, hl, hmem, hd⟩ := id hs
    have hindent : span.kind.isIndenting = true := by
      obtain ⟨_, _, c, hc, hat⟩ := h.closed (List.mem_of_getElem? hl) hmem hd hlast
      apply (Construct.isIndenting_or_math hd).resolve_right
      intro hmath
      rw [hmath] at hc
      exact hn (List.mem_singleton.mp hc ▸ hat)
    refine ⟨_, (h.startLine_eq hl hmem).1, ?_⟩
    rw [h.indentBlock_eq hl (h.lineOf_last hs hlast)]
    cases hf : line.analysis.spans.find? (fun span =>
      span.kind.isIndenting && span.last = some q) with
    | none => exact absurd (List.find?_eq_none.mp hf span hmem) (by simp [hindent, hlast])
    | some found =>
      have hfound := List.find?_some hf
      simp only [Bool.and_eq_true, decide_eq_true_eq] at hfound
      have hsame : found = span := by
        apply Decidable.byContradiction
        intro hne
        have henclose : d.Encloses j found :=
          ⟨line, hl, List.mem_of_find?_eq_some hf, Construct.isDelimited_of_isIndenting hfound.1⟩
        exact hn ((h.apart henclose hs hne).2 q hfound.2 hlast)
      rw [hsame]
      rfl
  · exact absurd (h.first_lt_last hs hlast) (Nat.lt_asymm hlt)

theorem startLine_mono (h : Valid d) (hn : d.lines ≠ []) (hl : d.lines[i]? = some line)
    (hs : span ∈ line.analysis.spans) (ho : other ∈ line.analysis.spans)
    (hle : span.first ≤ other.first) : d.store.startLine span i ≤ d.store.startLine other i :=
  h.lineOf_mono hn hle (h.startLine_eq hl hs).1 (h.startLine_eq hl ho).1

/-- No position of a line lines up with a line before `block`, if no construct that ends on the line
began earlier. -/
theorem le_indentBlock (h : Valid d) (hl : d.lines[i]? = some line) (hb : block ≤ i)
    (hall : ∀ span ∈ line.analysis.spans, span.kind.isIndenting = true → span.last.isSome = true →
      block ≤ d.store.startLine span i)
    (hp : d.store.lineOf? pos = some i) :
    ∃ b, d.store.indentBlock? pos = some b ∧ block ≤ b ∧ b ≤ i := by
  refine ⟨_, h.indentBlock_eq hl hp, ?_⟩
  cases hf : line.analysis.spans.find? (fun span =>
    span.kind.isIndenting && span.last = some pos) with
  | none => exact ⟨hb, Nat.le_refl _⟩
  | some found =>
    have hm := List.mem_of_find?_eq_some hf
    have hfound := List.find?_some hf
    simp only [Bool.and_eq_true, decide_eq_true_eq] at hfound
    exact ⟨hall found hm hfound.1 (hfound.2 ▸ rfl), (h.startLine_eq hl hm).2⟩

/-- Where a construct ends, the line to line up with is its first or one before. -/
theorem indentBlock_le (h : Valid d) (hn : d.lines ≠ []) (hl : d.lines[i]? = some line)
    (hs : span ∈ line.analysis.spans) (hk : span.kind.isIndenting = true)
    (hlast : span.last = some q) :
    d.store.lineOf? q = some i ∧
      ∃ b, d.store.indentBlock? q = some b ∧ b ≤ d.store.startLine span i := by
  obtain ⟨_, hlow, hhigh⟩ := h.last_bounds hl hs hlast
  have hq := h.lineOf_eq hl hlow hhigh
  refine ⟨hq, _, h.indentBlock_eq hl hq, ?_⟩
  cases hf : line.analysis.spans.find? (fun span =>
    span.kind.isIndenting && span.last = some q) with
  | none => exact absurd (List.find?_eq_none.mp hf span hs) (by simp [hk, hlast])
  | some found =>
    have hle := Span.first_le_of_find? (h.ascending (List.mem_of_getElem? hl)) hf hs
      (by simp [hk, hlast])
    exact h.startLine_mono hn hl (List.mem_of_find?_eq_some hf) hs hle

end Valid

theorem indentBlockOfLine_eq (hl : d.lines[i]? = some line) :
    d.store.indentBlockOfLine? i = some (((line.analysis.spans.find? (fun span =>
      span.kind.isIndenting && span.last.isSome)).map (d.store.startLine · i)).getD i) := by
  have hi := (List.getElem?_eq_some_iff.mp hl).1
  rw [LineStore.indentBlockOfLine?, store_lineCount, if_pos hi, store_lineSpans hl]
  rfl

/-- The line that a line lines up with is the first of those of its positions. -/
theorem Valid.indentBlockOfLine_least (h : Valid d) (hn : d.lines ≠ []) (hi : i < d.lines.length) :
    ∃ block, d.store.indentBlockOfLine? i = some block ∧ block ≤ i ∧
      (∀ pos, d.store.lineOf? pos = some i →
        ∃ b, d.store.indentBlock? pos = some b ∧ block ≤ b) ∧
      ∃ pos, d.store.lineOf? pos = some i ∧ d.store.indentBlock? pos = some block := by
  have hl := List.getElem?_eq_getElem hi
  generalize d.lines[i] = line at hl
  refine ⟨_, indentBlockOfLine_eq hl, ?_⟩
  cases hf : line.analysis.spans.find? (fun span => span.kind.isIndenting && span.last.isSome) with
  | none =>
    have hbound (pos : Nat) (hp : d.store.lineOf? pos = some i) :
        ∃ b, d.store.indentBlock? pos = some b ∧ i ≤ b ∧ b ≤ i := by
      apply h.le_indentBlock hl (Nat.le_refl i) _ hp
      intro span hs hk hend
      exact absurd (List.find?_eq_none.mp hf span hs) (by simp [hk, hend])
    have hstart : d.store.lineOf? line.start = some i :=
      h.lineOf_eq hl (Nat.le_refl _) (Nat.le_add_right _ _)
    obtain ⟨b, hb, hle, hge⟩ := hbound line.start hstart
    obtain rfl := Nat.le_antisymm hge hle
    refine ⟨Nat.le_refl _, fun pos hp => ?_, line.start, hstart, hb⟩
    obtain ⟨b', hb', hle', _⟩ := hbound pos hp
    exact ⟨b', hb', hle'⟩
  | some outer =>
    have ho := List.mem_of_find?_eq_some hf
    have hend := List.find?_some hf
    simp only [Bool.and_eq_true] at hend
    obtain ⟨last, hlast⟩ := Option.isSome_iff_exists.mp hend.2
    have hle := (h.startLine_eq hl ho).2
    have hbound (pos : Nat) (hp : d.store.lineOf? pos = some i) :
        ∃ b, d.store.indentBlock? pos = some b ∧ d.store.startLine outer i ≤ b ∧ b ≤ i := by
      apply h.le_indentBlock hl hle _ hp
      intro span hs hk hend
      apply h.startLine_mono hn hl ho hs
      apply Span.first_le_of_find? (h.ascending (List.mem_of_getElem? hl)) hf hs
      simp [hk, hend]
    obtain ⟨hline, b, hb, hge⟩ := h.indentBlock_le hn hl ho hend.1 hlast
    obtain ⟨b', hb', hle', _⟩ := hbound last hline
    obtain rfl := Option.some.inj (hb.symm.trans hb')
    obtain rfl := Nat.le_antisymm hge hle'
    refine ⟨hle, fun pos hp => ?_, last, hline, hb⟩
    obtain ⟨c, hc, hle, _⟩ := hbound pos hp
    exact ⟨c, hc, hle⟩

/-- In a document that was edited in any way, a closing bracket lines up with the line of its
partner, unless it is a dollar sign. A line lines up with the first of the lines that its positions
line up with, which is no later than itself. -/
theorem edited_indentation (text : Text) (edits : List Edit) :
    let d := edited text edits
    (∀ q p, d.store.matchingBracket q = some p → p < q → ¬ HasAt d.text '$' q →
      ∃ block, d.store.lineOf? p = some block ∧ d.store.indentBlock? q = some block) ∧
    ∀ i < d.store.lineCount, ∃ block, d.store.indentBlockOfLine? i = some block ∧ block ≤ i ∧
      (∀ pos, d.store.lineOf? pos = some i →
        ∃ b, d.store.indentBlock? pos = some b ∧ block ≤ b) ∧
      ∃ pos, d.store.lineOf? pos = some i ∧ d.store.indentBlock? pos = some block := by
  intro d
  obtain ⟨h, hn⟩ := edited_valid text edits
  refine ⟨fun q p => h.indentBlock_of_partner, fun i hi => ?_⟩
  exact h.indentBlockOfLine_least hn (store_lineCount d ▸ hi)

/-- The two brackets that end on the last line began on one line, which was moved down. -/
theorem indentation_of_arguments :
    let d := edited "#f([\nb\n])".toList [.insertLine 0 "x".toList]
    (∃ block, d.store.lineOf? 4 = some block ∧ d.store.indentBlock? 10 = some block) ∧
      ∃ pos, d.store.lineOf? pos = some 3 ∧ d.store.indentBlock? pos = some 1 := by
  obtain ⟨hm, hcount, hline, htext⟩ :
      (edited "#f([\nb\n])".toList [.insertLine 0 "x".toList]).store.matchingBracket 10 = some 4 ∧
      (edited "#f([\nb\n])".toList [.insertLine 0 "x".toList]).store.lineCount = 4 ∧
      (edited "#f([\nb\n])".toList [.insertLine 0 "x".toList]).store.indentBlockOfLine? 3 =
        some 1 ∧
      (edited "#f([\nb\n])".toList [.insertLine 0 "x".toList]).text = "x\n#f([\nb\n])".toList := by
    cbv
  obtain ⟨hpartner, hleast⟩ :=
    edited_indentation "#f([\nb\n])".toList [.insertLine 0 "x".toList]
  refine ⟨hpartner 10 4 hm (by decide) ?_, ?_⟩
  · rintro ⟨before, after, heq, _⟩
    have hmem : '$' ∈ "x\n#f([\nb\n])".toList := htext ▸ heq ▸ by simp
    exact absurd hmem (by decide)
  · obtain ⟨block, hblock, _, _, hpos⟩ := hleast 3 (hcount.symm ▸ by decide)
    obtain rfl := Option.some.inj (hblock.symm.trans hline)
    exact hpos

end Document

end LineMarkup

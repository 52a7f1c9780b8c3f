import LineMarkup.Proofs.Document.Edit
import Mathlib.Data.Nat.Find

namespace LineMarkup.Document

open LineMarkup.Span (ident)

variable {lines : List Line} {line before next : Line} {span : Span} {i j id : Nat}

theorem lastAfter_take (hl : lines[i]? = some line) :
    lastAfter none (lines.take (i + 1)) = some line := by
  rw [List.take_add_one, hl, lastAfter_append]
  rfl

namespace Chain

/-- A span of a line begins in it, or comes from the line before, where it was still open. -/
theorem span_before (h : Chain none lines) (hl : lines[i]? = some line)
    (hs : span ∈ line.analysis.spans) :
    (span.id ∈ line.born ∧ line.start ≤ span.first ∧ span.first < line.start + line.text.size) ∨
      ∃ j before old, i = j + 1 ∧ lines[j]? = some before ∧ old ∈ before.analysis.spans ∧
        old.last = none ∧ ident old = ident span := by
  obtain ⟨hg, id, hline⟩ := h.getElem grounded_none hl
  obtain ⟨born, hi, hb, hbounds, _⟩ := parseLine_ident hg line.text id
  have hstart := parseLine_start (lastAfter none (lines.take i)) line.text id
  rw [← hline] at hi hb hstart
  have hm := List.mem_map_of_mem (f := ident) hs
  rw [hi] at hm
  rcases List.mem_append.mp hm with hm | hm
  · right
    obtain ⟨old, ho, heq⟩ := List.mem_map.mp hm
    cases i with
    | zero => cases ho
    | succ j =>
      have hj : j < lines.length :=
        Nat.lt_of_succ_lt (List.getElem?_eq_some_iff.mp hl).1
      rw [lastAfter_take (List.getElem?_eq_getElem hj)] at ho
      obtain ⟨ho, hopen⟩ := List.mem_filter.mp ho
      exact ⟨j, _, old, rfl, List.getElem?_eq_getElem hj, ho,
        Option.isNone_iff_eq_none.mp hopen, heq⟩
  · left
    rw [hb, hstart]
    exact ⟨List.mem_map_of_mem (f := (·.1)) hm, hbounds _ hm⟩

/-- A span that is open goes on in the next line. -/
theorem span_after (h : Chain none lines) (hl : lines[i]? = some line)
    (hs : span ∈ line.analysis.spans) (ho : span.last = none) (hn : lines[i + 1]? = some next) :
    ∃ later ∈ next.analysis.spans, ident later = ident span := by
  obtain ⟨hg, id, hline⟩ := h.getElem grounded_none hn
  obtain ⟨born, hi, _, _, _⟩ := parseLine_ident hg next.text id
  rw [← hline, lastAfter_take hl] at hi
  have hopen : span ∈ openAfter (some line) :=
    List.mem_filter.mpr ⟨hs, Option.isNone_iff_eq_none.mpr ho⟩
  have hm : ident span ∈ next.analysis.spans.map ident := by
    rw [hi]
    exact List.mem_append_left _ (List.mem_map_of_mem hopen)
  obtain ⟨later, hl, heq⟩ := List.mem_map.mp hm
  exact ⟨later, hl, heq⟩

/-- A span can be followed back to the line where it begins. It is open in all lines on the way. -/
theorem span_origin (h : Chain none lines) (hl : lines[i]? = some line)
    (hs : span ∈ line.analysis.spans) :
    ∃ a, ∃ origin : Line, a ≤ i ∧ lines[a]? = some origin ∧ span.id ∈ origin.born ∧
      origin.start ≤ span.first ∧ span.first < origin.start + origin.text.size ∧
      ∀ k, a ≤ k → k ≤ i → ∃ passed : Line, ∃ same, lines[k]? = some passed ∧
        same ∈ passed.analysis.spans ∧ ident same = ident span ∧ (k < i → same.last = none) := by
  have hhere {i : Nat} {line : Line} {span : Span} (hl : lines[i]? = some line)
      (hs : span ∈ line.analysis.spans) : ∃ passed : Line, ∃ same, lines[i]? = some passed ∧
        same ∈ passed.analysis.spans ∧ ident same = ident span ∧ (i < i → same.last = none) :=
    ⟨line, span, hl, hs, rfl, fun hlt => absurd hlt (Nat.lt_irrefl _)⟩
  induction i generalizing line span with
  | zero =>
    rcases h.span_before hl hs with ⟨hb, hlow, hhigh⟩ | ⟨j, _, _, hj, _⟩
    · refine ⟨0, line, Nat.le_refl _, hl, hb, hlow, hhigh, fun k _ hk => ?_⟩
      obtain rfl := Nat.le_zero.mp hk
      exact hhere hl hs
    · cases hj
  | succ i ih =>
    rcases h.span_before hl hs with
      ⟨hb, hlow, hhigh⟩ | ⟨j, before, old, hj, hbefore, ho, hopen, heq⟩
    · refine ⟨i + 1, line, Nat.le_refl _, hl, hb, hlow, hhigh, fun k hk hk' => ?_⟩
      obtain rfl := Nat.le_antisymm hk' hk
      exact hhere hl hs
    · obtain rfl := Nat.succ.inj hj
      obtain ⟨a, origin, ha, horigin, hb, hlow, hhigh, hway⟩ := ih hbefore ho
      obtain ⟨hid, hrest⟩ := Prod.mk.inj heq
      obtain ⟨_, hfirst⟩ := Prod.mk.inj hrest
      rw [hid] at hb
      rw [hfirst] at hlow hhigh
      refine ⟨a, origin, Nat.le_succ_of_le ha, horigin, hb, hlow, hhigh, fun k hk hk' => ?_⟩
      rcases Nat.lt_trichotomy k i with hlt | rfl | hgt
      · obtain ⟨passed, same, hp, hm, hi, hl⟩ := hway k hk (Nat.le_of_lt hlt)
        exact ⟨passed, same, hp, hm, hi.trans heq, fun _ => hl hlt⟩
      · exact ⟨before, old, hbefore, ho, heq, fun _ => hopen⟩
      · obtain rfl := Nat.le_antisymm hk' hgt
        exact hhere hl hs

/-- No two lines begin a span under the same id. -/
theorem origin_unique (hu : (lines.flatMap Line.born).Nodup) (hi : lines[i]? = some line)
    (hj : lines[j]? = some next) (hb : id ∈ line.born) (hb' : id ∈ next.born) : i = j := by
  obtain ⟨hi', rfl⟩ := List.getElem?_eq_some_iff.mp hi
  obtain ⟨hj', rfl⟩ := List.getElem?_eq_some_iff.mp hj
  have hapart := List.pairwise_iff_getElem.mp (List.nodup_flatMap.mp hu).2
  rcases Nat.lt_trichotomy i j with hlt | heq | hgt
  · exact absurd hb' (hapart i j hi' hj' hlt hb)
  · exact heq
  · exact absurd hb (hapart j i hj' hi' hgt hb')

end Chain

/-- Line `i` has a span under the id `id`. -/
def Records (d : Document) (id i : Nat) : Prop :=
  ∃ line : Line, d.lines[i]? = some line ∧ ∃ span ∈ line.analysis.spans, span.id = id

theorem Records.exists_last {d : Document} (h : d.Records id i) :
    ∃ b, d.Records id b ∧ ∀ j, d.Records id j → j ≤ b := by
  classical
  have hlt (j : Nat) (hj : d.Records id j) : j ≤ d.lines.length := by
    obtain ⟨line, hl, _⟩ := hj
    exact Nat.le_of_lt (List.getElem?_eq_some_iff.mp hl).1
  exact ⟨_, Nat.findGreatest_spec (hlt i h) h, fun j hj => Nat.le_findGreatest (hlt j hj) hj⟩

/-- The span `id` is recorded on the lines from `a` to `b` and nowhere else. -/
structure Runs (d : Document) (id a b : Nat) (kind : Construct) (first : Nat) : Prop where
  order : a ≤ b ∧ b < d.lines.length
  recorded : ∀ i line, d.lines[i]? = some line →
    ((∃ span ∈ line.analysis.spans, span.id = id) ↔ a ≤ i ∧ i ≤ b)
  same : ∀ line ∈ d.lines, ∀ span ∈ line.analysis.spans, span.id = id →
    span.kind = kind ∧ span.first = first
  begins : ∀ line, d.lines[a]? = some line →
    line.start ≤ first ∧ first < line.start + line.text.size
  goesOn : ∀ i line, i < b → d.lines[i]? = some line →
    ∀ span ∈ line.analysis.spans, span.id = id → span.last = none
  ends : ∀ line, d.lines[b]? = some line → ∀ span ∈ line.analysis.spans, span.id = id →
    (∃ last, span.last = some last ∧ first ≤ last ∧ line.start ≤ last ∧
      last ≤ line.start + line.text.size) ∨
    (span.last = none ∧ b + 1 = d.lines.length)

theorem isSorted_of_ascending {spans : List Span}
    (h : spans.Pairwise (fun a b => a.first < b.first)) : Span.isSorted spans = true := by
  induction spans with
  | nil => rfl
  | cons a rest ih =>
    cases rest with
    | nil => rfl
    | cons b rest =>
      obtain ⟨ha, hrest⟩ := List.pairwise_cons.mp h
      simp [Span.isSorted, Span.precedes, ha b List.mem_cons_self, ih hrest]

namespace Valid

variable {d : Document} {other : Span}

theorem ids_nodup (h : Valid d) :
    ∀ line ∈ d.lines, (line.analysis.spans.map Span.id).Nodup :=
  (h.chain.ids_unique h.unique).1

/-- There is one span under an id in a line. -/
theorem span_unique (h : Valid d) (hl : line ∈ d.lines) (hs : span ∈ line.analysis.spans)
    (ho : other ∈ line.analysis.spans) (hid : span.id = other.id) : span = other :=
  List.inj_on_of_nodup_map (h.ids_nodup line hl) hs ho hid

/-- The last line that has a span, and the line where this span begins, with all the lines in
between. No other line has it. -/
theorem last_record (h : Valid d) (hi : d.Records id i) :
    ∃ a b lastLine origin final, a ≤ b ∧ d.lines[b]? = some lastLine ∧
      final ∈ lastLine.analysis.spans ∧ final.id = id ∧ d.lines[a]? = some origin ∧
      origin.start ≤ final.first ∧ final.first < origin.start + origin.text.size ∧
      (∀ k, a ≤ k → k ≤ b → d.Records id k) ∧
      ∀ k line, d.lines[k]? = some line → ∀ span ∈ line.analysis.spans, span.id = id →
        a ≤ k ∧ k ≤ b ∧ ident span = ident final ∧ (k < b → span.last = none) := by
  obtain ⟨b, hb, hmax⟩ := hi.exists_last
  obtain ⟨lastLine, hlast, final, hfinal, rfl⟩ := hb
  obtain ⟨a, origin, hab, horigin, hborn, hlow, hhigh, hway⟩ := h.chain.span_origin hlast hfinal
  refine ⟨a, b, lastLine, origin, final, hab, hlast, hfinal, rfl, horigin, hlow, hhigh, ?_, ?_⟩
  · intro k hak hkb
    obtain ⟨passed, same, hp, hm, hident, _⟩ := hway k hak hkb
    exact ⟨passed, hp, same, hm, (Prod.mk.inj hident).1⟩
  · intro k line hl span hs hid
    have hkb := hmax k ⟨line, hl, span, hs, hid⟩
    obtain ⟨a', origin', hak, horigin', hborn', _⟩ := h.chain.span_origin hl hs
    rw [hid] at hborn'
    obtain rfl := Chain.origin_unique h.unique horigin horigin' hborn hborn'
    obtain ⟨passed, same, hp, hm, hident, hopen⟩ := hway k hak hkb
    obtain rfl := Option.some.inj (hp.symm.trans hl)
    have hsame : same.id = span.id := (Prod.mk.inj hident).1.trans hid.symm
    obtain rfl := h.span_unique (List.mem_of_getElem? hl) hm hs hsame
    exact ⟨hak, hkb, hident, hopen⟩

/-- A span that has ended in a line has its last position there. -/
theorem last_bounds (h : Valid d) (hl : d.lines[i]? = some line)
    (hs : span ∈ line.analysis.spans) (hlast : span.last = some last) :
    span.first ≤ last ∧ line.start ≤ last ∧ last ≤ line.start + line.text.size := by
  obtain ⟨hg, id, hline⟩ := h.chain.getElem grounded_none hl
  have hbounds := parseLine_ended hg line.text id
  have hstart := parseLine_start (lastAfter none (d.lines.take i)) line.text id
  rw [← hline] at hbounds hstart
  rw [← hstart] at hbounds
  exact hbounds span hs last hlast

/-- A span ends in the last line that has it, or goes on after the last line. -/
theorem last_ends (h : Valid d) (hl : d.lines[i]? = some line) (hs : span ∈ line.analysis.spans)
    (hn : ¬ d.Records span.id (i + 1)) :
    (∃ last, span.last = some last ∧ span.first ≤ last ∧ line.start ≤ last ∧
      last ≤ line.start + line.text.size) ∨
    (span.last = none ∧ i + 1 = d.lines.length) := by
  cases hend : span.last with
  | some last => exact .inl ⟨last, rfl, h.last_bounds hl hs hend⟩
  | none =>
    have hi := (List.getElem?_eq_some_iff.mp hl).1
    refine .inr ⟨rfl, Nat.le_antisymm hi (Nat.le_of_not_lt fun hlt => hn ?_)⟩
    obtain ⟨later, hm, hlater⟩ := h.chain.span_after hl hs hend (List.getElem?_eq_getElem hlt)
    exact ⟨_, List.getElem?_eq_getElem hlt, later, hm, (Prod.mk.inj hlater).1⟩

theorem runs (h : Valid d) (hl : line ∈ d.lines) (hs : span ∈ line.analysis.spans) :
    ∃ a b kind first, Runs d span.id a b kind first := by
  obtain ⟨i, hi⟩ := List.mem_iff_getElem?.mp hl
  obtain ⟨a, b, lastLine, origin, final, hab, hlast, hfinal, hid, horigin, hlow, hhigh, hway,
    hall⟩ := h.last_record ⟨line, hi, span, hs, rfl⟩
  refine ⟨a, b, final.kind, final.first, ⟨hab, (List.getElem?_eq_some_iff.mp hlast).1⟩,
    ?_, ?_, ?_, ?_, ?_⟩
  · intro k line hk
    constructor
    · rintro ⟨s, hs, heq⟩
      obtain ⟨hak, hkb, _⟩ := hall k line hk s hs heq
      exact ⟨hak, hkb⟩
    · rintro ⟨hak, hkb⟩
      obtain ⟨passed, hp, same, hm, heq⟩ := hway k hak hkb
      obtain rfl := Option.some.inj (hp.symm.trans hk)
      exact ⟨same, hm, heq⟩
  · intro line hl s hs heq
    obtain ⟨k, hk⟩ := List.mem_iff_getElem?.mp hl
    obtain ⟨_, _, hident, _⟩ := hall k line hk s hs heq
    exact Prod.mk.inj (Prod.mk.inj hident).2
  · intro line hl
    obtain rfl := Option.some.inj (horigin.symm.trans hl)
    exact ⟨hlow, hhigh⟩
  · intro k line hkb hk s hs heq
    exact (hall k line hk s hs heq).2.2.2 hkb
  · intro line hl s hs heq
    obtain ⟨_, _, hident, _⟩ := hall b line hl s hs heq
    rw [← (Prod.mk.inj (Prod.mk.inj hident).2).2]
    refine h.last_ends hl hs (fun ⟨next, hn, same, hm, hsame⟩ => ?_)
    obtain ⟨_, hle, _⟩ := hall (b + 1) next hn same hm (hsame.trans heq)
    exact Nat.not_succ_le_self b hle

/-- The ids of all spans were given by the document. -/
theorem id_lt (h : Valid d) (hl : line ∈ d.lines) (hs : span ∈ line.analysis.spans) :
    span.id < d.nextId := by
  obtain ⟨i, hi⟩ := List.mem_iff_getElem?.mp hl
  obtain ⟨a, origin, _, horigin, hborn, _⟩ := h.chain.span_origin hi hs
  exact h.used _ (List.mem_flatMap.mpr ⟨origin, List.mem_of_getElem? horigin, hborn⟩)

theorem ascending (h : Valid d) (hl : line ∈ d.lines) :
    line.analysis.spans.Pairwise (fun a b => a.first < b.first) := by
  obtain ⟨i, hi⟩ := List.mem_iff_getElem?.mp hl
  obtain ⟨hg, id, hline⟩ := h.chain.getElem grounded_none hi
  exact hline ▸ parseLine_ascending hg line.text id

end Valid

/-- In a document that was edited in any way, the spans of each line are in order and under ids of
the document, no two of them under one id, and each span runs from the line where it begins to the
line where it ends, or to the last line. -/
theorem edited_spans (text : Text) (edits : List Edit) :
    let d := edited text edits
    (∀ line ∈ d.lines, Span.isSorted line.analysis.spans = true) ∧
    (∀ line ∈ d.lines, (line.analysis.spans.map Span.id).Nodup) ∧
    (∀ line ∈ d.lines, ∀ span ∈ line.analysis.spans, span.id < d.nextId) ∧
    ∀ line ∈ d.lines, ∀ span ∈ line.analysis.spans, ∃ a b kind first,
      Runs d span.id a b kind first := by
  obtain ⟨h, _⟩ := edited_valid text edits
  exact ⟨fun line hl => isSorted_of_ascending (h.ascending hl), h.ids_nodup,
    fun line hl span => h.id_lt hl, fun line hl span => h.runs hl⟩

end LineMarkup.Document

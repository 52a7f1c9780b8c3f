import Mathlib
import LineMarkup.LineStore.Bracket
import LineMarkup.Proofs.Document.Continuity
import LineMarkup.Proofs.Document.Prose
import LineMarkup.Proofs.LineStore.Innermost
import LineMarkup.Proofs.Span.Barren

namespace LineMarkup

namespace LineStore

/-- What is known of a cursor in a line. -/
def placeAt (store : LineStore) (line : Nat) (cursor : Cursor) : Place :=
  { previous := (store.constructsAt line cursor.position).1
    inside := (store.constructsAt line cursor.position).2
    before := ((store.lineText line).before? (cursor.position - store.lineStart line)).bind
      List.getLast?
    selected := cursor.hasSelection }

theorem closingBracket_eq {store : LineStore} {cursor : Cursor} {line : Nat}
    (hl : store.lineOf? cursor.position = some line) (opening : Char) :
    store.closingBracket cursor opening =
      if (store.placeAt line cursor).closes opening then some (closing opening) else none := by
  simp only [closingBracket, hl, placeAt]
  rfl

namespace Place

/-- Nothing is closed in such a construct for its own sake. -/
def isMute (kind : Construct) : Bool :=
  !kind.holds && kind ≠ .codeVariable && kind ≠ .codeFunction && kind ≠ .raw && kind ≠ .rawBlock

/-- In a mute construct only the one before counts, and only for square brackets. -/
theorem closes_mute {place : Place} (h : isMute place.inside = true) (opening : Char) :
    place.closes opening = true ↔ opening = '[' ∧
      (place.previous = some .codeArguments ∨ place.previous = some .contentBlock) := by
  obtain ⟨previous, inside, before, selected⟩ := place
  simp only [isMute, Construct.holds, Bool.and_eq_true, Bool.not_eq_true', Bool.or_eq_false_iff,
    decide_eq_true_eq] at h
  obtain ⟨⟨⟨⟨⟨⟨hcontent, hmath⟩, hcode⟩, hvariable⟩, hfunction⟩, hraw⟩, hblock⟩ := h
  unfold closes
  split <;> simp_all [inName, inRaw]

/-- In code all that is closed there is closed, whatever stands before. -/
theorem closes_code {place : Place} (h : place.inside.holdsCode = true) (opening : Char) :
    place.closes opening = true ↔ opening ∈ ['(', '[', '\x7b', '$', '"'] := by
  have hcontent : place.inside.holdsContent = false := by
    revert h
    cases place.inside <;> simp [Construct.holdsCode, Construct.holdsContent]
  unfold closes
  split <;> simp_all

end Place

end LineStore

/-- While a text is read nothing is closed without a mark of its own. -/
theorem Story.pop_explicit {text : Text} {start stack : List Frame} {es : List Event}
    (h : Story text start es stack) :
    ∀ frame stop implicit, .pop frame stop implicit ∈ es → implicit = false := by
  intro frame stop implicit hm
  induction h with
  | nil => cases hm
  | pop _ _ _ ih =>
    rcases List.mem_cons.mp hm with heq | hm
    · exact (Event.pop.inj heq).2.2
    · exact ih hm
  | push _ _ _ _ _ _ _ _ ih | instant _ _ _ _ _ _ ih | loose _ _ ih =>
    exact ih ((List.mem_cons.mp hm).resolve_left (by simp))

/-- What a bracket opens begins with it. -/
theorem Story.opened {text : Text} {start stack : List Frame} {es : List Event} {frame : Frame}
    {stop : Nat} {c : Char} (h : Story text start es stack) (hm : .push frame stop ∈ es)
    (hk : frame.kind.opening? = some c) :
    Text.HasAt text c frame.start ∧ stop = frame.start + 1 := by
  induction h with
  | nil => cases hm
  | push _ _ _ _ _ _ _ opened ih =>
    rcases List.mem_cons.mp hm with heq | hm
    · obtain ⟨rfl, rfl⟩ := Event.push.inj heq
      exact opened c hk
    · exact ih hm
  | pop _ _ _ ih | instant _ _ _ _ _ _ ih | loose _ _ ih =>
    exact ih ((List.mem_cons.mp hm).resolve_left (by simp))

namespace Parse

/-- Of constructs that admit each other only the innermost one is barren. -/
theorem Orderly.tail_fertile {carried : List Construct} (h : Orderly carried) :
    ∀ f ∈ (Frame.around carried).tail, f.kind.isBarren = false := by
  intro f hf
  have htail := h.nested.tail_fertile
  rw [← List.map_tail] at htail
  exact htail _ (List.mem_map_of_mem hf)

/-- What ends with the text without a mark of its own ends with its line. -/
theorem report_implicit {text : Text} {carried : List Construct} {frame : Frame} {stop : Nat}
    (h : .pop frame stop true ∈ (ofText text carried).report false) :
    frame.kind.endsWithLine = true := by
  rw [report, List.mem_append] at h
  rcases h with h | h
  · obtain ⟨stack, hr, _⟩ := reported text carried
    exact absurd (hr.story.pop_explicit _ _ _ (List.mem_reverse.mpr h)) (by decide)
  · obtain ⟨f, hf, heq⟩ := List.mem_map.mp h
    obtain ⟨rfl, _⟩ := Event.pop.inj heq
    exact List.all_eq_true.mp List.all_takeWhile f hf

end Parse

namespace Analysis

open LineMarkup.Span Record

variable {previous : List Span} {base : Nat}

theorem ofLine_clear (hc : Carried base (unclosed previous))
    (ho : Parse.Orderly (Span.unclosedKinds previous)) (text : Text) (id : Nat) :
    (ofLine text previous base id).1.spans.reverse.Pairwise Clear := by
  obtain ⟨es, ht, he, hes, hs, _⟩ := ofLine_along hc text id
  have hsheltered := Parse.report_sheltered text ho.tail_fertile
  rw [hs, List.reverse_reverse]
  refine along_clear ht (hes ▸ hsheltered) (Parse.unclosed_rooted _ _) he hc ?_ id
  have htail := ho.tail_fertile
  have haround : Frame.around (Span.unclosedKinds previous) =
      (unclosed previous).reverse.map (fun span => Frame.carriedOver span.kind) ++
        [Frame.root] := by
    simp [Frame.around, Span.unclosedKinds, Function.comp_def]
  rw [haround] at htail
  cases hcarried : (unclosed previous).reverse with
  | nil => exact .nil
  | cons latest rest =>
    -- Of what was open before only the latest span may be barren.
    rw [hcarried, List.map_cons, List.cons_append, List.tail_cons] at htail
    have hfertile : ∀ span ∈ rest, span.kind.isBarren = false := fun span hm =>
      htail _ (List.mem_append_left _ (List.mem_map_of_mem hm))
    refine List.pairwise_cons.mpr ⟨fun span hm hk => ?_,
      List.pairwise_of_forall_mem_list fun _ _ span hm hk => ?_⟩ <;>
    · rw [hfertile span hm] at hk
      cases hk

theorem ofLine_literal (hc : Carried base (unclosed previous))
    (ho : Parse.Orderly (Span.unclosedKinds previous)) (text : Text) (id : Nat) :
    ∀ span ∈ (ofLine text previous base id).1.spans, span.kind = .stringLiteral →
      base ≤ span.first → ∃ outer,
        (ofLine text previous base id).1.spans.reverse.find? (holds span.first) = some outer ∧
          outer.kind.quotes = true := by
  obtain ⟨es, ht, he, hes, hs, _⟩ := ofLine_along hc text id
  have hsheltered := Parse.report_sheltered text ho.tail_fertile
  intro span hm hk hbase
  rw [hs, List.mem_reverse] at hm
  rw [hs, List.reverse_reverse]
  exact find_literal ht (hes ▸ hsheltered) (Parse.unclosed_rooted _ _) he hc hm hk hbase

theorem ofLine_endsAlone (hc : Carried base (unclosed previous))
    (hp : ∀ span ∈ unclosed previous, EndsAlone span) (text : Text) (id : Nat) :
    ∀ span ∈ (ofLine text previous base id).1.spans, EndsAlone span := by
  obtain ⟨es, _, _, hes, hs, _⟩ := ofLine_along hc text id
  intro span hm
  rw [hs, List.mem_reverse] at hm
  refine along_endsAlone (fun frame stop hpop => ?_) hp id span hm
  rw [hes, List.mem_reverse] at hpop
  exact Parse.report_implicit hpop

end Analysis

namespace Document

open LineMarkup.Span (Clear EndsAlone Record)

variable {d : Document} {previous : Option Line} {lines : List Line} {line : Line} {span : Span}
variable {i pos : Nat}

/-- What a parse keeps of each span holds of all spans that the lines have. -/
theorem Chain.every {P : Span → Prop} (h : Chain previous lines) (hg : Grounded previous)
    (hparse : ∀ {previous}, Grounded previous → (∀ span ∈ openAfter previous, P span) →
      ∀ text id, ∀ span ∈ (Analysis.ofLine text ((previous.map (·.analysis.spans)).getD [])
        (startAfter previous) id).1.spans, P span)
    (hp : ∀ span ∈ openAfter previous, P span) :
    ∀ line ∈ lines, ∀ span ∈ line.analysis.spans, P span := by
  induction h with
  | nil => simp
  | @parse previous text lines id _ ih =>
    have hline : ∀ span ∈ (parseLine previous text id).1.analysis.spans, P span :=
      parseLine_spans (P := fun spans => ∀ span ∈ spans, P span) (by simp) (hparse hg hp text) id
    refine List.forall_mem_cons.mpr ⟨hline, ih (parseLine_grounded hg text id) ?_⟩
    exact fun span hm => hline span (List.mem_of_mem_filter hm)

namespace Valid

theorem endsAlone (h : Valid d) (hl : line ∈ d.lines) (hs : span ∈ line.analysis.spans) :
    EndsAlone span :=
  h.chain.every grounded_none Analysis.ofLine_endsAlone (by simp [openAfter, Span.unclosed]) line hl
    span hs

/-- What a line is parsed within was opened by the parse of some line. -/
theorem orderly_before (h : Valid d) (i : Nat) :
    Parse.Orderly (kindsAfter (lastAfter none (d.lines.take i))) := by
  have hchain := h.chain
  rw [← List.take_append_drop i d.lines] at hchain
  exact (Chain.append.mp hchain).1.orderly grounded_none Parse.orderly_nil

theorem clear (h : Valid d) (hl : d.lines[i]? = some line) :
    line.analysis.spans.reverse.Pairwise Clear := by
  obtain ⟨hg, id, hline⟩ := h.chain.getElem grounded_none hl
  have horderly := h.orderly_before i
  generalize lastAfter none (d.lines.take i) = previous at hg hline horderly
  rw [hline]
  exact parseLine_spans (P := fun spans => spans.reverse.Pairwise Clear) .nil
    (Analysis.ofLine_clear hg horderly line.text) id

/-- Wherever a barren span is in effect, it is the innermost one. -/
theorem spanAt_barren (h : Valid d) (hl : d.lines[i]? = some line)
    (hs : span ∈ line.analysis.spans) (hk : span.kind.isBarren = true)
    (hpos : Span.holds pos span = true) : d.store.spanAt? i pos = some span := by
  have hclear := h.clear hl
  rw [spanAt_eq hl]
  obtain ⟨later, earlier, hsplit⟩ := List.append_of_mem (List.mem_reverse.mpr hs)
  rw [hsplit] at hclear ⊢
  have hlater : later.find? (Span.holds pos) = none := by
    rw [List.find?_eq_none]
    intro other ho hholds
    obtain ⟨last, hlast, hlt⟩ := (List.pairwise_append.mp hclear).2.2 other ho span
      List.mem_cons_self hk
    have hle := (Span.holds_iff.mp hpos).2 last hlast
    exact Nat.lt_asymm hlt (Nat.lt_of_lt_of_le (Span.holds_iff.mp hholds).1 hle)
  rw [List.find?_append, hlater, Option.none_or, List.find?_cons_of_pos hpos]

end Valid

/-- A cursor in a comment or a literal, with the construct found just before it. -/
theorem Valid.constructsAt_barren (h : Valid d) (hl : d.lines[i]? = some line)
    (hs : span ∈ line.analysis.spans) (hk : span.kind.isBarren = true)
    (hbefore : line.start < pos → Span.holds (pos - 1) span = true)
    (hhere : Span.holds pos span = true ∨ line.start < pos ∧ span.implicit = true) :
    (d.store.constructsAt i pos).2 = span.kind ∧
      ((d.store.constructsAt i pos).1 = none ∨
        (d.store.constructsAt i pos).1 = some span.kind) := by
  have hat : Span.holds pos span = true → d.store.spanAt? i pos = some span :=
    h.spanAt_barren hl hs hk
  simp only [LineStore.constructsAt, store_lineStart hl]
  by_cases hlow : line.start < pos
  · rw [if_pos hlow, h.spanAt_barren hl hs hk (hbefore hlow)]
    refine ⟨?_, .inr rfl⟩
    rcases hhere with hpos | ⟨_, himplicit⟩
    · simp [hat hpos]
    · simp [himplicit]
  · rw [if_neg hlow]
    have hpos := hhere.resolve_right fun hboth => hlow hboth.1
    exact ⟨by simp [hat hpos], .inl rfl⟩

/-- In a comment, from behind its opening mark on, nothing is closed. -/
theorem Valid.comment_mute (h : Valid d) (hl : d.lines[i]? = some line)
    (hs : span ∈ line.analysis.spans) (hk : span.kind = .commentLine ∨ span.kind = .commentBlock)
    (hlow : span.first + 2 ≤ pos)
    (hhigh : ∀ last, span.last = some last → pos ≤ last + if span.implicit then 1 else 0)
    (anchor : Nat) (opening : Char) :
    (d.store.placeAt i { position := pos, anchor }).closes opening = false := by
  have hbarren : span.kind.isBarren = true := by
    rcases hk with hk | hk <;> rw [hk] <;> rfl
  have hmute : LineStore.Place.isMute span.kind = true := by
    rcases hk with hk | hk <;> rw [hk] <;> rfl
  have hbefore : Span.holds (pos - 1) span = true := by
    refine Span.holds_iff.mpr ⟨by omega, fun last hlast => ?_⟩
    have := hhigh last hlast
    split at this <;> omega
  have hhere : Span.holds pos span = true ∨ line.start < pos ∧ span.implicit = true := by
    cases himplicit : span.implicit with
    | false =>
      simp only [himplicit, Bool.false_eq_true, ↓reduceIte, Nat.add_zero] at hhigh
      exact .inl (Span.holds_iff.mpr ⟨by omega, hhigh⟩)
    | true =>
      -- At the start of its line the cursor is not behind the comment.
      rcases Nat.lt_or_ge line.start pos with hlt | hge
      · exact .inr ⟨hlt, rfl⟩
      · refine .inl (Span.holds_iff.mpr ⟨by omega, fun last hlast => ?_⟩)
        exact Nat.le_trans hge (h.last_bounds hl hs hlast).2.1
  obtain ⟨hinside, hprevious⟩ := h.constructsAt_barren hl hs hbarren (fun _ => hbefore) hhere
  rw [Bool.eq_false_iff]
  intro hcloses
  rw [LineStore.Place.closes_mute (by simpa [LineStore.placeAt, hinside] using hmute)] at hcloses
  obtain ⟨_, hbracket⟩ := hcloses
  simp only [LineStore.placeAt] at hbracket
  rcases hprevious with hnone | hsome
  · simp [hnone] at hbracket
  · rw [hsome, Option.some.injEq, Option.some.injEq] at hbracket
    rcases hk with hk | hk <;> rw [hk] at hbracket <;> simp at hbracket

/-- Nothing is closed in a comment, from behind its opening mark up to its last position, and to the
end of the line where the line ends it. This holds on each line that the comment runs over, with
whatever selection. -/
theorem comment_closes_nothing {text : Text} {edits : List Edit}
    (hl : (edited text edits).lines[i]? = some line) (hs : span ∈ line.analysis.spans)
    (hk : span.kind = .commentLine ∨ span.kind = .commentBlock)
    (hp : (edited text edits).store.lineOf? pos = some i) (hlow : span.first + 2 ≤ pos)
    (hhigh : ∀ last, span.last = some last → pos ≤ last + if span.implicit then 1 else 0)
    (anchor : Nat) (opening : Char) :
    (edited text edits).store.closingBracket { position := pos, anchor } opening = none := by
  obtain ⟨h, hn⟩ := edited_valid text edits
  have hmute := h.comment_mute hl hs hk hlow hhigh anchor opening
  rw [LineStore.closingBracket_eq hp, if_neg (by simp [hmute])]

/-- Behind a bracket in a comment that began on the line before, with the rest of it selected. -/
theorem comment_closes_nothing_selected :
    let d := edited "$ /* (\n[ */ $".toList [.insertLine 0 "x".toList]
    (∃ line, d.lines[2]? = some line ∧ ∃ span ∈ line.analysis.spans,
      span.kind = .commentBlock ∧ span.first + 2 ≤ 10 ∧ span.last = some 12) ∧
    d.store.lineOf? 10 = some 2 ∧
    d.store.closingBracket { position := 10, anchor := 12 } '"' = none := by
  intro d
  obtain ⟨hspans, hp⟩ :
      (edited "$ /* (\n[ */ $".toList [.insertLine 0 "x".toList]).lines[2]?.map
          (fun line => line.analysis.spans) =
        some [⟨0, .math, 2, some 14, false⟩, ⟨1, .commentBlock, 4, some 12, false⟩] ∧
      (edited "$ /* (\n[ */ $".toList [.insertLine 0 "x".toList]).store.lineOf? 10 = some 2 := by
    cbv
  obtain ⟨line, hl, heq⟩ := Option.map_eq_some_iff.mp hspans
  have hs : ⟨1, .commentBlock, 4, some 12, false⟩ ∈ line.analysis.spans := by
    rw [heq]
    simp
  refine ⟨⟨line, hl, _, hs, rfl, by decide, rfl⟩, hp, ?_⟩
  exact comment_closes_nothing hl hs (.inr rfl) hp (by decide)
    (fun last hlast => by rw [← Option.some.inj hlast]; decide) 12 '"'

/-- Math or code is around a string literal where it begins. -/
theorem Valid.around_literal (h : Valid d) (hl : d.lines[i]? = some line)
    (hs : span ∈ line.analysis.spans) (hk : span.kind = .stringLiteral)
    (hbegun : line.start ≤ span.first) :
    ∃ outer ∈ line.analysis.spans, d.store.spanAt? i span.first = some outer ∧
      outer.kind.quotes = true := by
  obtain ⟨hg, id, hline⟩ := h.chain.getElem grounded_none hl
  have horderly := h.orderly_before i
  have hstart := parseLine_start (lastAfter none (d.lines.take i)) line.text id
  have hfind := parseLine_spans (P := fun spans => ∀ span ∈ spans, span.kind = .stringLiteral →
    startAfter (lastAfter none (d.lines.take i)) ≤ span.first → ∃ outer,
      spans.reverse.find? (Span.holds span.first) = some outer ∧ outer.kind.quotes = true)
    (by simp) (Analysis.ofLine_literal hg horderly line.text) id
  rw [← hline] at hfind hstart
  obtain ⟨outer, hfound, hquotes⟩ := hfind span hs hk (hstart ▸ hbegun)
  rw [spanAt_eq hl]
  exact ⟨outer, List.mem_reverse.mp (List.mem_of_find?_eq_some hfound), hfound, hquotes⟩

/-- In a string literal nothing is closed, but right behind its opening quote. There the query sees
what is around the literal: a square bracket is closed in arguments, and in a code line that ends
with its line all that is closed in code. -/
theorem literal_closes {text : Text} {edits : List Edit}
    (hl : (edited text edits).lines[i]? = some line) (hs : span ∈ line.analysis.spans)
    (hk : span.kind = .stringLiteral) (hp : (edited text edits).store.lineOf? pos = some i)
    (hlow : span.first < pos) (hhigh : ∀ last, span.last = some last → pos ≤ last)
    (anchor : Nat) (opening : Char) :
    let d := edited text edits
    (d.store.closingBracket { position := pos, anchor } opening).isSome = true ↔
      pos = span.first + 1 ∧ line.start ≤ span.first ∧
        ∃ outer, d.store.spanAt? i span.first = some outer ∧
          (outer.kind = .codeArguments ∧ opening = '[' ∨
            outer.kind = .codeLine ∧ outer.implicit = true ∧
              opening ∈ ['(', '[', '\x7b', '$', '"']) := by
  intro d
  obtain ⟨h, hn⟩ := edited_valid text edits
  have hbarren : span.kind.isBarren = true := by
    rw [hk]
    rfl
  have hhere : Span.holds pos span = true := Span.holds_iff.mpr ⟨hlow, hhigh⟩
  rw [LineStore.closingBracket_eq hp]
  by_cases hquote : pos = span.first + 1 ∧ line.start ≤ span.first
  · obtain ⟨rfl, hbegun⟩ := hquote
    obtain ⟨outer, hm, houter, hquotes⟩ := h.around_literal hl hs hk hbegun
    have halone := h.endsAlone (List.mem_of_getElem? hl) hm
    have hplace : d.store.constructsAt i (span.first + 1) =
        (some outer.kind, if outer.implicit then outer.kind else .stringLiteral) := by
      simp only [LineStore.constructsAt, d, store_lineStart hl, Nat.add_sub_cancel,
        if_pos (Nat.lt_succ_of_le hbegun), houter, h.spanAt_barren hl hs hbarren hhere,
        Option.map_some, Option.getD_some, hk]
    have hresult : (d.store.placeAt i { position := span.first + 1, anchor }).closes opening = true ↔
        outer.kind = .codeArguments ∧ opening = '[' ∨
          outer.kind = .codeLine ∧ outer.implicit = true ∧
            opening ∈ ['(', '[', '\x7b', '$', '"'] := by
      cases himplicit : outer.implicit with
      | false =>
        have hblock : outer.kind ≠ .contentBlock := by
          intro hblock
          rw [hblock] at hquotes
          cases hquotes
        rw [LineStore.Place.closes_mute (by simp [LineStore.placeAt, hplace, himplicit]; rfl)]
        simp [LineStore.placeAt, hplace, hblock, and_comm]
      | true =>
        have hkind : outer.kind = .codeLine := by
          have := halone himplicit
          revert this hquotes
          cases outer.kind <;> decide
        rw [LineStore.Place.closes_code (by simp [LineStore.placeAt, hplace, himplicit, hkind]; rfl)]
        simp [hkind]
    simp only [true_and, hbegun, houter, Option.some.injEq, exists_eq_left', d] at hresult ⊢
    rw [← hresult]
    split <;> simp_all
  · have hbefore : line.start < pos → Span.holds (pos - 1) span = true := by
      intro hstart
      refine Span.holds_iff.mpr ⟨by omega, fun last hlast => ?_⟩
      have := hhigh last hlast
      omega
    obtain ⟨hinside, hprevious⟩ := h.constructsAt_barren hl hs hbarren hbefore (.inl hhere)
    have hclosed : ¬ (d.store.placeAt i { position := pos, anchor }).closes opening = true := by
      rw [LineStore.Place.closes_mute (by simp [LineStore.placeAt, d, hinside, hk]; rfl)]
      rintro ⟨_, hbracket⟩
      simp only [LineStore.placeAt, d] at hbracket
      rcases hprevious with hnone | hsome
      · simp [hnone] at hbracket
      · simp [hsome, hk] at hbracket
    rw [if_neg hclosed]
    refine iff_of_false (by simp) ?_
    rintro ⟨hpos, hbegun, _⟩
    exact hquote ⟨hpos, hbegun⟩

/-- In a string that began on the line before, nothing is closed behind the escaped quote. -/
theorem literal_closes_escape :
    let d := edited "#f(\n\"a\\\"b\nc\", 1)".toList [.setLine 0 "#ff(".toList]
    (∃ line, d.lines[1]? = some line ∧ ∃ span ∈ line.analysis.spans,
      span.kind = .stringLiteral ∧ span.first < 9 ∧ span.last = none) ∧
    d.store.lineOf? 9 = some 1 ∧
    (d.store.closingBracket { position := 9, anchor := 9 } '[').isSome = false := by
  intro d
  obtain ⟨hspans, hp⟩ :
      (edited "#f(\n\"a\\\"b\nc\", 1)".toList [.setLine 0 "#ff(".toList]).lines[1]?.map
          (fun line => line.analysis.spans) =
        some [⟨4, .codeArguments, 3, none, false⟩, ⟨5, .stringLiteral, 5, none, false⟩] ∧
      (edited "#f(\n\"a\\\"b\nc\", 1)".toList [.setLine 0 "#ff(".toList]).store.lineOf? 9 =
        some 1 := by
    cbv
  obtain ⟨line, hl, heq⟩ := Option.map_eq_some_iff.mp hspans
  have hs : ⟨5, .stringLiteral, 5, none, false⟩ ∈ line.analysis.spans := by
    rw [heq]
    simp
  refine ⟨⟨line, hl, _, hs, rfl, by decide, rfl⟩, hp, ?_⟩
  rw [Bool.eq_false_iff]
  intro hcloses
  have hopen : ∀ last, (none : Option Nat) = some last → 9 ≤ last := by simp
  obtain ⟨hpos, _⟩ := (literal_closes hl hs rfl hp (by decide) hopen 9 '[').mp hcloses
  exact absurd hpos (by decide)

/-- Right behind the opening quote of an argument a square bracket is closed. -/
theorem bracket_in_literal :
    ¬ ∀ (text : Text) (edits : List Edit) (i pos anchor : Nat) (line : Line) (span : Span)
      (opening : Char), (edited text edits).lines[i]? = some line →
      span ∈ line.analysis.spans → span.kind = .stringLiteral →
      (edited text edits).store.lineOf? pos = some i → span.first < pos →
      (∀ last, span.last = some last → pos ≤ last) →
      (edited text edits).store.closingBracket { position := pos, anchor } opening = none := by
  intro hall
  obtain ⟨hspans, hp, hcloses⟩ :
      (edited "#f(\"abc\")".toList []).lines[0]?.map (fun line => line.analysis.spans) =
        some [⟨0, .codeFunction, 0, some 1, true⟩, ⟨1, .codeArguments, 2, some 8, false⟩,
          ⟨2, .stringLiteral, 3, some 7, false⟩] ∧
      (edited "#f(\"abc\")".toList []).store.lineOf? 4 = some 0 ∧
      (edited "#f(\"abc\")".toList []).store.closingBracket { position := 4, anchor := 4 } '[' =
        some ']' := by
    cbv
  obtain ⟨line, hl, heq⟩ := Option.map_eq_some_iff.mp hspans
  have hs : ⟨2, .stringLiteral, 3, some 7, false⟩ ∈ line.analysis.spans := by
    rw [heq]
    simp
  have hnone := hall _ [] 0 4 4 line _ '[' hl hs rfl hp (by decide)
    (fun last hlast => by rw [← Option.some.inj hlast]; decide)
  rw [hcloses] at hnone
  cases hnone

end Document

end LineMarkup

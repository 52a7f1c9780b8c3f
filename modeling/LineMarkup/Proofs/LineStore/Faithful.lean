import LineMarkup.Proofs.LineStore.Lull

namespace LineMarkup

open Token (endless)

namespace LineStore

/-- What has a bracket closed. -/
theorem Place.closes_bracket {place : Place} {c : Char} (hc : c ∈ brackets)
    (h : place.closes c = true) :
    place.inside.holdsCode = true ∨
      (c = '(' ∨ c = '[') ∧ place.inside.isName = true ∨
      c = '(' ∧ place.inside.holdsMath = true ∨
      (place.inside.holdsContent = true ∨ place.inside.holdsMath = true) ∧
        place.before = some '#' ∨
      c = '[' ∧ ∃ kind, place.previous = some kind ∧ kind.isArgument = true := by
  obtain ⟨previous, inside, before, selected⟩ := place
  have hname : (inside = .codeVariable ∨ inside = .codeFunction) → inside.isName = true := by
    rintro (rfl | rfl) <;> rfl
  have hargument (kind : Construct) (hk : kind = .codeArguments ∨ kind = .contentBlock) :
      previous = some kind → ∃ kind, previous = some kind ∧ kind.isArgument = true := by
    rintro hprevious
    refine ⟨kind, hprevious, ?_⟩
    rcases hk with rfl | rfl <;> rfl
  have := hargument .codeArguments (.inl rfl)
  have := hargument .contentBlock (.inr rfl)
  simp only [brackets, List.mem_cons, List.not_mem_nil, or_false] at hc
  rcases hc with rfl | rfl | rfl <;>
    simp only [closes, inName, afterHash, Bool.or_eq_true, Bool.and_eq_true,
      decide_eq_true_eq] at h <;> grind

end LineStore

namespace Document

open LineMarkup.Span (Record)

variable {d : Document} {line : Line} {later earlier : List Event} {i : Nat}

/-- What the query finds out, from the spans at the cursor and just before it. -/
theorem constructsAt_cases (hl : d.lines[i]? = some line) (pos : Nat) :
    (∀ kind, (d.store.constructsAt i pos).1 = some kind → line.start < pos ∧
      ∃ span, d.store.spanAt? i (pos - 1) = some span ∧ span.kind = kind) ∧
    ((d.store.constructsAt i pos).2 = ((d.store.spanAt? i pos).map Span.kind).getD .content ∨
      line.start < pos ∧ ∃ span, d.store.spanAt? i (pos - 1) = some span ∧
        span.implicit = true ∧ (d.store.constructsAt i pos).2 = span.kind) := by
  simp only [LineStore.constructsAt, store_lineStart hl]
  split
  · rename_i hlow
    cases hspan : d.store.spanAt? i (pos - 1) with
    | none => exact ⟨by simp, .inl rfl⟩
    | some span =>
      refine ⟨fun kind hk => ⟨hlow, span, rfl, Option.some.inj hk⟩, ?_⟩
      cases himplicit : span.implicit with
      | false => exact .inl (by simp [himplicit])
      | true => exact .inr ⟨hlow, span, rfl, himplicit, by simp [himplicit]⟩
  · exact ⟨by simp, .inl rfl⟩

theorem placeAt_before (hl : d.lines[i]? = some line) {before after : Text}
    (htext : line.text = before ++ after) (anchor : Nat) :
    (d.store.placeAt i { position := line.start + before.size, anchor }).before =
      before.getLast? := by
  have hline : d.store.lineText i = before ++ after := by simp [store, hl, htext]
  simp only [LineStore.placeAt, store_lineStart hl, hline, Nat.add_sub_cancel_left,
    Text.before?_append, Option.bind_some]

/-- A place in line `i`, behind the text `before`, where the query is not misled about an opening
bracket. The text is the one without the bracket. -/
structure Faithful (d : Document) (i : Nat) (line : Line) (before : Text) (opening : Char) :
    Prop where
  /-- The interpreter line has no brackets. -/
  markup : line.shebang = false
  /-- The bracket is not escaped. -/
  bracket : Text.escapesNext before = false
  /-- Nor is a hash that code would begin with. -/
  hash : ∀ front, before = front ++ ['#'] →
    let inside := (d.store.constructsAt i (line.start + before.size)).2
    inside.holdsContent = true ∨ opening ≠ '(' ∧ inside.holdsMath = true →
      Text.escapesNext front = false
  /-- And it does not belong to a link. -/
  link : before.getLast? = some '#' →
    let inside := (d.store.constructsAt i (line.start + before.size)).2
    inside.holdsContent = true ∨ opening ≠ '(' ∧ inside.holdsMath = true →
    ∀ span, d.store.spanAt? i (line.start + before.size - 1) = some span → span.kind ≠ .link
  /-- Code that ends with its line counts one position too far, where something may have begun. -/
  code : before ≠ [] → ∀ span, d.store.spanAt? i (line.start + before.size - 1) = some span →
    span.kind = .codeLine → span.implicit = true →
    ∀ here, d.store.spanAt? i (line.start + before.size) = some here →
      here.first + 1 = line.start + before.size →
      here.kind.holdsCode = true ∨ here.kind.isName = true ∨
        opening = '(' ∧ here.kind.holdsMath = true ∨ here.kind.isComment = true
  /-- Outside of code the last argument counts just before a square bracket, but it may go on or
  have no successor. -/
  argument : before ≠ [] → opening = '[' →
    let inside := (d.store.constructsAt i (line.start + before.size)).2
    inside.holdsCode = false → inside.isName = false →
    (before.getLast? = some '#' → inside.holdsContent = false ∧ inside.holdsMath = false) →
    ∀ span, d.store.spanAt? i (line.start + before.size - 1) = some span →
      span.kind.isArgument = true →
      span.last = some (line.start + before.size - 1) ∧ before.getLast? ≠ some ';'
  /-- A brace does not cut the keyword of a line of code into something else. -/
  keyword : opening = '\x7b' → ∀ front name, before = front ++ '#' :: name → name ≠ [] →
    ∀ span ∈ line.analysis.spans, span.kind = .codeLine → span.first = line.start + front.size →
      ∃ word ∈ Matcher.codeKeywords, ∃ n,
        name.takeWhile Text.isWordContinuation = word ++ List.replicate n '_'

section Lull

variable {before rest text' : Text} {light : Construct → Bool} {around : Construct} {c : Char}
  {id n : Nat} (h : Valid d) (hl : d.lines[i]? = some line)
  (hf : d.Faithful i line before c)
  (hlull : Lull d i line id text' n c before.size light around later earlier)

include hl hf hlull

include h in
/-- What the query finds does not have the bracket closed for its own sake. -/
theorem Valid.inside_silent :
    (d.store.constructsAt i (line.start + before.size)).2.isSilent c = true := by
  rcases (constructsAt_cases hl (line.start + before.size)).2 with
    hinside | ⟨hlow, span, hspan, himplicit, hinside⟩
  · rw [hinside]
    exact hlull.found_silent hl
  · have hne : before ≠ [] := by
      rintro rfl
      exact absurd hlow (Nat.lt_irrefl _)
    have hline := List.mem_of_getElem? hl
    have hfound := hspan
    rw [spanAt_eq hl] at hfound
    have hm := List.mem_reverse.mp (List.mem_of_find?_eq_some hfound)
    have hended : span.isOpen = false := by
      rw [Bool.eq_false_iff]
      intro hopen
      rw [h.explicit hline hm hopen] at himplicit
      cases himplicit
    have hcode : span.kind ≠ .codeLine := by
      intro hk
      have hpos : 0 < before.size := Nat.lt_of_add_lt_add_left hlow
      obtain ⟨here, hhere, hfirst, hkind, hcomment⟩ :=
        hlull.line_behind hl hpos hspan himplicit hk
      have hheld := hf.code hne span hspan hk himplicit here hhere hfirst
      simp only [hkind, hcomment, Bool.false_eq_true, or_false] at hheld
      exact hlull.around_holds hheld
    have hname : c = '\x7b' ∨ span.kind.isName = false := by
      rw [or_iff_not_imp_left, Bool.eq_false_iff]
      intro hbrace hk
      have hnone := hlull.no_name hbrace hm hended himplicit hk
      rw [List.find?_some hfound] at hnone
      cases hnone
    rw [hinside]
    have halone := h.endsAlone hline hm himplicit
    revert halone hcode hname
    cases span.kind <;> simp [Construct.endsWithLine, Construct.isName, Construct.isSilent,
      Construct.holdsCode, Construct.holdsMath]

variable (htext' : text' = before ++ c :: rest) (hi : (endless text' n).isSymbol c = true)

include htext' hi

omit hl hf in
/-- A hash that is not escaped is the token before the bracket. -/
theorem Lull.hash_token {front : Text} (hfront : before = front ++ ['#'])
    (he : Text.escapesNext front = false) :
    ∃ k, n = k + 1 ∧ (endless text' k).isSymbol '#' = true := by
  have htext : text' = front ++ '#' :: c :: rest := by
    rw [htext', hfront, List.append_assoc, List.singleton_append]
  obtain ⟨k, hk, hstart⟩ : ∃ k, (endless text' k).isSymbol '#' = true ∧
      (endless text' k).start = front.size := by
    rw [htext]
    exact Token.endless_alone rfl (by decide) he
  have hsize : before.size = front.size + 1 := by
    rw [hfront, Text.size_append]
    rfl
  refine ⟨k, Token.succ_of_stop hi hk ?_, hk⟩
  rw [Token.endless_extent hk, hstart, hlull.place, hsize]
  rfl

include h

/-- Behind a hash the query finds nothing that code could begin in. -/
theorem Valid.inside_hash (hlast : before.getLast? = some '#') :
    (d.store.constructsAt i (line.start + before.size)).2.holdsContent = false ∧
      (d.store.constructsAt i (line.start + before.size)).2.holdsMath = false := by
  obtain ⟨front, hfront⟩ := List.getLast?_eq_some_iff.mp hlast
  by_contra hnone
  have hsilent := h.inside_silent hl hf hlull
  have hholds : (d.store.constructsAt i (line.start + before.size)).2.holdsContent = true ∨
      c ≠ '(' ∧ (d.store.constructsAt i (line.start + before.size)).2.holdsMath = true := by
    rw [not_and_or, Bool.not_eq_false, Bool.not_eq_false] at hnone
    refine hnone.imp_right fun hmath => ⟨?_, hmath⟩
    rintro rfl
    simp [Construct.isSilent, hmath] at hsilent
  obtain ⟨k, hn, hk⟩ := hlull.hash_token htext' hi hfront (hf.hash front hfront hholds)
  rcases hlull.hash_behind hl hn hk with hlink | ⟨hsame, rfl, hsealed⟩
  · cases hspan : d.store.spanAt? i (line.start + before.size - 1) with
    | none => simp [hspan] at hlink
    | some span =>
      rw [hspan] at hlink
      exact hf.link hlast hholds span hspan hlink
  · have hshut {kind : Construct} (hk : kind.lapses = true ∨ kind = around) :
        kind.holdsContent = false ∧ kind.holdsMath = false := by
      rcases hk with hlapses | rfl
      · revert hlapses
        cases kind <;> simp [Construct.lapses, Construct.holdsContent, Construct.holdsMath]
      · revert hsealed
        cases kind <;> simp [Construct.isSealed, Construct.holdsContent, Construct.holdsMath]
    refine hnone ?_
    rcases (constructsAt_cases hl (line.start + before.size)).2 with
      hinside | ⟨_, span, hspan, _, hinside⟩
    · rw [hinside]
      exact hshut (hlull.found hl)
    · rw [hspan] at hsame
      rw [hinside]
      exact hshut (.inr hsame)

/-- A square bracket is not closed for the sake of an argument before it. -/
theorem Valid.previous_silent (hsquare : c = '[') (hsize : before.size ≤ line.text.size)
    {kind : Construct}
    (hprevious : (d.store.constructsAt i (line.start + before.size)).1 = some kind) :
    kind.isArgument = false := by
  rw [Bool.eq_false_iff]
  intro hk
  obtain ⟨hlow, span, hspan, rfl⟩ :=
    (constructsAt_cases hl (line.start + before.size)).1 kind hprevious
  have hne : before ≠ [] := by
    rintro rfl
    exact absurd hlow (Nat.lt_irrefl _)
  have hsilent := h.inside_silent hl hf hlull
  simp only [Construct.isSilent, hsquare, Bool.and_eq_true, Bool.not_eq_true'] at hsilent
  obtain ⟨hlast, hsemicolon⟩ := hf.argument hne hsquare hsilent.1.1 (by simpa using hsilent.2)
    (h.inside_hash hl hf hlull htext' hi) span hspan hk
  rw [spanAt_eq hl] at hspan
  have hm := List.mem_reverse.mp (List.mem_of_find?_eq_some hspan)
  obtain ⟨k, rfl, hend⟩ := hlull.argument_behind hsquare (by omega) hsize hm hk hlast
  exact hsemicolon (Token.getLast_of_symbol hend hlull.place htext')

/-- A bracket is not closed where there is a lull, if the query is not misled there. -/
theorem Valid.not_closes {after : Text} (hc : c ∈ brackets) (htext : line.text = before ++ after)
    (anchor : Nat) :
    (d.store.placeAt i { position := line.start + before.size, anchor }).closes c = false := by
  rw [Bool.eq_false_iff]
  intro hcloses
  have hsilent := h.inside_silent hl hf hlull
  have hcases := LineStore.Place.closes_bracket hc hcloses
  rw [placeAt_before hl htext anchor] at hcases
  simp only [LineStore.placeAt] at hcases
  simp only [Construct.isSilent, Bool.and_eq_true, Bool.not_eq_true', Bool.and_eq_false_imp,
    decide_eq_true_eq] at hsilent
  obtain ⟨⟨hcode, hmath⟩, hname⟩ := hsilent
  rcases hcases with hcases | ⟨hopen, hcases⟩ | ⟨hopen, hcases⟩ | ⟨hcases, hlast⟩ |
    ⟨hsquare, kind, hk, hargument⟩
  · simp [hcode] at hcases
  · rw [hname (by rcases hopen with rfl | rfl <;> decide)] at hcases
    cases hcases
  · rw [hmath hopen] at hcases
    cases hcases
  · obtain ⟨hcontent, hmath⟩ := h.inside_hash hl hf hlull htext' hi hlast
    simp [hcontent, hmath] at hcases
  · have hsize : before.size ≤ line.text.size := by
      rw [htext, Text.size_append]
      exact Nat.le_add_right _ _
    rw [h.previous_silent hl hf hlull htext' hi hsquare hsize hk] at hargument
    cases hargument

end Lull

/-- The keyword of a line of code is still read where a brace is put behind it. -/
theorem Faithful.keywords_stay {before rest : Text} {n : Nat}
    (hf : d.Faithful i line before '\x7b') (h : Valid d) (hl : d.lines[i]? = some line)
    (hi : (endless (before ++ '\x7b' :: rest) n).isSymbol '\x7b' = true)
    (hstart : (endless (before ++ '\x7b' :: rest) n).start = before.size) :
    Parser.KeywordsStay line.text (before ++ '\x7b' :: rest) ((d.within i).map Span.kind) n := by
  intro k j frame stop hk hnamed hpush hkind hframe
  obtain ⟨front, behind, htext, hfront, hstop, hnext⟩ := Token.endless_symbol hk
  have hlt : (endless (before ++ '\x7b' :: rest) (k + 1)).start < before.size := by
    rw [← hstart]
    exact Token.endless_lt hi (Nat.succ_pos k) (Nat.lt_of_lt_of_le hnamed.lt hnamed.le)
  rw [← Token.endless_stop, hstop] at hlt
  have hsplit : (front ++ ['#']) ++ behind = before ++ '\x7b' :: rest := by
    rw [htext, List.append_assoc, List.singleton_append]
  obtain ⟨name, hbefore, hbehind⟩ := Text.split_of_size_le hsplit (Nat.le_of_lt hlt)
  have hne : name ≠ [] := by
    rintro rfl
    rw [hbefore, List.append_nil] at hlt
    exact absurd hlt (Nat.lt_irrefl _)
  -- The line of code has a span, which begins at the hash.
  obtain ⟨id, haccount⟩ := h.account hl hf.markup
  obtain ⟨span, hm, hspan, hfirst⟩ :=
    Record.exists_of_push (List.mem_append_right _ hpush) (d.within i) line.start id
  rw [← List.mem_reverse, ← haccount.spans] at hm
  rw [hframe, ← hfront] at hfirst
  rw [List.append_assoc, List.singleton_append] at hbefore
  obtain ⟨word, hword, m, hrun⟩ :=
    hf.keyword rfl front name hbefore hne span hm (hspan.trans hkind) hfirst
  have hbehindrun : behind.takeWhile Text.isWordContinuation =
      word ++ List.replicate m '_' := by
    rw [← hrun, hbehind, List.takeWhile_append]
    split
    · rename_i hall
      rw [List.takeWhile_cons_of_neg (by decide), List.append_nil]
      exact ((List.takeWhile_prefix _).eq_of_length hall).symm
    · rfl
  have htokens := Matcher.wordTokens_eq (by simp [Token.ending]) hnext
    (hnamed.fullWord (hnamed.ends hi))
  have hwhole : (Token.wordTokens (Text.size (front ++ ['#'])) behind).flatMap Token.text = word :=
    Token.wordTokens_whole (Matcher.codeKeywords_isWhole word hword) hbehindrun
  refine ⟨j, .keyword (hnamed.fullWord (hnamed.ends hi)) ?_⟩
  rw [htokens, List.flatMap_map] at hwhole
  rwa [Matcher.textBetween, hwhole]

end Document

end LineMarkup

import Mathlib
import LineMarkup.Proofs.Document.Untouched
import LineMarkup.Proofs.LineStore.Faithful
import LineMarkup.Proofs.LineStore.Partner

namespace LineMarkup

open Token (endless)

namespace LineStore

theorem closingBracket_some {store : LineStore} {cursor : Cursor} {opening closer : Char}
    (h : store.closingBracket cursor opening = some closer) :
    closer = closing opening ∧ ∀ line, store.lineOf? cursor.position = some line →
      (store.placeAt line cursor).closes opening = true := by
  have hline : ∃ line, store.lineOf? cursor.position = some line := by
    cases hl : store.lineOf? cursor.position with
    | none => simp [closingBracket, hl] at h
    | some line => exact ⟨line, rfl⟩
  obtain ⟨line, hl⟩ := hline
  rw [closingBracket_eq hl] at h
  split at h
  · rename_i hcloses
    refine ⟨(Option.some.inj h).symm, fun line' hl' => ?_⟩
    rwa [Option.some.inj (hl'.symm.trans hl)]
  · cases h

/-- The closing one of a bracket is a token of its own. -/
theorem lexeme_closing {c : Char} (hc : c ∈ brackets) (rest : Text) :
    Token.lexeme (closing c) rest = (.symbol, 0) := by
  have hclasses : (Text.isDigit (closing c) || Text.isBaseLetter (closing c) ||
        Text.isSign (closing c)) = false ∧ Text.isLetterOrNumber (closing c) = false ∧
      closing c ≠ '\\' ∧ Text.isHorizontalSpace (closing c) = false ∧
      Text.isLineEnd (closing c) = false := by
    simp only [brackets, List.mem_cons, List.not_mem_nil, or_false] at hc
    rcases hc with rfl | rfl | rfl <;> decide
  obtain ⟨hnumber, hletter, hslash, hblank, hend⟩ := hclasses
  simp [Token.lexeme, hnumber, hletter, hslash, hblank, hend]

theorem bracket_ne {c : Char} (hc : c ∈ brackets) : '\n' ≠ c ∧ '\n' ≠ closing c := by
  simp only [brackets, List.mem_cons, List.not_mem_nil, or_false] at hc
  rcases hc with rfl | rfl | rfl <;> decide

theorem bracket_size {c : Char} (hc : c ∈ brackets) :
    c.utf8Size = 1 ∧ (closing c).utf8Size = 1 := by
  simp only [brackets, List.mem_cons, List.not_mem_nil, or_false] at hc
  rcases hc with rfl | rfl | rfl <;> decide

end LineStore

/-- Where the closing one of a bracket stands among the tokens. -/
theorem Token.endless_closing {before after : Text} {c : Char} {n : Nat} (hc : c ∈ brackets)
    (hi : (endless (before ++ c :: LineStore.closing c :: after) n).isSymbol c = true)
    (hstart : (endless (before ++ c :: LineStore.closing c :: after) n).start = before.size) :
    let text := before ++ c :: LineStore.closing c :: after
    (endless text (n + 1)).isSymbol (LineStore.closing c) = true ∧
      (endless text (n + 1)).start = before.size + 1 ∧
      (endless text (n + 2)).start = before.size + 2 := by
  intro text
  obtain ⟨rest, hrest, hnext⟩ := endless_placed hi hstart rfl
  obtain rfl := (List.cons.inj hrest).2
  obtain ⟨hone, hone'⟩ := LineStore.bracket_size hc
  have hclosing := hnext 0
  rw [scan_cons, LineStore.lexeme_closing hc, List.getElem?_cons_zero, Option.getD_some,
    Nat.add_zero, List.take_zero] at hclosing
  refine ⟨by simp [text, hclosing, isSymbol], ?_, ?_⟩
  · simp [text, hclosing, hone]
  · rw [← endless_stop, hclosing]
    simp [stop, Token.size, hone, hone']
namespace Document

open LineMarkup.Span (Record)

variable {d : Document} {line : Line} {earlier : List Event} {i pos : Nat}

/-- Both brackets are found where the one closes what the other has opened. -/
theorem Valid.matching_paired {c : Char} {n : Nat} (h : Valid d) (hl : d.lines[i]? = some line)
    (hs : line.shebang = false)
    (hp : Parser.Paired line.text ((d.within i).map Span.kind) n c)
    (hstart : (endless line.text (n + 1)).start = pos + 1)
    (hstop : (endless line.text (n + 2)).start = pos + 2) :
    d.store.matchingBracket (line.start + pos) = some (line.start + pos + 1) := by
  obtain ⟨frame, later, earlier, he, hk⟩ := hp
  rw [hstart, hstop] at he
  obtain ⟨hat, hstart⟩ : Text.HasAt line.text c frame.start ∧ pos + 1 = frame.start + 1 := by
    have htold := Parse.finish_told line.text ((d.within i).map Span.kind)
    refine htold.story.opened ?_ hk
    rw [he]
    exact List.mem_append_right _ (List.mem_cons_of_mem _ List.mem_cons_self)
  obtain rfl : frame.start = pos := (Nat.succ.inj hstart).symm
  obtain ⟨id, haccount⟩ := h.account hl hs
  have hes : (Parse.ofText line.text ((d.within i).map Span.kind)).endings ++
      (Parser.finish line.text ((d.within i).map Span.kind)).events =
        ((Parse.ofText line.text ((d.within i).map Span.kind)).endings ++ later) ++
          .pop frame (frame.start + 2) false :: .push frame (frame.start + 1) :: earlier := by
    rw [he, List.append_assoc]
  have hends : max (line.start + (frame.start + 2) - 1) (line.start + frame.start) =
      line.start + frame.start + 1 := by omega
  obtain ⟨span, hm, hkind, hfirst, hlast⟩ := Record.along_pair hes hends (d.within i) id
  have hdelimited : span.kind.isDelimited = true := by
    rw [hkind]
    revert hk
    cases frame.kind <;> simp [Construct.opening?, Construct.isDelimited]
  have hencloses : d.Encloses i span := by
    refine ⟨line, hl, ?_, hdelimited⟩
    rw [haccount.spans, List.mem_reverse]
    exact hm
  obtain ⟨a, hline, _, hfound⟩ := h.matching_first hencloses hlast
  have := hat.lt_size
  have hhere : d.store.lineOf? (line.start + frame.start) = some i :=
    h.lineOf_eq hl (by omega) (by omega)
  rw [hfirst] at hline hfound
  obtain rfl := Option.some.inj (hhere.symm.trans hline)
  rw [hfound, if_pos (by omega)]

/-- A line that is replaced by another one starts where it did, and is parsed within the same. -/
theorem Valid.setLine_at (h : Valid d) (hl : d.lines[i]? = some line) {text : Text}
    (ht : '\n' ∉ text) : ∃ new, (d.setLine i text).lines[i]? = some new ∧ new.text = text ∧
      new.start = line.start ∧ (d.setLine i text).lines.take i = d.lines.take i := by
  obtain ⟨lines, next, hsplice, hparsed⟩ := splice_entered h i 1 [text]
  have hset : d.setLine i text = { lines := d.lines.take i ++ lines, nextId := next } := by
    rw [← hsplice, setLine, replaceLines, Nat.add_sub_cancel_left, Text.lines,
      Text.split_of_not_mem ht]
  have hlength : (d.lines.take i).length = i :=
    List.length_take_of_le (Nat.le_of_lt (List.getElem?_eq_some_iff.mp hl).1)
  have htexts := hparsed.texts
  simp only [inserted, List.isEmpty_cons, Bool.and_false, Bool.false_eq_true, ↓reduceIte,
    List.singleton_append] at htexts
  obtain ⟨new, rest, rfl, hnew, _⟩ := List.map_eq_cons_iff.mp htexts
  have hget : (d.setLine i text).lines[i]? = some new := by
    rw [hset, List.getElem?_append_right (Nat.le_of_eq hlength), hlength, Nat.sub_self]
    rfl
  have htake : (d.setLine i text).lines.take i = d.lines.take i := by
    rw [hset, List.take_left' hlength]
  refine ⟨new, hget, hnew, ?_, htake⟩
  rw [(edit_valid h (.setLine i text)).1.chain.start_eq hget, h.chain.start_eq hl]
  rw [edit, htake]

theorem Valid.shebang_eq (h : Valid d) (hl : d.lines[i]? = some line) :
    line.shebang = isShebang (lastAfter none (d.lines.take i)) line.text := by
  obtain ⟨_, id, hline⟩ := h.chain.getElem grounded_none hl
  have hparsed := congrArg Line.shebang hline
  rwa [parseLine_shebang] at hparsed

/-- A bracket does not make an interpreter line. -/
theorem isShebang_bracket {previous : Option Line} {before after rest : Text} {c : Char}
    (hc : c ∈ brackets) (h : isShebang previous (before ++ after) = false) :
    isShebang previous (before ++ c :: rest) = false := by
  obtain ⟨hhash, hmark⟩ : c ≠ '#' ∧ c ≠ '!' := by
    simp only [brackets, List.mem_cons, List.not_mem_nil, or_false] at hc
    rcases hc with rfl | rfl | rfl <;> decide
  unfold isShebang at h ⊢
  cases before with
  | nil => simp [List.isPrefixOf, Ne.symm hhash]
  | cons first before =>
    cases before with
    | nil => simp [List.isPrefixOf, Ne.symm hmark]
    | cons second before => simpa [List.isPrefixOf] using h

section Put

variable {before after : Text} {c : Char} (h : Valid d) (hl : d.lines[i]? = some line)
  (hc : c ∈ brackets) (htext : line.text = before ++ after) (hf : d.Faithful i line before c)

include h hl hc htext hf

/-- What is quiet, or in a comment, does not have the bracket closed. -/
theorem Valid.mute_of_lull {text' rest : Text} {n : Nat} {light : Construct → Bool}
    {around : Construct} (htext' : text' = before ++ c :: rest)
    (hi : (endless text' n).isSymbol c = true)
    (hlull : (∃ id later, Lull d i line id text' n c before.size light around later earlier) ∨
      0 < before.size ∧ before.size = line.text.size ∧
        (Parser.finish line.text ((d.within i).map Span.kind)).top.kind = .commentLine)
    (anchor : Nat) :
    (d.store.placeAt i { position := line.start + before.size, anchor }).closes c = false := by
  rcases hlull with ⟨id, later, hlull⟩ | ⟨hpos, hend, htop⟩
  · exact h.not_closes hl hf hlull htext' hi hc htext anchor
  · obtain ⟨id, haccount⟩ := h.account hl hf.markup
    obtain ⟨span, hm, hkind, himplicit, hfirst, hlast⟩ :=
      haccount.comment_ended (hend ▸ hpos) htop
    rw [← hend] at hfirst hlast
    refine h.comment_mute hl hm (.inl hkind) hfirst (fun last hl => ?_) anchor c
    obtain rfl := Option.some.inj (hlast.symm.trans hl)
    rw [himplicit, if_pos rfl]
    omega

/-- A bracket that is closed encloses something with its closing one, once both are put in. -/
theorem Valid.paired_of_closes {anchor : Nat}
    (hcloses :
      (d.store.placeAt i { position := line.start + before.size, anchor }).closes c = true) :
    ∃ n, Parser.Paired (before ++ c :: LineStore.closing c :: after)
        ((d.within i).map Span.kind) n c ∧
      (endless (before ++ c :: LineStore.closing c :: after) (n + 1)).start = before.size + 1 ∧
      (endless (before ++ c :: LineStore.closing c :: after) (n + 2)).start = before.size + 2 := by
  have hfeed : after.head? ≠ some '\n' := by
    intro hhead
    have hsingle := h.single line (List.mem_of_getElem? hl)
    rw [htext, List.mem_append, not_or] at hsingle
    exact hsingle.2 (List.mem_of_mem_head? hhead)
  obtain ⟨id, haccount⟩ := h.account hl hf.markup
  have horderly := h.orderly_within i
  have hunlinked := haccount.carried.unlinked
  obtain ⟨m, n, hparted⟩ := Token.exists_parted hc hfeed hf.bracket
  obtain ⟨hclosing, hnext, hstop⟩ := Token.endless_closing hc hparted.bracket hparted.start
  rw [← htext] at hparted
  refine ⟨n, ?_, hnext, hstop⟩
  have hpos : before.size ≤ line.text.size := by
    rw [htext, Text.size_append]
    exact Nat.le_add_right _ _
  have hmute {light : Construct → Bool} {around : Construct} {earlier : List Event}
      (hlull : (∃ id later, Lull d i line id (before ++ c :: LineStore.closing c :: after) n c
          before.size light around later earlier) ∨
        0 < before.size ∧ before.size = line.text.size ∧
          (Parser.finish line.text ((d.within i).map Span.kind)).top.kind = .commentLine) :
      False := by
    rw [h.mute_of_lull hl hc htext hf rfl hparted.bracket hlull anchor] at hcloses
    cases hcloses
  have hplace := hparted.start
  rcases Nat.eq_zero_or_pos before.size with hzero | hpositive
  · rw [hzero] at hparted hmute hplace hpos
    rcases Parser.outcome_at_start hparted hc hclosing horderly hunlinked with
      hpaired | ⟨light, around, hquiet⟩
    · exact hpaired
    · exact (hmute (h.lull_of_quiet hl hf.markup hplace hpos hquiet fun hne => absurd rfl hne)).elim
  · have hstay : c = '\x7b' → Parser.KeywordsStay line.text
        (before ++ c :: LineStore.closing c :: after) ((d.within i).map Span.kind) n := by
      rintro rfl
      exact hf.keywords_stay h hl hparted.bracket hparted.start
    cases Parser.outcome_of_parted hparted hc hclosing horderly hunlinked hstay with
    | paired hpaired => exact hpaired
    | quiet light around p hquiet =>
      exact (hmute (h.lull_of_quiet hl hf.markup hplace hpos hquiet fun _ => hpositive)).elim
    | fenced frame stop later earlier events kind start spares unasked =>
      exact (hmute (h.lull_of_fence hl hf.markup hplace hpos events kind start spares
        unasked)).elim

end Put

/-- A bracket that is closed when it is typed has its closing one as its partner. This holds of a
document that was edited in any way, at every position between two characters of a line, whatever is
selected, as long as the query is not misled. -/
theorem edited_pair {text : Text} {edits : List Edit} {before after : Text} {opening closer : Char}
    {anchor : Nat} (hc : opening ∈ brackets)
    (hl : (edited text edits).lines[i]? = some line) (htext : line.text = before ++ after)
    (hcloses : (edited text edits).store.closingBracket
      { position := line.start + before.size, anchor } opening = some closer)
    (hf : (edited text edits).Faithful i line before opening) :
    (edited text
        (edits ++ [.setLine i (before ++ opening :: closer :: after)])).store.matchingBracket
      (line.start + before.size) = some (line.start + before.size + 1) := by
  have hd : edited text (edits ++ [.setLine i (before ++ opening :: closer :: after)]) =
      (edited text edits).setLine i (before ++ opening :: closer :: after) := by
    simp [edited, edit]
  rw [hd]
  obtain ⟨h, _⟩ := edited_valid text edits
  generalize edited text edits = d at hl hcloses hf h
  obtain ⟨rfl, hplace⟩ := LineStore.closingBracket_some hcloses
  have hposition : d.store.lineOf? (line.start + before.size) = some i := by
    refine h.lineOf_eq hl (Nat.le_add_right _ _) ?_
    rw [htext, Text.size_append]
    omega
  obtain ⟨n, hpaired, hnext, hstop⟩ :=
    h.paired_of_closes hl hc htext hf (hplace i hposition)
  have hsingle : '\n' ∉ before ++ opening :: LineStore.closing opening :: after := by
    have hline := h.single line (List.mem_of_getElem? hl)
    have hbrackets := LineStore.bracket_ne hc
    rw [htext] at hline
    simpa [hbrackets] using hline
  obtain ⟨new, hnew, hnewtext, hstart, htake⟩ := h.setLine_at hl hsingle
  have hvalid : Valid (d.setLine i (before ++ opening :: LineStore.closing opening :: after)) :=
    (edit_valid h (.setLine i _)).1
  have hmarkup : new.shebang = false := by
    have hold := hf.markup
    rw [h.shebang_eq hl, htext] at hold
    rw [hvalid.shebang_eq hnew, htake, hnewtext]
    exact isShebang_bracket hc hold
  have hwithin : (d.setLine i (before ++ opening :: LineStore.closing opening :: after)).within i =
      d.within i := by
    rw [within, within, htake]
  rw [← hnewtext] at hpaired hnext hstop
  rw [← hwithin] at hpaired
  rw [← hstart]
  exact hvalid.matching_paired hnew hmarkup hpaired hnext hstop

/-- A block right behind the arguments of a call, on a line that has moved. -/
theorem pair_behind_arguments :
    let d := edited "x\n#f(é) z".toList [.setLine 0 "yy".toList]
    let d' := edited "x\n#f(é) z".toList
      ([.setLine 0 "yy".toList] ++ [.setLine 1 ("#f(é)".toList ++ '[' :: ']' :: " z".toList)])
    '[' ∈ brackets ∧
      d.store.closingBracket { position := 9, anchor := 9 } '[' = some ']' ∧
      (∃ line, d.lines[1]? = some line ∧ line.text = "#f(é)".toList ++ " z".toList ∧
        line.start = 3 ∧ d.Faithful 1 line "#f(é)".toList '[') ∧
      d'.store.matchingBracket 9 = some 10 := by
  have hc : '[' ∈ brackets := by decide
  have hplace : (fun d : Document =>
        (d.lines[1]?.map fun line => (line.text, line.start, line.shebang),
          d.store.closingBracket { position := 9, anchor := 9 } '[', d.store.spanAt? 1 8))
      (edited "x\n#f(é) z".toList [.setLine 0 "yy".toList]) =
        (some ("#f(é) z".toList, 3, false), some ']',
          some ⟨1, .codeArguments, 5, some 8, false⟩) := by
    cbv
  obtain ⟨line, hl, htext, hstart, hcloses, hf⟩ : ∃ line,
      (edited "x\n#f(é) z".toList [.setLine 0 "yy".toList]).lines[1]? = some line ∧
      line.text = "#f(é)".toList ++ " z".toList ∧ line.start = 3 ∧
      (edited "x\n#f(é) z".toList [.setLine 0 "yy".toList]).store.closingBracket
        { position := line.start + Text.size "#f(é)".toList, anchor := 9 } '[' = some ']' ∧
      (edited "x\n#f(é) z".toList [.setLine 0 "yy".toList]).Faithful 1 line "#f(é)".toList '[' := by
    generalize edited "x\n#f(é) z".toList [.setLine 0 "yy".toList] = d at hplace ⊢
    simp only [Prod.mk.injEq] at hplace
    obtain ⟨hl, hcloses, hbehind⟩ := hplace
    obtain ⟨line, hl, hline⟩ := Option.map_eq_some_iff.mp hl
    simp only [Prod.mk.injEq] at hline
    obtain ⟨htext, hstart, hmarkup⟩ := hline
    have hpos : line.start + Text.size "#f(é)".toList = 9 := by
      rw [hstart]
      rfl
    have hlast : "#f(é)".toList.getLast? = some ')' := rfl
    refine ⟨line, hl, htext, hstart, by rw [hpos]; exact hcloses, hmarkup, by decide,
      fun front hfront => ?_, fun hhash => ?_, fun _ span hspan hk => ?_,
      fun _ _ _ _ _ span hspan _ => ?_, fun hbrace => ?_⟩
    · rw [hfront, List.getLast?_concat] at hlast
      cases hlast
    · rw [hlast] at hhash
      cases hhash
    · rw [hpos] at hspan
      obtain rfl := Option.some.inj (hbehind.symm.trans hspan)
      cases hk
    · rw [hpos] at hspan ⊢
      obtain rfl := Option.some.inj (hbehind.symm.trans hspan)
      exact ⟨rfl, by rw [hlast]; decide⟩
    · cases hbrace
  have hpos : line.start + Text.size "#f(é)".toList = 9 := by
    rw [hstart]
    rfl
  have hpair := edited_pair hc hl htext hcloses hf
  rw [hpos] at hcloses hpair
  exact ⟨hc, hcloses, ⟨line, hl, htext, hstart, hf⟩, hpair⟩

/-- Behind an escaped hash a bracket is closed although no code begins there. -/
theorem escaped_hash_unpaired :
    ¬ ∀ (text : Text) (edits : List Edit) (i anchor : Nat) (line : Line) (before after : Text)
      (opening closer : Char), opening ∈ brackets → (edited text edits).lines[i]? = some line →
      line.text = before ++ after →
      (edited text edits).store.closingBracket
        { position := line.start + before.size, anchor } opening = some closer →
      (edited text (edits ++ [.setLine i (before ++ opening :: closer :: after)])).store.matchingBracket
        (line.start + before.size) = some (line.start + before.size + 1) := by
  intro hall
  obtain ⟨hl, hcloses, hnone⟩ :
      (edited "\\#".toList []).lines[0]?.map (fun line => (line.text, line.start)) =
        some ("\\#".toList, 0) ∧
      (edited "\\#".toList []).store.closingBracket { position := 2, anchor := 2 } '(' = some ')' ∧
      (edited "\\#".toList ([] ++ [.setLine 0 ("\\#".toList ++ '(' :: ')' :: [])])).store.matchingBracket
        2 = none := by
    cbv
  obtain ⟨line, hl, hline⟩ := Option.map_eq_some_iff.mp hl
  obtain ⟨htext, hstart⟩ := Prod.mk.inj hline
  have hpos : line.start + Text.size "\\#".toList = 2 := by
    rw [hstart]
    rfl
  rw [← hpos] at hcloses hnone
  have hpair := hall _ [] 0 _ line _ [] '(' ')' (by decide) hl (by rw [htext]; rfl) hcloses
  rw [hnone] at hpair
  cases hpair

end Document

end LineMarkup

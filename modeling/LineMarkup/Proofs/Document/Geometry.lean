import LineMarkup.Proofs.Document.Continuity
import LineMarkup.Proofs.LineStore.Lookup

namespace LineMarkup

theorem LineStore.search_bounds (store : LineStore) (pos : Nat) (h : low < high) :
    low ≤ store.search pos low high ∧ store.search pos low high < high := by
  fun_induction search store pos low high with
  | case1 low high hlt middle hle ih =>
    have := ih (by omega)
    omega
  | case2 low high hlt middle hgt ih =>
    have := ih (by omega)
    omega
  | case3 low high hge => omega

namespace Document

/-- Texts with those from `first` up to before `stop` replaced, within the bounds of the list. There
is always one left. -/
def replaceTexts (texts : List Text) (first stop : Nat) (insert : List Text) : List Text :=
  let first := min first texts.length
  let stop := max first (min stop texts.length)
  let replaced := texts.take first ++ insert ++ texts.drop stop
  if replaced.isEmpty then [[]] else replaced

/-- What an edit makes of the texts of the lines. -/
def Edit.apply (texts : List Text) : Edit → List Text
  | .setText text => text.lines
  | .setLine index text => replaceTexts texts index (index + 1) text.lines
  | .insertLine index text => replaceTexts texts index index text.lines
  | .removeLine index => replaceTexts texts index (index + 1) []
  | .replaceLines first stop text => replaceTexts texts first stop text.lines

variable {d : Document} {previous : Option Line} {lines : List Line} {line next : Line}
  {text : Text} {i pos : Nat}

theorem replaceTexts_eq (texts : List Text) (first stop : Nat) (insert : List Text) :
    replaceTexts texts first stop insert =
      if (texts.take first ++ insert ++ (texts.drop first).drop (stop - first)).isEmpty then [[]]
      else texts.take first ++ insert ++ (texts.drop first).drop (stop - first) := by
  have hdrop : texts.drop (max (min first texts.length) (min stop texts.length)) =
      (texts.drop first).drop (stop - first) := by
    rw [List.drop_drop]
    rcases Nat.lt_or_ge texts.length (max first stop) with hlt | hle
    · rw [List.drop_eq_nil_of_le (by omega), List.drop_eq_nil_of_le (by omega)]
    · congr 1
      omega
  unfold replaceTexts
  simp only [hdrop, ← List.take_eq_take_min]

theorem splice_texts (h : Valid d) (first stop : Nat) (insert : List Text) :
    (d.splice first (stop - first) insert).lines.map Line.text =
      replaceTexts (d.lines.map Line.text) first stop insert := by
  obtain ⟨lines, next, hsplice, hparsed⟩ := splice_entered h first (stop - first) insert
  have htexts : lines.map Line.text = _ := hparsed.texts
  rw [hsplice, replaceTexts_eq, List.map_append, htexts, ← List.map_take, ← List.map_drop,
    ← List.map_drop]
  unfold inserted
  by_cases hn : (d.lines.take first).isEmpty &&
      ((d.lines.drop first).drop (stop - first)).isEmpty && insert.isEmpty
  · simp only [Bool.and_eq_true, List.isEmpty_iff] at hn
    obtain ⟨⟨hfront, hafter⟩, hinsert⟩ := hn
    simp [hfront, hafter, hinsert]
  · rw [if_neg hn, if_neg, List.append_assoc]
    intro hall
    apply hn
    simp only [List.isEmpty_iff, List.append_eq_nil_iff, List.map_eq_nil_iff] at hall
    obtain ⟨⟨hfront, hinsert⟩, hafter⟩ := hall
    simp [hfront, hafter, hinsert]

theorem edit_texts (h : Valid d) (e : Edit) :
    (d.edit e).lines.map Line.text = e.apply (d.lines.map Line.text) := by
  cases e with
  | setText text =>
    refine (splice_texts h 0 d.lines.length text.lines).trans ?_
    have hn : text.lines ≠ [] := Text.split_ne_nil
    simp [replaceTexts, Edit.apply, hn]
  | setLine index text => exact splice_texts h index (index + 1) text.lines
  | insertLine index text => exact splice_texts h index index text.lines
  | removeLine index =>
    have hone : index + 1 - index = 1 := Nat.add_sub_cancel_left index 1
    have htexts := splice_texts h index (index + 1) []
    rwa [hone] at htexts
  | replaceLines first stop text => exact splice_texts h first stop text.lines

theorem edited_texts (text : Text) (edits : List Edit) :
    (edited text edits).lines.map Line.text = edits.foldl Edit.apply text.lines := by
  unfold edited
  rw [← ofText_texts text]
  have hvalid := (ofText_valid text).1
  generalize ofText text = d at hvalid
  induction edits generalizing d with
  | nil => rfl
  | cons e edits ih =>
    rw [List.foldl_cons, List.foldl_cons, ← edit_texts hvalid]
    exact ih (d.edit e) (edit_valid hvalid e).1

theorem size_unlines {texts : List Text} (hn : texts ≠ []) :
    (Text.unlines texts).size + 1 = sizeOf texts := by
  induction texts with
  | nil => exact absurd rfl hn
  | cons text rest ih =>
    cases rest with
    | nil => simp [Text.unlines, Text.join, sizeOf]
    | cons next rest =>
      have hrest := ih (List.cons_ne_nil _ _)
      have hbreak : '\n'.utf8Size = 1 := rfl
      unfold Text.unlines at hrest
      rw [Text.unlines, Text.join, Text.size_append, Text.size_cons, hbreak, sizeOf, ← hrest]
      · omega
      · exact List.cons_ne_nil _ _

theorem size_eq (hn : d.lines ≠ []) : d.size + 1 = startAfter (lastAfter none d.lines) := by
  unfold size
  rw [lastAfter_none, List.getLast?_eq_some_getLast hn]
  rfl

namespace Chain

theorem start_succ (h : Chain none lines) (hl : lines[i]? = some line)
    (hn : lines[i + 1]? = some next) : next.start = line.next := by
  obtain ⟨_, id, hnext⟩ := h.getElem grounded_none hn
  rw [hnext, parseLine_start, lastAfter_take hl]
  rfl

/-- No position is left out between the lines. -/
theorem exists_line (h : Chain previous lines) (hlow : startAfter previous ≤ pos)
    (hhigh : pos < startAfter (lastAfter previous lines)) :
    ∃ (i : Nat) (line : Line), lines[i]? = some line ∧ line.start ≤ pos ∧
      pos ≤ line.start + line.text.size := by
  induction h with
  | nil => exact absurd hlow (Nat.not_le.mpr hhigh)
  | @parse previous text lines id rest ih =>
    rcases Nat.lt_or_ge pos (startAfter (some (parseLine previous text id).1)) with hlt | hge
    · refine ⟨0, _, rfl, ?_, ?_⟩
      · rwa [parseLine_start]
      · rw [parseLine_start, parseLine_text]
        rw [parseLine_next] at hlt
        omega
    · obtain ⟨i, line, hl, hfirst, hlast⟩ := ih hge hhigh
      exact ⟨i + 1, line, hl, hfirst, hlast⟩

theorem stop_lt (h : Chain previous lines) (hl : line ∈ lines) :
    line.start + line.text.size < startAfter (lastAfter previous lines) := by
  obtain ⟨before, after, rfl⟩ := List.append_of_mem hl
  obtain ⟨_, hrest⟩ := append.mp h
  rw [lastAfter_append, hrest.startAfter_eq, ← hrest.head_start, List.map_cons, sizeOf]
  omega

end Chain

namespace Valid

theorem size_eq_text (h : Valid d) (hn : d.lines ≠ []) : d.size = d.text.size := by
  have hsize := size_eq hn
  have htexts : d.lines.map Line.text ≠ [] := by simpa using hn
  have htext := size_unlines htexts
  rw [h.chain.startAfter_eq] at hsize
  change d.text.size + 1 = _ at htext
  have : startAfter none = 0 := rfl
  omega

theorem lineOf_none_iff (h : Valid d) (hn : d.lines ≠ []) :
    d.store.lineOf? pos = none ↔ d.size < pos := by
  have hsize := size_eq hn
  constructor
  · intro hnone
    apply Nat.lt_of_not_le
    intro hle
    obtain ⟨i, line, hl, hlow, hhigh⟩ := h.chain.exists_line (Nat.zero_le pos) (by omega)
    rw [h.lineOf_eq hl hlow hhigh] at hnone
    cases hnone
  · intro hlt
    have hcount : d.store.lineCount = d.lines.length := by simp [store]
    have hpos : 0 < d.lines.length := List.length_pos_iff.mpr hn
    have hbounds : 0 < d.store.lineCount := hcount.symm ▸ hpos
    have hi := (d.store.search_bounds pos hbounds).2
    generalize hs : d.store.search pos 0 d.store.lineCount = i at hi
    have hl := List.getElem?_eq_getElem (hcount ▸ hi)
    have hstop := h.chain.stop_lt (List.mem_of_getElem? hl)
    have hne : d.store.lineCount ≠ 0 := by omega
    unfold LineStore.lineOf?
    simp only [hne, ↓reduceIte, hs, store_lineStart hl, store_lineSize hl, ite_eq_right_iff,
      reduceCtorEq, imp_false]
    omega

theorem lineOf_some_iff (h : Valid d) (hn : d.lines ≠ []) :
    d.store.lineOf? pos = some i ↔ i < d.lines.length ∧ d.store.lineStart i ≤ pos ∧
      pos ≤ d.store.lineStart i + d.store.lineSize i := by
  constructor
  · intro hsome
    have hle : ¬ d.size < pos := by
      intro hlt
      rw [(h.lineOf_none_iff hn).mpr hlt] at hsome
      cases hsome
    have hsize := size_eq hn
    obtain ⟨j, line, hl, hlow, hhigh⟩ := h.chain.exists_line (Nat.zero_le pos) (by omega)
    rw [h.lineOf_eq hl hlow hhigh, Option.some.injEq] at hsome
    subst hsome
    rw [store_lineStart hl, store_lineSize hl]
    exact ⟨(List.getElem?_eq_some_iff.mp hl).1, hlow, hhigh⟩
  · rintro ⟨hi, hlow, hhigh⟩
    have hl := List.getElem?_eq_getElem hi
    rw [store_lineStart hl] at hlow hhigh
    rw [store_lineSize hl] at hhigh
    exact h.lineOf_eq hl hlow hhigh

end Valid

/-- After any edits the lines of a document are those of the list of texts that the same edits were
made to. They lie side by side with one position between neighbours, and each position up to the
size of the text is looked up in the line around it. Past the last line there are empty lines at the
end of the text. -/
theorem edited_geometry (text : Text) (edits : List Edit) :
    let d := edited text edits
    let texts := edits.foldl Edit.apply text.lines
    (d.lines.map Line.text = texts ∧ d.text = Text.unlines texts ∧ d.size = d.text.size) ∧
    (d.store.lineCount = texts.length ∧ ∀ i, d.store.lineText i = texts.getD i []) ∧
    d.store.lineStart 0 = 0 ∧
    (∀ i, i + 1 < texts.length →
      d.store.lineStart (i + 1) = d.store.lineStart i + d.store.lineSize i + 1) ∧
    (∀ i, texts.length ≤ i → d.store.lineStart i = d.size ∧ d.store.lineSize i = 0) ∧
    ∀ pos, (∀ i, d.store.lineOf? pos = some i ↔ i < texts.length ∧
        d.store.lineStart i ≤ pos ∧ pos ≤ d.store.lineStart i + d.store.lineSize i) ∧
      (d.store.lineOf? pos = none ↔ d.size < pos) := by
  intro d texts
  obtain ⟨h, hn⟩ := edited_valid text edits
  have htexts : d.lines.map Line.text = texts := edited_texts text edits
  have hlength : texts.length = d.lines.length := by rw [← htexts, List.length_map]
  refine ⟨⟨htexts, congrArg Text.unlines htexts, h.size_eq_text hn⟩, ⟨?_, ?_⟩, ?_, ?_, ?_, ?_⟩
  · simp [store, hlength]
  · intro i
    simp [store, ← htexts]
  · obtain ⟨line, rest, hd⟩ := List.exists_cons_of_ne_nil hn
    have hstart := (hd ▸ h.chain).head_start
    rw [store_lineStart (show d.lines[0]? = some line by simp [d, hd]), hstart]
    rfl
  · intro i hi
    rw [hlength] at hi
    have hl := List.getElem?_eq_getElem (Nat.lt_of_succ_lt hi)
    have hnext := List.getElem?_eq_getElem hi
    rw [store_lineStart hl, store_lineSize hl, store_lineStart hnext]
    exact h.chain.start_succ hl hnext
  · intro i hi
    rw [hlength] at hi
    have hnone : d.lines[i]? = none := List.getElem?_eq_none hi
    simp [store, LineStore.lineSize, hnone]
  · intro pos
    rw [hlength]
    exact ⟨fun i => h.lineOf_some_iff hn, h.lineOf_none_iff hn⟩

/-- Lines put in behind the last one. -/
theorem geometry_of_insertion :
    let edits : List Edit := [.insertLine 9 "c\nd".toList, .removeLine 1]
    let d := edited "ab\n".toList edits
    1 + 1 < (edits.foldl Edit.apply (Text.lines "ab\n".toList)).length ∧
      d.store.lineStart 2 = d.store.lineStart 1 + d.store.lineSize 1 + 1 := by
  intro edits d
  have hlines : edits.foldl Edit.apply (Text.lines "ab\n".toList) =
      ["ab".toList, "c".toList, "d".toList] := by
    decide
  have hlt : 1 + 1 < (edits.foldl Edit.apply (Text.lines "ab\n".toList)).length := by
    rw [hlines]
    decide
  obtain ⟨_, _, _, hnext, _⟩ := edited_geometry "ab\n".toList edits
  exact ⟨hlt, hnext 1 hlt⟩

end Document

end LineMarkup

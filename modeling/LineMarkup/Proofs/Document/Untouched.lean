import Mathlib
import LineMarkup.Proofs.Document.Geometry

namespace LineMarkup.Document

open LineMarkup.Span (ident shift shiftPosition)

variable {previous before : Option Line} {lines old : List Line} {line moved head last : Line}
  {kept : List Span} {limit threshold start id i k pos pos' : Nat} {delta : Int}
  {d : Document} {front removed after : List Line} {insert : List Text}

/-- Positions before `start` stay, the others move by `delta`. -/
def Moves (start : Nat) (delta : Int) (pos pos' : Nat) : Prop :=
  (pos < start → pos' = pos) ∧ (start ≤ pos → (pos' : Int) = pos + delta)

/-- The same span with its positions moved. -/
structure SpanMoves (start : Nat) (delta : Int) (span moved : Span) : Prop where
  id : moved.id = span.id
  kind : moved.kind = span.kind
  implicit : moved.implicit = span.implicit
  first : Moves start delta span.first moved.first
  last : Option.Rel (Moves start delta) span.last moved.last

/-- The same line with its positions in the document moved. -/
structure LineMoves (threshold : Nat) (delta : Int) (line moved : Line) : Prop where
  text : moved.text = line.text
  start : (moved.start : Int) = line.start + delta
  markers : moved.analysis.markers = line.analysis.markers
  segments : moved.analysis.segments = line.analysis.segments
  isolates : moved.analysis.isolates = line.analysis.isolates
  spans : List.Forall₂ (SpanMoves threshold delta) line.analysis.spans moved.analysis.spans

theorem sizeOf_append (a b : List Text) : sizeOf (a ++ b) = sizeOf a + sizeOf b := by
  induction a with
  | nil => simp [sizeOf]
  | cons text a ih =>
    simp only [List.cons_append, sizeOf, ih]
    omega

/-- A shift does not stop at zero if the position lies far enough from it. -/
theorem moves_shiftPosition (h : start ≤ pos → 0 ≤ (pos : Int) + delta) :
    Moves start delta pos (shiftPosition start delta pos) := by
  unfold Moves shiftPosition
  constructor
  · intro hlt
    rw [if_neg (Nat.not_le.mpr hlt)]
  · intro hle
    rw [if_pos hle]
    have := h hle
    omega

theorem lineMoves_move (hs : 0 ≤ (line.start : Int) + delta)
    (hf : ∀ span ∈ line.analysis.spans, start ≤ span.first → 0 ≤ (span.first : Int) + delta)
    (hl : ∀ span ∈ line.analysis.spans, ∀ stop, span.last = some stop → 0 ≤ (stop : Int) + delta) :
    LineMoves start delta line (line.move start delta) := by
  refine ⟨rfl, Int.toNat_of_nonneg hs, rfl, rfl, rfl, ?_⟩
  unfold Line.move shift
  rw [List.forall₂_map_right_iff, List.forall₂_same]
  intro span hm
  refine ⟨rfl, rfl, rfl, moves_shiftPosition (hf span hm), ?_⟩
  cases hstop : span.last with
  | none => exact .none
  | some stop => exact .some (moves_shiftPosition (fun _ => hl span hm stop hstop))

theorem map_text_of_moves {moved : List Line}
    (h : List.Forall₂ (LineMoves threshold delta) lines moved) :
    moved.map Line.text = lines.map Line.text := by
  induction h with
  | nil => rfl
  | cons hmoves _ ih => rw [List.map_cons, List.map_cons, hmoves.text, ih]

/-- A span begins where one that was open before does, or not before the first line. -/
theorem Chain.first_cases (h : Chain before lines) (hg : Grounded before) :
    ∀ line ∈ lines, ∀ span ∈ line.analysis.spans,
      (∃ carried ∈ openAfter before, carried.first = span.first) ∨
        startAfter before ≤ span.first := by
  induction h with
  | nil => simp
  | @parse before text lines id _ ih =>
    obtain ⟨born, hident, _, hborn, hopen⟩ := parseLine_ident hg text id
    intro line hl span hs
    rcases List.mem_cons.mp hl with rfl | hl
    · have hm := List.mem_map_of_mem (f := ident) hs
      rw [hident] at hm
      rcases List.mem_append.mp hm with hm | hm
      · obtain ⟨carried, hc, heq⟩ := List.mem_map.mp hm
        exact .inl ⟨carried, hc, (Prod.mk.inj (Prod.mk.inj heq).2).2⟩
      · exact .inr (hborn _ hm).1
    · rcases ih (parseLine_grounded hg text id) line hl span hs with ⟨carried, hc, heq⟩ | hle
      · rcases hopen carried hc with hc | hb
        · exact .inl ⟨carried, hc, heq⟩
        · exact .inr (heq ▸ (hborn _ hb).1)
      · rw [parseLine_next] at hle
        exact .inr (by omega)

theorem Chain.start_eq (h : Chain none lines) (hl : lines[i]? = some line) :
    line.start = startAfter (lastAfter none (lines.take i)) := by
  obtain ⟨_, id, hline⟩ := h.getElem grounded_none hl
  rw [hline, parseLine_start]

/-- The new lines come first. Then the old ones are settled after the last new one. -/
theorem Resumes.enter_new (h : Resumes kept limit threshold delta previous before)
    (hid : limit ≤ id) (texts : List Text) :
    ∃ new next, new.map Line.text = texts ∧
      Resumes kept limit threshold (delta + sizeOf texts) (lastAfter previous new) before ∧
      ∀ threshold delta old, Document.enter previous threshold delta id old texts =
        (new ++ (Document.settle (lastAfter previous new) threshold delta next old).1,
          (Document.settle (lastAfter previous new) threshold delta next old).2) := by
  induction texts generalizing previous id delta with
  | nil => exact ⟨[], id, rfl, by simpa [sizeOf, lastAfter] using h, fun _ _ _ => rfl⟩
  | cons text texts ih =>
    obtain ⟨count, _, hcount⟩ := parseLine_born h.grounded text id
    have hle : limit ≤ (parseLine previous text id).2 := by omega
    obtain ⟨new, next, htexts, hresumes, henter⟩ := ih (h.enter hid text) hle
    refine ⟨(parseLine previous text id).1 :: new, next, ?_, ?_, ?_⟩
    · rw [List.map_cons, parseLine_text, htexts]
    · have hdelta : delta + text.size + 1 + sizeOf texts = delta + sizeOf (text :: texts) := by
        simp only [sizeOf]
        omega
      rw [← hdelta]
      exact hresumes
    · intro threshold delta old
      simp only [Document.enter, henter]
      rfl

theorem settle_of_upToDate (h : isUpToDate previous line = true) (threshold : Nat) (delta : Int)
    (id : Nat) (rest : List Line) :
    settle previous threshold delta id (line :: rest) =
      ((line :: rest).map (·.move threshold delta), id) := by
  simp [settle, h]

/-- Lines are kept if they follow what they followed, with the same constructs open. -/
theorem Resumes.settle_moves (h : Resumes kept limit threshold delta previous before)
    (hold : Chain before old) (hp : previous.isNone = false) (hb : before.isNone = false)
    (hs : seedAfter previous = seedAfter before) (id : Nat) :
    ∃ moved, Document.settle previous threshold delta id old = (moved, id) ∧
      List.Forall₂ (LineMoves threshold delta) old moved := by
  have hposition := h.position
  refine ⟨old.map (·.move threshold delta), ?_, ?_⟩
  · cases hold with
    | nil => rfl
    | parse oldId =>
      apply settle_of_upToDate
      simp [isUpToDate, parseLine_seed, parseLine_shebang, parseLine_text, isShebang, hs, hp, hb]
  · rw [List.forall₂_map_right_iff, List.forall₂_same]
    intro line hl
    have hstart := hold.le_start line hl
    apply lineMoves_move
    · omega
    · intro span hm hle
      rcases hold.first_cases h.grounded' line hl span hm with ⟨carried, hc, heq⟩ | hge
      · -- What was open before the old lines is open now, so it was opened before the edit.
        have hkept := (h.fresh carried (h.openAfter_eq hs ▸ hc)).resolve_right
          (Nat.not_le.mpr (h.older carried hc))
        have := h.outside carried hkept
        omega
      · omega
    · intro span hm stop hstop
      obtain ⟨i, hi⟩ := List.mem_iff_getElem?.mp hl
      obtain ⟨hg, oldId, hline⟩ := hold.getElem h.grounded' hi
      have hended := parseLine_ended hg line.text oldId
      have hfirst := parseLine_start (lastAfter before (old.take i)) line.text oldId
      rw [← hline] at hended hfirst
      have := (hended span hm stop hstop).2.1
      omega

/-- The new lines of an edit lie between the lines before it, which stay, and those after it, which
are settled. -/
theorem Valid.splice_new (h : Valid d) (hl : d.lines = front ++ (removed ++ after))
    (hi : insert ≠ []) (hn : after ≠ []) :
    ∃ new next, new.map Line.text = insert ∧
      Resumes (openAfter (lastAfter none front)) d.nextId (startAfter (lastAfter none front))
        (sizeOf insert - sizeOf (removed.map Line.text)) (lastAfter (lastAfter none front) new)
        (lastAfter (lastAfter none front) removed) ∧
      Chain (lastAfter (lastAfter none front) removed) after ∧
      (d.splice front.length removed.length insert).lines = front ++ (new ++
        (settle (lastAfter (lastAfter none front) new) (startAfter (lastAfter none front))
          (sizeOf insert - sizeOf (removed.map Line.text)) next after).1) := by
  obtain ⟨hresumes, hremoved, hafter, _⟩ := h.resumes hl
  obtain ⟨new, next, htexts, hnew, henter⟩ := hresumes.enter_new (Nat.le_refl _) insert
  have hdelta : -(sizeOf (removed.map Line.text) : Int) + sizeOf insert =
      sizeOf insert - sizeOf (removed.map Line.text) := by
    omega
  refine ⟨new, next, htexts, hdelta ▸ hnew, hafter, ?_⟩
  obtain ⟨line, rest, hrest⟩ := List.exists_cons_of_ne_nil
    (fun hd => hn (List.append_eq_nil_iff.mp hd).2 : removed ++ after ≠ [])
  have hline : d.lines[front.length]? = some line := by
    rw [hl, hrest, List.getElem?_append_right (Nat.le_refl _), Nat.sub_self]
    rfl
  have hstart : line.start = startAfter (lastAfter none front) := by
    rw [h.chain.start_eq hline, hl, List.take_left]
  have hempty : insert.isEmpty = false := by simpa using hi
  unfold splice
  simp only [hempty, Bool.and_false, Bool.false_eq_true, ↓reduceIte, ← lastAfter_none, hline,
    Option.map_some, Option.getD_some, hstart]
  rw [hl, List.take_left, List.drop_left, List.take_left, List.drop_left, henter]

theorem lastAfter_of_getElem (hn : lines ≠ []) (hl : (front ++ (lines ++ after))[front.length +
    lines.length - 1]? = some line) : lastAfter previous lines = some line := by
  obtain ⟨first, last, rfl⟩ := (List.eq_nil_or_concat lines).resolve_left hn
  have hi : front.length + (first.concat last).length - 1 = (front ++ first).length := by
    simp only [List.length_concat, List.length_append]
    omega
  have hsplit : front ++ (first.concat last ++ after) = (front ++ first) ++ (last :: after) := by
    simp
  rw [hi, hsplit, List.getElem?_append_right (Nat.le_refl _), Nat.sub_self] at hl
  simpa [lastAfter] using hl

/-- Lines after new ones that leave open what was open there move with the change in size. -/
theorem Valid.splice_moves (h : Valid d) (hl : d.lines = front ++ (removed ++ after))
    (hi : insert ≠ []) (hn : after ≠ []) (hf : front ≠ []) {last before : Line}
    (hlast : (d.splice front.length removed.length insert).lines[front.length +
      insert.length - 1]? = some last)
    (hbefore : d.lines[front.length + removed.length - 1]? = some before)
    (hs : seedOf last.analysis.spans = seedOf before.analysis.spans) :
    ∃ new moved,
      (d.splice front.length removed.length insert).lines = front ++ (new ++ moved) ∧
      new.map Line.text = insert ∧
      List.Forall₂ (LineMoves (startAfter (lastAfter none front))
        (sizeOf insert - sizeOf (removed.map Line.text))) after moved := by
  obtain ⟨new, next, htexts, hresumes, hafter, hlines⟩ := h.splice_new hl hi hn
  have hnew : new ≠ [] := by
    rintro rfl
    exact hi htexts.symm
  have hleft : lastAfter (lastAfter none front) new = some last := by
    rw [hlines, ← htexts, List.length_map] at hlast
    exact lastAfter_of_getElem hnew hlast
  have hentered : lastAfter (lastAfter none front) removed = some before := by
    have hhead : ([] ++ ((front ++ removed) ++ after))[([] : List Line).length +
        (front ++ removed).length - 1]? = some before := by
      rw [← hbefore, hl]
      simp
    rw [← lastAfter_append]
    apply lastAfter_of_getElem _ hhead
    simp [hf]
  have hseed : seedAfter (lastAfter (lastAfter none front) new) =
      seedAfter (lastAfter (lastAfter none front) removed) := by
    rw [hleft, hentered]
    exact hs
  obtain ⟨moved, hsettle, hmoves⟩ :=
    hresumes.settle_moves hafter (by rw [hleft]; rfl) (by rw [hentered]; rfl) hseed next
  exact ⟨new, moved, hlines.trans (by rw [hsettle]), htexts, hmoves⟩

/-- The size of a document changes by that of the lines put in less that of those taken out. -/
theorem Valid.size_splice (h : Valid d) (hl : d.lines = front ++ (removed ++ after))
    (hn : d.lines ≠ []) {d' : Document} (h' : Valid d') {new rest : List Line}
    (hl' : d'.lines = front ++ (new ++ rest)) (hn' : d'.lines ≠ [])
    (htexts : rest.map Line.text = after.map Line.text) :
    (d'.size : Int) - d.size =
      sizeOf (new.map Line.text) - sizeOf (removed.map Line.text) := by
  have hsize := size_eq hn
  have hsize' := size_eq hn'
  rw [h.chain.startAfter_eq, hl] at hsize
  rw [h'.chain.startAfter_eq, hl'] at hsize'
  simp only [List.map_append, sizeOf_append, htexts] at hsize hsize'
  omega

theorem exists_split (hl : lines[i + k]? = some line) :
    ∃ front removed after, lines = front ++ (removed ++ after) ∧ front.length = i ∧
      removed.length = k ∧ after ≠ [] := by
  have hlt := (List.getElem?_eq_some_iff.mp hl).1
  refine ⟨lines.take i, (lines.drop i).take k, (lines.drop i).drop k, ?_, ?_, ?_, ?_⟩
  · rw [List.take_append_drop, List.take_append_drop]
  · rw [List.length_take]
    omega
  · rw [List.length_take, List.length_drop]
    omega
  · intro hnil
    have := congrArg List.length hnil
    simp only [List.length_drop, List.length_nil] at this
    omega

/-- An edit that replaces lines leaves those before it as they are. The lines after it keep their
analysis, and move with the change in size, if the last new line leaves open the same spans as the
line before them did. What of them lies before the edit stays. -/
theorem edited_untouched (text : Text) (edits : List Edit) (first remove : Nat)
    (replacement : Text) :
    let d := edited text edits
    let d' := d.replaceLines first (first + remove) replacement
    let count := replacement.lines.length
    (∀ i line, i < first → d.lines[i]? = some line → d'.lines[i]? = some line) ∧
    ∀ head last before : Line, 0 < first → d.lines[first]? = some head →
      d'.lines[first + count - 1]? = some last → d.lines[first + remove - 1]? = some before →
      seedOf last.analysis.spans = seedOf before.analysis.spans →
      ∀ k line, d.lines[first + remove + k]? = some line →
        ∃ moved, d'.lines[first + count + k]? = some moved ∧
          LineMoves head.start ((d'.size : Int) - d.size) line moved := by
  intro d d' count
  obtain ⟨h, hn⟩ : Valid d ∧ d.lines ≠ [] := edited_valid text edits
  obtain ⟨h', hn'⟩ : Valid d' ∧ d'.lines ≠ [] :=
    edit_valid h (.replaceLines first (first + remove) replacement)
  have hd' : d' = d.splice first remove replacement.lines := by
    simp only [d', replaceLines, Nat.add_sub_cancel_left]
  clear_value d' d
  constructor
  · intro i line hi hl
    obtain ⟨lines, next, hsplice, _⟩ := splice_entered h first remove replacement.lines
    have hlt := (List.getElem?_eq_some_iff.mp hl).1
    rw [hd', hsplice, List.getElem?_append_left (by rw [List.length_take]; omega),
      List.getElem?_take_of_lt hi, hl]
  · intro head last before hpos hhead hlast hbefore hseed k line hl
    have hinsert : replacement.lines ≠ [] := Text.split_ne_nil
    obtain ⟨front, removed, after, hsplit, rfl, rfl, hafter⟩ := exists_split
      (List.getElem?_eq_getElem (Nat.lt_of_le_of_lt (Nat.le_add_right (first + remove) k)
        (List.getElem?_eq_some_iff.mp hl).1))
    have hfront : front ≠ [] := List.length_pos_iff.mp hpos
    rw [hd'] at hlast
    obtain ⟨new, moved, hlines, htexts, hmoves⟩ :=
      h.splice_moves hsplit hinsert hafter hfront hlast hbefore hseed
    rw [← hd'] at hlines
    have hcount : count = new.length := by rw [← List.length_map (f := Line.text), htexts]
    have hsize := h.size_splice hsplit hn h' hlines hn' (map_text_of_moves hmoves)
    have hstart : head.start = startAfter (lastAfter none front) := by
      rw [h.chain.start_eq hhead, hsplit, List.take_left]
    have hmem : after[k]? = some line := by
      rw [hsplit, ← List.append_assoc, ← List.length_append] at hl
      rwa [List.getElem?_append_right (Nat.le_add_right _ _), Nat.add_sub_cancel_left] at hl
    obtain ⟨hk, rfl⟩ := List.getElem?_eq_some_iff.mp hmem
    have hk' : k < moved.length := hmoves.length_eq ▸ hk
    refine ⟨moved.get ⟨k, hk'⟩, ?_, ?_⟩
    · rw [hlines, hcount, ← List.append_assoc, ← List.length_append,
        List.getElem?_append_right (Nat.le_add_right _ _), Nat.add_sub_cancel_left]
      exact List.getElem?_eq_getElem hk'
    · rw [hstart, hsize, htexts]
      exact hmoves.get hk hk'

/-- One more line within a block comment that was opened before it. -/
theorem untouched_in_comment :
    let d := edited "\n/*\n\n".toList []
    let d' := d.replaceLines 2 (2 + 1) "a\n".toList
    ∃ line moved : Line, d.lines[2 + 1 + 0]? = some line ∧ d'.lines[2 + 2 + 0]? = some moved ∧
      LineMoves 4 ((d'.size : Int) - d.size) line moved := by
  intro d d'
  have hlines : (edited "\n/*\n\n".toList []).lines.map
      (fun line => (line.start, seedOf line.analysis.spans)) =
      [(0, []), (1, [(0, .commentBlock)]), (4, [(0, .commentBlock)]),
        (5, [(0, .commentBlock)])] := by
    cbv
  have hlines' : ((edited "\n/*\n\n".toList []).replaceLines 2 (2 + 1) "a\n".toList).lines.map
      (fun line => (line.start, seedOf line.analysis.spans)) =
      [(0, []), (1, [(0, .commentBlock)]), (4, [(0, .commentBlock)]), (6, [(0, .commentBlock)]),
        (7, [(0, .commentBlock)])] := by
    cbv
  have hat (lines : List Line) (i : Nat) {value : Nat × Seed}
      (h : (lines.map (fun line => (line.start, seedOf line.analysis.spans)))[i]? = some value) :
      ∃ line, lines[i]? = some line ∧ (line.start, seedOf line.analysis.spans) = value := by
    rw [List.getElem?_map] at h
    exact Option.map_eq_some_iff.mp h
  obtain ⟨head, hhead, heq⟩ := hat d.lines 2 (by rw [hlines]; rfl)
  obtain ⟨last, hlast, heq'⟩ := hat d'.lines 3 (by rw [hlines']; rfl)
  obtain ⟨line, hline, _⟩ := hat d.lines 3 (by rw [hlines]; rfl)
  obtain ⟨hstart, hseed⟩ := Prod.mk.inj heq
  obtain ⟨moved, hmoved, hmoves⟩ := (edited_untouched "\n/*\n\n".toList [] 2 1
    "a\n".toList).2 head last head (by decide) hhead hlast hhead
    ((Prod.mk.inj heq').2.trans hseed.symm) 0 line hline
  exact ⟨line, moved, hline, hmoved, hstart ▸ hmoves⟩

end LineMarkup.Document

import LineMarkup.Proofs.Document.Chain
import LineMarkup.Proofs.Span.Alike
import Mathlib.Data.List.Nodup

namespace LineMarkup.Document

open LineMarkup.Span (unclosed shift shiftPosition Alike alike_shift alike_unclosed)

variable {previous before : Option Line} {text : Text} {lines old : List Line} {texts : List Text}
  {kept : List Span} {oldIds : List Nat} {limit threshold id oldId : Nat} {delta : Int}

theorem move_born (line : Line) (threshold : Nat) (delta : Int) :
    (line.move threshold delta).born = line.born := by
  simp only [Line.born, Line.move, shift, List.map_drop, List.map_map]
  rfl

/-- A parse after a line that has moved gives a line that has moved. -/
theorem parseLine_move (hg : Grounded previous) (hg' : Grounded before)
    (hopen : openAfter previous = shift (openAfter before) threshold delta)
    (hstart : (startAfter previous : Int) = startAfter before + delta)
    (ht : threshold ≤ startAfter before) (hs : isShebang previous text = isShebang before text)
    (id : Nat) :
    (parseLine previous text id).1 = (parseLine before text id).1.move threshold delta := by
  have hseed : seedAfter previous = seedAfter before := by
    rw [seedAfter_eq, seedAfter_eq, hopen, shift, List.map_map]
    rfl
  have hpos : ((startAfter before : Int) + delta).toNat = startAfter previous := by omega
  have hanalysis : (parseLine previous text id).1.analysis =
      { (parseLine before text id).1.analysis with
        spans := shift (parseLine before text id).1.analysis.spans threshold delta } := by
    cases hb : isShebang before text with
    | true =>
      rw [hb] at hs
      rw [(parseLine_of_isShebang hb id).1, (parseLine_of_isShebang hs id).1]
      rfl
    | false =>
      rw [hb] at hs
      rw [(parseLine_ofLine hb id).1, (parseLine_ofLine hs id).1]
      have halike := (alike_shift threshold delta).mpr hopen
      obtain ⟨analysis, spans, ha, ha', hspans⟩ := Analysis.ofLine_alike halike hg' hg
        (fun offset => (by simp only [shiftPosition]; split <;> omega)) (fun _ => rfl) text
      rw [ha, ha', (alike_shift threshold delta).mp hspans]
  have hline (p : Option Line) : (parseLine p text id).1 =
      { text, start := startAfter p, seed := seedAfter p, shebang := isShebang p text
        analysis := (parseLine p text id).1.analysis } := by
    simp only [parseLine]
    split
    · rename_i h
      rw [h]
      rfl
    · rename_i h
      rw [Bool.eq_false_iff.mpr h]
      rfl
  rw [hline previous, hanalysis, hline before, Line.move, hseed, hs, hpos]

theorem openAfter_move (line : Line) :
    openAfter (some (line.move threshold delta)) =
      shift (openAfter (some line)) threshold delta := by
  have hopen : Span.isOpen ∘ (fun span : Span => { span with
      first := shiftPosition threshold delta span.first
      last := span.last.map (shiftPosition threshold delta) }) = Span.isOpen := by
    funext span
    simp [Span.isOpen]
  change unclosed (shift line.analysis.spans threshold delta) = _
  rw [unclosed, shift, List.filter_map, hopen]
  rfl

theorem Chain.move (h : Chain before lines) (hg : Grounded previous) (hg' : Grounded before)
    (hopen : openAfter previous = shift (openAfter before) threshold delta)
    (hstart : (startAfter previous : Int) = startAfter before + delta)
    (ht : threshold ≤ startAfter before)
    (hs : ∀ line ∈ lines.head?, isShebang previous line.text = isShebang before line.text) :
    Chain previous (lines.map (·.move threshold delta)) := by
  induction h generalizing previous with
  | nil => exact .nil
  | @parse before text lines id rest ih =>
    have hs' := hs _ rfl
    rw [parseLine_text] at hs'
    have hmove := parseLine_move hg hg' hopen hstart ht hs' id
    rw [List.map_cons, ← hmove]
    refine .parse id (ih (parseLine_grounded hg text id) (parseLine_grounded hg' text id)
      ?_ ?_ ?_ ?_)
    · rw [hmove, openAfter_move]
    · rw [parseLine_next, parseLine_next]
      omega
    · rw [parseLine_next]
      omega
    · intro line _
      rfl

/-- What is known while the lines after an edit are settled. They follow `previous` now, and
followed `before` when they were parsed. The spans `kept` were open at the start of the edit; ids
below `limit` are from before the edit. -/
structure Resumes (kept : List Span) (limit threshold : Nat) (delta : Int)
    (previous before : Option Line) : Prop where
  grounded : Grounded previous
  grounded' : Grounded before
  fresh : ∀ span ∈ openAfter previous, span ∈ kept ∨ limit ≤ span.id
  stale : ∀ span ∈ openAfter before, span ∈ kept ∨ span.id ∉ kept.map Span.id
  older : ∀ span ∈ openAfter before, span.id < limit
  position : (startAfter previous : Int) = startAfter before + delta
  beyond : threshold ≤ startAfter before
  unique : (kept.map Span.id).Nodup
  outside : ∀ span ∈ kept, span.first < threshold

theorem eq_of_map_eq {f : α → β} {as bs : List α} (h : as.map f = bs.map f)
    (hf : ∀ a ∈ as, ∀ b ∈ bs, f a = f b → a = b) : as = bs := by
  induction as generalizing bs with
  | nil => exact (List.map_eq_nil_iff.mp h.symm).symm
  | cons a as ih =>
    cases bs with
    | nil => cases h
    | cons b bs =>
      obtain ⟨hab, hrest⟩ := List.cons.inj h
      obtain rfl := hf a List.mem_cons_self b List.mem_cons_self hab
      rw [ih hrest (fun a ha b hb =>
        hf a (List.mem_cons_of_mem _ ha) b (List.mem_cons_of_mem _ hb))]

namespace Resumes

/-- The ids tell that what is open now was open then. New ids are not known to the old lines, and
old ones that are still known are from before the edit. -/
theorem openAfter_eq (h : Resumes kept limit threshold delta previous before)
    (hs : seedAfter previous = seedAfter before) : openAfter previous = openAfter before := by
  rw [seedAfter_eq, seedAfter_eq] at hs
  refine eq_of_map_eq hs (fun a ha b hb heq => ?_)
  have hid : a.id = b.id := (Prod.mk.inj heq).1
  have hlt := h.older b hb
  have hka : a ∈ kept := (h.fresh a ha).resolve_right (by omega)
  have hkb : b ∈ kept := (h.stale b hb).resolve_right
    (fun hn => hn (hid ▸ List.mem_map_of_mem hka))
  exact List.inj_on_of_nodup_map h.unique hka hkb hid

theorem reuse (h : Resumes kept limit threshold delta previous before)
    (hold : Chain before (line :: lines)) (hu : isUpToDate previous line = true) :
    Chain previous ((line :: lines).map (·.move threshold delta)) := by
  simp only [isUpToDate, Bool.and_eq_true, decide_eq_true_eq] at hu
  obtain ⟨hseed, hshebang⟩ := hu
  have hbefore : line.seed = seedAfter before ∧ line.shebang = isShebang before line.text := by
    cases hold with
    | parse id => exact ⟨parseLine_seed _ _ _, by rw [parseLine_shebang, parseLine_text]⟩
  have hopen := h.openAfter_eq (hseed.symm.trans hbefore.1)
  refine hold.move h.grounded h.grounded' ?_ h.position h.beyond ?_
  · rw [hopen]
    refine (List.map_id _).symm.trans (List.map_congr_left (fun span hm => ?_))
    have hkept := (h.fresh span (hopen ▸ hm)).resolve_right
      (Nat.not_le.mpr (h.older span hm))
    have hfirst : ¬ threshold ≤ span.first := Nat.not_le.mpr (h.outside span hkept)
    have hlast : span.last = none := Option.isNone_iff_eq_none.mp (List.mem_filter.mp hm).2
    simp only [shiftPosition, hfirst, ↓reduceIte, hlast, Option.map_none, id]
    rw [← hlast]
  · intro first hf
    obtain rfl := Option.some.inj hf
    exact hshebang.symm.trans hbefore.2

/-- A line that is parsed again gets new ids. -/
theorem reparse (h : Resumes kept limit threshold delta previous before) (hid : limit ≤ id)
    (hborn : ∀ i ∈ (parseLine before text oldId).1.born, i < limit ∧ i ∉ kept.map Span.id) :
    Resumes kept limit threshold delta (some (parseLine previous text id).1)
      (some (parseLine before text oldId).1) := by
  obtain ⟨count, hrange, _⟩ := parseLine_born h.grounded text id
  refine ⟨parseLine_grounded h.grounded text id, parseLine_grounded h.grounded' text oldId,
    ?_, ?_, ?_, ?_, ?_, h.unique, h.outside⟩
  · intro span hm
    rcases parseLine_open h.grounded text id span hm with hm | hm
    · exact h.fresh span hm
    · rw [hrange] at hm
      exact .inr (Nat.le_trans hid (List.mem_range'_1.mp hm).1)
  · intro span hm
    rcases parseLine_open h.grounded' text oldId span hm with hm | hm
    · exact h.stale span hm
    · exact .inr (hborn _ hm).2
  · intro span hm
    rcases parseLine_open h.grounded' text oldId span hm with hm | hm
    · exact h.older span hm
    · exact (hborn _ hm).1
  · rw [parseLine_next, parseLine_next]
    have := h.position
    omega
  · rw [parseLine_next]
    have := h.beyond
    omega

/-- A new line is put before the old ones. -/
theorem enter (h : Resumes kept limit threshold delta previous before) (hid : limit ≤ id)
    (text : Text) :
    Resumes kept limit threshold (delta + text.size + 1) (some (parseLine previous text id).1)
      before := by
  obtain ⟨count, hrange, _⟩ := parseLine_born h.grounded text id
  refine ⟨parseLine_grounded h.grounded text id, h.grounded', ?_, h.stale, h.older, ?_, h.beyond,
    h.unique, h.outside⟩
  · intro span hm
    rcases parseLine_open h.grounded text id span hm with hm | hm
    · exact h.fresh span hm
    · rw [hrange] at hm
      exact .inr (Nat.le_trans hid (List.mem_range'_1.mp hm).1)
  · rw [parseLine_next]
    have := h.position
    omega

end Resumes

/-- What comes after `previous` when lines were parsed with ids from `id` on. Some of the old lines,
with the ids `old`, may have been kept at the end. -/
structure Parsed (previous : Option Line) (id : Nat) (texts : List Text) (old : List Nat)
    (result : List Line × Nat) : Prop where
  chain : Chain previous result.1
  texts : result.1.map Line.text = texts
  ids : ∃ count rest, result.2 = id + count ∧
    result.1.flatMap Line.born = List.range' id count ++ rest ∧ rest.Sublist old

theorem Parsed.cons (hg : Grounded previous)
    (h : Parsed (some (parseLine previous text id).1) (parseLine previous text id).2 texts oldIds
      (lines, next)) :
    Parsed previous id (text :: texts) oldIds ((parseLine previous text id).1 :: lines, next) := by
  obtain ⟨hchain, htexts, count, rest, hnext, hids, hrest⟩ := h
  obtain ⟨born, hrange, hborn⟩ := parseLine_born hg text id
  refine ⟨.parse id hchain, ?_, born + count, rest, ?_, ?_, hrest⟩
  · rw [List.map_cons, parseLine_text, ← htexts]
  · change next = _ at hnext
    omega
  · change lines.flatMap Line.born = _ at hids
    rw [List.flatMap_cons, hids, hrange, hborn, ← List.append_assoc, List.range'_append_1]

/-- The ids of new lines are new, those of lines that were kept are old. -/
theorem Parsed.born_cases (h : Parsed previous id texts oldIds (lines, next))
    (ho : ∀ i ∈ oldIds, i < id) :
    id ≤ next ∧ ∀ i ∈ lines.flatMap Line.born, i < next ∧ (id ≤ i ∨ i ∈ oldIds) := by
  obtain ⟨_, _, count, rest, hnext, hids, hrest⟩ := h
  change next = _ at hnext
  change lines.flatMap Line.born = _ at hids
  refine ⟨by omega, fun i hm => ?_⟩
  rw [hids] at hm
  rcases List.mem_append.mp hm with hm | hm
  · obtain ⟨hlow, hhigh⟩ := List.mem_range'_1.mp hm
    exact ⟨by omega, .inl hlow⟩
  · have hi := hrest.subset hm
    have := ho i hi
    exact ⟨by omega, .inr hi⟩

theorem Parsed.born_nodup (h : Parsed previous id texts oldIds (lines, next))
    (ho : ∀ i ∈ oldIds, i < id) (hn : oldIds.Nodup) : (lines.flatMap Line.born).Nodup := by
  obtain ⟨_, _, count, rest, _, hids, hrest⟩ := h
  change lines.flatMap Line.born = _ at hids
  rw [hids]
  refine List.nodup_append.mpr ⟨List.nodup_range', hn.sublist hrest, fun a ha b hb heq => ?_⟩
  have := (List.mem_range'_1.mp ha).1
  have := ho b (hrest.subset hb)
  omega

theorem Resumes.settle (h : Resumes kept limit threshold delta previous before)
    (hold : Chain before old) (hid : limit ≤ id)
    (hborn : ∀ i ∈ old.flatMap Line.born, i < limit ∧ i ∉ kept.map Span.id) :
    Parsed previous id (old.map Line.text) (old.flatMap Line.born)
      (settle previous threshold delta id old) := by
  induction hold generalizing previous id with
  | nil => exact ⟨.nil, rfl, 0, [], rfl, rfl, .slnil⟩
  | @parse before text lines oldId rest ih =>
    simp only [Document.settle]
    rw [List.flatMap_cons] at hborn
    split
    · rename_i hu
      refine ⟨h.reuse (.parse oldId rest) hu, ?_, 0, _, rfl, ?_, List.Sublist.refl _⟩
      · rw [List.map_map]
        rfl
      · rw [List.flatMap_map]
        simp only [move_born]
        rfl
    · rw [List.map_cons, parseLine_text]
      have hagain := h.reparse hid (fun i hi => hborn i (List.mem_append_left _ hi))
      obtain ⟨count, _, hcount⟩ := parseLine_born h.grounded text id
      have hle : limit ≤ (parseLine previous text id).2 := by omega
      have hrest := ih hagain hle (fun i hi => hborn i (List.mem_append_right _ hi))
      obtain ⟨hc, ht, count, kept, hn, hi, hs⟩ := hrest.cons h.grounded
      exact ⟨hc, ht, count, kept, hn, hi, hs.trans (List.sublist_append_right _ _)⟩

/-- The lines after an edit are as they would be after a parse of all of them. -/
theorem Resumes.enter_parsed (h : Resumes kept limit threshold delta previous before)
    (hold : Chain before old) (hid : limit ≤ id)
    (hborn : ∀ i ∈ old.flatMap Line.born, i < limit ∧ i ∉ kept.map Span.id)
    (texts : List Text) :
    Parsed previous id (texts ++ old.map Line.text) (old.flatMap Line.born)
      (Document.enter previous threshold (delta + sizeOf texts) id old texts) := by
  induction texts generalizing previous id delta with
  | nil => simpa [Document.enter, sizeOf] using h.settle hold hid hborn
  | cons text texts ih =>
    obtain ⟨count, _, hcount⟩ := parseLine_born h.grounded text id
    have hle : limit ≤ (parseLine previous text id).2 := by omega
    have hrest := ih (h.enter hid text) hle
    have hsize : delta + text.size + 1 + sizeOf texts = delta + sizeOf (text :: texts) := by
      simp only [sizeOf]
      omega
    rw [hsize] at hrest
    exact hrest.cons h.grounded

end LineMarkup.Document

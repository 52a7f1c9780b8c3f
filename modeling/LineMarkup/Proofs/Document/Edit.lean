import LineMarkup.Proofs.Document.Reuse
import LineMarkup.Proofs.Text.Lines

namespace LineMarkup

namespace Document

variable {d : Document} {insert : List Text} {lines : List Line}

theorem Chain.head_start (h : Chain previous (line :: lines)) :
    line.start = startAfter previous := by
  cases h with
  | parse id => exact parseLine_start _ _ _

/-- Without old lines it does not matter how they would move. -/
theorem enter_nil (previous : Option Line) (threshold threshold' : Nat) (delta delta' : Int)
    (id : Nat) (texts : List Text) :
    enter previous threshold delta id [] texts = enter previous threshold' delta' id [] texts := by
  induction texts generalizing previous id with
  | nil => rfl
  | cons text texts ih => simp only [enter, ih]

structure Valid (d : Document) : Prop where
  chain : Chain none d.lines
  used : ∀ id ∈ d.lines.flatMap Line.born, id < d.nextId
  unique : (d.lines.flatMap Line.born).Nodup
  single : ∀ line ∈ d.lines, '\n' ∉ line.text

theorem empty_valid : Valid empty :=
  ⟨.nil, by simp [empty], by simp [empty], by simp [empty]⟩

/-- Where an edit begins and ends, nothing but the lines in between has changed. -/
theorem Valid.resumes (h : Valid d) (hl : d.lines = front ++ (removed ++ after)) :
    Resumes (openAfter (lastAfter none front)) d.nextId (startAfter (lastAfter none front))
        (-(sizeOf (removed.map Line.text) : Int)) (lastAfter none front)
        (lastAfter (lastAfter none front) removed) ∧
      Chain (lastAfter none front) removed ∧
      Chain (lastAfter (lastAfter none front) removed) after ∧
      ∀ i ∈ after.flatMap Line.born, i < d.nextId ∧
        i ∉ (openAfter (lastAfter none front)).map Span.id := by
  obtain ⟨hchain, hused, hunique, _⟩ := h
  rw [hl] at hchain hused hunique
  rw [List.flatMap_append, List.flatMap_append] at hused hunique
  obtain ⟨hfront, hrest⟩ := Chain.append.mp hchain
  obtain ⟨hremoved, hafter⟩ := Chain.append.mp hrest
  have hg := hfront.grounded grounded_none
  obtain ⟨hu, _, hapart⟩ := List.nodup_append.mp hunique
  have hkept := hfront.open_born
  have hstale : ∀ span ∈ openAfter (lastAfter (lastAfter none front) removed),
      span ∈ openAfter (lastAfter none front) ∨ span.id ∈ removed.flatMap Line.born :=
    hremoved.openAfter_mem hg
  have hnew (i : Nat) (hi : i ∈ removed.flatMap Line.born ++ after.flatMap Line.born) :
      i ∉ (openAfter (lastAfter none front)).map Span.id :=
    fun hm => hapart i (hkept i hm) i hi rfl
  refine ⟨⟨hg, hremoved.grounded hg, fun span hm => .inl hm, ?_, ?_, ?_, ?_, ?_, hg.before⟩,
    hremoved, hafter, fun i hi => ?_⟩
  · exact fun span hm => (hstale span hm).imp_right (fun hi => hnew _ (List.mem_append_left _ hi))
  · intro span hm
    rcases hstale span hm with hm | hm
    · exact hused _ (List.mem_append_left _ (hkept _ (List.mem_map_of_mem hm)))
    · exact hused _ (List.mem_append_right _ (List.mem_append_left _ hm))
  · rw [hremoved.startAfter_eq]
    omega
  · rw [hremoved.startAfter_eq]
    exact Nat.le_add_right _ _
  · exact (hfront.ids_unique hu).2
  · exact ⟨hused _ (List.mem_append_right _ (List.mem_append_right _ hi)),
      hnew i (List.mem_append_right _ hi)⟩

/-- The lines after an edit are parsed as they stand now. -/
theorem Valid.entered (h : Valid d) (hl : d.lines = front ++ (removed ++ after))
    (ht : after ≠ [] → threshold = startAfter (lastAfter none front)) (texts : List Text) :
    Parsed (lastAfter none front) d.nextId (texts ++ after.map Line.text)
      (after.flatMap Line.born)
      (enter (lastAfter none front) threshold
        (sizeOf texts - sizeOf (removed.map Line.text)) d.nextId after texts) := by
  obtain ⟨hresumes, _, hafter, hborn⟩ := h.resumes hl
  have hparsed := hresumes.enter_parsed hafter (Nat.le_refl _) hborn texts
  have hdelta : -(sizeOf (removed.map Line.text) : Int) + sizeOf texts =
      sizeOf texts - sizeOf (removed.map Line.text) := by omega
  rw [hdelta] at hparsed
  cases after with
  | nil =>
    rw [enter_nil]
    exact hparsed
  | cons line after =>
    rw [ht (List.cons_ne_nil _ _)]
    exact hparsed

theorem Valid.parsed (h : Valid d) (hl : d.lines = front ++ (removed ++ after))
    (hp : Parsed (lastAfter none front) d.nextId (texts ++ after.map Line.text)
      (after.flatMap Line.born) (lines, next))
    (hi : ∀ text ∈ texts, '\n' ∉ text) : Valid { lines := front ++ lines, nextId := next } := by
  obtain ⟨hfront, hused, hunique, hsingle⟩ := h
  rw [hl] at hfront hused hunique hsingle
  rw [List.flatMap_append, List.flatMap_append] at hused hunique
  obtain ⟨hu, hu', hapart⟩ := List.nodup_append.mp hunique
  have hafter (i : Nat) (hi : i ∈ after.flatMap Line.born) :
      i ∈ removed.flatMap Line.born ++ after.flatMap Line.born := List.mem_append_right _ hi
  have hold : ∀ i ∈ after.flatMap Line.born, i < d.nextId :=
    fun i hi => hused i (List.mem_append_right _ (hafter i hi))
  obtain ⟨hnext, hborn⟩ := hp.born_cases hold
  have hnodup := hp.born_nodup hold (List.nodup_append.mp hu').2.1
  refine ⟨Chain.append.mpr ⟨(Chain.append.mp hfront).1, hp.chain⟩, ?_, ?_, ?_⟩
  · intro i hm
    rw [List.flatMap_append] at hm
    rcases List.mem_append.mp hm with hm | hm
    · exact Nat.lt_of_lt_of_le (hused i (List.mem_append_left _ hm)) hnext
    · exact (hborn i hm).1
  · rw [List.flatMap_append]
    refine List.nodup_append.mpr ⟨hu, hnodup, fun a ha b hb heq => ?_⟩
    rcases (hborn b hb).2 with hb | hb
    · have := hused a (List.mem_append_left _ ha)
      omega
    · exact hapart a ha b (hafter b hb) heq
  · intro line hm
    rcases List.mem_append.mp hm with hm | hm
    · exact hsingle line (List.mem_append_left _ hm)
    · have hm : line.text ∈ texts ++ after.map Line.text := hp.texts ▸ List.mem_map_of_mem hm
      rcases List.mem_append.mp hm with hm | hm
      · exact hi _ hm
      · obtain ⟨old, ho, heq⟩ := List.mem_map.mp hm
        rw [← heq]
        exact hsingle old (List.mem_append_right _ (List.mem_append_right _ ho))

/-- The lines that an edit puts in. There is always a line left. -/
def inserted (d : Document) (first remove : Nat) (insert : List Text) : List Text :=
  if (d.lines.take first).isEmpty && ((d.lines.drop first).drop remove).isEmpty &&
    insert.isEmpty then [[]] else insert

theorem inserted_single (hi : ∀ text ∈ insert, '\n' ∉ text) :
    ∀ text ∈ d.inserted first remove insert, '\n' ∉ text := by
  unfold inserted
  split
  · simp
  · exact hi

theorem inserted_ne_nil (d : Document) (first remove : Nat) (insert : List Text) :
    d.lines.take first ++ ((d.lines.drop first).drop remove) ≠ [] ∨
      d.inserted first remove insert ≠ [] := by
  unfold inserted
  split
  · exact .inr (List.cons_ne_nil _ _)
  · rename_i h
    simp only [Bool.and_eq_true, List.isEmpty_iff, not_and] at h
    by_cases hn : d.lines.take first ++ ((d.lines.drop first).drop remove) = []
    · obtain ⟨ht, hd⟩ := List.append_eq_nil_iff.mp hn
      exact .inr (h ⟨ht, hd⟩)
    · exact .inl hn

/-- The lines before an edit, those that it removes, and those after it. -/
theorem lines_split (d : Document) (first remove : Nat) :
    d.lines = d.lines.take first ++
      ((d.lines.drop first).take remove ++ (d.lines.drop first).drop remove) := by
  rw [List.take_append_drop, List.take_append_drop]

/-- An edit keeps the lines before it, and all that comes after them is parsed as it stands now. -/
theorem splice_entered (h : Valid d) (first remove : Nat) (insert : List Text) :
    ∃ lines next, d.splice first remove insert =
        { lines := d.lines.take first ++ lines, nextId := next } ∧
      Parsed (lastAfter none (d.lines.take first)) d.nextId
        (d.inserted first remove insert ++ ((d.lines.drop first).drop remove).map Line.text)
        (((d.lines.drop first).drop remove).flatMap Line.born) (lines, next) := by
  have hstart : (d.lines.drop first).drop remove ≠ [] →
      (d.lines[first]?.map Line.start).getD (d.size + 1) =
        startAfter (lastAfter none (d.lines.take first)) := by
    intro hn
    have hchain := h.chain
    rw [← List.take_append_drop first d.lines] at hchain
    have hafter := (Chain.append.mp hchain).2
    obtain ⟨line, rest, hd⟩ := List.exists_cons_of_ne_nil
      (fun hd => hn (by rw [hd, List.drop_nil]) : d.lines.drop first ≠ [])
    rw [hd] at hafter
    rw [← List.head?_drop, hd]
    exact hafter.head_start
  refine ⟨_, _, ?_,
    h.entered (lines_split d first remove) hstart (d.inserted first remove insert)⟩
  simp only [splice, lastAfter_none]
  rfl

theorem splice_valid (h : Valid d) (hi : ∀ text ∈ insert, '\n' ∉ text) (first remove : Nat) :
    Valid (d.splice first remove insert) ∧ (d.splice first remove insert).lines ≠ [] := by
  obtain ⟨lines, next, hsplice, hparsed⟩ := splice_entered h first remove insert
  rw [hsplice]
  refine ⟨h.parsed (lines_split d first remove) hparsed (inserted_single hi), fun hn => ?_⟩
  obtain ⟨hfront, hlines⟩ := List.append_eq_nil_iff.mp hn
  have htexts := hparsed.texts
  rw [hlines, List.map_nil] at htexts
  obtain ⟨hinsert, hafter⟩ := List.append_eq_nil_iff.mp htexts.symm
  rcases inserted_ne_nil d first remove insert with hne | hne
  · exact hne (by rw [hfront, List.map_eq_nil_iff.mp hafter]; rfl)
  · exact hne hinsert

theorem ofText_texts (text : Text) : (ofText text).lines.map Line.text = text.lines := by
  obtain ⟨lines, next, hsplice, hparsed⟩ := splice_entered empty_valid 0 0 text.lines
  have hinsert : empty.inserted 0 0 text.lines = text.lines := by
    have hn : text.lines.isEmpty = false := List.isEmpty_eq_false_iff.mpr Text.split_ne_nil
    simp [inserted, hn]
  have htexts := hparsed.texts
  rw [hinsert] at htexts
  rw [ofText, hsplice]
  exact htexts.trans (List.append_nil _)

inductive Edit
  | setText (text : Text)
  | setLine (index : Nat) (text : Text)
  | insertLine (index : Nat) (text : Text)
  | removeLine (index : Nat)
  | replaceLines (first stop : Nat) (text : Text)

def edit (d : Document) : Edit → Document
  | .setText text => d.setText text
  | .setLine index text => d.setLine index text
  | .insertLine index text => d.insertLine index text
  | .removeLine index => d.removeLine index
  | .replaceLines first stop text => d.replaceLines first stop text

/-- A text after edits, one after another. -/
def edited (text : Text) (edits : List Edit) : Document :=
  edits.foldl edit (ofText text)

theorem ofText_valid (text : Text) : Valid (ofText text) ∧ (ofText text).lines ≠ [] :=
  splice_valid empty_valid (fun _ => Text.not_mem_of_mem_split) 0 0

theorem edit_valid (h : Valid d) (e : Edit) : Valid (d.edit e) ∧ (d.edit e).lines ≠ [] := by
  cases e with
  | setText | setLine | insertLine | replaceLines =>
    exact splice_valid h (fun _ => Text.not_mem_of_mem_split) _ _
  | removeLine => exact splice_valid h (by simp) _ _

/-- No edit leaves a line as it could not be parsed. -/
theorem edited_valid (text : Text) (edits : List Edit) :
    Valid (edited text edits) ∧ (edited text edits).lines ≠ [] := by
  unfold edited
  have hstart := ofText_valid text
  generalize ofText text = d at hstart ⊢
  induction edits generalizing d with
  | nil => exact hstart
  | cons e edits ih => exact ih (d.edit e) (edit_valid hstart.1 e)

end Document

end LineMarkup

import LineMarkup.Document
import LineMarkup.Proofs.Line.Spans

namespace LineMarkup.Document

open LineMarkup.Span (Carried ident unclosed)
open LineMarkup.Span.Record (births births_ids births_firsts)

variable {previous : Option Line} {text : Text} {lines : List Line}

/-- Where the line after `previous` starts. -/
def startAfter (previous : Option Line) : Nat :=
  (previous.map Line.next).getD 0

/-- The spans that the line after `previous` is parsed within. -/
def openAfter (previous : Option Line) : List Span :=
  unclosed ((previous.map (·.analysis.spans)).getD [])

theorem seedAfter_eq (previous : Option Line) :
    seedAfter previous = (openAfter previous).map (fun span => (span.id, span.kind)) := by
  cases previous <;> rfl

def Grounded (previous : Option Line) : Prop :=
  Carried (startAfter previous) (openAfter previous)

theorem grounded_none : Grounded none :=
  .nil 0

theorem parseLine_text (previous : Option Line) (text : Text) (id : Nat) :
    (parseLine previous text id).1.text = text := by
  simp only [parseLine]
  split <;> rfl

theorem parseLine_start (previous : Option Line) (text : Text) (id : Nat) :
    (parseLine previous text id).1.start = startAfter previous := by
  simp only [parseLine]
  split <;> rfl

theorem parseLine_next (previous : Option Line) (text : Text) (id : Nat) :
    startAfter (some (parseLine previous text id).1) = startAfter previous + text.size + 1 := by
  change (parseLine previous text id).1.next = _
  rw [Line.next, parseLine_text, parseLine_start]

theorem parseLine_seed (previous : Option Line) (text : Text) (id : Nat) :
    (parseLine previous text id).1.seed = seedAfter previous := by
  simp only [parseLine]
  split <;> rfl

theorem parseLine_shebang (previous : Option Line) (text : Text) (id : Nat) :
    (parseLine previous text id).1.shebang = isShebang previous text := by
  simp only [parseLine]
  split
  · rename_i h
    exact h.symm
  · rename_i h
    exact (Bool.eq_false_iff.mpr h).symm

/-- An interpreter line comes first, so that nothing is open before it. -/
theorem openAfter_of_isShebang (h : isShebang previous text = true) : previous = none := by
  simp only [isShebang, Bool.and_eq_true, Option.isNone_iff_eq_none] at h
  exact h.1

theorem parseLine_ofLine (h : isShebang previous text = false) (id : Nat) :
    (parseLine previous text id).1.analysis = (Analysis.ofLine text
        ((previous.map (·.analysis.spans)).getD []) (startAfter previous) id).1 ∧
      (parseLine previous text id).2 = (Analysis.ofLine text
        ((previous.map (·.analysis.spans)).getD []) (startAfter previous) id).2 := by
  simp only [parseLine, h]
  exact ⟨rfl, rfl⟩

theorem parseLine_of_isShebang (h : isShebang previous text = true) (id : Nat) :
    (parseLine previous text id).1.analysis = Analysis.shebang text ∧
      (parseLine previous text id).2 = id := by
  simp only [parseLine, h]
  exact ⟨rfl, rfl⟩

/-- The ids of the spans that begin in a line. -/
def Line.born (line : Line) : List Nat :=
  (line.analysis.spans.drop line.seed.length).map Span.id

theorem parseLine_recorded (hg : Grounded previous) (text : Text) (id : Nat) :
    ∃ frames, (∀ f ∈ frames, f.start < text.size) ∧
      (parseLine previous text id).1.analysis.spans.map ident =
        (openAfter previous).map ident ++ births (startAfter previous) id frames ∧
      (parseLine previous text id).2 = id + frames.length ∧
      ∀ span ∈ openAfter (some (parseLine previous text id).1),
        span ∈ openAfter previous ∨ ident span ∈ births (startAfter previous) id frames := by
  cases hs : isShebang previous text with
  | true =>
    obtain ⟨ha, hn⟩ := parseLine_of_isShebang hs id
    obtain rfl := openAfter_of_isShebang hs
    refine ⟨[], by simp, by rw [ha]; rfl, hn, fun span hm => ?_⟩
    simp only [openAfter, Option.map_some, Option.getD_some, ha] at hm
    cases hm
  | false =>
    obtain ⟨ha, hn⟩ := parseLine_ofLine hs id
    rw [ha, hn]
    obtain ⟨frames, hf, hi, hid, ho⟩ := Analysis.ofLine_ident hg text id
    refine ⟨frames, hf, hi, hid, ?_⟩
    simp only [openAfter, Option.map_some, Option.getD_some, ha]
    exact ho

/-- The spans of a line are those that were open before and those that begin in it. -/
theorem parseLine_ident (hg : Grounded previous) (text : Text) (id : Nat) :
    ∃ born, (parseLine previous text id).1.analysis.spans.map ident =
        (openAfter previous).map ident ++ born ∧
      (parseLine previous text id).1.born = born.map (·.1) ∧
      (∀ b ∈ born, startAfter previous ≤ b.2.2 ∧ b.2.2 < startAfter previous + text.size) ∧
      ∀ span ∈ openAfter (some (parseLine previous text id).1),
        span ∈ openAfter previous ∨ ident span ∈ born := by
  obtain ⟨frames, hf, hi, _, ho⟩ := parseLine_recorded hg text id
  refine ⟨births (startAfter previous) id frames, hi, ?_, ?_, ho⟩
  · have hids := congrArg (List.drop (openAfter previous).length ∘ List.map (·.1)) hi
    simp only [Function.comp_apply, List.map_append, List.map_map] at hids
    rw [List.drop_left' (by simp)] at hids
    rw [Line.born, parseLine_seed, seedAfter_eq, List.length_map, List.map_drop]
    exact hids
  · intro b hb
    have hm := List.mem_map_of_mem (f := (·.2.2)) hb
    rw [births_firsts] at hm
    obtain ⟨frame, hframe, heq⟩ := List.mem_map.mp hm
    have := hf frame hframe
    have heq : startAfter previous + frame.start = b.2.2 := heq
    omega

/-- What holds of no spans, and of those of a parse, holds of the spans of a line. -/
theorem parseLine_spans {P : List Span → Prop} (hnone : P [])
    (hsome : ∀ id, P (Analysis.ofLine text ((previous.map (·.analysis.spans)).getD [])
      (startAfter previous) id).1.spans) (id : Nat) :
    P (parseLine previous text id).1.analysis.spans := by
  cases hs : isShebang previous text with
  | true =>
    rw [(parseLine_of_isShebang hs id).1]
    exact hnone
  | false =>
    rw [(parseLine_ofLine hs id).1]
    exact hsome id

theorem parseLine_grounded (hg : Grounded previous) (text : Text) (id : Nat) :
    Grounded (some (parseLine previous text id).1) := by
  rw [Grounded, parseLine_next]
  exact parseLine_spans (P := fun spans => Carried _ (unclosed spans)) (.nil _)
    (Analysis.ofLine_carried hg text) id

theorem parseLine_ascending (hg : Grounded previous) (text : Text) (id : Nat) :
    (parseLine previous text id).1.analysis.spans.Pairwise (fun a b => a.first < b.first) :=
  parseLine_spans .nil (Analysis.ofLine_ascending hg text) id

theorem parseLine_ended (hg : Grounded previous) (text : Text) (id : Nat) :
    ∀ span ∈ (parseLine previous text id).1.analysis.spans, ∀ last, span.last = some last →
      span.first ≤ last ∧ startAfter previous ≤ last ∧
        last ≤ startAfter previous + text.size :=
  parseLine_spans (P := fun spans => ∀ span ∈ spans, ∀ last, span.last = some last →
      span.first ≤ last ∧ startAfter previous ≤ last ∧ last ≤ startAfter previous + text.size)
    (by simp) (Analysis.ofLine_ended hg text) id

theorem parseLine_ids (hg : Grounded previous) (text : Text) (id : Nat) :
    (parseLine previous text id).1.analysis.spans.map Span.id =
      (openAfter previous).map Span.id ++ (parseLine previous text id).1.born := by
  obtain ⟨born, hi, hb, _, _⟩ := parseLine_ident hg text id
  have hids := congrArg (List.map (·.1)) hi
  rw [List.map_append, List.map_map, List.map_map, ← hb] at hids
  exact hids

/-- The ids of new spans come one after another. -/
theorem parseLine_born (hg : Grounded previous) (text : Text) (id : Nat) :
    ∃ count, (parseLine previous text id).1.born = List.range' id count ∧
      (parseLine previous text id).2 = id + count := by
  obtain ⟨frames, _, hi, hid, _⟩ := parseLine_recorded hg text id
  have hids := congrArg (List.map (·.1)) hi
  rw [List.map_append, births_ids, List.map_map, List.map_map] at hids
  exact ⟨frames.length, List.append_cancel_left ((parseLine_ids hg text id).symm.trans hids), hid⟩

/-- A span that is open after a line was open before, or begins in the line. -/
theorem parseLine_open (hg : Grounded previous) (text : Text) (id : Nat) :
    ∀ span ∈ openAfter (some (parseLine previous text id).1),
      span ∈ openAfter previous ∨ span.id ∈ (parseLine previous text id).1.born := by
  obtain ⟨born, _, hb, _, ho⟩ := parseLine_ident hg text id
  intro span hm
  refine (ho span hm).imp_right (fun hi => ?_)
  rw [hb]
  exact List.mem_map_of_mem (f := (·.1)) hi

/-- Lines of which each is as it was parsed after the one before, the first one after `previous`. -/
inductive Chain : Option Line → List Line → Prop
  | nil {previous : Option Line} : Chain previous []
  | parse {previous : Option Line} {text : Text} {lines : List Line} (id : Nat)
      (rest : Chain (some (parseLine previous text id).1) lines) :
      Chain previous ((parseLine previous text id).1 :: lines)

/-- The line before whatever comes after `lines`. -/
def lastAfter (previous : Option Line) (lines : List Line) : Option Line :=
  lines.foldl (fun _ line => some line) previous

theorem lastAfter_append (previous : Option Line) (a b : List Line) :
    lastAfter previous (a ++ b) = lastAfter (lastAfter previous a) b :=
  List.foldl_append

theorem lastAfter_none (lines : List Line) : lastAfter none lines = lines.getLast? := by
  rcases List.eq_nil_or_concat lines with rfl | ⟨front, line, rfl⟩
  · rfl
  · simp [lastAfter]

namespace Chain

theorem append : Chain previous (a ++ b) ↔ Chain previous a ∧ Chain (lastAfter previous a) b := by
  induction a generalizing previous with
  | nil => exact ⟨fun h => ⟨.nil, h⟩, fun h => h.2⟩
  | cons line a ih =>
    constructor
    · intro h
      cases h with
      | parse id rest =>
        obtain ⟨ha, hb⟩ := ih.mp rest
        exact ⟨.parse id ha, hb⟩
    · rintro ⟨ha, hb⟩
      cases ha with
      | parse id rest => exact .parse id (ih.mpr ⟨rest, hb⟩)

theorem grounded (h : Chain previous lines) (hg : Grounded previous) :
    Grounded (lastAfter previous lines) := by
  induction h with
  | nil => exact hg
  | parse id _ ih => exact ih (parseLine_grounded hg _ id)

/-- Any line is as it was parsed after the one before. -/
theorem getElem (h : Chain previous lines) (hg : Grounded previous) (hl : lines[i]? = some line) :
    Grounded (lastAfter previous (lines.take i)) ∧
      ∃ id, line = (parseLine (lastAfter previous (lines.take i)) line.text id).1 := by
  rw [← List.take_append_drop i lines] at h
  obtain ⟨htake, hdrop⟩ := append.mp h
  refine ⟨htake.grounded hg, ?_⟩
  rw [← List.head?_drop] at hl
  generalize lines.drop i = rest at hdrop hl
  cases hdrop with
  | nil => cases hl
  | parse id _ =>
    obtain rfl := Option.some.inj hl
    exact ⟨id, by rw [parseLine_text]⟩

theorem startAfter_eq (h : Chain previous lines) :
    startAfter (lastAfter previous lines) =
      startAfter previous + sizeOf (lines.map Line.text) := by
  induction h with
  | nil => rfl
  | @parse previous text lines id rest ih =>
    change startAfter (lastAfter (some _) lines) = _
    rw [ih, parseLine_next, List.map_cons, sizeOf, parseLine_text]
    omega

theorem openAfter_mem (h : Chain previous lines) (hg : Grounded previous) :
    ∀ span ∈ openAfter (lastAfter previous lines),
      span ∈ openAfter previous ∨ span.id ∈ lines.flatMap Line.born := by
  induction h with
  | nil => exact fun span hm => .inl hm
  | parse id _ ih =>
    intro span hm
    rw [List.flatMap_cons, List.mem_append]
    rcases ih (parseLine_grounded hg _ id) span hm with hm | hm
    · exact (parseLine_open hg _ id span hm).imp_right .inl
    · exact .inr (.inr hm)

/-- Ids that are new on each line are different on each line. -/
theorem ids_nodup (h : Chain previous lines) (hg : Grounded previous)
    (ho : ((openAfter previous).map Span.id).Nodup) (hu : (lines.flatMap Line.born).Nodup)
    (hd : ∀ i ∈ lines.flatMap Line.born, i ∉ (openAfter previous).map Span.id) :
    (∀ line ∈ lines, (line.analysis.spans.map Span.id).Nodup) ∧
      ((openAfter (lastAfter previous lines)).map Span.id).Nodup := by
  induction h with
  | nil => exact ⟨by simp, ho⟩
  | @parse previous text lines id _ ih =>
    rw [List.flatMap_cons] at hu hd
    obtain ⟨hown, hrest, hapart⟩ := List.nodup_append.mp hu
    have hall : ((parseLine previous text id).1.analysis.spans.map Span.id).Nodup := by
      rw [parseLine_ids hg text id]
      refine List.nodup_append.mpr ⟨ho, hown, fun a ha b hb heq => ?_⟩
      exact hd b (List.mem_append_left _ hb) (heq ▸ ha)
    have hopen : ((openAfter (some (parseLine previous text id).1)).map Span.id).Nodup :=
      hall.sublist (List.Sublist.map _ List.filter_sublist)
    obtain ⟨hlines, hlast⟩ := ih (parseLine_grounded hg text id) hopen hrest (fun i hi hm => by
      obtain ⟨span, hs, rfl⟩ := List.mem_map.mp hm
      rcases parseLine_open hg text id span hs with hs | hs
      · exact hd _ (List.mem_append_right _ hi) (List.mem_map_of_mem hs)
      · exact hapart _ hs _ hi rfl)
    exact ⟨List.forall_mem_cons.mpr ⟨hall, hlines⟩, hlast⟩

/-- From the first line on all spans begin in some line. -/
theorem open_born (h : Chain none lines) :
    ∀ i ∈ (openAfter (lastAfter none lines)).map Span.id, i ∈ lines.flatMap Line.born := by
  intro i hi
  obtain ⟨span, hs, rfl⟩ := List.mem_map.mp hi
  rcases h.openAfter_mem grounded_none span hs with hm | hm
  · cases hm
  · exact hm

theorem ids_unique (h : Chain none lines) (hu : (lines.flatMap Line.born).Nodup) :
    (∀ line ∈ lines, (line.analysis.spans.map Span.id).Nodup) ∧
      ((openAfter (lastAfter none lines)).map Span.id).Nodup := by
  have hnone : openAfter none = [] := rfl
  refine h.ids_nodup grounded_none ?_ hu ?_ <;> simp [hnone]

end Chain

end LineMarkup.Document

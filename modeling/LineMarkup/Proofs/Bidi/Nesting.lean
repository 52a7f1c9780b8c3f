import LineMarkup.Proofs.Bidi.Display
import LineMarkup.Proofs.Event.Trace

namespace LineMarkup.Bidi

variable {text display : Text} {isolates : List Isolate} {marks : List Mark} {mark : Mark}
  {opened : List (Nat × Nat)} {range : Nat × Nat} {pos stop : Nat}

/-- A range of the line as it is shown: its ends moved up to boundaries, unless nothing is left. -/
def rounded? (text : Text) (isolate : Isolate) : Option (Nat × Nat) :=
  let start := text.nextBoundary isolate.first
  let stop := text.nextBoundary (isolate.last + 1)
  if start < stop then some (start, stop) else none

/-- Isolates by their marks, as start and stop: an opening mark goes on a stack, and a closing mark
takes the one put there last. -/
def pair? : List Nat → List (Nat × Char) → Option (List (Nat × Nat))
  | [], [] => some []
  | _ :: _, [] => none
  | opened, (pos, c) :: rest =>
    if opensIsolate c then pair? (pos :: opened) rest
    else if c = popDirectionalIsolate then
      match opened with
      | [] => none
      | start :: outer => (pair? outer rest).map ((start, pos) :: ·)
    else none

theorem pair_opening {starts : List Nat} (h : opensIsolate c = true) (rest : List (Nat × Char)) :
    pair? starts ((pos, c) :: rest) = pair? (pos :: starts) rest := by
  cases starts <;> rw [pair?, if_pos h]

theorem pair_closing (start pos : Nat) (outer : List Nat) (rest : List (Nat × Char)) :
    pair? (start :: outer) ((pos, popDirectionalIsolate) :: rest) =
      (pair? outer rest).map ((start, pos) :: ·) := by
  rw [pair?, if_neg (by decide), if_pos rfl]

namespace Display

/-- The characters that are put in, with their positions in the line. Other characters stand where
their position is shown. -/
def insertedFrom (display : Display) (pos : Nat) : Text → List (Nat × Char)
  | [] => []
  | c :: rest =>
    let source := display.toSource pos
    if display.toDisplay source = pos then display.insertedFrom (pos + c.utf8Size) rest
    else (source, c) :: display.insertedFrom (pos + c.utf8Size) rest

def inserted (display : Display) : List (Nat × Char) :=
  display.insertedFrom 0 display.text

theorem insertedFrom_woven {rest : Text} {earlier : List Mark} (h : Woven pos rest marks display)
    (hall : Mark.ofIsolates text isolates = earlier ++ marks)
    (hle : ∀ m ∈ earlier, m.pos ≤ pos) :
    (ofIsolates text isolates).insertedFrom (pos + Text.size (earlier.map Mark.char)) display =
      marks.map (fun m => (m.pos, m.char)) := by
  induction h generalizing earlier with
  | done => rfl
  | @mark rest display mark marks _ ih =>
    have hsource : (ofIsolates text isolates).toSource
        (mark.pos + Text.size (earlier.map Mark.char)) = mark.pos :=
      toSource_on_mark hall (Nat.le_refl _) (Nat.lt_add_of_pos_right mark.char.utf8Size_pos)
    have hdisplay : (ofIsolates text isolates).toDisplay mark.pos ≠
        mark.pos + Text.size (earlier.map Mark.char) := by
      have := mark.char.utf8Size_pos
      rw [toDisplay_ofIsolates, hall, Mark.sizeUpTo_append hle, Mark.sizeUpTo_cons (Nat.le_refl _)]
      omega
    have hrest := @ih (earlier ++ [mark]) (by simp [hall])
      (by simpa [or_imp, forall_and] using hle)
    rw [List.map_append, Text.size_append, ← Nat.add_assoc] at hrest
    rw [insertedFrom, hsource, if_neg hdisplay, List.map_cons]
    exact congrArg _ hrest
  | @char rest display pos c marks hlater _ ih =>
    have hdisplay : (ofIsolates text isolates).toDisplay pos =
        pos + Text.size (earlier.map Mark.char) := by
      have hnone : Mark.sizeUpTo pos marks = 0 :=
        Mark.sizeUpTo_eq_zero hlater (Nat.lt_add_of_pos_right c.utf8Size_pos)
      rw [toDisplay_ofIsolates, hall, Mark.sizeUpTo_append hle, hnone, Nat.add_zero]
    have hrest := ih hall (fun m hm => Nat.le_trans (hle m hm) (Nat.le_add_right ..))
    rw [insertedFrom, ← hdisplay, toSource_toDisplay, if_pos rfl, hdisplay, Nat.add_right_comm]
    exact hrest

/-- The marks of a display text are those put in, in their order. -/
theorem inserted_ofIsolates (text : Text) (isolates : List Isolate) :
    (ofIsolates text isolates).inserted =
      (Mark.ofIsolates text isolates).map (fun m => (m.pos, m.char)) :=
  insertedFrom_woven (woven text isolates) (List.nil_append _).symm (by simp)

end Display

namespace Mark

/-- The range that an opening mark opens. -/
def range? (mark : Mark) : Option (Nat × Nat) :=
  mark.reach.map ((mark.pos, ·))

/-- Where a closing mark closes a range. -/
def stop? (mark : Mark) : Option Nat :=
  if mark.reach.isNone then some mark.pos else none

/-- An opening mark opens a range that is not empty, and its character says so. -/
def Fits (mark : Mark) : Prop :=
  match mark.reach with
  | some stop => mark.pos < stop ∧ opensIsolate mark.char = true
  | none => mark.char = popDirectionalIsolate

theorem mem_ranges :
    range ∈ marks.filterMap range? ↔ ∃ m ∈ marks, m.pos = range.1 ∧ m.reach = some range.2 := by
  simp only [List.mem_filterMap, range?, Option.map_eq_some_iff]
  constructor
  · rintro ⟨m, hm, stop, hreach, rfl⟩
    exact ⟨m, hm, rfl, hreach⟩
  · rintro ⟨m, hm, hpos, hreach⟩
    exact ⟨m, hm, range.2, hreach, Prod.ext hpos rfl⟩

theorem mem_stops : stop ∈ marks.filterMap stop? ↔ ∃ m ∈ marks, m.pos = stop ∧ m.reach = none := by
  simp [stop?, and_comm]

theorem ranges_opening (h : mark.reach = some stop) (marks : List Mark) :
    (mark :: marks).filterMap range? = (mark.pos, stop) :: marks.filterMap range? := by
  simp [range?, h]

theorem stops_opening (h : mark.reach = some stop) (marks : List Mark) :
    (mark :: marks).filterMap stop? = marks.filterMap stop? := by
  simp [stop?, h]

theorem ranges_closing (h : mark.reach = none) (marks : List Mark) :
    (mark :: marks).filterMap range? = marks.filterMap range? := by
  simp [range?, h]

theorem stops_closing (h : mark.reach = none) (marks : List Mark) :
    (mark :: marks).filterMap stop? = mark.pos :: marks.filterMap stop? := by
  simp [stop?, h]

theorem ranges_ofIsolate (text : Text) (isolate : Isolate) :
    (ofIsolate text isolate).filterMap range? = (rounded? text isolate).toList := by
  simp only [ofIsolate, rounded?]
  split <;> rfl

theorem stops_ofIsolate (text : Text) (isolate : Isolate) :
    (ofIsolate text isolate).filterMap stop? = (rounded? text isolate).toList.map Prod.snd := by
  simp only [ofIsolate, rounded?]
  split <;> rfl

theorem ranges_ofIsolates (text : Text) (isolates : List Isolate) :
    ((ofIsolates text isolates).filterMap range?).Perm (isolates.filterMap (rounded? text)) := by
  refine ((List.mergeSort_perm _ precedes).filterMap range?).trans ?_
  rw [List.filterMap_flatMap, List.filterMap_eq_flatMap_toList]
  simp only [ranges_ofIsolate]
  exact .refl _

/-- Each range is closed where it stops. -/
theorem stops_ofIsolates (text : Text) (isolates : List Isolate) :
    ((ofIsolates text isolates).filterMap stop?).Perm
      (((ofIsolates text isolates).filterMap range?).map Prod.snd) := by
  have hsorted := List.mergeSort_perm (isolates.flatMap (ofIsolate text)) precedes
  refine (hsorted.filterMap stop?).trans (.trans ?_ ((hsorted.filterMap range?).map Prod.snd).symm)
  simp only [List.filterMap_flatMap, List.map_flatMap, ranges_ofIsolate, stops_ofIsolate]
  exact .refl _

theorem fits_of_mem (h : mark ∈ ofIsolates text isolates) : mark.Fits := by
  obtain ⟨start, stop, direction, _, _, hlt, rfl | rfl⟩ := mem_ofIsolates h
  · refine ⟨hlt, ?_⟩
    cases direction <;> rfl
  · rfl

end Mark

/-- Ranges that nest still do so with their ends moved up. -/
theorem rounded_laminar (text : Text) (h : isolates.Pairwise
    (fun a b => Laminar (a.first, a.last + 1) (b.first, b.last + 1))) :
    (isolates.filterMap (rounded? text)).Pairwise Laminar := by
  refine List.pairwise_filterMap.mpr (h.imp fun {a b} hl range hrange range' hrange' => ?_)
  simp only [rounded?, Option.ite_none_right_eq_some, Option.some.injEq] at hrange hrange'
  obtain ⟨_, rfl⟩ := hrange
  obtain ⟨_, rfl⟩ := hrange'
  rcases hl with hl | hl | ⟨hl, hl'⟩ | ⟨hl, hl'⟩
  · exact .inl (Text.nextBoundary_mono hl)
  · exact .inr (.inl (Text.nextBoundary_mono hl))
  · exact .inr (.inr (.inl ⟨Text.nextBoundary_mono hl, Text.nextBoundary_mono hl'⟩))
  · exact .inr (.inr (.inr ⟨Text.nextBoundary_mono hl, Text.nextBoundary_mono hl'⟩))

/-- The marks that are left when the ranges in `opened`, the innermost first, have been opened and
not closed. -/
structure Pending (opened : List (Nat × Nat)) (marks : List Mark) : Prop where
  sorted : marks.Pairwise (fun a b => a.precedes b = true)
  fits : ∀ m ∈ marks, m.Fits
  closed : (marks.filterMap Mark.stop?).Perm ((marks.filterMap Mark.range? ++ opened).map Prod.snd)
  laminar : (marks.filterMap Mark.range? ++ opened).Pairwise Laminar
  nested : opened.Pairwise (fun inner outer => inner.2 ≤ outer.2)
  longer : ∀ outer ∈ opened, ∀ inner ∈ marks.filterMap Mark.range?,
    outer.1 < inner.1 ∨ outer.1 = inner.1 ∧ inner.2 ≤ outer.2

namespace Pending

theorem start (text : Text) (h : isolates.Pairwise
    (fun a b => Laminar (a.first, a.last + 1) (b.first, b.last + 1))) :
    Pending [] (Mark.ofIsolates text isolates) where
  sorted := Mark.ofIsolates_sorted text isolates
  fits _ := Mark.fits_of_mem
  closed := by
    rw [List.append_nil]
    exact Mark.stops_ofIsolates text isolates
  laminar := by
    rw [List.append_nil]
    exact ((Mark.ranges_ofIsolates text isolates).pairwise_iff Laminar.symm).mpr
      (rounded_laminar text h)
  nested := .nil
  longer := nofun

theorem exists_closing (h : Pending opened marks) (hm : range ∈ opened) :
    ∃ m ∈ marks, m.pos = range.2 ∧ m.reach = none :=
  Mark.mem_stops.mp (h.closed.mem_iff.mpr
    (List.mem_map_of_mem (List.mem_append_right _ hm)))

/-- An opening mark opens a range within those that are open. -/
theorem opening (h : Pending opened (mark :: marks)) (hr : mark.reach = some stop) :
    Pending ((mark.pos, stop) :: opened) marks := by
  obtain ⟨hfirst, hsorted⟩ := List.pairwise_cons.mp h.sorted
  obtain ⟨hmark, hfits⟩ := List.forall_mem_cons.mp h.fits
  have hclosed := h.closed
  have hlaminar := h.laminar
  have hlonger := h.longer
  rw [Mark.ranges_opening hr] at hclosed hlaminar hlonger
  rw [Mark.stops_opening hr] at hclosed
  have hmiddle : ((mark.pos, stop) :: (marks.filterMap Mark.range? ++ opened)).Perm
      (marks.filterMap Mark.range? ++ (mark.pos, stop) :: opened) := List.perm_middle.symm
  have hinner : ∀ outer ∈ opened, stop ≤ outer.2 := by
    intro outer hm
    -- The closing mark of the outer range is still to come, so it does not stop here.
    obtain ⟨m, hmem, hpos, hreach⟩ := h.exists_closing hm
    have hlt : mark.pos < outer.2 := by
      rcases List.mem_cons.mp hmem with rfl | hmem
      · cases hr.symm.trans hreach
      · exact hpos ▸ Mark.pos_lt_of_precedes (hfirst m hmem) hr hreach
    have hl := List.rel_of_pairwise_cons hlaminar (List.mem_append_right _ hm)
    have hlong := hlonger outer hm _ List.mem_cons_self
    simp only [Mark.Fits, hr] at hmark
    simp only [Laminar] at hl hlong
    omega
  refine ⟨hsorted, hfits, hclosed.trans (hmiddle.map Prod.snd),
    (hmiddle.pairwise_iff Laminar.symm).mp hlaminar, .cons hinner h.nested, ?_⟩
  refine List.forall_mem_cons.mpr ⟨fun inner hm => ?_, fun outer hm inner hi =>
    hlonger outer hm inner (List.mem_cons_of_mem _ hi)⟩
  obtain ⟨m, hmem, hpos, hreach⟩ := Mark.mem_ranges.mp hm
  rw [← hpos]
  exact Mark.longer_of_precedes (hfirst m hmem) hr hreach

/-- A closing mark closes the innermost of the open ranges. -/
theorem closing (h : Pending opened (mark :: marks)) (hr : mark.reach = none) :
    ∃ start outer, opened = (start, mark.pos) :: outer ∧ Pending outer marks := by
  obtain ⟨hfirst, hsorted⟩ := List.pairwise_cons.mp h.sorted
  obtain ⟨_, hfits⟩ := List.forall_mem_cons.mp h.fits
  have hclosed := h.closed
  have hlaminar := h.laminar
  have hlonger := h.longer
  rw [Mark.ranges_closing hr] at hclosed hlaminar hlonger
  rw [Mark.stops_closing hr] at hclosed
  -- A range that is not open yet stops further on, so an open one stops here.
  obtain ⟨range, hm, hstop⟩ : ∃ range ∈ opened, range.2 = mark.pos := by
    obtain ⟨range, hm, hstop⟩ := List.mem_map.mp (hclosed.mem_iff.mp List.mem_cons_self)
    refine ⟨range, (List.mem_append.mp hm).resolve_left (fun hm => ?_), hstop⟩
    obtain ⟨m, hmem, hpos, hreach⟩ := Mark.mem_ranges.mp hm
    have hle := Mark.pos_le_of_precedes (hfirst m hmem)
    have hfit := hfits m hmem
    simp only [Mark.Fits, hreach] at hfit
    omega
  cases opened with
  | nil => cases hm
  | cons innermost outer =>
    obtain ⟨hinner, houter⟩ := List.pairwise_cons.mp h.nested
    have hle : innermost.2 ≤ mark.pos := by
      rcases List.mem_cons.mp hm with rfl | hm
      · exact Nat.le_of_eq hstop
      · exact hstop ▸ hinner range hm
    have hge : mark.pos ≤ innermost.2 := by
      obtain ⟨m, hmem, hpos, _⟩ := h.exists_closing List.mem_cons_self
      rcases List.mem_cons.mp hmem with rfl | hmem
      · exact Nat.le_of_eq hpos
      · exact hpos ▸ Mark.pos_le_of_precedes (hfirst m hmem)
    obtain ⟨start, last⟩ := innermost
    obtain rfl : last = mark.pos := Nat.le_antisymm hle hge
    have hmiddle : (marks.filterMap Mark.range? ++ (start, mark.pos) :: outer).Perm
        ((start, mark.pos) :: (marks.filterMap Mark.range? ++ outer)) := List.perm_middle
    exact ⟨start, outer, rfl, hsorted, hfits, (hclosed.trans (hmiddle.map Prod.snd)).cons_inv,
      ((hmiddle.pairwise_iff Laminar.symm).mp hlaminar).tail, houter,
      fun range hm => hlonger range (List.mem_cons_of_mem _ hm)⟩

theorem pairs (h : Pending opened marks) :
    ∃ pairs, pair? (opened.map Prod.fst) (marks.map (fun m => (m.pos, m.char))) = some pairs ∧
      pairs.Perm (marks.filterMap Mark.range? ++ opened) := by
  induction marks generalizing opened with
  | nil =>
    have hopened : opened = [] := by simpa using h.closed
    subst hopened
    exact ⟨[], rfl, .nil⟩
  | cons mark marks ih =>
    have hfit := h.fits mark List.mem_cons_self
    cases hr : mark.reach with
    | some stop =>
      obtain ⟨pairs, hpairs, hperm⟩ := ih (h.opening hr)
      simp only [Mark.Fits, hr] at hfit
      refine ⟨pairs, ?_, ?_⟩
      · rw [List.map_cons, pair_opening hfit.2]
        exact hpairs
      · rw [Mark.ranges_opening hr]
        exact hperm.trans List.perm_middle
    | none =>
      obtain ⟨start, outer, rfl, hrest⟩ := h.closing hr
      obtain ⟨pairs, hpairs, hperm⟩ := ih hrest
      simp only [Mark.Fits, hr] at hfit
      refine ⟨(start, mark.pos) :: pairs, ?_, ?_⟩
      · rw [List.map_cons, List.map_cons, hfit, pair_closing, hpairs, Option.map_some]
      · rw [Mark.ranges_closing hr]
        exact (hperm.cons _).trans List.perm_middle.symm

end Pending

/-- If of any two isolates one is within the other or they are apart, their marks pair up to
the same ranges, with ends moved up to boundaries. An isolate whose range is empty then has none. -/
theorem pair_inserted (text : Text) (isolates : List Isolate)
    (h : isolates.Pairwise (fun a b => Laminar (a.first, a.last + 1) (b.first, b.last + 1))) :
    ∃ pairs, pair? [] (Display.ofIsolates text isolates).inserted = some pairs ∧
      pairs.Perm (isolates.filterMap (rounded? text)) := by
  obtain ⟨pairs, hpairs, hperm⟩ := (Pending.start text h).pairs
  refine ⟨pairs, ?_, ?_⟩
  · rw [Display.inserted_ofIsolates]
    exact hpairs
  · rw [List.append_nil] at hperm
    exact hperm.trans (Mark.ranges_ofIsolates text isolates)

/-- One isolate ends inside the last character, and the one around it after that character. -/
theorem pair_inserted_common_end :
    ∃ pairs, pair? [] (Display.ofIsolates ['a', 'é', 'é']
        [⟨.auto, 1, 3⟩, ⟨.leftToRight, 0, 4⟩]).inserted = some pairs ∧
      pairs.Perm [(1, 5), (0, 5)] :=
  pair_inserted ['a', 'é', 'é'] [⟨.auto, 1, 3⟩, ⟨.leftToRight, 0, 4⟩] (by simp [Laminar])

end LineMarkup.Bidi

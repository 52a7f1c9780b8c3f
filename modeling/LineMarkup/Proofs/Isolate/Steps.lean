import LineMarkup.Proofs.Isolate.Sound

namespace LineMarkup

open Text (Boundary HasAt)

namespace Frame

variable {frame : Frame} {stack : List Frame}

/-- Nothing is opened in a chain. -/
theorem not_isChain_of_standsOn {outer : Frame} (h : frame.StandsOn outer) :
    outer.isChain = false := by
  cases hc : outer.isChain with
  | false => rfl
  | true =>
    simp only [isChain, Bool.and_eq_true, Bool.not_eq_true', decide_eq_true_eq] at hc
    have ha := h.2 hc.1
    rw [hc.2] at ha
    revert ha
    cases frame.kind <;> decide

theorem chainless (h : (frame :: stack).IsChain StandsOn) : ∀ f ∈ stack, f.isChain = false := by
  induction stack generalizing frame with
  | nil => simp
  | cons outer stack ih =>
    obtain ⟨hfirst, hrest⟩ := List.isChain_cons_cons.mp h
    exact List.forall_mem_cons.mpr ⟨not_isChain_of_standsOn hfirst, ih hrest⟩

/-- Where a chain begins, code and math around it are at most as deep as the innermost level. -/
theorem level_above (hn : (frame :: stack).IsChain StandsOn) (hk : frame.kind = .codeChain)
    (hp : stack.Pairwise (fun inner outer => outer.carried = false → outer.start < inner.start))
    (hf : f ∈ stack) (hr : f.isRanged = true) :
    ∃ b ∈ stack, b.opensLevel = true ∧ f.start ≤ b.start := by
  simp only [isRanged, Bool.and_eq_true, Bool.or_eq_true, Bool.not_eq_true', decide_eq_true_eq]
    at hr
  obtain ⟨⟨hc, -⟩, hkind⟩ := hr
  by_cases hl : f.opensLevel = true
  · exact ⟨f, hf, hl, Nat.le_refl _⟩
  obtain ⟨hfirst, hstack⟩ := List.isChain_cons.mp hn
  obtain ⟨top, rest, rfl⟩ := List.exists_cons_of_ne_nil (List.ne_nil_of_mem hf)
  have htc : top.carried = false := by
    cases htc : top.carried with
    | false => rfl
    | true =>
      rcases List.mem_cons.mp hf with rfl | hf
      · exact htc.symm.trans hc
      · exact (carried_below hstack htc f hf).symm.trans hc
  have hadmits := (hfirst top rfl).2 htc
  rw [hk] at hadmits
  simp only [Construct.admits, Bool.or_eq_true] at hadmits
  have hcode : f.kind.holdsContent = false ∧ f.kind.holdsMath = false := by
    simp only [opensLevel, hc, Bool.not_false, Bool.true_and, Bool.or_eq_true, decide_eq_true_eq]
      at hl
    revert hkind hl
    cases f.kind <;> simp [Construct.isCode, Construct.holdsContent, Construct.holdsMath]
  have habove : ∃ above below, top :: rest = above ++ f :: below ∧
      ∃ b ∈ above, (b.kind = .contentBlock ∨ b.kind = .math) ∧ b.carried = false := by
    rcases hadmits with ht | ht
    · obtain ⟨above, below, heq, b, hb, hbk, hbc⟩ :=
        block_above hstack (by simpa using ht) hf hc hcode.1
      exact ⟨above, below, heq, b, hb, .inl hbk, hbc⟩
    · obtain ⟨above, below, heq, b, hb, hbk, hbc⟩ :=
        math_above hstack (by simpa using ht) hf hc hcode.2
      exact ⟨above, below, heq, b, hb, .inr hbk, hbc⟩
  obtain ⟨above, below, heq, b, hb, hbk, hbc⟩ := habove
  rw [heq] at hp ⊢
  refine ⟨b, List.mem_append_left _ hb, by simp [opensLevel, hbc, hbk], Nat.le_of_lt ?_⟩
  exact (List.pairwise_append.mp hp).2.2 b hb f List.mem_cons_self hc

end Frame

namespace Isolate

open Search

variable {text : Text} {start : List Frame} {es : List Event} {stack : List Frame} {s s' : Search}
  {frame : Frame} {stop : Nat}

theorem Layered.frames_before {frames : List Frame} {level : List Nat} {outer : List (List Nat)}
    {ranges : List Isolate} (h : Layered ranges frames level outer)
    (hp : frames.Pairwise (fun inner outer => outer.start ≤ inner.start)) :
    ∀ f ∈ frames, ∀ i ∈ level, ∀ a, ranges[i]? = some a → f.start < a.first := by
  cases frames with
  | nil => simp
  | cons frame frames =>
    obtain ⟨hle, _⟩ := List.pairwise_cons.mp hp
    have hin := h.inside
    refine List.forall_mem_cons.mpr ⟨hin, fun f hf i hi a ha => ?_⟩
    exact Nat.lt_of_le_of_lt (hle f hf) (hin i hi a ha)

namespace Sound

/-- A frame begins after all that was found, but for the range that a chain goes on with. -/
theorem push (h : Sound text es stack s)
    (hf : frame.isRanged = true → ∀ a ∈ s.ranges, a.last < frame.start)
    (hc : frame.isChain = true → ∀ i ∉ s.level, ∀ a, s.ranges[i]? = some a → a.last < frame.start) :
    Sound text es (frame :: stack) s :=
  ⟨h.formed, h.laminar,
    List.forall_mem_cons.mpr ⟨fun hr a ha => .inl (hf hr a ha), h.frames⟩,
    List.forall_mem_cons.mpr ⟨fun hk i hi a ha => .inl (hc hk i hi a ha), h.chains⟩⟩

/-- The levels matter to chains alone. -/
theorem relevel (h : Sound text es stack s) (hr : s'.ranges = s.ranges)
    (hc : ∀ f ∈ stack, f.isChain = false) : Sound text es stack s' := by
  refine ⟨hr ▸ h.formed, hr ▸ h.laminar, hr ▸ h.frames, fun f hf hk => ?_⟩
  rw [hc f hf] at hk
  cases hk

end Sound

/-- What was found before anything begins. -/
theorem Sound.last_lt (h : Sound text es stack s) (hb : BeginsAfter event es) :
    ∀ a ∈ s.ranges, a.last < event.start :=
  fun a ha => (h.formed a ha).last_lt (fun _ he hd => hb.ended he hd)

theorem see_push (hr : Reported text start (.push frame stop :: es) (frame :: stack))
    (h : Sound text es stack s) (hl : Leveled stack s) :
    Sound text (.push frame stop :: es) (frame :: stack) (s.see (.push frame stop)) ∧
      Leveled (frame :: stack) (s.see (.push frame stop)) := by
  obtain ⟨ht, hs⟩ := hr
  have hnested := hs.nested
  have hchainless := Frame.chainless hnested
  cases ht with
  | push ht new filled ended begins =>
  cases hs with
  | push hs _ _ _ _ _ last _ =>
  have hbefore := h.last_lt begins
  have hm := h.seen (.push frame stop) (fun _ hf => hf)
  have hsee : s.see (.push frame stop) = s.push frame stop := by simp [see, new]
  rw [hsee]
  have hopen (hk : frame.opensLevel = true) : Sound text (.push frame stop :: es) (frame :: stack)
      s.openLevel ∧ Leveled (frame :: stack) s.openLevel := by
    have hk' : frame.isChain = false := by
      simp only [Frame.opensLevel, Bool.and_eq_true, Bool.or_eq_true, decide_eq_true_eq] at hk
      rcases hk.2 with hk | hk <;> simp [Frame.isChain, hk]
    refine ⟨(hm.push (fun _ => hbefore) (by simp [hk'])).relevel rfl
      (List.forall_mem_cons.mpr ⟨hk', hchainless⟩), ?_⟩
    rw [Leveled, List.filter_cons_of_pos hk]
    exact ⟨⟨by simp [openLevel], .nil, by simp [openLevel]⟩, by simp [openLevel],
      fun i _ a ha => hbefore a (List.mem_of_getElem? ha), hl⟩
  have hstay (hk : frame.opensLevel = false) :
      Sound text (.push frame stop :: es) (frame :: stack) s ∧ Leveled (frame :: stack) s := by
    refine ⟨hm.push (fun _ => hbefore) (fun _ i _ a ha => hbefore a (List.mem_of_getElem? ha)), ?_⟩
    rw [Leveled, List.filter_cons_of_neg (by simp [hk])]
    exact hl
  simp only [Search.push]
  split
  · rename_i hk
    exact hopen (by simp [Frame.opensLevel, new, hk])
  · rename_i hk
    exact hopen (by simp [Frame.opensLevel, new, hk])
  · rename_i hk
    have hopens : frame.opensLevel = false := by simp [Frame.opensLevel, hk]
    split
    · exact hstay hopens
    · rename_i place earlier hlevel
      obtain ⟨a, ha, _, hle⟩ := hl.layer.listed place (by simp [hlevel])
      obtain ⟨c, hc, rfl⟩ := candidate_of_range ha
      have hclast := hbefore _ (List.mem_of_getElem? ha)
      have hstart : (Event.push frame stop).start = frame.start := rfl
      have he : Extended s place (c.last + 1) [place] earlier c.first (stop - 1) _ :=
        change_extended (fun range => { range with last := stop - 1 }) hl.layer hlevel hc rfl
          (Nat.le_succ_of_le hle) (Nat.le_refl _)
      have hmet : Met text (.push frame stop :: es) stack s (c.last + 1) (stop - 1) := by
        refine ⟨by omega, (h.formed _ (List.mem_of_getElem? ha)).ends, ?_,
          ⟨_, List.mem_cons_self, rfl, by change stop = _; omega⟩, fun b hb => ?_,
          fun i hi b hb => ?_, fun f hf hk' => ?_, fun f hf hk' => ?_⟩
        · rwa [Nat.sub_add_cancel (by omega)]
        · have := hbefore b hb
          omega
        · have := hl.layer.apart place (by simp [hlevel]) i (fun hip => hi (by simp [hlevel, hip]))
            _ b ha hb
          have := (h.formed b (List.mem_of_getElem? hb)).le
          omega
        · have hp := (Reported.mk ht hs).frames_pairwise
          obtain ⟨b, hb, hbl, hfb⟩ := Frame.level_above hnested hk hp hf hk'
          have hp' : (stack.filter Frame.opensLevel).Pairwise
              (fun inner outer => outer.start ≤ inner.start) := by
            refine (hp.filter _).imp_of_mem (fun _ ho hlt => Nat.le_of_lt (hlt ?_))
            have := (List.mem_filter.mp ho).2
            simp only [Frame.opensLevel, Bool.and_eq_true, Bool.not_eq_true'] at this
            exact this.1
          have := hl.frames_before hp' b (List.mem_filter.mpr ⟨hb, hbl⟩) place (by simp [hlevel])
            _ ha
          change f.start < c.last + 1
          omega
        · rw [hchainless f hf] at hk'
          cases hk'
      obtain ⟨hs', hl'⟩ := hm.extended hl hmet he
      refine ⟨hs'.push (fun hr => by simp [Frame.isRanged, hk] at hr) (fun _ i hi b hb => ?_), ?_⟩
      · rw [he.level] at hi
        rw [he.others i (fun hip => hi (by simp [hip]))] at hb
        exact hbefore b (List.mem_of_getElem? hb)
      · rw [Leveled, List.filter_cons_of_neg (by simp [hopens])]
        exact hl'
  · rename_i hn₁ hn₂ _
    refine hstay ?_
    simp only [Frame.opensLevel, Bool.and_eq_false_iff, Bool.or_eq_false_iff,
      decide_eq_false_iff_not]
    exact .inr ⟨hn₁, hn₂⟩

/-- A level is closed together with the frame that has opened it. -/
theorem Leveled.close (hl : Leveled (frame :: stack) s) (hk : frame.opensLevel = true) :
    Leveled stack s.closeLevel ∧ s.closeLevel.ranges = s.ranges ∧
      ∀ i ∈ s.closeLevel.level, ∀ a, s.ranges[i]? = some a → a.last < frame.start := by
  rw [Leveled, List.filter_cons_of_pos hk] at hl
  obtain ⟨candidates, level, outer⟩ := s
  cases outer with
  | nil => exact hl.elim
  | cons next outer => exact ⟨hl.2.2.2, rfl, hl.2.2.1⟩

theorem close_block (hk : frame.kind = .contentBlock) (hlt : frame.start < stop) :
    s.close frame stop false =
      (s.closeLevel.add .auto (frame.start + 1) (stop - 1 - 1)).codeRange frame.kind frame.start
        (stop - 1) false := by
  have hmax : max (stop - 1) frame.start = stop - 1 := by omega
  have hown : s.closeLevel.ownRange frame.kind frame.start (stop - 1) =
      s.closeLevel.add .auto (frame.start + 1) (stop - 1 - 1) := by
    simp only [ownRange, hk]
    split
    · rw [Search.add, if_neg (by omega)]
    · rfl
  rw [Search.close, hmax]
  simp only [hk, decide_true, Bool.true_or, ↓reduceIte, Bool.false_eq_true] at hown ⊢
  rw [hown]

theorem close_math (hk : frame.kind = .math) (hlt : frame.start < stop) :
    s.close frame stop false =
      (s.closeLevel.add .leftToRight frame.start (stop - 1)).codeRange frame.kind frame.start
        (stop - 1) false := by
  have hmax : max (stop - 1) frame.start = stop - 1 := by omega
  simp [Search.close, hmax, hk, ownRange]

theorem close_reference (hk : frame.kind = .reference) (hlt : frame.start < stop) :
    s.close frame stop false =
      (s.add .auto frame.start (stop - 1)).codeRange frame.kind frame.start (stop - 1) false := by
  have hmax : max (stop - 1) frame.start = stop - 1 := by omega
  simp [Search.close, hmax, hk, ownRange]

theorem close_code (hb : frame.kind ≠ .contentBlock) (hm : frame.kind ≠ .math)
    (hr : frame.kind ≠ .reference) (hlt : frame.start < stop) :
    s.close frame stop false = s.codeRange frame.kind frame.start (stop - 1) false := by
  have hmax : max (stop - 1) frame.start = stop - 1 := by omega
  have hown : s.ownRange frame.kind frame.start (stop - 1) = s := by
    unfold ownRange
    split <;> first | contradiction | rfl
  simp [Search.close, hmax, hb, hm, hown]

/-- What is known where a frame ends. -/
structure Ends (text : Text) (frame : Frame) (stack : List Frame) (stop : Nat) (s : Search) :
    Prop where
  begins : Boundary text frame.start
  ends : Boundary text stop
  filled : frame.start < stop
  ended : ∀ a ∈ s.ranges, a.last < stop
  outside : ∀ f ∈ stack, f.isRanged = true → f.start < frame.start
  chainless : ∀ f ∈ stack, f.isChain = false

namespace Ends

theorem of_reported (hr : Reported text start (.pop frame stop false :: es) stack)
    (h : Sound text es (frame :: stack) s) (hc : frame.carried = false) :
    Ends text frame stack stop s := by
  obtain ⟨ht, hs⟩ := hr
  cases ht with
  | pop ht _ _ ended =>
  cases hs with
  | pop hs last _ =>
  have hr : Reported text start es (frame :: stack) := ⟨ht, hs⟩
  refine ⟨hs.frames_boundary frame List.mem_cons_self, last,
    hr.frames_before ended frame List.mem_cons_self hc,
    fun a ha => (h.formed a ha).last_lt (fun e he _ => ended e he), fun f hf hk => ?_,
    Frame.chainless hs.nested⟩
  refine (List.pairwise_cons.mp hr.frames_pairwise).1 f hf ?_
  simp only [Frame.isRanged, Bool.and_eq_true, Bool.not_eq_true'] at hk
  exact hk.1.1

theorem met (h : Ends text frame stack stop s) (ha : ∀ a ∈ s'.ranges, a.last < stop)
    (ho : ∀ i ∉ s'.level, ∀ a, s'.ranges[i]? = some a →
      a.last < frame.start ∨ frame.start ≤ a.first) :
    Met text (.pop frame stop false :: es) stack s' frame.start (stop - 1) := by
  have hlt := h.filled
  refine ⟨by omega, h.begins, ?_, ⟨_, List.mem_cons_self, rfl, by change stop = _; omega⟩,
    fun a hm => Nat.le_sub_one_of_lt (ha a hm), ho, h.outside, fun f hf hk => ?_⟩
  · rw [Nat.sub_add_cancel (by omega)]
    exact h.ends
  · rw [h.chainless f hf] at hk
    cases hk

/-- All levels around a frame end before it begins. -/
theorem levels_before (h : Ends text frame stack stop s) (hl : Leveled (frame :: stack) s)
    (hk : frame.opensLevel = true) :
    ∀ l ∈ s.closeLevel.level :: s.closeLevel.outer, ∀ i ∈ l, ∀ a,
      s.closeLevel.ranges[i]? = some a → a.last < frame.start := by
  obtain ⟨hl', hranges, hbefore⟩ := hl.close hk
  refine List.forall_mem_cons.mpr ⟨hranges.symm ▸ hbefore, hl'.outer_before (fun f hf => ?_)⟩
  obtain ⟨hf, hfk⟩ := List.mem_filter.mp hf
  exact h.outside f hf (Frame.isRanged_of_opensLevel hfk)

end Ends

theorem add_mem {direction : IsolateDirection} {first last : Nat} {a : Isolate}
    (ha : a ∈ (s.add direction first last).ranges) :
    a ∈ s.ranges ∨ a = ⟨direction, first, last⟩ ∧ first ≤ last := by
  simp only [Search.add] at ha
  split at ha
  · rename_i hle
    simp only [ranges, List.map_append, List.map_cons, List.map_nil, List.mem_append,
      List.mem_singleton] at ha
    exact ha.imp_right (fun ha => ⟨ha, hle⟩)
  · exact .inl ha

/-- The own range of a content block is in it, without the brackets. -/
theorem block_added (hr : Reported text start (.pop frame stop false :: es) stack)
    (h : Sound text es (frame :: stack) s) (hl : Leveled (frame :: stack) s)
    (he : Ends text frame stack stop s) (hc : frame.carried = false)
    (hk : frame.kind = .contentBlock) :
    let s' := s.closeLevel.add .auto (frame.start + 1) (stop - 1 - 1)
    Sound text (.pop frame stop false :: es) stack s' ∧ Leveled stack s' ∧
      Met text (.pop frame stop false :: es) stack s' frame.start (stop - 1) := by
  have hopens : frame.opensLevel = true := by simp [Frame.opensLevel, hc, hk]
  obtain ⟨hl', hranges, _⟩ := hl.close hopens
  have hlevels := he.levels_before hl hopens
  have hseen := h.seen (.pop frame stop false) (fun _ hf => List.mem_cons_of_mem frame hf)
  have hm := hseen.relevel hranges he.chainless
  obtain ⟨ht, hs⟩ := hr
  obtain ⟨m, rfl, hat, hclosed⟩ := hs.pop_block hk
  cases hs with
  | pop hs =>
  have hopened := hs.frames_opened frame List.mem_cons_self hc '[' (by simp [hk, Construct.opening?])
  have hinside : ∀ a ∈ s.closeLevel.ranges, (a.last < frame.start ∨ frame.start < a.first) ∧
      a.last < m := by
    rw [hranges]
    exact fun a ha => ⟨h.frames frame List.mem_cons_self (Frame.isRanged_of_opensLevel hopens) a ha,
      (h.formed a ha).last_lt (fun e he _ => hclosed e he)⟩
  have hformed (hle : frame.start + 1 ≤ m - 1) :
      Formed text (.pop frame (m + 1) false :: es) ⟨.auto, frame.start + 1, m - 1⟩ := by
    refine ⟨hle, hopened.stop, ?_, _, List.mem_cons_self, rfl, ?_, by simp⟩
    · change Boundary text (m - 1 + 1)
      rw [Nat.sub_add_cancel (by omega)]
      exact hat.start
    · change m - 1 < m + 1
      omega
  have hadd := hm.add hl' .auto (frame.start + 1) (m - 1) hformed
    (fun a ha => by have := hinside a ha; omega)
    (fun l hl i hi a ha => Nat.lt_succ_of_lt (hlevels l hl i hi a ha))
    (fun f hf hk => Nat.lt_succ_of_lt (he.outside f hf hk))
    (fun f hf hk => by rw [he.chainless f hf] at hk; cases hk)
  refine ⟨hadd.1, hadd.2, he.met (fun a ha => ?_) (fun i _ a ha => ?_)⟩
  · rcases add_mem ha with ha | ⟨rfl, _⟩
    · exact Nat.lt_succ_of_lt (hinside a ha).2
    · change m - 1 < m + 1
      omega
  · rcases add_mem (List.mem_of_getElem? ha) with ha | ⟨rfl, _⟩
    · exact (hinside a ha).1.imp_right Nat.le_of_lt
    · exact .inr (Nat.le_succ _)

theorem pop_block (hr : Reported text start (.pop frame stop false :: es) stack)
    (h : Sound text es (frame :: stack) s) (hl : Leveled (frame :: stack) s)
    (he : Ends text frame stack stop s) (hc : frame.carried = false)
    (hk : frame.kind = .contentBlock) :
    Sound text (.pop frame stop false :: es) stack (s.close frame stop false) ∧
      Leveled stack (s.close frame stop false) := by
  obtain ⟨hs, hl', hm⟩ := block_added hr h hl he hc hk
  rw [close_block hk he.filled]
  exact hs.codeRange hl' (fun _ => hm)

theorem pop_math (h : Sound text es (frame :: stack) s) (hl : Leveled (frame :: stack) s)
    (he : Ends text frame stack stop s) (hc : frame.carried = false) (hk : frame.kind = .math) :
    Sound text (.pop frame stop false :: es) stack (s.close frame stop false) ∧
      Leveled stack (s.close frame stop false) := by
  have hopens : frame.opensLevel = true := by simp [Frame.opensLevel, hc, hk]
  obtain ⟨hl', hranges, _⟩ := hl.close hopens
  have hfilled := he.filled
  have hseen := h.seen (.pop frame stop false) (fun _ hf => List.mem_cons_of_mem frame hf)
  have hm := hseen.relevel hranges he.chainless
  have hformed (hle : frame.start ≤ stop - 1) :
      Formed text (.pop frame stop false :: es) ⟨.leftToRight, frame.start, stop - 1⟩ := by
    refine ⟨hle, he.begins, ?_, _, List.mem_cons_self, rfl, ?_, fun _ => ?_⟩
    · change Boundary text (stop - 1 + 1)
      rw [Nat.sub_add_cancel (by omega)]
      exact he.ends
    · change stop - 1 < stop
      omega
    · change stop = stop - 1 + 1
      omega
  have hadd := hm.add hl' .leftToRight frame.start (stop - 1) hformed
    (fun a ha => by
      rw [hranges] at ha
      have := h.frames frame List.mem_cons_self (Frame.isRanged_of_opensLevel hopens) a ha
      have := he.ended a ha
      omega)
    (he.levels_before hl hopens) he.outside
    (fun f hf hk => by rw [he.chainless f hf] at hk; cases hk)
  rw [close_math hk hfilled]
  exact hadd.1.codeRange hadd.2 (fun hn => by simp [hk, Construct.isCode] at hn)

theorem pop_code (h : Sound text es (frame :: stack) s) (hl : Leveled (frame :: stack) s)
    (he : Ends text frame stack stop s) (hc : frame.carried = false)
    (hb : frame.kind ≠ .contentBlock) (hm : frame.kind ≠ .math) (hr : frame.kind ≠ .reference) :
    Sound text (.pop frame stop false :: es) stack (s.close frame stop false) ∧
      Leveled stack (s.close frame stop false) := by
  have hmono := h.seen (.pop frame stop false) (fun _ hf => List.mem_cons_of_mem frame hf)
  have hl' : Leveled stack s := by
    rwa [Leveled, List.filter_cons_of_neg (by simp [Frame.opensLevel, hb, hm])] at hl
  rw [close_code hb hm hr he.filled]
  refine hmono.codeRange hl' (fun hk => he.met he.ended (fun i hi a ha => ?_))
  by_cases hchain : frame.kind = .codeChain
  · exact h.chains frame List.mem_cons_self (by simp [Frame.isChain, hc, hchain]) i hi a ha
  · have hranged : frame.isRanged = true := by
      simp only [Frame.isRanged, hc, Bool.and_eq_true, Bool.or_eq_true, decide_eq_true_eq]
      exact ⟨by simp [hchain], .inl hk⟩
    exact (h.frames frame List.mem_cons_self hranged a (List.mem_of_getElem? ha)).imp_right
      Nat.le_of_lt

theorem see_pop (hr : Reported text start (.pop frame stop false :: es) stack)
    (h : Sound text es (frame :: stack) s) (hl : Leveled (frame :: stack) s) :
    Sound text (.pop frame stop false :: es) stack (s.see (.pop frame stop false)) ∧
      Leveled stack (s.see (.pop frame stop false)) := by
  cases hc : frame.carried with
  | true =>
    have hsee : s.see (.pop frame stop false) = s := by simp [see, hc]
    rw [Leveled, List.filter_cons_of_neg (by simp [Frame.opensLevel, hc])] at hl
    rw [hsee]
    exact ⟨h.seen _ (fun _ hf => List.mem_cons_of_mem frame hf), hl⟩
  | false =>
    have hsee : s.see (.pop frame stop false) = s.close frame stop false := by simp [see, hc]
    have he := Ends.of_reported hr h hc
    have hleaf : frame.kind.isLeaf = false := by
      cases hr.story with
      | pop hs => exact hs.frames_hold frame List.mem_cons_self hc
    rw [hsee]
    by_cases hb : frame.kind = .contentBlock
    · exact pop_block hr h hl he hc hb
    · by_cases hm : frame.kind = .math
      · exact pop_math h hl he hc hm
      · refine pop_code h hl he hc hb hm (fun hk => ?_)
        simp [hk, Construct.isLeaf] at hleaf

theorem see_instant (hr : Reported text start (.instant frame stop :: es) stack)
    (h : Sound text es stack s) (hl : Leveled stack s) :
    Sound text (.instant frame stop :: es) stack (s.see (.instant frame stop)) ∧
      Leveled stack (s.see (.instant frame stop)) := by
  obtain ⟨ht, hs⟩ := hr
  cases ht with
  | instant ht filled begins =>
  cases hs with
  | instant hs new leaf first last _ =>
  have hsee : s.see (.instant frame stop) = s.close frame stop false := by simp [see, new]
  have hm := h.seen (.instant frame stop) (fun _ hf => hf)
  have hbefore : ∀ a ∈ s.ranges, a.last < frame.start :=
    h.last_lt (.clear begins : BeginsAfter (.instant frame stop) es)
  have hframes : ∀ f ∈ stack, f.carried = false → f.start < frame.start :=
    (Reported.mk ht hs).frames_before begins
  have hranged : ∀ f ∈ stack, f.isRanged = true → f.start < frame.start := by
    intro f hf hk
    simp only [Frame.isRanged, Bool.and_eq_true, Bool.not_eq_true'] at hk
    exact hframes f hf hk.1.1
  have hchain : ∀ f ∈ stack, f.isChain = true → f.start ≤ frame.start := by
    intro f hf hk
    simp only [Frame.isChain, Bool.and_eq_true, Bool.not_eq_true'] at hk
    exact Nat.le_of_lt (hframes f hf hk.1)
  have hlast : Boundary text (stop - 1 + 1) := by rwa [Nat.sub_add_cancel (by omega)]
  have hmet (hk : frame.kind ≠ .mathDelimiter) :
      Met text (.instant frame stop :: es) stack s frame.start (stop - 1) := by
    refine ⟨by omega, first, hlast, ⟨_, List.mem_cons_self, by simp [Event.isDelimiter, hk], by
      change stop = _; omega⟩, fun a ha => ?_, fun i _ a ha => .inl ?_, hranged,
      fun f hf hk => ⟨hchain f hf hk, fun i _ a ha => ?_⟩⟩
    · have := hbefore a ha
      omega
    · exact hbefore a (List.mem_of_getElem? ha)
    · exact hbefore a (List.mem_of_getElem? ha)
  have hb : frame.kind ≠ .contentBlock := by
    intro hk
    simp [hk, Construct.isLeaf] at leaf
  have hmath : frame.kind ≠ .math := by
    intro hk
    simp [hk, Construct.isLeaf] at leaf
  rw [hsee]
  by_cases hk : frame.kind = .reference
  · have hformed (hle : frame.start ≤ stop - 1) :
        Formed text (.instant frame stop :: es) ⟨.auto, frame.start, stop - 1⟩ := by
      refine ⟨hle, first, hlast, _, List.mem_cons_self, by simp [Event.isDelimiter, hk], ?_, by simp⟩
      change stop - 1 < stop
      omega
    have hadd := hm.add hl .auto frame.start (stop - 1) hformed
      (fun a ha => .inl (hbefore a ha))
      (fun _ _ _ _ a ha => hbefore a (List.mem_of_getElem? ha)) hranged hchain
    rw [close_reference hk filled]
    exact hadd.1.codeRange hadd.2 (fun hn => by simp [hk, Construct.isCode] at hn)
  · rw [close_code hb hmath hk filled]
    refine hm.codeRange hl (fun hc => hmet (fun hd => ?_))
    simp [hd, Construct.isCode] at hc

namespace Search

/-- What is known after some events, the latest of which is the first. -/
def after (es : List Event) : Search :=
  es.foldr (fun e s => s.see e) {}

end Search

/-- Whatever is reported of a text, the ranges that are found in it are sound. -/
theorem sound_of_reported (h : Reported text start es stack) :
    Sound text es stack (Search.after es) ∧ Leveled stack (Search.after es) := by
  obtain ⟨ht, hs⟩ := h
  induction hs with
  | nil hc =>
    have hfilter : start.filter Frame.opensLevel = [] := by
      refine List.filter_eq_nil_iff.mpr (fun f hf => ?_)
      simp [Frame.opensLevel, (hc f hf).1]
    refine ⟨⟨by simp [Search.after, ranges], by simp [Search.after, ranges],
      by simp [Search.after, ranges], by simp [Search.after, ranges]⟩, ?_⟩
    rw [Leveled, hfilter]
    exact ⟨by simp [Search.after], .nil, by simp [Search.after]⟩
  | push hs new holds nests admits first last opened ih =>
    have hr : Reported text start _ _ := ⟨ht, .push hs new holds nests admits first last opened⟩
    cases ht with
    | push ht =>
      obtain ⟨h, hl⟩ := ih ht
      exact see_push hr h hl
  | pop hs last closed ih =>
    have hr : Reported text start _ _ := ⟨ht, .pop hs last closed⟩
    cases ht with
    | pop ht =>
      obtain ⟨h, hl⟩ := ih ht
      exact see_pop hr h hl
  | instant hs new leaf first last mark ih =>
    have hr : Reported text start _ _ := ⟨ht, .instant hs new leaf first last mark⟩
    cases ht with
    | instant ht =>
      obtain ⟨h, hl⟩ := ih ht
      exact see_instant hr h hl
  | loose hs placed ih =>
    cases ht with
    | loose ht =>
      obtain ⟨h, hl⟩ := ih ht
      exact ⟨h.seen _ (fun _ hf => hf), hl⟩

end Isolate

end LineMarkup

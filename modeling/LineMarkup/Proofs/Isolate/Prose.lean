import Mathlib
import LineMarkup.Proofs.Isolate.Laminar

namespace LineMarkup

/-- No event ends within a loose token. -/
theorem Trace.token_whole (h : Trace limit start es stack) (ht : .loose token holder ∈ es)
    (he : e ∈ es) : e.stop ≤ token.start ∨ token.stop ≤ e.stop := by
  obtain ⟨later, earlier, rfl⟩ := List.append_of_mem ht
  rcases List.mem_append.mp he with hm | hm
  · exact .inr ((List.pairwise_append.mp h.stops).2.2 e hm _ List.mem_cons_self)
  · rcases List.mem_cons.mp hm with rfl | hm
    · exact .inr (Nat.le_refl _)
    · cases h.beginsAfter rfl with
      | clear hb => exact .inl (hb e hm)

theorem Reported.earlier (h : Reported text start (later ++ es) stack) :
    ∃ stack', Reported text start es stack' := by
  obtain ⟨ht, hs⟩ := h
  induction later generalizing stack with
  | nil => exact ⟨stack, ht, hs⟩
  | cons e later ih =>
    cases ht with
    | push ht =>
      cases hs with
      | push hs => exact ih ht hs
    | pop ht =>
      cases hs with
      | pop hs => exact ih ht hs
    | instant ht =>
      cases hs with
      | instant hs => exact ih ht hs
    | loose ht =>
      cases hs with
      | loose hs => exact ih ht hs

/-- What was opened has ended or is open. -/
theorem Story.ended_or_open (h : Story text start es stack) (hp : .push frame first ∈ es) :
    (∃ stop, .pop frame stop false ∈ es) ∨ frame ∈ stack := by
  have hmore {e : Event} {es : List Event} (h : ∃ stop, .pop frame stop false ∈ es) :
      ∃ stop, .pop frame stop false ∈ e :: es :=
    h.imp fun _ => List.mem_cons_of_mem e
  induction h with
  | nil => cases hp
  | push _ _ _ _ _ _ _ _ ih =>
    rcases List.mem_cons.mp hp with heq | hp
    · obtain ⟨rfl, rfl⟩ := Event.push.inj heq
      exact .inr List.mem_cons_self
    · exact (ih hp).imp hmore (List.mem_cons_of_mem _)
  | pop _ _ _ ih =>
    rcases List.mem_cons.mp hp with heq | hp
    · cases heq
    · rcases ih hp with hended | hopen
      · exact .inl (hmore hended)
      · rcases List.mem_cons.mp hopen with rfl | hopen
        · exact .inl ⟨_, List.mem_cons_self⟩
        · exact .inr hopen
  | instant _ _ _ _ _ _ ih | loose _ _ ih =>
    rcases List.mem_cons.mp hp with heq | hp
    · cases heq
    · exact (ih hp).imp_left hmore

namespace Isolate

open Search

variable {text : Text} {start : List Frame} {es es' : List Event} {stack : List Frame}
  {s s' : Search} {frame : Frame} {token : Token} {e : Event} {a : Isolate} {kind : Construct}
  {first first' last stop stop' pos place x : Nat} {taken rest : List Nat}

/-- A chain lets the latest code range of the level, which begins at `first` or later, reach over a
token that stands before the chain. -/
def Search.Skips (s : Search) (frame : Frame) (first : Nat) (token : Token) : Prop :=
  frame.kind = .codeChain ∧ ∃ place ∈ s.level.head?, ∃ range ∈ s.candidates[place]?,
    first ≤ range.first ∧ range.last < token.start ∧ token.stop ≤ frame.start

/-- A token of prose. -/
def Prose (es : List Event) (token : Token) : Prop :=
  token.start < token.stop ∧ ∃ holder, .loose token holder ∈ es ∧ holder.kind.holdsContent = true

/-- A token in a content block that begins at `first` or later and has ended by `stop`. -/
def Sheltered (es : List Event) (first stop : Nat) (token : Token) : Prop :=
  ∃ block stop', .pop block stop' false ∈ es ∧ block.kind = .contentBlock ∧
    block.carried = false ∧ first ≤ block.start ∧ stop' ≤ stop ∧ block.start < token.start ∧
    token.stop < stop'

/-- A content block that begins at `first` or later is open. -/
def Enclosed (es : List Event) (first : Nat) : Prop :=
  ∃ block stop, .push block stop ∈ es ∧ block.kind = .contentBlock ∧ block.carried = false ∧
    first ≤ block.start ∧ ∀ stop implicit, .pop block stop implicit ∉ es

/-- A token that a chain has skipped whose point comes before `stop`. -/
def Skipped (es : List Event) (first stop : Nat) (token : Token) : Prop :=
  ∃ later frame stop' earlier, es = later ++ .push frame stop' :: earlier ∧ stop' ≤ stop ∧
    (Search.after earlier).Skips frame first token

theorem Sheltered.mono (h : Sheltered es first stop token) (he : ∀ e ∈ es, e ∈ es')
    (hf : first' ≤ first) (hs : stop ≤ stop') : Sheltered es' first' stop' token := by
  obtain ⟨block, _, hm, hk, hc, hb, he', hrest⟩ := h
  exact ⟨block, _, he _ hm, hk, hc, Nat.le_trans hf hb, Nat.le_trans he' hs, hrest⟩

theorem Skipped.cons (h : Skipped es first stop token) (e : Event) (hf : first' ≤ first)
    (hs : stop ≤ stop') : Skipped (e :: es) first' stop' token := by
  obtain ⟨later, frame, _, earlier, rfl, hstop, hk, place, hplace, range, hrange, hle, hskips⟩ := h
  exact ⟨e :: later, frame, _, earlier, rfl, Nat.le_trans hstop hs, hk, place, hplace, range,
    hrange, Nat.le_trans hf hle, hskips⟩

/-- Only loose tokens are prose. -/
theorem Prose.of_cons (h : Prose (e :: es) token) (he : ∀ t f, e ≠ .loose t f) :
    Prose es token := by
  obtain ⟨hn, holder, hm, hk⟩ := h
  rcases List.mem_cons.mp hm with heq | hm
  · exact absurd heq.symm (he _ _)
  · exact ⟨hn, holder, hm, hk⟩

theorem Prose.stop_le (h : Prose es token) (he : ∀ e ∈ es, e.isDelimiter = false → e.stop ≤ pos) :
    token.stop ≤ pos := by
  obtain ⟨_, holder, hm, _⟩ := h
  exact he _ hm rfl

/-- Prose inside of open code or math is in a content block there, which has ended or is open. -/
theorem Prose.in_block (h : Prose es token) (hr : Reported text start es stack)
    (hf : frame ∈ stack) (hc : frame.carried = false)
    (hk : frame.kind.holdsContent = false ∨ frame.kind = .contentBlock)
    (hle : frame.start ≤ token.start) :
    (∃ stop, Sheltered es frame.start stop token) ∨
      ∃ block ∈ stack, block.kind = .contentBlock ∧ block.carried = false ∧
        frame.start ≤ block.start ∧ block.start < token.start := by
  obtain ⟨ht, hs⟩ := hr
  have hmono {e : Event} {es : List Event} (h : ∃ stop, Sheltered es frame.start stop token) :
      ∃ stop, Sheltered (e :: es) frame.start stop token := by
    obtain ⟨stop, h⟩ := h
    exact ⟨stop, h.mono (fun _ he => List.mem_cons_of_mem _ he) (Nat.le_refl _) (Nat.le_refl _)⟩
  induction hs with
  | nil hn =>
    rw [(hn frame hf).1] at hc
    cases hc
  | push _ _ _ _ _ _ _ _ ih =>
    have hp := h.of_cons (by simp)
    cases ht with
    | push ht _ _ _ hb =>
      rcases List.mem_cons.mp hf with rfl | hf
      · -- Nothing has come after the beginning of a new frame.
        have hstop : token.stop ≤ frame.start := hp.stop_le (fun _ he hd => hb.ended he hd)
        have := hp.1
        omega
      · rcases ih hp hf ht with hs | ⟨block, hm, hrest⟩
        · exact .inl (hmono hs)
        · exact .inr ⟨block, List.mem_cons_of_mem _ hm, hrest⟩
  | pop hs last closed ih =>
    have hp := h.of_cons (by simp)
    cases ht with
    | pop ht =>
      rcases ih hp (List.mem_cons_of_mem _ hf) ht with hs | ⟨block, hm, hbk, hbc, hbf, hbt⟩
      · exact .inl (hmono hs)
      · rcases List.mem_cons.mp hm with rfl | hm
        · obtain ⟨m, rfl, _, hend⟩ := (Story.pop hs last closed).pop_block hbk
          have hstop := hp.stop_le (fun e he _ => hend e he)
          exact .inl ⟨m + 1, block, m + 1, List.mem_cons_self, hbk, hbc, hbf, Nat.le_refl _, hbt,
            Nat.lt_succ_of_le hstop⟩
        · exact .inr ⟨block, hm, hbk, hbc, hbf, hbt⟩
  | instant _ _ _ _ _ _ ih =>
    have hp := h.of_cons (by simp)
    cases ht with
    | instant ht => exact (ih hp hf ht).imp_left hmono
  | @loose es holder stack token' hs placed ih =>
    cases ht with
    | loose ht hb =>
      obtain ⟨hn, holder', hm, hholder⟩ := h
      rcases List.mem_cons.mp hm with heq | hm
      · obtain ⟨rfl, rfl⟩ := Event.loose.inj heq
        have hr : Reported text start es (holder' :: stack) := ⟨ht, hs⟩
        have hbefore := hr.frames_before hb
        by_cases hkb : frame.kind = .contentBlock
        · exact .inr ⟨frame, hf, hkb, hc, Nat.le_refl _, hbefore frame hf hc⟩
        · obtain ⟨above, below, heq', block, hblock, hbk, hbc⟩ := Frame.block_above hs.nested
            (by simpa using hholder) hf hc (hk.resolve_right hkb)
          have hp := hr.frames_pairwise
          rw [heq'] at hp hbefore ⊢
          have hlt := (List.pairwise_append.mp hp).2.2 block hblock frame List.mem_cons_self hc
          exact .inr ⟨block, List.mem_append_left _ hblock, hbk, hbc, Nat.le_of_lt hlt,
            hbefore block (List.mem_append_left _ hblock) hbc⟩
      · exact (ih ⟨hn, holder', hm, hholder⟩ hf ht).imp_left hmono

/-- Where code or math ends, all prose in it is in content blocks that have ended. -/
theorem Prose.sheltered (h : Prose es token)
    (hr : Reported text start (.pop frame stop false :: es) stack) (hc : frame.carried = false)
    (hk : frame.kind.holdsContent = false ∨ frame.kind = .contentBlock)
    (hle : frame.start ≤ token.start) :
    Sheltered (.pop frame stop false :: es) frame.start stop token := by
  obtain ⟨ht, hs⟩ := hr
  cases ht with
  | pop ht _ _ ended =>
  cases hs with
  | pop hs last closed =>
  have hr : Reported text start es (frame :: stack) := ⟨ht, hs⟩
  rcases h.in_block hr List.mem_cons_self hc hk hle with
    ⟨_, block, stop', hm, hbk, hbc, hbf, _, hin⟩ |
    ⟨block, hm, hbk, hbc, hbf, hbt⟩
  · exact ⟨block, stop', List.mem_cons_of_mem _ hm, hbk, hbc, hbf, ended _ hm, hin⟩
  · rcases List.mem_cons.mp hm with rfl | hm
    · obtain ⟨m, rfl, _, hend⟩ := (Story.pop hs last closed).pop_block hbk
      have hstop := h.stop_le (fun e he _ => hend e he)
      exact ⟨block, m + 1, List.mem_cons_self, hbk, hbc, Nat.le_refl _, Nat.le_refl _, hbt,
        Nat.lt_succ_of_le hstop⟩
    · have := (List.pairwise_cons.mp hr.frames_pairwise).1 block hm hbc
      omega

/-- The ranges of code and math that are new reach to `last`, and before `first` they cover nothing
but what such ranges have covered. -/
def Gains (s s' : Search) (first last : Nat) : Prop :=
  ∀ a ∈ s'.ranges, a.direction = .leftToRight → a ∈ s.ranges ∨
    (a.last = last ∧ a.first ≤ first ∧ ∀ pos, a.first ≤ pos → pos < first →
      ∃ r ∈ s.ranges, r.direction = .leftToRight ∧ a.first ≤ r.first ∧ r.first ≤ pos ∧ pos ≤ r.last)

namespace Gains

theorem same (hr : s'.ranges = s.ranges) : Gains s s' first last :=
  fun _ ha _ => .inl (hr ▸ ha)

/-- What was there to cover may have been there before. -/
theorem of_old {s₁ : Search} (h : Gains s₁ s' first last)
    (hs : ∀ r ∈ s₁.ranges, r.direction = .leftToRight → r ∈ s.ranges) : Gains s s' first last := by
  intro a ha hd
  rcases h a ha hd with ha | ⟨hlast, hfirst, hcovers⟩
  · exact .inl (hs a ha hd)
  · refine .inr ⟨hlast, hfirst, fun pos hx hpos => ?_⟩
    obtain ⟨r, hr, hrd, hin⟩ := hcovers pos hx hpos
    exact ⟨r, hs r hr hrd, hrd, hin⟩

theorem extended (he : Extended s place first taken rest x last s')
    (hl : Layer s.ranges s.level) : Gains s s' first last := by
  intro a ha _
  rcases (he.replaced hl).mem ha with rfl | ha
  · refine .inr ⟨rfl, he.le, fun pos hx hpos => ?_⟩
    obtain ⟨i, hi, r, hr, hin⟩ := he.covered pos hx hpos
    obtain ⟨r', hr', hd, _⟩ := hl.listed i (he.split ▸ List.mem_append_left _ hi)
    rw [hr] at hr'
    obtain rfl := Option.some.inj hr'
    exact ⟨r, List.mem_of_getElem? hr, hd, he.within i hi r hr, hin⟩
  · exact .inl ha

theorem codeRange (hl : Layer s.ranges s.level)
    (hm : kind.isCode = true ∨ kind = .contentBlock → ∀ a ∈ s.ranges, a.last ≤ last) :
    Gains s (s.codeRange kind first last false) first last := by
  simp only [Search.codeRange]
  split
  · rename_i hk
    have hm := hm (by simpa using hk)
    rcases extend_cases kind hl (fun i _ a ha => hm a (List.mem_of_getElem? ha)) with
      ⟨_, heq⟩ | ⟨place, s', taken, rest, x, heq, he⟩
    · rw [heq]
      exact .same rfl
    · rw [heq]
      have hg := extended he hl
      dsimp only
      split
      · rwa [Gains, drop_ranges]
      · exact hg
  · exact .same rfl

end Gains

theorem add_auto (ha : a ∈ (s.add .auto first last).ranges) (hd : a.direction = .leftToRight) :
    a ∈ s.ranges := by
  rcases add_mem ha with ha | ⟨rfl, _⟩
  · exact ha
  · cases hd

theorem pop_gains (hr : Reported text start (.pop frame stop false :: es) stack)
    (h : Sound text es (frame :: stack) s) (hl : Leveled (frame :: stack) s) :
    Gains s (s.see (.pop frame stop false)) frame.start (stop - 1) := by
  cases hc : frame.carried with
  | true => exact .same (by simp [see, hc])
  | false =>
    have hsee : s.see (.pop frame stop false) = s.close frame stop false := by simp [see, hc]
    have he := Ends.of_reported hr h hc
    have hleaf : frame.kind.isLeaf = false := by
      cases hr.story with
      | pop hs => exact hs.frames_hold frame List.mem_cons_self hc
    have hall : ∀ a ∈ s.ranges, a.last ≤ stop - 1 :=
      fun a ha => Nat.le_sub_one_of_lt (he.ended a ha)
    rw [hsee]
    by_cases hb : frame.kind = .contentBlock
    · obtain ⟨hs, hl', hm⟩ := block_added hr h hl he hc hb
      rw [close_block hb he.filled]
      refine (Gains.codeRange hl'.layer (fun _ => hm.all)).of_old (fun r hr hd => ?_)
      exact (hl.close (by simp [Frame.opensLevel, hc, hb])).2.1 ▸ add_auto hr hd
    · by_cases hm : frame.kind = .math
      · have hcode (s : Search) : s.codeRange frame.kind frame.start (stop - 1) false = s := by
          simp [Search.codeRange, hm, Construct.isCode]
        rw [close_math hm he.filled, hcode]
        intro a ha _
        rcases add_mem ha with ha | ⟨rfl, _⟩
        · exact .inl ((hl.close (by simp [Frame.opensLevel, hc, hm])).2.1 ▸ ha)
        · exact .inr ⟨rfl, Nat.le_refl _, fun pos hx hpos => by
            change frame.start ≤ pos at hx
            omega⟩
      · rw [close_code hb hm (fun hk => by simp [hk, Construct.isLeaf] at hleaf) he.filled]
        exact Gains.codeRange hl.layer (fun _ => hall)

theorem instant_gains (hr : Reported text start (.instant frame stop :: es) stack)
    (h : Sound text es stack s) (hl : Leveled stack s) :
    Gains s (s.see (.instant frame stop)) frame.start (stop - 1) := by
  obtain ⟨ht, hs⟩ := hr
  cases ht with
  | instant _ filled begins =>
  cases hs with
  | instant _ new leaf =>
  have hsee : s.see (.instant frame stop) = s.close frame stop false := by simp [see, new]
  have hall : ∀ a ∈ s.ranges, a.last ≤ stop - 1 := by
    intro a ha
    have := h.last_lt (.clear begins : BeginsAfter (.instant frame stop) es) a ha
    change a.last < frame.start at this
    omega
  rw [hsee]
  by_cases hk : frame.kind = .reference
  · have hcode (s : Search) : s.codeRange frame.kind frame.start (stop - 1) false = s := by
      simp [Search.codeRange, hk, Construct.isCode]
    rw [close_reference hk filled, hcode]
    exact fun a ha hd => .inl (add_auto ha hd)
  · rw [close_code (fun hb => by simp [hb, Construct.isLeaf] at leaf)
      (fun hm => by simp [hm, Construct.isLeaf] at leaf) hk filled]
    exact Gains.codeRange hl.layer (fun _ => hall)

/-- Prose within a range of code or math is in a content block there, or a chain in the range has
skipped it. -/
def Guarded (es : List Event) (s : Search) : Prop :=
  ∀ a ∈ s.ranges, a.direction = .leftToRight → ∀ token, Prose es token →
    a.first ≤ token.start → token.stop ≤ a.last + 1 →
    Sheltered es a.first (a.last + 1) token ∨ Skipped es a.first (a.last + 1) token

theorem Guarded.gains (h : Guarded es s) (hs : Sound text es stack s)
    (ht : Trace limit start es stack) (hg : Gains s s' first last)
    (he : ∀ t f, e ≠ .loose t f) (hall : ∀ r ∈ s.ranges, r.last ≤ last)
    (hown : ∀ a ∈ s'.ranges, a.first ≤ first → a.last = last → ∀ token, Prose es token →
      first ≤ token.start → token.stop ≤ last + 1 → Sheltered (e :: es) first (last + 1) token ∨
        Skipped (e :: es) a.first (last + 1) token) :
    Guarded (e :: es) s' := by
  intro a ha hd token hp hfirst hlast
  have hmem : ∀ e' ∈ es, e' ∈ e :: es := fun _ => List.mem_cons_of_mem e
  have hp := hp.of_cons he
  rcases hg a ha hd with ha | ⟨hlast', hle, hcovers⟩
  · exact (h a ha hd token hp hfirst hlast).imp
      (fun hsh => hsh.mono hmem (Nat.le_refl _) (Nat.le_refl _))
      (fun hsk => hsk.cons e (Nat.le_refl _) (Nat.le_refl _))
  · rw [hlast'] at hlast ⊢
    by_cases hlt : token.start < first
    · obtain ⟨r, hr, hrd, hrf, hrs, hre⟩ := hcovers token.start hfirst hlt
      obtain ⟨e', he', _, _, hstop⟩ := (hs.formed r hr).event
      have hend := hstop hrd
      obtain ⟨_, holder, hm, _⟩ := id hp
      have hwhole := ht.token_whole hm he'
      have hrl := hall r hr
      exact (h r hr hrd token hp hrs (by omega)).imp
        (fun hsh => hsh.mono hmem hrf (by omega)) (fun hsk => hsk.cons e hrf (by omega))
    · exact (hown a ha hle hlast' token hp (by omega) hlast).imp_left
        (fun hsh => hsh.mono (fun _ he => he) hle (Nat.le_refl _))

theorem Guarded.same (h : Guarded es s) (hr : s'.ranges = s.ranges)
    (he : ∀ t f, e ≠ .loose t f) : Guarded (e :: es) s' := by
  intro a ha hd token hp hfirst hlast
  exact (h a (hr ▸ ha) hd token (hp.of_cons he) hfirst hlast).imp
    (fun hsh => hsh.mono (fun _ => List.mem_cons_of_mem e) (Nat.le_refl _) (Nat.le_refl _))
    (fun hsk => hsk.cons e (Nat.le_refl _) (Nat.le_refl _))

/-- Only a chain changes a range when it begins. -/
theorem push_cases (hr : Reported text start (.push frame stop :: es) (frame :: stack)) :
    ((Search.after es).see (.push frame stop)).ranges = (Search.after es).ranges ∨
      frame.kind = .codeChain ∧ ∃ place earlier c, (Search.after es).level = place :: earlier ∧
        (Search.after es).candidates[place]? = some c ∧
        Extended (Search.after es) place (c.last + 1) [place] earlier c.first (stop - 1)
          ((Search.after es).see (.push frame stop)) := by
  obtain ⟨ht, hs⟩ := hr
  cases ht with
  | push ht _ filled _ begins =>
  cases hs with
  | push hs new =>
  obtain ⟨hsound, hl⟩ := sound_of_reported ⟨ht, hs⟩
  by_cases hk : frame.kind = .codeChain
  · cases hlevel : (Search.after es).level with
    | nil => exact .inl (by simp [see, new, Search.push, hk, hlevel])
    | cons place earlier =>
      obtain ⟨a, ha, _, hle⟩ := hl.layer.listed place (by simp [hlevel])
      obtain ⟨c, hc, rfl⟩ := candidate_of_range ha
      refine .inr ⟨hk, place, earlier, c, rfl, hc, ?_⟩
      have hsee : (Search.after es).see (.push frame stop) =
          (Search.after es).change place (fun range => { range with last := stop - 1 }) := by
        simp [see, new, Search.push, hk, hlevel]
      rw [hsee]
      exact change_extended (fun range => { range with last := stop - 1 }) hl.layer hlevel hc rfl
        (Nat.le_succ_of_le hle) (Nat.le_refl _)
  · refine .inl ?_
    simp only [see, new, Bool.false_eq_true, ↓reduceIte, Search.push]
    split <;> first | contradiction | rfl

theorem guarded_push (hr : Reported text start (.push frame stop :: es) (frame :: stack))
    (hg : Guarded es (Search.after es)) :
    Guarded (.push frame stop :: es) ((Search.after es).see (.push frame stop)) := by
  rcases push_cases hr with hsame | ⟨hk, place, earlier, c, hlevel, hc, he⟩
  · exact hg.same hsame (by simp)
  obtain ⟨ht, hs⟩ := hr
  cases ht with
  | push ht _ filled _ begins =>
  cases hs with
  | push hs =>
  obtain ⟨hsound, hl⟩ := sound_of_reported ⟨ht, hs⟩
  have hall : ∀ r ∈ (Search.after es).ranges, r.last < stop - 1 := by
    intro r hm
    have : r.last < frame.start := hsound.last_lt begins r hm
    omega
  refine hg.gains hsound ht (.extended he hl.layer) (by simp)
    (fun r hm => Nat.le_of_lt (hall r hm)) (fun a ha _ hlast token hp hf _ => .inr ?_)
  rcases (he.replaced hl.layer).mem ha with rfl | ha
  · exact ⟨[], frame, stop, es, rfl, by omega, hk, place, by simp [hlevel], c, hc,
      Nat.le_refl _, hf, hp.stop_le (fun _ he hd => begins.ended he hd)⟩
  · exact absurd hlast (Nat.ne_of_lt (hall a ha))

theorem guarded_pop (hr : Reported text start (.pop frame stop false :: es) stack)
    (hg : Guarded es (Search.after es)) :
    Guarded (.pop frame stop false :: es) ((Search.after es).see (.pop frame stop false)) := by
  obtain ⟨ht, hs⟩ := id hr
  cases ht with
  | pop ht =>
  cases hs with
  | pop hs =>
  obtain ⟨hsound, hl⟩ := sound_of_reported ⟨ht, hs⟩
  cases hc : frame.carried with
  | true => exact hg.same (by simp [see, hc]) (by simp)
  | false =>
    have he := Ends.of_reported hr hsound hc
    have hfilled := he.filled
    by_cases hk : frame.kind.holdsContent = false ∨ frame.kind = .contentBlock
    · refine hg.gains hsound ht (pop_gains hr hsound hl) (by simp)
        (fun r hm => Nat.le_sub_one_of_lt (he.ended r hm)) (fun _ _ _ _ token hp hf _ => .inl ?_)
      rw [Nat.sub_add_cancel (by omega)]
      exact hp.sheltered hr hc hk hf
    · -- Headings and the like have no range.
      refine hg.same ?_ (by simp)
      have hmax : max (stop - 1) frame.start = stop - 1 := by omega
      revert hk
      cases hkind : frame.kind <;>
        simp [Construct.holdsContent, see, hc, Search.close, hkind, ownRange, Search.codeRange,
          Construct.isCode]

theorem guarded_instant (hr : Reported text start (.instant frame stop :: es) stack)
    (hg : Guarded es (Search.after es)) :
    Guarded (.instant frame stop :: es) ((Search.after es).see (.instant frame stop)) := by
  obtain ⟨ht, hs⟩ := id hr
  cases ht with
  | instant ht filled begins =>
  cases hs with
  | instant hs =>
  obtain ⟨hsound, hl⟩ := sound_of_reported ⟨ht, hs⟩
  have hb : BeginsAfter (.instant frame stop) es := .clear begins
  refine hg.gains hsound ht (instant_gains hr hsound hl) (by simp) (fun r hm => ?_)
    (fun _ _ _ _ token hp hf _ => ?_)
  · have : r.last < frame.start := hsound.last_lt hb r hm
    omega
  · have hstop : token.stop ≤ frame.start := hp.stop_le (fun _ he hd => hb.ended he hd)
    have := hp.1
    omega

theorem guarded_of_reported (h : Reported text start es stack) :
    Guarded es (Search.after es) := by
  obtain ⟨ht, hs⟩ := h
  induction hs with
  | nil => simp [Guarded, Search.after, ranges]
  | push hs new holds nests admits first last opened ih =>
    have hr : Reported text start _ _ := ⟨ht, .push hs new holds nests admits first last opened⟩
    cases ht with
    | push ht => exact guarded_push hr (ih ht)
  | pop hs last closed ih =>
    have hr : Reported text start _ _ := ⟨ht, .pop hs last closed⟩
    cases ht with
    | pop ht => exact guarded_pop hr (ih ht)
  | instant hs new leaf first last mark ih =>
    have hr : Reported text start _ _ := ⟨ht, .instant hs new leaf first last mark⟩
    cases ht with
    | instant ht => exact guarded_instant hr (ih ht)
  | loose hs placed ih =>
    cases ht with
    | loose ht begins =>
      obtain ⟨hsound, _⟩ := sound_of_reported ⟨ht, hs⟩
      intro a ha hd token hp hfirst hlast
      obtain ⟨hn, holder', hm, hk⟩ := hp
      rcases List.mem_cons.mp hm with heq | hm
      · obtain ⟨rfl, rfl⟩ := Event.loose.inj heq
        have : a.last < token.start := (hsound.formed a ha).last_lt (fun e he _ => begins e he)
        omega
      · exact (ih ht a ha hd token ⟨hn, holder', hm, hk⟩ hfirst hlast).imp
          (fun hsh => hsh.mono (fun _ he => List.mem_cons_of_mem _ he) (Nat.le_refl _)
            (Nat.le_refl _))
          (fun hsk => hsk.cons _ (Nat.le_refl _) (Nat.le_refl _))

/-- A range that is new reaches to the end of the event. -/
theorem see_ranges (hr : Reported text start (e :: es) stack)
    (ha : a ∈ ((Search.after es).see e).ranges) (hd : a.direction = .leftToRight) :
    a ∈ (Search.after es).ranges ∨ a.last + 1 = e.stop := by
  have hgained {first : Nat}
      (hg : Gains (Search.after es) ((Search.after es).see e) first (e.stop - 1))
      (hpos : 0 < e.stop) : a ∈ (Search.after es).ranges ∨ a.last + 1 = e.stop := by
    rcases hg a ha hd with ha | ⟨hlast, _⟩
    · exact .inl ha
    · rw [hlast, Nat.sub_add_cancel hpos]
      exact .inr rfl
  obtain ⟨ht, hs⟩ := id hr
  cases hs with
  | push =>
    rcases push_cases hr with hsame | ⟨_, _, _, _, _, _, he⟩
    · exact .inl (hsame ▸ ha)
    · cases ht with
      | push ht _ filled =>
      cases hr.story with
      | push hs =>
      obtain ⟨_, hl⟩ := sound_of_reported ⟨ht, hs⟩
      exact hgained (.extended he hl.layer) (Nat.zero_lt_of_lt filled)
  | @pop es frame stack stop hs =>
    cases ht with
    | pop ht =>
    obtain ⟨hsound, hl⟩ := sound_of_reported ⟨ht, hs⟩
    cases hc : frame.carried with
    | true =>
      simp only [see, hc, ↓reduceIte] at ha
      exact .inl ha
    | false =>
      have he := Ends.of_reported hr hsound hc
      exact hgained (pop_gains hr hsound hl) (Nat.zero_lt_of_lt he.filled)
  | instant hs =>
    cases ht with
    | instant ht filled =>
    obtain ⟨hsound, hl⟩ := sound_of_reported ⟨ht, hs⟩
    exact hgained (instant_gains hr hsound hl) (Nat.zero_lt_of_lt filled)
  | loose => exact .inl ha

/-- A range that begins before a content block and does not end before it reaches over it. -/
theorem reaches_over (hr : Reported text start es stack) (hp : .pop frame stop false ∈ es)
    (hk : frame.kind = .contentBlock) (hc : frame.carried = false)
    (ha : a ∈ (Search.after es).ranges) (hd : a.direction = .leftToRight)
    (hfirst : a.first ≤ frame.start) (hlast : frame.start ≤ a.last) : stop ≤ a.last + 1 := by
  induction es generalizing stack with
  | nil => cases hp
  | cons e es ih =>
    obtain ⟨_, hearlier⟩ : ∃ stack', Reported text start es stack' :=
      (List.singleton_append ▸ hr : Reported text start ([e] ++ es) stack).earlier
    rcases see_ranges hr ha hd with hold | hend
    · rcases List.mem_cons.mp hp with rfl | hp
      · -- While the block was open, no range began before it and ended in it.
        obtain ⟨ht, hs⟩ := hr
        cases ht with
        | pop ht =>
        cases hs with
        | pop hs =>
        have hopen := (sound_of_reported ⟨ht, hs⟩).1.frames frame List.mem_cons_self
          (by simp [Frame.isRanged, hk, hc]) a hold
        omega
      · exact ih hearlier hp hold
    · have hstops := hr.trace.stops
      rcases List.mem_cons.mp hp with rfl | hp
      · exact Nat.le_of_eq hend.symm
      · rw [hend]
        exact (List.pairwise_cons.mp hstops).1 _ hp

/-- Where a content block of the range is open around a chain, it has what the chain skips. -/
theorem Enclosed.sheltered
    (hr : Reported text start (later ++ .push frame stop :: earlier) stack)
    (h : Enclosed earlier a.first)
    (ha : a ∈ (Search.after (later ++ .push frame stop :: earlier)).ranges)
    (hd : a.direction = .leftToRight) (hlast : stop ≤ a.last + 1)
    (hs : (Search.after earlier).Skips frame a.first token) (hn : token.start < token.stop) :
    Sheltered (later ++ .push frame stop :: earlier) a.first (a.last + 1) token := by
  obtain ⟨block, opened, hpush, hk, hc, hfirst, hnone⟩ := h
  obtain ⟨_, place, hplace, c, hrange, _, hskips, hstop⟩ := hs
  obtain ⟨_, ht, hstory⟩ := hr.earlier
  cases ht with
  | push ht _ filled _ begins =>
  cases hstory with
  | push hstory =>
  obtain ⟨hsound, hl⟩ := sound_of_reported ⟨ht, hstory⟩
  have hopen := (hstory.ended_or_open hpush).resolve_left fun hended => by
    obtain ⟨stop, hpop⟩ := hended
    exact hnone stop false hpop
  have hblock : block.start < token.start := by
    have hc := range_of_candidate hrange
    have hbefore : block.start < c.first := by
      refine Layered.frames_before hl (ht.frames_nested.filter _) block
        (List.mem_filter.mpr ⟨hopen, ?_⟩) place (List.mem_of_mem_head? hplace) _ hc
      simp [Frame.opensLevel, *]
    have hle : c.first ≤ c.last := (hsound.formed _ (List.mem_of_getElem? hc)).le
    omega
  rcases hr.story.ended_or_open (List.mem_append_right _ (List.mem_cons_of_mem _ hpush)) with
    ⟨stop', hpop⟩ | hopen
  · have hreaches := reaches_over hr hpop hk hc ha hd hfirst (by omega)
    have hstop' : stop ≤ stop' := by
      have hlater : .pop block stop' false ∈ later := by
        rcases List.mem_append.mp hpop with hpop | hpop
        · exact hpop
        · rcases List.mem_cons.mp hpop with heq | hpop
          · cases heq
          · exact absurd hpop (hnone stop' false)
      exact (List.pairwise_append.mp hr.trace.stops).2.2 _ hlater _ List.mem_cons_self
    exact ⟨block, stop', hpop, hk, hc, hfirst, hreaches, hblock, by omega⟩
  · have hapart := (sound_of_reported hr).1.frames block hopen (by simp [Frame.isRanged, hk, hc]) a
      ha
    omega

end Isolate

namespace Parse

open Isolate

/-- Prose that lies in an isolate of code or math is in a content block of it, unless a chain of the
isolate has skipped it that neither stands behind such a block nor in one. -/
theorem isolate_shelters_prose {text : Text} {carried : List Construct} {isolate : Isolate}
    {token : Token} {holder : Frame}
    (hi : isolate ∈ ofEvents ((ofText text carried).report true))
    (hd : isolate.direction = .leftToRight)
    (hm : .loose token holder ∈ (ofText text carried).events)
    (hk : holder.kind.holdsContent = true) (hn : token.start < token.stop)
    (hfirst : isolate.first ≤ token.start) (hlast : token.stop ≤ isolate.last + 1)
    (hs : ∀ before frame stop after,
      (ofText text carried).events = before ++ .push frame stop :: after → stop ≤ isolate.last + 1 →
        (before.foldl Search.see {}).Skips frame isolate.first token →
          Sheltered before isolate.first frame.start token ∨ Enclosed before isolate.first) :
    ∃ block stop, .pop block stop false ∈ (ofText text carried).events ∧
      block.kind = .contentBlock ∧ block.carried = false ∧ isolate.first ≤ block.start ∧
      stop ≤ isolate.last + 1 ∧ block.start < token.start ∧ token.stop < stop := by
  obtain ⟨stack, hr, _, hreport⟩ := reported text carried
  have hsub := ofEvents_sublist (ofText text carried).events stack text.size
  rw [← hreport] at hsub
  have hrange := (hsub.trans (List.filter_sublist.map _)).subset hi
  have hprose : Prose (ofText text carried).events.reverse token :=
    ⟨hn, holder, List.mem_reverse.mpr hm, hk⟩
  have hsheltered : Sheltered (ofText text carried).events.reverse isolate.first
      (isolate.last + 1) token := by
    rcases guarded_of_reported hr isolate hrange hd token hprose hfirst hlast with
      hsheltered | ⟨later, frame, stop, earlier, heq, hstop, hskips⟩
    · exact hsheltered
    · have hevents : (ofText text carried).events =
          earlier.reverse ++ .push frame stop :: later.reverse := by
        rw [← List.reverse_reverse (ofText text carried).events, heq]
        simp
      have hchain := hs earlier.reverse frame stop later.reverse hevents hstop
        (by rwa [Search.after, ← List.foldl_reverse] at hskips)
      rw [heq] at hr hrange ⊢
      obtain ⟨_, ht, _⟩ := hr.earlier
      have hfilled : frame.start < stop := by
        cases ht with
        | push _ _ filled => exact filled
      rcases hchain with hended | hopen
      · refine hended.mono (fun e he => ?_) (Nat.le_refl _) (by omega)
        exact List.mem_append_right _ (List.mem_cons_of_mem _ (List.mem_reverse.mp he))
      · refine Enclosed.sheltered hr ?_ hrange hd hstop hskips hn
        simpa [Enclosed] using hopen
  obtain ⟨block, stop, hpop, hrest⟩ := hsheltered
  exact ⟨block, stop, List.mem_reverse.mp hpop, hrest⟩

/-- A chain behind a content block that stands for itself. -/
theorem ofText_chain : ofText "#a b #[x].y".toList [] = {
    events := [.loose ⟨.begin, 0, [], true⟩ .root, .instant ⟨.codeVariable, 0, false⟩ 2,
      .loose ⟨.whitespace, 2, [' '], false⟩ .root, .loose ⟨.word, 3, ['b'], false⟩ .root,
      .loose ⟨.whitespace, 4, [' '], false⟩ .root, .push ⟨.contentBlock, 6, false⟩ 7,
      .loose ⟨.word, 7, ['x'], false⟩ ⟨.contentBlock, 6, false⟩,
      .pop ⟨.contentBlock, 6, false⟩ 9 false, .push ⟨.codeChain, 9, false⟩ 10,
      .instant ⟨.codeVariable, 10, false⟩ 11, .pop ⟨.codeChain, 9, false⟩ 11 false,
      .loose ⟨.textEnd, 11, [], false⟩ .root]
    ended := []
    unclosed := [.root]
    stop := 11 } := by cbv

/-- The chain of a content block skips the block, but its prose is in the block. -/
theorem isolate_shelters_block :
    (⟨.leftToRight, 0, 10⟩ : Isolate) ∈ ofEvents ((ofText "#a b #[x].y".toList []).report true) ∧
      ∃ block stop, .pop block stop false ∈ (ofText "#a b #[x].y".toList []).events ∧
        block.kind = .contentBlock ∧ block.carried = false ∧ 0 ≤ block.start ∧ stop ≤ 11 ∧
        block.start < 7 ∧ 8 < stop := by
  have hi : (⟨.leftToRight, 0, 10⟩ : Isolate) ∈
      ofEvents ((ofText "#a b #[x].y".toList []).report true) := by
    rw [ofText_chain]
    decide
  have hm : .loose ⟨.word, 7, ['x'], false⟩ ⟨.contentBlock, 6, false⟩ ∈
      (ofText "#a b #[x].y".toList []).events := by
    rw [ofText_chain]
    decide
  refine ⟨hi, isolate_shelters_prose hi rfl hm rfl (by decide) (by decide) (by decide) ?_⟩
  intro before frame stop after heq _ hskips
  have hpush : Event.push frame stop ∈ (ofText "#a b #[x].y".toList []).events :=
    heq ▸ List.mem_append_right _ List.mem_cons_self
  have hblock : Event.pop ⟨.contentBlock, 6, false⟩ 9 false ∈
      (ofText "#a b #[x].y".toList []).events := by
    rw [ofText_chain]
    decide
  have hstops : (ofText "#a b #[x].y".toList []).events.Pairwise
      (fun earlier later => earlier.stop ≤ later.stop) := by
    rw [ofText_chain]
    decide
  have hchain : frame.start = 9 ∧ stop = 10 := by
    simp only [ofText_chain, List.mem_cons, reduceCtorEq, Event.push.injEq, List.not_mem_nil,
      or_false, false_or] at hpush
    rcases hpush with ⟨rfl, _⟩ | ⟨rfl, rfl⟩
    · cases hskips.1
    · exact ⟨rfl, rfl⟩
  rw [heq] at hblock hstops
  obtain ⟨_, hlater, _⟩ := List.pairwise_append.mp hstops
  -- The block has ended before the chain.
  have hbefore : Event.pop ⟨.contentBlock, 6, false⟩ 9 false ∈ before := by
    rcases List.mem_append.mp hblock with hbefore | hafter
    · exact hbefore
    · rcases List.mem_cons.mp hafter with heq | hafter
      · cases heq
      · have hstop : stop ≤ 9 := (List.pairwise_cons.mp hlater).1 _ hafter
        omega
  exact .inl ⟨⟨.contentBlock, 6, false⟩, 9, hbefore, rfl, rfl, by decide, by omega, by decide,
    by decide⟩

/-- Prose may be skipped: a chain after a content block that stands for itself reaches back to code
before the prose. -/
theorem chain_skips_prose :
    ∃ isolate token holder,
      isolate ∈ ofEvents ((ofText "#a b #[x].y".toList []).report true) ∧
      isolate.direction = .leftToRight ∧
      .loose token holder ∈ (ofText "#a b #[x].y".toList []).events ∧
      holder.kind.holdsContent = true ∧ token.start < token.stop ∧
      isolate.first ≤ token.start ∧ token.stop ≤ isolate.last + 1 ∧
      ¬∃ block stop implicit,
        .pop block stop implicit ∈ (ofText "#a b #[x].y".toList []).report true ∧
        block.kind = .contentBlock ∧ isolate.first ≤ block.start ∧ stop ≤ isolate.last + 1 ∧
        block.start < token.start ∧ token.stop < stop := by
  rw [ofText_chain]
  refine ⟨⟨.leftToRight, 0, 10⟩, ⟨.word, 3, ['b'], false⟩, .root, by decide, rfl, by decide, rfl,
    by decide, by decide, by decide, ?_⟩
  rintro ⟨block, stop, implicit, hpop, hkind, hin⟩
  simp only [report, ↓reduceIte, List.nil_append, List.map_cons, List.map_nil, List.mem_append,
    List.mem_cons, reduceCtorEq, Event.pop.injEq, List.not_mem_nil, or_false, false_or] at hpop
  rcases hpop with (⟨rfl, _⟩ | ⟨rfl, _⟩) | ⟨rfl, _⟩
  · exact absurd hin.2.2.1 (by decide)
  · cases hkind
  · cases hkind

end Parse

end LineMarkup

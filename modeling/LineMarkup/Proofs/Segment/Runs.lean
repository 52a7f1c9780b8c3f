import Mathlib.Data.List.Pairwise
import LineMarkup.Proofs.Marker.Prose
import LineMarkup.Proofs.Parser.Course

namespace LineMarkup

open Text (Boundary)

namespace Segment

variable {tokens : List Token} {token : Token} {segment : Segment} {segments : List Segment}
  {events : List Event} {pos first stop : Nat}

/-- A token either stands alone before the segments or makes the first of them longer. -/
theorem prepend_cases (token : Token) (segments : List Segment) :
    (prepend token segments = { start := token.start, stop := token.stop } :: segments ∧
      ∀ next ∈ segments.head?, next.start ≠ token.stop) ∨
    ∃ next rest, segments = next :: rest ∧ next.start = token.stop ∧
      prepend token segments = { start := token.start, stop := next.stop } :: rest := by
  cases segments with
  | nil => exact .inl ⟨rfl, nofun⟩
  | cons next rest =>
    by_cases htouch : next.start = token.stop
    · exact .inr ⟨next, rest, rfl, htouch, by simp [prepend, htouch]⟩
    · refine .inl ⟨by simp [prepend, htouch], fun first hf => ?_⟩
      obtain rfl : next = first := by simpa using hf
      exact htouch

theorem filled (h : ∀ t ∈ tokens, t.start < t.stop) :
    ∀ s ∈ tokens.foldr prepend [], s.start < s.stop := by
  induction tokens with
  | nil => simp
  | cons token tokens ih =>
    obtain ⟨htoken, htokens⟩ := List.forall_mem_cons.mp h
    have hrest := ih htokens
    rw [List.foldr_cons]
    rcases prepend_cases token (tokens.foldr prepend []) with
      ⟨heq, _⟩ | ⟨next, rest, hs, htouch, heq⟩
    · rw [heq]
      exact List.forall_mem_cons.mpr ⟨htoken, hrest⟩
    · rw [hs] at hrest
      obtain ⟨hnext, hlater⟩ := List.forall_mem_cons.mp hrest
      rw [heq]
      refine List.forall_mem_cons.mpr ⟨?_, hlater⟩
      change token.start < next.stop
      omega

/-- A segment starts and stops with tokens. -/
theorem exists_ends (h : segment ∈ tokens.foldr prepend []) :
    (∃ t ∈ tokens, t.start = segment.start) ∧ ∃ t ∈ tokens, t.stop = segment.stop := by
  induction tokens generalizing segment with
  | nil => cases h
  | cons token tokens ih =>
    have hlater {s : Segment} (hs : s ∈ tokens.foldr prepend []) :
        (∃ t ∈ token :: tokens, t.start = s.start) ∧ ∃ t ∈ token :: tokens, t.stop = s.stop := by
      obtain ⟨⟨t, ht, hfirst⟩, t', ht', hlast⟩ := ih hs
      exact ⟨⟨t, List.mem_cons_of_mem _ ht, hfirst⟩, t', List.mem_cons_of_mem _ ht', hlast⟩
    rw [List.foldr_cons] at h
    rcases prepend_cases token (tokens.foldr prepend []) with
      ⟨heq, _⟩ | ⟨next, rest, hs, _, heq⟩ <;> rw [heq] at h
    · rcases List.mem_cons.mp h with rfl | h
      · exact ⟨⟨token, List.mem_cons_self, rfl⟩, token, List.mem_cons_self, rfl⟩
      · exact hlater h
    · rcases List.mem_cons.mp h with rfl | h
      · have hnext := hlater (hs ▸ List.mem_cons_self : next ∈ tokens.foldr prepend [])
        exact ⟨⟨token, List.mem_cons_self, rfl⟩, hnext.2⟩
      · exact hlater (hs ▸ List.mem_cons_of_mem _ h)

/-- Segments of tokens in text order have gaps between them. -/
theorem gaps (ho : tokens.Pairwise (fun a b => a.stop ≤ b.start))
    (hf : ∀ t ∈ tokens, t.start < t.stop) :
    (tokens.foldr prepend []).Pairwise (fun a b => a.stop < b.start) := by
  induction tokens with
  | nil => exact .nil
  | cons token tokens ih =>
    obtain ⟨hafter, horder⟩ := List.pairwise_cons.mp ho
    obtain ⟨_, htokens⟩ := List.forall_mem_cons.mp hf
    have hrest := ih horder htokens
    have hfilled := filled htokens
    have hle : ∀ s ∈ tokens.foldr prepend [], token.stop ≤ s.start := by
      intro s hs
      obtain ⟨⟨t, ht, hstart⟩, _⟩ := exists_ends hs
      exact hstart ▸ hafter t ht
    rw [List.foldr_cons]
    rcases prepend_cases token (tokens.foldr prepend []) with
      ⟨heq, hgap⟩ | ⟨next, rest, hs, _, heq⟩ <;> rw [heq]
    · refine .cons (fun s hs => ?_) hrest
      change token.stop < s.start
      generalize tokens.foldr prepend [] = segments at hrest hfilled hle hgap hs
      cases segments with
      | nil => cases hs
      | cons next rest =>
        have hnext := hle next List.mem_cons_self
        have hne := hgap next rfl
        rcases List.mem_cons.mp hs with rfl | hs
        · omega
        · have hlong := hfilled next List.mem_cons_self
          have hlater := List.rel_of_pairwise_cons hrest hs
          omega
    · rw [hs] at hrest
      exact .cons (fun s hs => List.rel_of_pairwise_cons hrest hs) hrest.tail

/-- Each token is in one segment. -/
theorem exists_segment (hf : ∀ t ∈ tokens, t.start < t.stop) (ht : token ∈ tokens) :
    ∃ s ∈ tokens.foldr prepend [], s.start ≤ token.start ∧ token.stop ≤ s.stop := by
  induction tokens with
  | nil => cases ht
  | cons first tokens ih =>
    obtain ⟨hfirst, htokens⟩ := List.forall_mem_cons.mp hf
    have hfilled := filled htokens
    rw [List.foldr_cons]
    rcases prepend_cases first (tokens.foldr prepend []) with
      ⟨heq, _⟩ | ⟨next, rest, hs, htouch, heq⟩ <;> rw [heq]
    · rcases List.mem_cons.mp ht with rfl | ht
      · exact ⟨_, List.mem_cons_self, Nat.le_refl _, Nat.le_refl _⟩
      · obtain ⟨s, hs, hin⟩ := ih htokens ht
        exact ⟨s, List.mem_cons_of_mem _ hs, hin⟩
    · rw [hs] at hfilled ih
      have hnext := hfilled next List.mem_cons_self
      rcases List.mem_cons.mp ht with rfl | ht
      · refine ⟨_, List.mem_cons_self, Nat.le_refl _, ?_⟩
        change token.stop ≤ next.stop
        omega
      · obtain ⟨s, hs, hlow, hhigh⟩ := ih htokens ht
        rcases List.mem_cons.mp hs with rfl | hs
        · refine ⟨_, List.mem_cons_self, ?_, hhigh⟩
          change first.start ≤ token.start
          omega
        · exact ⟨s, List.mem_cons_of_mem _ hs, hlow, hhigh⟩

/-- One segment stops before the other starts, with a gap between them. -/
def Apart (a b : Segment) : Prop :=
  a.stop < b.start ∨ b.stop < a.start

instance : Std.Symm Apart := ⟨fun _ _ => Or.symm⟩

/-- With gaps between the segments, a run of covered positions is in one of them. -/
theorem run_within (h : segments.Pairwise (fun a b => a.stop < b.start)) (hlt : first < stop)
    (hrun : ∀ pos, first ≤ pos → pos < stop → ∃ s ∈ segments, s.start ≤ pos ∧ pos < s.stop) :
    ∃ s ∈ segments, s.start ≤ first ∧ stop ≤ s.stop := by
  obtain ⟨s, hs, hlow, hhigh⟩ := hrun first (Nat.le_refl _) hlt
  refine ⟨s, hs, hlow, Nat.not_lt.mp (fun hshort => ?_)⟩
  -- The position just after the segment would be in another one, without a gap.
  obtain ⟨s', hs', hlow', hhigh'⟩ := hrun s.stop (Nat.le_of_lt hhigh) hshort
  have hne : s ≠ s' := by
    rintro rfl
    omega
  have hapart : Apart s s' := (h.imp .inl : segments.Pairwise Apart).forall hs hs' hne
  simp only [Apart] at hapart
  omega

/-- A byte of a loose token that was seen where prose may stand. -/
def ProseAt (events : List Event) (pos : Nat) : Prop :=
  ∃ token frame, .loose token frame ∈ events ∧ frame.kind.holdsContent = true ∧
    token.isSentinel = false ∧ token.start ≤ pos ∧ pos < token.stop

theorem prose_eq_some {e : Event} : prose? e = some token ↔
    ∃ frame, e = .loose token frame ∧ frame.kind.holdsContent = true ∧
      token.isSentinel = false := by
  cases e with
  | push | pop | instant => simp [prose?]
  | loose t frame =>
    simp only [prose?, Option.ite_none_right_eq_some, Bool.and_eq_true, Bool.not_eq_true',
      Option.some.injEq, Event.loose.injEq]
    constructor
    · rintro ⟨⟨hholds, hkind⟩, rfl⟩
      exact ⟨frame, ⟨rfl, rfl⟩, hholds, hkind⟩
    · rintro ⟨_, ⟨rfl, rfl⟩, hholds, hkind⟩
      exact ⟨⟨hholds, hkind⟩, rfl⟩

theorem mem_prose : token ∈ events.filterMap prose? ↔
    ∃ frame, .loose token frame ∈ events ∧ frame.kind.holdsContent = true ∧
      token.isSentinel = false := by
  simp only [List.mem_filterMap, prose_eq_some]
  constructor
  · rintro ⟨_, hm, frame, rfl, hkind⟩
    exact ⟨frame, hm, hkind⟩
  · rintro ⟨frame, hm, hkind⟩
    exact ⟨_, hm, frame, rfl, hkind⟩

end Segment

/-- Loose tokens are in text order. -/
theorem Trace.prose_ordered (h : Trace limit start es stack) :
    (es.filterMap Segment.prose?).Pairwise (fun later earlier => earlier.stop ≤ later.start) := by
  have hbegins : es.Pairwise (fun later earlier =>
      ∀ token frame, later = .loose token frame → earlier.stop ≤ token.start) := by
    induction h with
    | nil => exact .nil
    | push _ _ _ _ _ ih | pop _ _ _ _ ih | instant _ _ _ ih =>
      exact .cons (fun _ _ _ _ heq => by cases heq) ih
    | loose _ hb ih =>
      refine .cons (fun e he _ _ heq => ?_) ih
      obtain ⟨rfl, _⟩ := Event.loose.inj heq
      exact hb e he
  refine List.pairwise_filterMap.mpr (hbegins.imp fun hb token ht token' ht' => ?_)
  obtain ⟨frame, hlater, _⟩ := Segment.prose_eq_some.mp ht
  obtain ⟨frame', rfl, _⟩ := Segment.prose_eq_some.mp ht'
  exact hb token frame hlater

namespace Parse

/-- Only the tokens at both ends of a text are empty. -/
theorem loose_filled {text : Text} {carried : List Construct}
    (h : .loose token frame ∈ (ofText text carried).events) (hk : token.isSentinel = false) :
    token.start < token.stop := by
  obtain ⟨_, takings, _, _, _, _, _, hall, hloose⟩ := Parser.rounds_take_all text carried
  have hmem : token ∈ takings.filterMap Taking.loose? :=
    hloose ▸ List.mem_filterMap.mpr ⟨_, h, rfl⟩
  obtain ⟨taking, ht, htoken⟩ := List.mem_filterMap.mp hmem
  have htaken : token ∈ takings.flatMap Taking.tokens := by
    refine List.mem_flatMap.mpr ⟨taking, ht, ?_⟩
    cases taking with
    | matched => cases htoken
    | loose t =>
      obtain rfl := Option.some.inj htoken
      exact List.mem_singleton_self _
  have hscan : token.unmarked ∈ Token.scan 0 text := by
    rw [← Token.tokenize_filter, ← hall]
    exact List.mem_filter.mpr ⟨List.mem_map_of_mem htaken, by rw [Bool.not_eq_true']; exact hk⟩
  exact Nat.lt_add_of_pos_right (Token.scan_genuine hscan).size

/-- The segments of a text are not empty, lie in it between characters and have gaps between them.
They cover the bytes of the loose tokens of prose, and no others, so that each run of such bytes is
in one segment. -/
theorem segments_runs (text : Text) (carried : List Construct) :
    let events := (ofText text carried).report true
    let segments := Segment.ofEvents events
    (∀ s ∈ segments, s.start < s.stop ∧ s.stop ≤ text.size ∧ Boundary text s.start ∧
      Boundary text s.stop) ∧
    segments.Pairwise (fun a b => a.stop < b.start) ∧
    (∀ pos, (∃ s ∈ segments, s.start ≤ pos ∧ pos < s.stop) ↔ Segment.ProseAt events pos) ∧
    (∀ first stop, first < stop →
      (∀ pos, first ≤ pos → pos < stop → Segment.ProseAt events pos) →
      ∃ s ∈ segments, s.start ≤ first ∧ stop ≤ s.stop) := by
  intro events segments
  let tokens := events.filterMap Segment.prose?
  obtain ⟨stack, hr, hended, hreport⟩ := reported text carried
  obtain ⟨htrace, hstops⟩ := report_trace text carried true
  have hordered : tokens.Pairwise (fun a b => a.stop ≤ b.start) := by
    have := htrace.prose_ordered
    rw [List.filterMap_reverse] at this
    exact List.pairwise_reverse.mp this
  have hmem : ∀ t ∈ tokens, ∃ frame, .loose t frame ∈ (ofText text carried).events ∧
      t.isSentinel = false := by
    intro t ht
    obtain ⟨frame, hm, _, hkind⟩ := Segment.mem_prose.mp ht
    have hm : .loose t frame ∈ (ofText text carried).report true := hm
    rw [hreport] at hm
    refine ⟨frame, (List.mem_append.mp hm).resolve_right (fun hm => ?_), hkind⟩
    obtain ⟨_, _, heq⟩ := List.mem_map.mp hm
    cases heq
  have hfilled : ∀ t ∈ tokens, t.start < t.stop := by
    intro t ht
    obtain ⟨frame, hm, hkind⟩ := hmem t ht
    exact loose_filled hm hkind
  have hplaced : ∀ t ∈ tokens, Boundary text t.start ∧ Boundary text t.stop ∧
      t.stop ≤ text.size := by
    intro t ht
    obtain ⟨frame, hm, _⟩ := hmem t ht
    obtain ⟨hstart, hstop⟩ := hr.story.boundaries _ (List.mem_reverse.mpr hm)
    exact ⟨hstart, hstop, hended _ (List.mem_reverse.mpr hm)⟩
  have hgaps := Segment.gaps hordered hfilled
  have hcovers : ∀ pos, (∃ s ∈ segments, s.start ≤ pos ∧ pos < s.stop) ↔
      Segment.ProseAt events pos := by
    intro pos
    constructor
    · rintro ⟨s, hs, hlow, hhigh⟩
      obtain ⟨t, ht, hin⟩ := Segment.exists_token hs hlow hhigh
      obtain ⟨frame, hm, hholds, hkind⟩ := Segment.mem_prose.mp ht
      exact ⟨t, frame, hm, hholds, hkind, hin⟩
    · rintro ⟨t, frame, hm, hholds, hkind, hlow, hhigh⟩
      obtain ⟨s, hs, hstart, hstop⟩ :=
        Segment.exists_segment hfilled (Segment.mem_prose.mpr ⟨frame, hm, hholds, hkind⟩)
      exact ⟨s, hs, Nat.le_trans hstart hlow, Nat.lt_of_lt_of_le hhigh hstop⟩
  refine ⟨fun s hs => ?_, hgaps, hcovers, fun first stop hlt hrun => ?_⟩
  · obtain ⟨⟨t, ht, hstart⟩, t', ht', hstop⟩ := Segment.exists_ends hs
    obtain ⟨hfirst, _, _⟩ := hplaced t ht
    obtain ⟨_, hlast, hle⟩ := hplaced t' ht'
    rw [hstart] at hfirst
    rw [hstop] at hlast hle
    exact ⟨Segment.filled hfilled s hs, hle, hfirst, hlast⟩
  · exact Segment.run_within hgaps hlt
      (fun pos hlow hhigh => (hcovers pos).mpr (hrun pos hlow hhigh))

end Parse

end LineMarkup

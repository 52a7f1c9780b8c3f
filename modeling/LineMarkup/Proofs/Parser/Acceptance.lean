import LineMarkup.Parser.State
import LineMarkup.Proofs.Matcher.Cursor
import LineMarkup.Proofs.Parser.Grammar

namespace LineMarkup

open Matcher (Found Missed solid notBegin notEnd)
open Token (Tiles tiles_nil tiles_append tiles_discard)
open Token.Stream

namespace Mark

/-- The tokens that count for the range are a part at the end, which does not begin with a discarded
token unless it is all. -/
theorem cover_split (mark : Mark) (hn : tokens ≠ []) :
    ∃ skipped first rest last, tokens = skipped ++ first :: rest ∧
      (first :: rest).getLast? = some last ∧ (first.discarded = false ∨ skipped = []) ∧
      (mark.cover tokens).start = first.start ∧
      (mark.cover tokens).stop = max last.stop first.start := by
  cases hs : tokens.dropWhile Token.discarded with
  | nil =>
    obtain ⟨first, rest, rfl⟩ := List.exists_cons_of_ne_nil hn
    have hl := List.getLast?_eq_some_getLast hn
    exact ⟨[], first, rest, _, rfl, hl, .inr rfl, by simp [cover, hs, hl], by simp [cover, hs, hl]⟩
  | cons first rest =>
    have hl := List.getLast?_eq_some_getLast (List.cons_ne_nil first rest)
    have hd : first.discarded = false := by
      have := List.head_dropWhile_not Token.discarded (l := tokens) (by simp [hs])
      simpa [hs] using this
    refine ⟨tokens.takeWhile Token.discarded, first, rest, _, ?_, hl, .inl hd, ?_, ?_⟩
    · rw [← hs, List.takeWhile_append_dropWhile]
    · simp [cover, hs, hl]
    · simp [cover, hs, hl]

theorem tiles_getLast {tokens : List Token} (h : Tiles pos tokens limit)
    (hl : tokens.getLast? = some last) : last.stop = limit := by
  obtain ⟨front, rfl⟩ := List.getLast?_eq_some_iff.mp hl
  obtain ⟨_, _, _, hs⟩ := tiles_append.mp h
  exact hs

theorem cover_range (mark : Mark) (h : Tiles pos tokens limit) (hn : tokens ≠ []) :
    pos ≤ (mark.cover tokens).start ∧ (mark.cover tokens).start ≤ (mark.cover tokens).stop ∧
      (mark.cover tokens).stop = limit := by
  obtain ⟨skipped, first, rest, last, rfl, hl, _, hs, he⟩ := mark.cover_split hn
  obtain ⟨middle, hb, ha⟩ := tiles_append.mp h
  have hstop := tiles_getLast ha hl
  have hle := hb.le
  obtain ⟨rfl, ha⟩ := ha
  have := ha.le
  have := first.start_le_stop
  rw [hs, he, hstop]
  omega

theorem cover_filled (mark : Mark) (h : Tiles pos tokens limit)
    (hf : ∀ t ∈ tokens, t.discarded = false → 0 < t.size) (hlt : pos < limit) :
    (mark.cover tokens).start < (mark.cover tokens).stop := by
  have hn : tokens ≠ [] := by
    rintro rfl
    exact absurd (tiles_nil.mp h) (Nat.ne_of_lt hlt)
  rw [(cover_range mark h hn).2.2]
  obtain ⟨skipped, first, rest, last, rfl, hl, hd, hs, _⟩ := mark.cover_split hn
  rw [hs]
  obtain ⟨middle, hb, rfl, ha⟩ := tiles_append.mp h
  rcases hd with hd | rfl
  · have := hf first (by simp) hd
    have := ha.le
    have : first.stop = first.start + first.size := rfl
    omega
  · have : pos = first.start := hb
    omega

end Mark

namespace Parser

/-- The parser `p'` is `p` after the match of a pattern, which has taken `lead` and `rest`. -/
structure Accepted (m : Matcher) (limit pos pos' : Nat) (p p' : Parser)
    (lead rest : List Token) : Prop where
  found : ∃ s, Found m p.stream s lead rest ∧
    p' = { p with stream := s.release, mark := p.mark.cover (lead.map Token.discard ++ rest) }
  tiles : Tiles pos (lead ++ rest) pos'
  poised : Poised limit pos' p'.stream
  clean : lead ++ rest ≠ [] → Clean p'.stream
  run : ∃ s, m.run p.stream = (true, s) ∧ p'.stream = s.release ∧
    s.taken = lead.map Token.discard ++ rest

namespace Accepted

theorem kept (h : Accepted m limit pos pos' p p' lead rest) :
    p'.events = p.events ∧ p'.stack = p.stack ∧ p'.atContentStart = p.atContentStart := by
  obtain ⟨s, _, rfl⟩ := h.found
  exact ⟨rfl, rfl, rfl⟩

theorem mark_eq (h : Accepted m limit pos pos' p p' lead rest) :
    p'.mark = p.mark.cover (lead.map Token.discard ++ rest) := by
  obtain ⟨s, _, rfl⟩ := h.found
  rfl

theorem tiles_shown (h : Accepted m limit pos pos' p p' lead rest) :
    Tiles pos (lead.map Token.discard ++ rest) pos' := by
  obtain ⟨middle, hl, hr⟩ := tiles_append.mp h.tiles
  exact tiles_append.mpr ⟨middle, tiles_discard.mpr hl, hr⟩

theorem le (h : Accepted m limit pos pos' p p' lead rest) : pos ≤ pos' :=
  h.tiles.le

/-- A match that takes something moves the mark beyond all that was taken before. -/
theorem moved (h : Accepted m limit pos pos' p p' lead rest) (hn : lead ++ rest ≠ []) :
    pos ≤ p'.mark.start ∧ p'.mark.start ≤ p'.mark.stop ∧ p'.mark.stop = pos' := by
  rw [h.mark_eq]
  apply Mark.cover_range _ h.tiles_shown
  simpa using hn

/-- A match that takes nothing leaves all as it was. -/
theorem still (h : Accepted m limit pos pos' p p' lead rest) (hn : lead ++ rest = []) :
    p'.mark = p.mark ∧ pos' = pos ∧ ∃ n,
      ahead p'.stream = ahead p.stream ++ List.replicate n (Token.ending p.stream.stop) := by
  have htiles := h.tiles
  rw [hn] at htiles
  obtain ⟨rfl, rfl⟩ := List.append_eq_nil_iff.mp hn
  obtain ⟨s, hf, rfl⟩ := h.found
  exact ⟨rfl, htiles.symm, hf.all⟩

theorem filled (h : Accepted m limit pos pos' p p' lead rest)
    (hp : Poised limit pos p.stream) :
    ∀ t ∈ lead ++ rest, solid t.kind = true → 0 < t.size := by
  obtain ⟨s, hf, _⟩ := h.found
  obtain ⟨n, hall⟩ := hf.all
  exact fun t ht => (hp.more hall).2.1 t (List.mem_append_left _ ht)

theorem firm (h : Accepted m limit pos pos' p p' lead rest) (hp : Poised limit pos p.stream)
    (hm : m.firm = true) : p'.mark.start < p'.mark.stop ∧ lead ++ rest ≠ [] := by
  simp only [Matcher.firm, Bool.and_eq_true] at hm
  obtain ⟨s, hf, _⟩ := h.found
  obtain ⟨t, ht, hk⟩ := hf.takes solid hm.2
  have hfill := h.filled hp
  refine ⟨?_, fun hn => by simp_all⟩
  rw [h.mark_eq]
  apply Mark.cover_filled _ h.tiles_shown
  · intro t ht hd
    rcases List.mem_append.mp ht with ht | ht
    · obtain ⟨t', _, rfl⟩ := List.mem_map.mp ht
      cases hd
    · exact hfill t (List.mem_append_right _ ht) (hf.kinds solid hm.1 t ht)
  · have hl := List.mem_append_right lead ht
    exact h.tiles.lt hl (hfill t hl hk)

theorem moves (h : Accepted m limit pos pos' p p' lead rest) (hp : Poised limit pos p.stream)
    (hm : m.moves = true) :
    lead ++ rest ≠ [] ∧ (0 < pos' ∨ limit = 0) ∧ left p'.stream < left p.stream := by
  simp only [Matcher.moves, Bool.and_eq_true] at hm
  obtain ⟨s, hf, hp'⟩ := h.found
  obtain ⟨t, ht, hk⟩ := hf.takes notBegin hm.1
  obtain ⟨t', ht', hk'⟩ := hf.takes notEnd hm.2
  have hl := List.mem_append_right lead ht
  refine ⟨List.ne_nil_of_mem hl, ?_, ?_⟩
  · by_cases hs : solid t.kind = true
    · have := h.tiles.lt hl (h.filled hp t hl hs)
      omega
    · have hend : t.kind = .textEnd := by
        revert hk hs
        cases t.kind <;> simp [notBegin, solid]
      obtain ⟨n, hall⟩ := hf.all
      have := end_position (hf.ends hp.ends) (hp.more hall).1 (List.mem_append_left _ hl) hend
      have := (h.tiles.bounds hl).2
      omega
  · have hc := left_found hf
    have : 0 < (lead ++ rest).countP (fun t => notEnd t.kind) :=
      List.countP_pos_iff.mpr ⟨t', List.mem_append_right _ ht', hk'⟩
    have hs : left p'.stream = left s := by rw [hp']; rfl
    omega

theorem left_le (h : Accepted m limit pos pos' p p' lead rest) :
    left p'.stream ≤ left p.stream := by
  obtain ⟨s, hf, rfl⟩ := h.found
  have hc := left_found hf
  change left s ≤ _
  omega

end Accepted

/-- The parser `p'` is `p` after a pattern did not match. -/
structure Refused (m : Matcher) (limit pos : Nat) (p p' : Parser) (lead : List Token) : Prop where
  missed : ∃ s, Missed p.stream s lead ∧ p' = { p with stream := s }
  poised : Poised limit pos p'.stream
  plain : m.plain = true → lead = []

namespace Refused

theorem kept (h : Refused m limit pos p p' lead) :
    p'.events = p.events ∧ p'.stack = p.stack ∧ p'.atContentStart = p.atContentStart ∧
      p'.mark = p.mark := by
  obtain ⟨s, _, rfl⟩ := h.missed
  exact ⟨rfl, rfl, rfl, rfl⟩

theorem left_eq (h : Refused m limit pos p p' lead) : left p'.stream = left p.stream := by
  obtain ⟨s, hm, rfl⟩ := h.missed
  exact left_missed hm

/-- Marks aside, the tokens ahead are the same. -/
theorem unmarked_ahead (h : Refused m limit pos p p' lead) :
    ∃ n, (ahead p'.stream).map Token.unmarked =
      (ahead p.stream).map Token.unmarked ++ List.replicate n (Token.ending p.stream.stop) := by
  obtain ⟨s, hm, rfl⟩ := h.missed
  obtain ⟨n, rest, hall, ha⟩ := hm.all
  refine ⟨n, ?_⟩
  have hmap := congrArg (List.map Token.unmarked) hall
  rw [List.map_append, List.map_append, List.map_replicate, Token.unmarked_ending] at hmap
  rw [← hmap, ha, List.map_append, List.map_map]
  rfl

/-- A plain pattern leaves no marks. -/
theorem ahead_eq (h : Refused m limit pos p p' lead) (hp : m.plain = true) :
    ∃ n, ahead p'.stream = ahead p.stream ++ List.replicate n (Token.ending p.stream.stop) := by
  obtain ⟨s, hm, rfl⟩ := h.missed
  obtain rfl := h.plain hp
  obtain ⟨n, rest, hall, ha⟩ := hm.all
  exact ⟨n, ha.trans hall⟩

end Refused

/-- The two ways in which a parser tries a pattern. -/
theorem accept_cases (ht : m.tidy = true) (h : Poised limit pos (stream p)) :
    (∃ p' pos' lead rest, p.accept m = (true, p') ∧ Accepted m limit pos pos' p p' lead rest) ∨
    (∃ p' lead, p.accept m = (false, p') ∧ Refused m limit pos p p' lead) := by
  rcases hr : m.run p.stream with ⟨ok, s⟩
  rcases Matcher.run_tidy ht h.consumed with ⟨hok, lead, rest, hf, _⟩ | ⟨hok, lead, hm, hp⟩
  · rw [hr] at hok hf
    obtain rfl : ok = true := hok
    obtain ⟨pos', htiles, hpoised, hclean⟩ := h.found hf
    have ha : p.accept m = (true, { p with
        stream := s.release, mark := p.mark.cover (lead.map Token.discard ++ rest) }) := by
      simp [accept, hr, hf.taken]
    exact .inl ⟨_, pos', lead, rest, ha, ⟨s, hf, rfl⟩, htiles, hpoised, hclean, s, hr, rfl,
      hf.taken⟩
  · rw [hr] at hok hm
    obtain rfl : ok = false := hok
    have ha : p.accept m = (false, { p with stream := s }) := by simp [accept, hr]
    exact .inr ⟨_, lead, ha, ⟨s, hm, rfl⟩, h.missed hm, hp⟩

end Parser

end LineMarkup

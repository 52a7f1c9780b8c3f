import LineMarkup.Proofs.Matcher.Discarding

namespace LineMarkup.Token.Stream

open Matcher (Found Missed solid)

/-- Of the marked tokens ahead, all but the first are blanks. -/
structure Poised (limit pos : Nat) (s : Stream) : Prop where
  consumed : s.consumed = []
  stop : s.stop = limit
  tiles : Tiles pos (ahead s) limit
  filled : ∀ t ∈ ahead s, solid t.kind = true → 0 < t.size
  ends : EndsOnce (ahead s)
  marked : ∀ t ∈ (ahead s).tail, t.discarded = true → t.kind = .whitespace

/-- The first one is no exception. -/
def Clean (s : Stream) : Prop :=
  ∀ t ∈ ahead s, t.discarded = true → t.kind = .whitespace

theorem ofText_poised (text : Text) : Poised text.size 0 (ofText text) := by
  have hg : ∀ t ∈ scan 0 text, t.Genuine := fun _ => scan_genuine
  have htiles : Tiles 0 (scan 0 text) text.size := by
    have := scan_tiles 0 text
    rwa [Nat.zero_add] at this
  have hk : ∀ t ∈ beginning :: scan 0 text, t.kind ≠ .textEnd := by
    intro t ht hk
    rcases List.mem_cons.mp ht with rfl | ht
    · cases hk
    · have := (hg t ht).kind
      simp [isSentinel, hk] at this
  refine ⟨rfl, rfl, ⟨rfl, htiles⟩, ?_, ?_, ?_⟩
  · intro t ht _
    rcases List.mem_cons.mp ht with rfl | ht
    · contradiction
    · exact (hg t ht).size
  · have := EndsOnce.append (b := []) hk (by simp [EndsOnce])
    rwa [List.append_nil] at this
  · intro t ht hd
    have := (hg t ht).kept
    simp [this] at hd

theorem ofText_clean (text : Text) : Clean (ofText text) := by
  intro t ht hd
  rcases List.mem_cons.mp ht with rfl | ht
  · cases hd
  · have := (scan_genuine ht).kept
    simp [this] at hd

/-- The text ends where an end token stands. -/
theorem end_position (hends : EndsOnce tokens) (htiles : Tiles pos tokens limit)
    (ht : t ∈ tokens) (hk : t.kind = .textEnd) : t.stop = limit := by
  obtain ⟨before, after, rfl⟩ := List.append_of_mem ht
  cases after with
  | nil =>
    obtain ⟨_, _, _, hs⟩ := tiles_append.mp htiles
    exact hs
  | cons next after =>
    rw [← List.singleton_append, ← List.append_assoc] at hends
    exact absurd hk (hends.left (List.cons_ne_nil _ _) t (by simp))

/-- How many tokens are ahead, end tokens aside. -/
def left (s : Stream) : Nat :=
  (ahead s).countP (fun t => Matcher.notEnd t.kind)

theorem left_more (s : Stream) (n : Nat) :
    (ahead s ++ List.replicate n (ending limit)).countP (fun t => Matcher.notEnd t.kind) =
      left s := by
  have h0 : (List.replicate n (ending limit)).countP (fun t => Matcher.notEnd t.kind) = 0 := by
    rw [List.countP_eq_zero]
    intro t ht
    rw [List.eq_of_mem_replicate ht]
    simp [ending, Matcher.notEnd]
  rw [List.countP_append, h0]
  rfl

theorem left_found (hm : Found m s s' lead rest) :
    (lead ++ rest).countP (fun t => Matcher.notEnd t.kind) + left s' = left s := by
  obtain ⟨n, hall⟩ := hm.all
  rw [← left_more s n, ← hall]
  exact List.countP_append.symm

theorem left_missed (hm : Missed s s' lead) : left s' = left s := by
  obtain ⟨n, rest, hall, ha⟩ := hm.all
  rw [← left_more s n, ← hall, left, ha, List.countP_append, List.countP_append, List.countP_map]
  rfl

namespace Poised

theorem tiles_more (h : Poised limit pos s) (n : Nat) :
    Tiles pos (ahead s ++ List.replicate n (ending s.stop)) limit :=
  tiles_append.mpr ⟨limit, h.tiles, h.stop ▸ tiles_endings⟩

theorem filled_more (h : Poised limit pos s) (n : Nat) :
    ∀ t ∈ ahead s ++ List.replicate n (ending s.stop), solid t.kind = true → 0 < t.size := by
  intro t ht hk
  rcases List.mem_append.mp ht with ht | ht
  · exact h.filled t ht hk
  · rw [List.eq_of_mem_replicate ht] at hk
    cases hk

theorem marked_more (h : Poised limit pos s) (n : Nat) :
    ∀ t ∈ (ahead s ++ List.replicate n (ending s.stop)).tail, t.discarded = true →
      t.kind = .whitespace := by
  intro t ht hd
  have hend (hm : t ∈ List.replicate n (ending s.stop)) : t.kind = .whitespace := by
    rw [List.eq_of_mem_replicate hm] at hd
    cases hd
  cases ha : ahead s with
  | nil =>
    rw [ha] at ht
    exact hend (List.mem_of_mem_tail ht)
  | cons first rest =>
    rw [ha, List.cons_append, List.tail_cons] at ht
    rcases List.mem_append.mp ht with ht | ht
    · exact h.marked t (by rwa [ha]) hd
    · exact hend ht

/-- What holds of the tokens ahead also holds of those that a reader has looked at, end tokens and
all. -/
theorem more (h : Poised limit pos s)
    (hall : tokens = ahead s ++ List.replicate n (ending s.stop)) :
    Tiles pos tokens limit ∧ (∀ t ∈ tokens, solid t.kind = true → 0 < t.size) ∧
      ∀ t ∈ tokens.tail, t.discarded = true → t.kind = .whitespace := by
  rw [hall]
  exact ⟨h.tiles_more n, h.filled_more n, h.marked_more n⟩

/-- A failed match costs nothing but marks on blanks. -/
theorem missed (h : Poised limit pos s) (hm : Missed s s' lead) : Poised limit pos s' := by
  obtain ⟨hc, ⟨n, rest, hall, ha⟩, hstop, hb, he⟩ := hm
  obtain ⟨ht, hf, hk⟩ := h.more hall
  refine ⟨hc, hstop.trans h.stop, ?_, ?_, he h.ends, ?_⟩
  · rw [ha]
    obtain ⟨middle, hl, hr⟩ := tiles_append.mp ht
    exact tiles_append.mpr ⟨middle, tiles_discard.mpr hl, hr⟩
  · intro t hm hs
    rw [ha] at hm
    rcases List.mem_append.mp hm with hm | hm
    · obtain ⟨t', hm', rfl⟩ := List.mem_map.mp hm
      exact hf t' (List.mem_append_left _ hm') hs
    · exact hf t (List.mem_append_right _ hm) hs
  · intro t hm hd
    rw [ha] at hm
    cases lead with
    | nil => exact hk t hm hd
    | cons first lead =>
      rw [List.map_cons, List.cons_append, List.tail_cons] at hm
      rcases List.mem_append.mp hm with hm | hm
      · obtain ⟨t', hm', rfl⟩ := List.mem_map.mp hm
        exact hb t' hm'
      · exact hk t (List.mem_append_right _ hm) hd

/-- A match takes the tokens up to some position, where the stream goes on. -/
theorem found (h : Poised limit pos s) (hm : Found m s s' lead rest) :
    ∃ pos', Tiles pos (lead ++ rest) pos' ∧ Poised limit pos' s'.release ∧
      (lead ++ rest ≠ [] → Clean s'.release) := by
  obtain ⟨n, hall⟩ := hm.all
  obtain ⟨ht, hf, hk⟩ := h.more hall
  obtain ⟨pos', hl, hr⟩ := tiles_append.mp ht
  have hclean (hn : lead ++ rest ≠ []) : Clean s'.release := by
    intro t hm hd
    apply hk t _ hd
    rw [List.tail_append_of_ne_nil hn]
    exact List.mem_append_right _ hm
  refine ⟨pos', hl, ⟨rfl, hm.stop.trans h.stop, hr, ?_, (hm.ends h.ends).right, ?_⟩, hclean⟩
  · exact fun t ht => hf t (List.mem_append_right _ ht)
  · intro t ht hd
    by_cases hn : lead ++ rest = []
    · rw [hn, List.nil_append] at hk
      exact hk t ht hd
    · exact hclean hn t (List.mem_of_mem_tail ht) hd

/-- One token is taken, wherever the next one begins. -/
theorem fetch (h : Poised limit pos s) :
    s.fetch.1.start = pos ∧ Poised limit s.fetch.1.stop s.fetch.2.release ∧
      Clean s.fetch.2.release := by
  obtain ⟨n, hall⟩ := Reads.fetch_ahead s
  obtain ⟨ht, hf, hk⟩ := h.more hall
  obtain ⟨hpos, ht⟩ := tiles_cons.mp ht
  refine ⟨hpos, ⟨rfl, ?_, ht, ?_, ?_, ?_⟩, hk⟩
  · exact (fetch_stop s).trans h.stop
  · exact fun t ht => hf t (List.mem_cons_of_mem _ ht)
  · exact (List.singleton_append ▸ endsOnce_fetch h.ends).right
  · exact fun t ht => hk t (List.mem_of_mem_tail ht)

end Poised

end LineMarkup.Token.Stream

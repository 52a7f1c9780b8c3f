import LineMarkup.Proofs.Token.Tiling
import LineMarkup.Token.Stream

namespace LineMarkup.Token.Stream

/-- The tokens after the cursor that are still to come before the text ends. -/
def ahead (s : Stream) : List Token :=
  s.buffered ++ s.unread

theorem atEnd_iff : s.atEnd = true ↔ ahead s = [] := by
  simp [atEnd, ahead]

@[simp] theorem remaining_eq : s.remaining = (ahead s).length := by
  simp [remaining, ahead]

@[simp] theorem release_ahead (s : Stream) : s.release.ahead = s.ahead := rfl

@[simp] theorem discard_ahead (s : Stream) : s.discard.ahead = s.ahead := rfl

theorem fetch_consumed (s : Stream) : s.fetch.2.consumed = s.fetch.1 :: s.consumed := by
  simp only [fetch]
  split <;> rfl

theorem fetch_stop (s : Stream) : s.fetch.2.stop = s.stop := by
  simp only [fetch]
  split <;> rfl

theorem fetch_of_ahead (h : ahead s = token :: rest) :
    s.fetch.1 = token ∧ s.fetch.2.ahead = rest := by
  obtain ⟨consumed, buffered, unread, limit⟩ := s
  cases buffered with
  | cons t bs => simpa [fetch, ahead] using h
  | nil =>
    simp only [ahead, List.nil_append] at h
    subst h
    exact ⟨rfl, rfl⟩

theorem fetch_of_end (h : ahead s = []) :
    s.fetch.1 = ending s.stop ∧ s.fetch.2.ahead = [] := by
  obtain ⟨consumed, buffered, unread, limit⟩ := s
  simp only [ahead, List.append_eq_nil_iff] at h
  obtain ⟨rfl, rfl⟩ := h
  exact ⟨rfl, rfl⟩

/-- Going back over what was read since `s` leaves `s`, but for end tokens. -/
theorem rewind_over {s s' : Stream} (h : s'.consumed = new.reverse ++ s.consumed) :
    (s'.rewind s.position).consumed = s.consumed ∧
      ahead (s'.rewind s.position) = new ++ ahead s' ∧ (s'.rewind s.position).stop = s'.stop := by
  have he : s'.position - s.position = new.reverse.length := by simp [position, h]
  refine ⟨?_, ?_, rfl⟩
  · simp only [rewind, he]
    rw [h, List.drop_left]
  · simp only [rewind, ahead, he]
    rw [h, List.take_left, List.reverse_reverse, List.append_assoc]

/-- Going back over one token. -/
theorem rewind_fetch (s : Stream) : (s.fetch.2.rewind s.position).consumed = s.consumed ∧
    ahead (s.fetch.2.rewind s.position) = s.fetch.1 :: ahead s.fetch.2 ∧
    (s.fetch.2.rewind s.position).stop = s.fetch.2.stop := by
  have h : s.fetch.2.consumed = [s.fetch.1].reverse ++ s.consumed := fetch_consumed s
  exact rewind_over h

/-- The cursor moves over the tokens `new`, whose kinds are among `q`. -/
inductive Reads (q : TokenKind → Bool) : Stream → List Token → Stream → Prop
  | stay : Reads q s [] s
  | take (kind : q s.fetch.1.kind = true) : Reads q s [s.fetch.1] s.fetch.2
  | peek : Reads q s [] (s.fetch.2.rewind s.position)
  | trans (first : Reads q s a s') (second : Reads q s' b s'') : Reads q s (a ++ b) s''
  | back (there : Reads q s new s') : Reads q s [] (s'.rewind s.position)

namespace Reads

theorem consumed (h : Reads q s new s') : s'.consumed = new.reverse ++ s.consumed := by
  induction h with
  | stay => rfl
  | take => simp [fetch_consumed]
  | peek => exact (rewind_fetch _).1
  | trans _ _ ih ih' => simp [ih, ih']
  | back _ ih => exact (rewind_over ih).1

theorem position_eq (h : Reads q s new s') : s'.position = s.position + new.length := by
  simp [position, h.consumed, Nat.add_comm]

theorem takenSince_eq (h : Reads q s new s') : s'.takenSince s.position = new := by
  have he : s'.position - s.position = new.reverse.length := by simp [h.position_eq]
  rw [takenSince, he, h.consumed, List.take_left, List.reverse_reverse]

theorem unique (h : Reads q s a s') (h' : Reads q' s b s') : a = b :=
  h.takenSince_eq.symm.trans h'.takenSince_eq

theorem stop (h : Reads q s new s') : s'.stop = s.stop := by
  induction h with
  | stay => rfl
  | take => exact fetch_stop _
  | peek => exact fetch_stop _
  | trans _ _ ih ih' => exact ih'.trans ih
  | back _ ih => exact ih

theorem kinds (h : Reads q s new s') : ∀ t ∈ new, q t.kind = true := by
  induction h with
  | stay | peek | back => simp
  | take hk => simpa using hk
  | trans _ _ ih ih' =>
    intro t ht
    rcases List.mem_append.mp ht with ht | ht
    · exact ih t ht
    · exact ih' t ht

theorem mono (h : Reads q s new s') (hq : ∀ k, q k = true → q' k = true) : Reads q' s new s' := by
  induction h with
  | stay => exact .stay
  | take hk => exact .take (hq _ hk)
  | peek => exact .peek
  | trans _ _ ih ih' => exact .trans ih ih'
  | back _ ih => exact .back ih

theorem fetch_ahead (s : Stream) :
    ∃ n, s.fetch.1 :: ahead s.fetch.2 = ahead s ++ List.replicate n (ending s.stop) := by
  cases h : ahead s with
  | nil =>
    obtain ⟨ht, ha⟩ := fetch_of_end h
    exact ⟨1, by simp [ht, ha]⟩
  | cons token rest =>
    obtain ⟨ht, ha⟩ := fetch_of_ahead h
    exact ⟨0, by simp [ht, ha]⟩

/-- What was taken and what is left is what was there, with end tokens as they were needed. -/
theorem ahead_eq (h : Reads q s new s') :
    ∃ n, new ++ ahead s' = ahead s ++ List.replicate n (ending s.stop) := by
  induction h with
  | stay => exact ⟨0, by simp⟩
  | take => exact fetch_ahead _
  | @peek s =>
    rw [(rewind_fetch s).2.1]
    exact fetch_ahead s
  | trans h h' ih ih' =>
    obtain ⟨n, hn⟩ := ih
    obtain ⟨m, hm⟩ := ih'
    refine ⟨n + m, ?_⟩
    rw [List.append_assoc, hm, ← List.append_assoc, hn, h.stop, List.append_assoc,
      List.replicate_append_replicate]
  | back h ih =>
    rw [(rewind_over h.consumed).2.1]
    exact ih

end Reads

/-- Only the last token may be an end token. -/
def EndsOnce (tokens : List Token) : Prop :=
  .textEnd ∉ (tokens.map Token.kind).dropLast

theorem EndsOnce.append (ha : ∀ t ∈ a, t.kind ≠ .textEnd) (hb : EndsOnce b) :
    EndsOnce (a ++ b) := by
  have ha' : .textEnd ∉ a.map Token.kind := fun hm => by
    obtain ⟨t, ht, hk⟩ := List.mem_map.mp hm
    exact ha t ht hk
  intro hm
  rw [List.map_append] at hm
  by_cases hn : b.map Token.kind = []
  · rw [hn, List.append_nil] at hm
    exact ha' (List.dropLast_subset _ hm)
  · rw [List.dropLast_append_of_ne_nil hn] at hm
    exact (List.mem_append.mp hm).elim ha' hb

theorem EndsOnce.right (h : EndsOnce (a ++ b)) : EndsOnce b := by
  intro hm
  by_cases hn : b.map Token.kind = []
  · simp [hn] at hm
  · apply h
    rw [List.map_append, List.dropLast_append_of_ne_nil hn]
    exact List.mem_append_right _ hm

/-- What stands before some other token is no end token. -/
theorem EndsOnce.left (h : EndsOnce (a ++ b)) (hn : b ≠ []) : ∀ t ∈ a, t.kind ≠ .textEnd := by
  intro t ht hk
  apply h
  rw [List.map_append, List.dropLast_append_of_ne_nil (by simpa using hn)]
  exact List.mem_append_left _ (List.mem_map.mpr ⟨t, ht, hk⟩)

theorem endsOnce_discard : EndsOnce (a.map Token.discard ++ b) ↔ EndsOnce (a ++ b) := by
  simp [EndsOnce, Function.comp_def]

theorem endsOnce_fetch (h : EndsOnce (ahead s)) : EndsOnce (s.fetch.1 :: ahead s.fetch.2) := by
  cases hs : ahead s with
  | nil =>
    obtain ⟨ht, ha⟩ := fetch_of_end hs
    simp [EndsOnce, ha]
  | cons token rest =>
    obtain ⟨ht, ha⟩ := fetch_of_ahead hs
    rwa [ht, ha, ← hs]

/-- A reader that takes no end token looks at one at most. -/
theorem Reads.endsOnce (h : Reads q s new s') (hq : q .textEnd = false) (he : EndsOnce (ahead s)) :
    EndsOnce (new ++ ahead s') := by
  induction h with
  | stay => exact he
  | take => exact endsOnce_fetch he
  | @peek s =>
    rw [(rewind_fetch s).2.1]
    exact endsOnce_fetch he
  | trans h _ ih ih' =>
    rw [List.append_assoc]
    apply EndsOnce.append _ (ih' (ih he).right)
    intro t ht hk
    have := h.kinds t ht
    simp_all
  | back h ih =>
    rw [List.nil_append, (rewind_over h.consumed).2.1]
    exact ih he

end LineMarkup.Token.Stream

import LineMarkup.Matcher.Basic
import LineMarkup.Proofs.Token.Reading

namespace LineMarkup

namespace Token.Stream

/-- The tokens on both sides of the cursor, marks aside. -/
def whole (s : Stream) : List Token :=
  (s.taken ++ s.ahead).map unmarked

/-- The same tokens, with end tokens as they were needed. -/
structure Keeps (s s' : Stream) : Prop where
  stop : s'.stop = s.stop
  whole : ∃ n, s'.whole = s.whole ++ List.replicate n (ending s.stop)

namespace Keeps

theorem of_whole (hs : s'.stop = s.stop) (hw : s'.whole = Stream.whole s) : Keeps s s' :=
  ⟨hs, 0, by simpa using hw⟩

theorem refl (s : Stream) : Keeps s s :=
  .of_whole rfl rfl

theorem trans (h : Keeps s s') (h' : Keeps s' s'') : Keeps s s'' := by
  obtain ⟨n, hn⟩ := h.whole
  obtain ⟨k, hk⟩ := h'.whole
  refine ⟨h'.stop.trans h.stop, n + k, ?_⟩
  rw [hk, hn, h.stop, List.append_assoc, List.replicate_append_replicate]

theorem fetch (s : Stream) : Keeps s s.fetch.2 := by
  obtain ⟨n, hn⟩ := Reads.fetch_ahead s
  refine ⟨fetch_stop s, n, ?_⟩
  have hu : (List.replicate n (ending s.stop)).map unmarked =
      List.replicate n (ending s.stop) := by
    rw [List.map_replicate, unmarked_ending]
  rw [Stream.whole, taken, fetch_consumed, List.reverse_cons, List.append_assoc,
    List.singleton_append, hn, ← List.append_assoc, List.map_append, hu]
  rfl

theorem rewind (s : Stream) (position : Nat) : Keeps s (s.rewind position) := by
  refine .of_whole rfl ?_
  have hsplit := congrArg List.reverse
    (List.take_append_drop (s.position - position) s.consumed)
  rw [List.reverse_append] at hsplit
  simp only [Stream.whole, taken, Stream.rewind, ahead]
  rw [← List.append_assoc, ← List.append_assoc, hsplit, List.append_assoc]

theorem discard (s : Stream) : Keeps s s.discard := by
  refine .of_whole rfl ?_
  simp [Stream.whole, taken, Stream.discard, ahead, Function.comp_def, unmarked, Token.discard]

end Keeps

theorem fetch_position (s : Stream) : s.fetch.2.position = s.position + 1 := by
  simp [position, fetch_consumed]

theorem rewind_position (h : n ≤ position s) : (s.rewind n).position = n := by
  simp only [position, rewind, List.length_drop] at h ⊢
  omega

end Token.Stream

namespace Matcher

open Token (Stream)
open Token.Stream (Keeps fetch_position rewind_position)

/-- A reader that goes forward, and comes back when it does not match. -/
structure Returns (s : Stream) (outcome : Bool × Stream) : Prop where
  keeps : Keeps s outcome.2
  forward : s.position ≤ outcome.2.position
  back : outcome.1 = false → outcome.2.position = s.position

/-- A reader that gives up and goes back to where it started. -/
theorem Returns.rewound (hk : Keeps s after) (hp : Stream.position s ≤ after.position) :
    Returns s (false, after.rewind s.position) := by
  have hback := rewind_position hp
  exact ⟨hk.trans (.rewind after s.position), Nat.le_of_eq hback.symm, fun _ => hback⟩

theorem returns_one (p : Token → Bool) (s : Stream) : Returns s (one p s) := by
  have hp : s.position ≤ s.fetch.2.position := fetch_position s ▸ Nat.le_succ _
  simp only [one]
  split
  · exact ⟨.fetch s, hp, by simp⟩
  · exact .rewound (.fetch s) hp

theorem spell_keeps (text : Text) (s : Stream) :
    Keeps s (spell text s).2 ∧ s.position ≤ (spell text s).2.position := by
  induction text generalizing s with
  | nil => exact ⟨.refl s, Nat.le_refl _⟩
  | cons c rest ih =>
    have hp : s.position ≤ s.fetch.2.position := fetch_position s ▸ Nat.le_succ _
    simp only [spell]
    split
    · obtain ⟨hk, hle⟩ := ih s.fetch.2
      exact ⟨(Keeps.fetch s).trans hk, Nat.le_trans hp hle⟩
    · exact ⟨.fetch s, hp⟩

theorem repeated_keeps (hb : ∀ s, Returns s (body s)) (fuel : Nat) (s : Stream) :
    Keeps s (repeated body fuel s) ∧ s.position ≤ (repeated body fuel s).position := by
  induction fuel generalizing s with
  | zero => exact ⟨.refl s, Nat.le_refl _⟩
  | succ fuel ih =>
    have hs := hb s
    simp only [repeated]
    split
    · rename_i after hrun
      rw [hrun] at hs
      obtain ⟨hk, hle⟩ := ih after
      exact ⟨hs.keeps.trans hk, Nat.le_trans hs.forward hle⟩
    · rename_i after hrun
      rw [hrun] at hs
      exact ⟨hs.keeps, hs.forward⟩

theorem returns_repeated1 (hb : ∀ s, Returns s (body s)) (s : Stream) :
    Returns s (repeated1 body s) := by
  have hs := hb s
  simp only [repeated1]
  split
  · rename_i after hrun
    rw [hrun] at hs
    obtain ⟨hk, hle⟩ := repeated_keeps hb (after.remaining + 1) after
    exact ⟨hs.keeps.trans hk, Nat.le_trans hs.forward hle, by simp⟩
  · rename_i after hrun
    rwa [hrun] at hs

theorem run_returns (m : Matcher) (s : Stream) : Returns s (m.run s) := by
  induction m generalizing s with
  | kind | symbol => exact returns_one _ s
  | symbols text =>
    obtain ⟨hk, hp⟩ := spell_keeps text s
    simp only [run]
    split <;> rename_i after hrun <;> rw [hrun] at hk hp
    · exact ⟨hk, hp, by simp⟩
    · exact .rewound hk hp
  | keyword words =>
    have hw : Returns s (word s) := returns_repeated1 (fun s => returns_one _ s) s
    simp only [run]
    split <;> rename_i after hrun <;> rw [hrun] at hw
    · split
      · exact ⟨hw.keeps, hw.forward, by simp⟩
      · exact .rewound hw.keeps hw.forward
    · exact hw
  | test outcome => exact ⟨.refl s, Nat.le_refl _, fun _ => rfl⟩
  | seq first second ih ih' =>
    have hf := ih s
    simp only [run]
    split <;> rename_i after hrun <;> rw [hrun] at hf
    · have hs := ih' after
      have hle := Nat.le_trans hf.forward hs.forward
      split <;> rename_i after' hrun' <;> rw [hrun'] at hs hle
      · exact ⟨hf.keeps.trans hs.keeps, hle, by simp⟩
      · exact .rewound (hf.keeps.trans hs.keeps) hle
    · exact hf
  | alt first second ih ih' =>
    have hf := ih s
    simp only [run]
    split <;> rename_i after hrun <;> rw [hrun] at hf
    · exact hf
    · have hs := ih' after
      have hback : after.position = s.position := hf.back rfl
      exact ⟨hf.keeps.trans hs.keeps, Nat.le_trans hf.forward hs.forward,
        fun h => (hs.back h).trans hback⟩
  | optional body ih => exact ⟨(ih s).keeps, (ih s).forward, by simp [run]⟩
  | many1 body ih => exact returns_repeated1 ih s
  | look body ih =>
    have hb := rewind_position (ih s).forward
    exact ⟨(ih s).keeps.trans (.rewind _ _), Nat.le_of_eq hb.symm, fun _ => hb⟩
  | discard body ih =>
    have hb := ih s
    simp only [run]
    split <;> rename_i after hrun <;> rw [hrun] at hb
    · have hp : after.discard.position = after.position := by simp [Stream.discard, Stream.position]
      exact ⟨hb.keeps.trans (.discard after), Nat.le_trans hb.forward (Nat.le_of_eq hp.symm),
        by simp⟩
    · exact hb

end Matcher

end LineMarkup

import LineMarkup.Proofs.Isolate.Steps
import LineMarkup.Proofs.Parser.Story

namespace LineMarkup.Isolate

open Text (Boundary)

namespace Search

variable {s : Search} {candidates : List Candidate} {place first last : Nat}

/-- The candidates that become isolates. -/
def kept (s : Search) : List Candidate :=
  s.candidates.filter (!·.dropped)

theorem filter_modify {f : Candidate → Candidate} (hf : ∀ c, (f c).dropped = true) :
    (candidates.modify place f).filter (!·.dropped) =
      (candidates.eraseIdx place).filter (!·.dropped) := by
  induction candidates generalizing place with
  | nil => simp
  | cons c candidates ih =>
    cases place with
    | zero => simp [hf]
    | succ place => simp [List.filter_cons, ih]

theorem kept_drop (s : Search) (place : Nat) :
    (s.drop place).kept = (s.candidates.eraseIdx place).filter (!·.dropped) :=
  filter_modify (fun _ => rfl)

theorem kept_drop_sublist (s : Search) (place : Nat) : (s.drop place).kept.Sublist s.kept := by
  rw [kept_drop]
  exact (List.eraseIdx_sublist _ _).filter _

/-- What is dropped may have been changed before. -/
theorem kept_drop_change (s : Search) (place : Nat) (f : Candidate → Candidate) :
    ((s.change place f).drop place).kept = (s.drop place).kept := by
  rw [kept_drop, kept_drop, change, List.eraseIdx_modify_of_eq]

theorem drop_comm (s : Search) (a b : Nat) : (s.drop a).drop b = (s.drop b).drop a := by
  by_cases h : a = b
  · rw [h]
  · simp only [drop, change]
    rw [List.modify_modify_ne _ _ _ h]

theorem absorb_kept (s : Search) (place : Nat) (level : List Nat) :
    ((s.absorb place level).drop place).kept.Sublist (s.drop place).kept := by
  induction level generalizing s with
  | nil => exact List.Sublist.refl _
  | cons earlier rest ih =>
    simp only [absorb]
    split
    · split
      · refine (ih _).trans ?_
        rw [drop_comm, ← kept_drop_change s place]
        exact kept_drop_sublist _ _
      · exact List.Sublist.refl _
    · exact List.Sublist.refl _

/-- But for the range that covers a construct, all that is kept was kept before. -/
def Spares (s : Search) : Option Nat × Search → Prop
  | (none, s') => s'.kept.Sublist s.kept
  | (some place, s') => (s'.drop place).kept.Sublist s.kept

theorem begin_spares (s : Search) (kind : Construct) (first last : Nat) :
    Spares s (s.begin kind first last) := by
  by_cases hk : kind = .contentBlock
  · simp [begin, hk, Spares]
  · simp only [begin, hk, ↓reduceIte, Spares]
    rw [kept_drop, List.eraseIdx_append_of_length_le (Nat.le_refl _)]
    simp [kept]

theorem extend_spares (s : Search) (kind : Construct) (first last : Nat) :
    Spares s (s.extend kind first last) := by
  unfold extend
  split
  · exact begin_spares s kind first last
  · rename_i place earlier _
    split
    · exact begin_spares s kind first last
    · split
      · simp only [Spares]
        rw [kept_drop_change]
        exact kept_drop_sublist s place
      · split
        · simp only [Spares]
          split
          · refine (absorb_kept _ place earlier).trans ?_
            rw [kept_drop_change]
            exact kept_drop_sublist s place
          · rw [kept_drop_change]
            exact kept_drop_sublist s place
        · exact begin_spares s kind first last

/-- A frame that is closed by the end of the text. -/
theorem see_implicit (s : Search) (frame : Frame) (stop : Nat) :
    (s.see (.pop frame stop true)).kept.Sublist s.kept := by
  have hclose : s.closeLevel.kept = s.kept := by
    unfold closeLevel
    split <;> rfl
  have hcode (s : Search) (kind : Construct) (first last : Nat) :
      (s.codeRange kind first last true).kept.Sublist s.kept := by
    have he := extend_spares s kind first last
    simp only [codeRange, Bool.true_or, ↓reduceIte]
    split
    · split <;> rename_i heq <;> rwa [heq] at he
    · exact List.Sublist.refl _
  simp only [see]
  split
  · exact List.Sublist.refl _
  · simp only [Search.close, ↓reduceIte]
    refine (hcode _ _ _ _).trans ?_
    split
    · rw [hclose]
    · exact List.Sublist.refl _

theorem foldl_implicit (s : Search) (frames : List Frame) (stop : Nat) :
    ((frames.map (fun f => Event.pop f stop true)).foldl see s).kept.Sublist s.kept := by
  induction frames generalizing s with
  | nil => exact List.Sublist.refl _
  | cons frame frames ih => exact (ih _).trans (see_implicit s frame stop)

end Search

/-- The isolates of a text are among the candidates that were kept before its end. -/
theorem ofEvents_sublist (events : List Event) (frames : List Frame) (stop : Nat) :
    (ofEvents (events ++ frames.map (fun f => Event.pop f stop true))).Sublist
      ((Search.after events.reverse).kept.map (·.toIsolate)) := by
  have hafter : events.foldl Search.see {} = Search.after events.reverse := by
    rw [Search.after, List.foldr_reverse]
  rw [ofEvents, List.foldl_append, hafter]
  exact (Search.foldl_implicit _ frames stop).map _

end LineMarkup.Isolate

namespace LineMarkup.Parse

open Text (Boundary)

/-- The isolates of a text lie within it and between characters, and any two of them are disjoint or
nested. -/
theorem isolates_laminar (text : Text) (carried : List Construct) :
    let isolates := Isolate.ofEvents ((ofText text carried).report true)
    (∀ r ∈ isolates, r.first ≤ r.last ∧ r.last < text.size ∧ Boundary text r.first ∧
      Boundary text (r.last + 1)) ∧
    isolates.Pairwise (fun a b => Laminar (a.first, a.last + 1) (b.first, b.last + 1)) := by
  intro isolates
  obtain ⟨stack, hr, hended, hreport⟩ := reported text carried
  obtain ⟨hsound, _⟩ := Isolate.sound_of_reported hr
  have hsub := Isolate.ofEvents_sublist (ofText text carried).events stack text.size
  rw [← hreport] at hsub
  have hsub := hsub.trans (List.filter_sublist.map _)
  refine ⟨fun r hm => ?_, (List.pairwise_iff_getElem.mpr ?_).sublist hsub⟩
  · have hf := hsound.formed r (hsub.subset hm)
    exact ⟨hf.le, hf.last_lt (fun e he _ => hended e he), hf.begins, hf.ends⟩
  · intro i j hi hj hij
    exact hsound.laminar i j _ _ (List.getElem?_eq_getElem hi) (List.getElem?_eq_getElem hj)
      (Nat.ne_of_lt hij)

end LineMarkup.Parse

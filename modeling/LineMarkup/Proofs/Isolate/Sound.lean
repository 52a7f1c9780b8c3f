import LineMarkup.Proofs.Event.Story
import LineMarkup.Proofs.Isolate.Levels

namespace LineMarkup

open Text (Boundary HasAt)

namespace Frame

/-- Opens a level of its own. -/
def opensLevel (frame : Frame) : Bool :=
  !frame.carried && (frame.kind = .contentBlock || frame.kind = .math)

def isChain (frame : Frame) : Bool :=
  !frame.carried && frame.kind = .codeChain

/-- Has a range when it ends, which begins with the frame. That of a chain may begin earlier. -/
def isRanged (frame : Frame) : Bool :=
  !frame.carried && frame.kind ≠ .codeChain &&
    (frame.kind.isCode || frame.kind = .contentBlock || frame.kind = .math)

variable {frame : Frame}

theorem isRanged_of_opensLevel (h : frame.opensLevel = true) : frame.isRanged = true := by
  simp only [opensLevel, isRanged, Bool.and_eq_true, Bool.or_eq_true, decide_eq_true_eq] at h ⊢
  rcases h with ⟨hc, hk | hk⟩ <;> simp [hc, hk]

end Frame

namespace Isolate

open Search

variable {text : Text} {es es' : List Event} {stack stack' : List Frame} {s s' : Search}
  {r : Isolate} {first last place x : Nat} {taken rest : List Nat}

/-- A range of a text, after some events. -/
structure Formed (text : Text) (es : List Event) (r : Isolate) : Prop where
  le : r.first ≤ r.last
  begins : Boundary text r.first
  ends : Boundary text (r.last + 1)
  event : ∃ e ∈ es, e.isDelimiter = false ∧ r.last < e.stop ∧
    (r.direction = .leftToRight → e.stop = r.last + 1)

theorem Formed.mono (h : Formed text es r) (he : ∀ e ∈ es, e ∈ es') : Formed text es' r := by
  obtain ⟨e, hm, hrest⟩ := h.event
  exact ⟨h.le, h.begins, h.ends, e, he e hm, hrest⟩

theorem Formed.last_lt {pos : Nat} (h : Formed text es r)
    (he : ∀ e ∈ es, e.isDelimiter = false → e.stop ≤ pos) : r.last < pos := by
  obtain ⟨e, hm, hd, hlt, _⟩ := h.event
  exact Nat.lt_of_lt_of_le hlt (he e hm hd)

/-- The ranges of a search are those of a text, and they are laminar. -/
structure Sound (text : Text) (es : List Event) (stack : List Frame) (s : Search) : Prop where
  formed : ∀ r ∈ s.ranges, Formed text es r
  laminar : ∀ (i j : Nat) (a b : Isolate), s.ranges[i]? = some a → s.ranges[j]? = some b → i ≠ j →
    Laminar a.range b.range
  frames : ∀ f ∈ stack, f.isRanged = true → ∀ a ∈ s.ranges, a.last < f.start ∨ f.start < a.first
  chains : ∀ f ∈ stack, f.isChain = true → ∀ i ∉ s.level, ∀ a, s.ranges[i]? = some a →
    a.last < f.start ∨ f.start ≤ a.first

/-- The levels of a search are those of the frames of a stack. -/
def Leveled (stack : List Frame) (s : Search) : Prop :=
  Layered s.ranges (stack.filter Frame.opensLevel) s.level s.outer

/-- A construct from `first` to `last`, after which nothing has come yet. What was found before ends
where it begins, or is inside of it, or belongs to the level that it may extend. -/
structure Met (text : Text) (es : List Event) (stack : List Frame) (s : Search)
    (first last : Nat) : Prop where
  le : first ≤ last
  begins : Boundary text first
  ends : Boundary text (last + 1)
  event : ∃ e ∈ es, e.isDelimiter = false ∧ e.stop = last + 1
  all : ∀ a ∈ s.ranges, a.last ≤ last
  own : ∀ i ∉ s.level, ∀ a, s.ranges[i]? = some a → a.last < first ∨ first ≤ a.first
  frames : ∀ f ∈ stack, f.isRanged = true → f.start < first
  chains : ∀ f ∈ stack, f.isChain = true → f.start ≤ first ∧
    ∀ i ∈ s.level, ∀ a, s.ranges[i]? = some a → a.last < first

theorem laminar_of_apart {a r : Isolate}
    (h : a.last < r.first ∨ (r.first ≤ a.first ∧ a.last ≤ r.last)) :
    Laminar a.range r.range ∧ Laminar r.range a.range := by
  have hl : Laminar a.range r.range := by
    rcases h with h | ⟨h, h'⟩
    · exact .inl h
    · exact .inr (.inr (.inr ⟨h, Nat.succ_le_succ h'⟩))
  exact ⟨hl, hl.symm⟩

namespace Sound

/-- One more event, and no more frames. -/
theorem seen (h : Sound text es stack s) (e : Event) (hf : ∀ f ∈ stack', f ∈ stack) :
    Sound text (e :: es) stack' s :=
  ⟨fun r hr => (h.formed r hr).mono (fun _ => List.mem_cons_of_mem e), h.laminar,
    fun f hm => h.frames f (hf f hm), fun f hm => h.chains f (hf f hm)⟩

/-- One range grows over all that comes after its beginning. -/
theorem replaced (h : Sound text es stack s) (hr : Replaced s.ranges s'.ranges place r)
    (hf : Formed text es r)
    (ha : ∀ i ≠ place, ∀ a, s.ranges[i]? = some a →
      a.last < r.first ∨ (r.first ≤ a.first ∧ a.last ≤ r.last))
    (hframes : ∀ f ∈ stack, f.isRanged = true → f.start < r.first)
    (hchains : ∀ f ∈ stack, f.isChain = true →
      (place ∈ s'.level ∨ f.start ≤ r.first) ∧ ∀ i ∈ s.level, i ∈ s'.level ∨ i = place) :
    Sound text es stack s' := by
  refine ⟨fun a hm => ?_, fun i j a b hi hj hij => ?_, fun f hm hk a ha' => ?_,
    fun f hm hk i hi a ha' => ?_⟩
  · rcases hr.mem hm with rfl | hm
    · exact hf
    · exact h.formed a hm
  · by_cases hip : i = place
    · rw [hip, hr.here] at hi
      rw [hr.others j (fun hjp => hij (hip.trans hjp.symm))] at hj
      obtain rfl := Option.some.inj hi
      exact (laminar_of_apart (ha j (fun hjp => hij (hip.trans hjp.symm)) b hj)).2
    · rw [hr.others i hip] at hi
      by_cases hjp : j = place
      · rw [hjp, hr.here] at hj
        obtain rfl := Option.some.inj hj
        exact (laminar_of_apart (ha i hip a hi)).1
      · rw [hr.others j hjp] at hj
        exact h.laminar i j a b hi hj hij
  · rcases hr.mem ha' with rfl | ha'
    · exact .inr (hframes f hm hk)
    · exact h.frames f hm hk a ha'
  · obtain ⟨hplace, hlevel⟩ := hchains f hm hk
    by_cases hip : i = place
    · rw [hip, hr.here] at ha'
      obtain rfl := Option.some.inj ha'
      exact .inr (hplace.resolve_left (hip ▸ hi))
    · rw [hr.others i hip] at ha'
      exact h.chains f hm hk i (fun hil => (hlevel i hil).elim hi hip) a ha'

theorem extended (h : Sound text es stack s) (hl : Leveled stack s)
    (hm : Met text es stack s first last) (he : Extended s place first taken rest x last s') :
    Sound text es stack s' ∧ Leveled stack s' := by
  have hall : ∀ a ∈ s.ranges, a.first ≤ a.last ∧ a.last ≤ last :=
    fun a ha => ⟨(h.formed a ha).le, hm.all a ha⟩
  have hx : x ≤ last := Nat.le_trans he.le hm.le
  have hframes : ∀ f ∈ stack, f.isRanged = true → f.start < x := fun f hf hk =>
    he.lt_first (hm.frames f hf hk) (h.frames f hf hk)
  have hbegins : Boundary text x := by
    rcases he.first_cases with rfl | ⟨a, ha, rfl⟩
    · exact hm.begins
    · exact (h.formed a ha).begins
  obtain ⟨e, hmem, hd, hstop⟩ := hm.event
  refine ⟨h.replaced (he.replaced hl.layer)
    ⟨hx, hbegins, hm.ends, e, hmem, hd, by change last < e.stop; omega, fun _ => hstop⟩
    (fun i _ a ha => he.others_apart hl.layer hall hm.own ha) hframes (fun f hf hk => ?_),
    Layered.extended hl he hx (fun f hf => ?_) hall hm.own⟩
  · -- Within a chain nothing is taken in, so that what was in the level still is.
    rw [he.level]
    refine ⟨.inl List.mem_cons_self, fun i hi => ?_⟩
    have hsole := he.sole (fun i hi => (hm.chains f hf hk).2 i
      (he.split ▸ List.mem_append_left _ hi))
    rw [he.split] at hi
    rcases List.mem_append.mp hi with hi | hi
    · exact .inr (hsole i hi)
    · exact .inl (List.mem_cons_of_mem _ hi)
  · obtain ⟨hf, hk⟩ := List.mem_filter.mp hf
    exact hframes f hf (Frame.isRanged_of_opensLevel hk)

/-- The level takes in a construct, or starts anew with it. -/
theorem codeRange (h : Sound text es stack s) (hl : Leveled stack s) {kind : Construct}
    (hm : kind.isCode = true ∨ kind = .contentBlock → Met text es stack s first last) :
    Sound text es stack (s.codeRange kind first last false) ∧
      Leveled stack (s.codeRange kind first last false) := by
  have hdrop {s : Search} (h : Sound text es stack s ∧ Leveled stack s) (place : Nat) :
      Sound text es stack (s.drop place) ∧ Leveled stack (s.drop place) := by
    have hr := s.drop_ranges place
    obtain ⟨⟨hformed, hlaminar, hframes, hchains⟩, hl⟩ := h
    exact ⟨⟨hr ▸ hformed, hr ▸ hlaminar, hr ▸ hframes, hr ▸ hchains⟩, by
      rw [Leveled, hr]
      exact hl⟩
  simp only [Search.codeRange]
  split
  · rename_i hk
    have hm := hm (by simpa using hk)
    rcases extend_cases kind hl.layer
      (fun i _ a ha => hm.all a (List.mem_of_getElem? ha)) with ⟨_, heq⟩ |
      ⟨place, s', taken, rest, x, heq, he⟩
    · rw [heq]
      exact ⟨h, hl⟩
    · rw [heq]
      have hs' := h.extended hl hm he
      dsimp only
      split
      · exact hdrop hs' place
      · exact hs'
  · exact ⟨h, hl⟩

/-- A range of its own, of which no level knows. -/
theorem add (h : Sound text es stack s) (hl : Leveled stack s) (direction : IsolateDirection)
    (first last : Nat)
    (hf : first ≤ last → Formed text es { direction, first, last })
    (ha : ∀ a ∈ s.ranges, a.last < first ∨ (first ≤ a.first ∧ a.last ≤ last))
    (hlevels : ∀ l ∈ s.level :: s.outer, ∀ i ∈ l, ∀ a, s.ranges[i]? = some a → a.last < first)
    (hframes : ∀ f ∈ stack, f.isRanged = true → f.start < first)
    (hchains : ∀ f ∈ stack, f.isChain = true → f.start ≤ first) :
    Sound text es stack (s.add direction first last) ∧
      Leveled stack (s.add direction first last) := by
  simp only [Search.add]
  split
  · rename_i hle
    generalize hs' : { s with candidates := s.candidates ++
      [({ direction, first, last } : Candidate)] } = s'
    have hr : Replaced s.ranges s'.ranges s.ranges.length { direction, first, last } := by
      have heq : s'.ranges = s.ranges ++ [⟨direction, first, last⟩] := by
        rw [← hs']
        simp [ranges]
      refine ⟨by simp [heq], fun i hi => ?_, by simp⟩
      rw [heq, List.getElem?_append]
      split
      · rfl
      · rw [List.getElem?_eq_none (by simp only [List.length_singleton]; omega),
          List.getElem?_eq_none (by omega)]
    have hlevel : s'.level = s.level ∧ s'.outer = s.outer := by
      rw [← hs']
      exact ⟨rfl, rfl⟩
    refine ⟨h.replaced hr (hf hle) (fun i _ a hi => ha a (List.mem_of_getElem? hi)) hframes
      (fun f hm hk => ⟨.inr (hchains f hm hk), fun i hi => .inl (hlevel.1 ▸ hi)⟩), ?_⟩
    rw [Leveled, hlevel.1, hlevel.2]
    exact Layered.aside hl hr hlevels
  · exact ⟨h, hl⟩

end Sound

end Isolate

end LineMarkup

import LineMarkup.Proofs.Isolate.Growth

namespace LineMarkup.Isolate

open Search

variable {ranges ranges' : List Isolate} {s s' : Search} {r : Isolate} {frames : List Frame}
  {level taken rest : List Nat} {outer : List (List Nat)} {place first last x : Nat}

/-- Only the range at `place` has changed. If there was one, it has not been given up. -/
structure Replaced (ranges ranges' : List Isolate) (place : Nat) (r : Isolate) : Prop where
  here : ranges'[place]? = some r
  others : ∀ i ≠ place, ranges'[i]? = ranges[i]?
  reaches : ∀ a, ranges[place]? = some a → r.first ≤ a.last

/-- Every range after the change is the new one or an old one. -/
theorem Replaced.mem (h : Replaced ranges ranges' place r) (ha : a ∈ ranges') :
    a = r ∨ a ∈ ranges := by
  obtain ⟨i, hi⟩ := List.mem_iff_getElem?.mp ha
  by_cases hip : i = place
  · subst hip
    rw [h.here] at hi
    exact .inl (Option.some.inj hi).symm
  · rw [h.others i hip] at hi
    exact .inr (List.mem_of_getElem? hi)

namespace Layer

theorem right (h : Layer ranges (taken ++ rest)) : Layer ranges rest :=
  ⟨fun i hi => h.listed i (List.mem_append_right _ hi), (List.pairwise_append.mp h.order).2.1,
    fun i hi => h.apart i (List.mem_append_right _ hi)⟩

/-- Ranges that end before the new one begins are not touched. -/
theorem same (h : Layer ranges level) (hr : Replaced ranges ranges' place r)
    (hb : ∀ i ∈ level, ∀ a, ranges[i]? = some a → a.last < r.first) :
    ∀ i ∈ level, ranges'[i]? = ranges[i]? := by
  refine fun i hi => hr.others i (fun hip => ?_)
  obtain ⟨a, ha, _⟩ := h.listed i hi
  have := hb i hi a ha
  have := hr.reaches a (hip ▸ ha)
  omega

/-- A level of such ranges stays as it is. -/
theorem aside (h : Layer ranges level) (hr : Replaced ranges ranges' place r)
    (hb : ∀ i ∈ level, ∀ a, ranges[i]? = some a → a.last < r.first) : Layer ranges' level := by
  have hsame := h.same hr hb
  refine ⟨fun i hi => hsame i hi ▸ h.listed i hi, ?_, fun i hi j hj a b ha hb' => ?_⟩
  · exact h.order.imp_of_mem (fun hi hj hij a b ha hb =>
      hij a b (hsame _ hi ▸ ha) (hsame _ hj ▸ hb))
  · rw [hsame i hi] at ha
    by_cases hjp : j = place
    · rw [hjp, hr.here] at hb'
      exact .inr (.inl (Option.some.inj hb' ▸ hb i hi a ha))
    · rw [hr.others j hjp] at hb'
      exact h.apart i hi j hj a b ha hb'

/-- The latest range of a level. -/
theorem cons (h : Layer ranges rest) (hp : ranges[place]? = some r)
    (hd : r.direction = .leftToRight) (hle : r.first ≤ r.last)
    (hb : ∀ i ∈ rest, ∀ a, ranges[i]? = some a → a.last < r.first)
    (ha : ∀ i ≠ place, ∀ a, ranges[i]? = some a →
      a.last < r.first ∨ (r.first ≤ a.first ∧ a.last ≤ r.last)) :
    Layer ranges (place :: rest) := by
  refine ⟨List.forall_mem_cons.mpr ⟨⟨r, hp, hd, hle⟩, h.listed⟩,
    List.pairwise_cons.mpr ⟨fun i hi a b ha hb' => ?_, h.order⟩,
    List.forall_mem_cons.mpr ⟨fun i hi a b ha' hb' => ?_, h.apart⟩⟩
  · rw [hp] at ha
    exact Option.some.inj ha ▸ hb i hi b hb'
  · rw [hp] at ha'
    obtain rfl := Option.some.inj ha'
    rcases ha i hi b hb' with hb' | hb'
    · exact .inl hb'
    · exact .inr (.inr hb')

end Layer

/-- The levels of the frames that open one, the innermost first, and the outermost level. -/
def Layered (ranges : List Isolate) : List Frame → List Nat → List (List Nat) → Prop
  | [], level, [] => Layer ranges level
  | frame :: frames, level, next :: outer =>
    Layer ranges level ∧ (∀ i ∈ level, ∀ a, ranges[i]? = some a → frame.start < a.first) ∧
      (∀ i ∈ next, ∀ a, ranges[i]? = some a → a.last < frame.start) ∧
      Layered ranges frames next outer
  | _, _, _ => False

namespace Layered

theorem layer (h : Layered ranges frames level outer) : Layer ranges level := by
  cases frames <;> cases outer <;> first | exact h | exact h.1 | exact h.elim

theorem inside (h : Layered ranges (frame :: frames) level outer) :
    ∀ i ∈ level, ∀ a, ranges[i]? = some a → frame.start < a.first := by
  cases outer with
  | nil => exact h.elim
  | cons next outer => exact h.2.1

/-- What is in the levels around ends before anything in the innermost one begins. -/
theorem outer_before (h : Layered ranges frames level outer)
    (hf : ∀ f ∈ frames, f.start < x) :
    ∀ l ∈ outer, ∀ i ∈ l, ∀ a, ranges[i]? = some a → a.last < x := by
  induction frames generalizing level outer with
  | nil => cases outer <;> simp_all [Layered]
  | cons frame frames ih =>
    obtain ⟨hframe, hframes⟩ := List.forall_mem_cons.mp hf
    cases outer with
    | nil => exact h.elim
    | cons next outer =>
      refine List.forall_mem_cons.mpr ⟨fun i hi a ha => ?_, ih h.2.2.2 hframes⟩
      exact Nat.lt_trans (h.2.2.1 i hi a ha) hframe

theorem aside (h : Layered ranges frames level outer) (hr : Replaced ranges ranges' place r)
    (hb : ∀ l ∈ level :: outer, ∀ i ∈ l, ∀ a, ranges[i]? = some a → a.last < r.first) :
    Layered ranges' frames level outer := by
  obtain ⟨hlevel, houter⟩ := List.forall_mem_cons.mp hb
  have hlayer := h.layer.aside hr hlevel
  induction frames generalizing level outer with
  | nil => cases outer <;> first | exact hlayer | exact h
  | cons frame frames ih =>
    cases outer with
    | nil => exact h
    | cons next outer =>
      obtain ⟨hlevel', hin, hbefore, hrest⟩ := h
      obtain ⟨hnext, houter'⟩ := List.forall_mem_cons.mp houter
      exact ⟨hlayer, fun i hi a ha => hin i hi a (hlevel'.same hr hlevel i hi ▸ ha),
        fun i hi a ha => hbefore i hi a (hrest.layer.same hr hnext i hi ▸ ha),
        ih hrest houter hnext houter' (hrest.layer.aside hr hnext)⟩

end Layered

namespace Extended

theorem replaced (he : Extended s place first taken rest x last s') (hl : Layer s.ranges s.level) :
    Replaced s.ranges s'.ranges place { direction := .leftToRight, first := x, last } := by
  refine ⟨he.here, he.others, fun a ha => ?_⟩
  rcases he.fresh with hp | ⟨_, rfl⟩
  · obtain ⟨b, hb, _, hle⟩ := hl.listed place (he.split ▸ List.mem_append_left _ hp)
    rw [ha] at hb
    obtain rfl := Option.some.inj hb
    exact Nat.le_trans (he.within place hp a ha) hle
  · simp at ha

/-- Where the range begins now, the construct begins or a range that it has taken in. -/
theorem first_cases (he : Extended s place first taken rest x last s') :
    x = first ∨ ∃ a ∈ s.ranges, a.first = x := by
  rcases Nat.eq_or_lt_of_le he.le with hx | hx
  · exact .inl hx
  · obtain ⟨i, hi, a, ha, hle, _⟩ := he.covered x (Nat.le_refl x) hx
    exact .inr ⟨a, List.mem_of_getElem? ha, Nat.le_antisymm hle (he.within i hi a ha)⟩

/-- A position before the construct that no range covers is before the range. -/
theorem lt_first (he : Extended s place first taken rest x last s') (hpos : pos < first)
    (ha : ∀ a ∈ s.ranges, a.last < pos ∨ pos < a.first) : pos < x := by
  apply Nat.lt_of_not_le
  intro hx
  obtain ⟨i, _, a, hi, hle, hle'⟩ := he.covered pos hx hpos
  have := ha a (List.mem_of_getElem? hi)
  omega

/-- The other ranges end before the range or are inside. -/
theorem others_apart (he : Extended s place first taken rest x last s')
    (hl : Layer s.ranges s.level) (hall : ∀ a ∈ s.ranges, a.first ≤ a.last ∧ a.last ≤ last)
    (hown : ∀ i ∉ s.level, ∀ a, s.ranges[i]? = some a → a.last < first ∨ first ≤ a.first)
    {i : Nat} {a : Isolate} (hi : s.ranges[i]? = some a) :
    a.last < x ∨ (x ≤ a.first ∧ a.last ≤ last) := by
  obtain ⟨hle, hlast⟩ := hall a (List.mem_of_getElem? hi)
  have hx := he.le
  by_cases hm : i ∈ s.level
  · rw [he.split] at hm
    rcases List.mem_append.mp hm with hm | hm
    · exact .inr ⟨he.within i hm a hi, hlast⟩
    · exact .inl (he.apart i hm a hi)
  · rcases hown i hm a hi with hbefore | hafter
    · by_cases hlt : a.last < x
      · exact .inl hlt
      · -- What ends after `x` is inside of the range that covers its end.
        obtain ⟨k, hk, b, hb, hfirst, hcover⟩ := he.covered a.last (by omega) hbefore
        have hkl : k ∈ s.level := he.split ▸ List.mem_append_left _ hk
        have := he.within k hk b hb
        have := hl.apart k hkl i (fun hik => hm (hik ▸ hkl)) b a hb hi
        omega
    · exact .inr ⟨by omega, hlast⟩

end Extended

/-- Growth keeps the levels, if it stays inside of the frames that open them. -/
theorem Layered.extended (h : Layered s.ranges frames s.level s.outer)
    (he : Extended s place first taken rest x last s') (hle : x ≤ last)
    (hf : ∀ f ∈ frames, f.start < x)
    (hall : ∀ a ∈ s.ranges, a.first ≤ a.last ∧ a.last ≤ last)
    (hown : ∀ i ∉ s.level, ∀ a, s.ranges[i]? = some a → a.last < first ∨ first ≤ a.first) :
    Layered s'.ranges frames s'.level s'.outer := by
  have hr := he.replaced h.layer
  have hright := (he.split ▸ h.layer : Layer s.ranges (taken ++ rest)).right
  have hsame := hright.same hr he.apart
  have hlayer : Layer s'.ranges s'.level := by
    rw [he.level]
    refine (hright.aside hr he.apart).cons he.here rfl hle (fun i hi a ha => ?_)
      (fun i hi a ha => ?_)
    · exact he.apart i hi a (hsame i hi ▸ ha)
    · rw [he.others i hi] at ha
      exact he.others_apart h.layer hall hown ha
  have houter := h.outer_before hf
  rw [he.outer]
  cases hframes : frames with
  | nil =>
    rw [hframes] at h
    cases hout : s.outer with
    | nil => exact hlayer
    | cons next outer => simp [hout, Layered] at h
  | cons frame frames' =>
    subst hframes
    cases hout : s.outer with
    | nil => simp [hout, Layered] at h
    | cons next outer =>
      rw [hout] at h houter
      obtain ⟨_, hin, hbefore, hrest⟩ := h
      have hnext := houter next List.mem_cons_self
      refine ⟨hlayer, ?_, fun i hi a ha => ?_, hrest.aside hr houter⟩
      · rw [he.level]
        refine List.forall_mem_cons.mpr ⟨fun a ha => ?_, fun i hi a ha => ?_⟩
        · rw [he.here] at ha
          exact Option.some.inj ha ▸ hf frame List.mem_cons_self
        · exact hin i (he.split ▸ List.mem_append_right _ hi) a (hsame i hi ▸ ha)
      · exact hbefore i hi a (hrest.layer.same hr hnext i hi ▸ ha)

end LineMarkup.Isolate

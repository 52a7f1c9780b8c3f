import LineMarkup.Isolate
import LineMarkup.Proofs.Event.Trace

namespace LineMarkup.Isolate

/-- A range as those of constructs are given. -/
def range (isolate : Isolate) : Nat × Nat :=
  (isolate.first, isolate.last + 1)

namespace Search

/-- The ranges of all candidates, of the dropped ones too. -/
def ranges (s : Search) : List Isolate :=
  s.candidates.map (·.toIsolate)

end Search

variable {ranges : List Isolate} {s s' : Search} {kind : Construct}
  {level earlier taken rest : List Nat} {place first last x : Nat}

/-- The ranges of a level come one after another, the latest first. Every other range is apart from
them or inside of one. -/
structure Layer (ranges : List Isolate) (level : List Nat) : Prop where
  listed : ∀ i ∈ level, ∃ r, ranges[i]? = some r ∧ r.direction = .leftToRight ∧ r.first ≤ r.last
  order : level.Pairwise (fun later earlier => ∀ a b, ranges[later]? = some a →
    ranges[earlier]? = some b → b.last < a.first)
  apart : ∀ i ∈ level, ∀ j ≠ i, ∀ a b, ranges[i]? = some a → ranges[j]? = some b →
    b.last < a.first ∨ a.last < b.first ∨ (a.first ≤ b.first ∧ b.last ≤ a.last)

/-- Of `ranges`, the one at `place` now is `x` to `last`. It covers the text from `first` on, and
before that only what ranges of the level have covered, which it has taken in. -/
structure Grown (ranges : List Isolate) (place first : Nat) (taken rest : List Nat) (x last : Nat)
    (s' : Search) : Prop where
  level : s'.level = place :: rest
  here : s'.ranges[place]? = some { direction := .leftToRight, first := x, last }
  others : ∀ i ≠ place, s'.ranges[i]? = ranges[i]?
  le : x ≤ first
  within : ∀ i ∈ taken, ∀ r, ranges[i]? = some r → x ≤ r.first
  apart : ∀ i ∈ rest, ∀ r, ranges[i]? = some r → r.last < x
  covered : ∀ pos, x ≤ pos → pos < first →
    ∃ i ∈ taken, ∃ r, ranges[i]? = some r ∧ r.first ≤ pos ∧ pos ≤ r.last

/-- The latest range of the level of `s` has grown, or a new one has become the latest. -/
structure Extended (s : Search) (place first : Nat) (taken rest : List Nat) (x last : Nat)
    (s' : Search) : Prop extends Grown s.ranges place first taken rest x last s' where
  split : s.level = taken ++ rest
  outer : s'.outer = s.outer
  fresh : place ∈ taken ∨ taken = [] ∧ place = s.ranges.length
  sole : (∀ i ∈ taken, ∀ r, s.ranges[i]? = some r → r.last < first) → ∀ i ∈ taken, i = place

namespace Search

theorem range_of_candidate {c : Candidate} (h : s.candidates[place]? = some c) :
    s.ranges[place]? = some c.toIsolate := by
  simp [ranges, h]

theorem candidate_of_range {r : Isolate} (h : s.ranges[place]? = some r) :
    ∃ c, s.candidates[place]? = some c ∧ c.toIsolate = r := by
  simpa [ranges] using h

theorem change_other {f : Candidate → Candidate} {i : Nat} (hi : i ≠ place) :
    (s.change place f).ranges[i]? = s.ranges[i]? := by
  simp [ranges, change, Ne.symm hi]

theorem change_here {f : Candidate → Candidate} {c : Candidate}
    (h : s.candidates[place]? = some c) :
    (s.change place f).ranges[place]? = some (f c).toIsolate := by
  simp [ranges, change, h]

/-- A dropped candidate keeps its range. -/
theorem drop_ranges (s : Search) (place : Nat) : (s.drop place).ranges = s.ranges := by
  apply List.ext_getElem?
  intro i
  by_cases hi : i = place
  · subst hi
    cases hc : s.candidates[i]? <;> simp [ranges, drop, change, hc]
  · exact change_other hi

theorem absorb_outer (s : Search) (place : Nat) (level : List Nat) :
    (s.absorb place level).outer = s.outer := by
  induction level generalizing s with
  | nil => rfl
  | cons earlier rest ih =>
    simp only [absorb]
    split
    · split
      · exact ih _
      · rfl
    · rfl

/-- A range takes in the earlier ones of its level as long as it touches them. -/
theorem absorb_grown
    (hp : s.ranges[place]? = some { direction := .leftToRight, first := x, last })
    (hl : ∀ i ∈ level, i ≠ place ∧
      ∃ r, s.ranges[i]? = some r ∧ r.first ≤ r.last ∧ r.last ≤ last)
    (ho : level.Pairwise (fun later earlier => ∀ a b, s.ranges[later]? = some a →
      s.ranges[earlier]? = some b → b.last < a.first)) :
    ∃ taken rest x', level = taken ++ rest ∧
      Grown s.ranges place x taken rest x' last (s.absorb place level) := by
  induction level generalizing s x with
  | nil =>
    exact ⟨[], [], x, rfl, rfl, hp, fun _ _ => rfl, Nat.le_refl x, by simp, by simp,
      fun _ hx hpos => by omega⟩
  | cons earlier level ih =>
    obtain ⟨⟨hne, r, hr, hle, hlast⟩, hrest⟩ := List.forall_mem_cons.mp hl
    obtain ⟨hbefore, ho⟩ := List.pairwise_cons.mp ho
    obtain ⟨c, hc, hcp⟩ := candidate_of_range hp
    obtain ⟨d, hd, rfl⟩ := candidate_of_range hr
    have hfirst : c.first = x := congrArg Isolate.first hcp
    have hclast : c.last = last := congrArg Isolate.last hcp
    have hdirection : c.direction = .leftToRight := congrArg Isolate.direction hcp
    by_cases ht : c.first = d.last + 1 ∨ c.first ≤ d.last ∧ d.last ≤ c.last
    · simp only [absorb, hc, hd, if_pos ht]
      generalize hs₁ : (s.change place (fun range =>
        { range with first := min range.first d.first })).drop earlier = s₁
      have hothers : ∀ i ≠ place, s₁.ranges[i]? = s.ranges[i]? := by
        intro i hi
        rw [← hs₁, drop_ranges, change_other hi]
      have hhere : s₁.ranges[place]? =
          some { direction := .leftToRight, first := min x d.first, last } := by
        rw [← hs₁, drop_ranges, change_here hc, ← hfirst, ← hclast, ← hdirection]
      obtain ⟨taken, rest, x', rfl, hg⟩ := ih hhere
        (fun i hi => by rw [hothers i (hrest i hi).1]; exact hrest i hi)
        (ho.imp_of_mem (fun hi hj h a b ha hb => h a b
          (by rwa [hothers _ (hrest _ hi).1] at ha) (by rwa [hothers _ (hrest _ hj).1] at hb)))
      have hx' := hg.le
      refine ⟨earlier :: taken, rest, x', rfl, hg.level, hg.here,
        fun i hi => (hg.others i hi).trans (hothers i hi), by omega, ?_, ?_, ?_⟩
      · intro i hi r' hr'
        rcases List.mem_cons.mp hi with rfl | hi
        · rw [hr] at hr'
          obtain rfl := Option.some.inj hr'
          omega
        · refine hg.within i hi r' ?_
          rwa [hothers i (hrest i (List.mem_append_left _ hi)).1]
      · intro i hi r' hr'
        refine hg.apart i hi r' ?_
        rwa [hothers i (hrest i (List.mem_append_right _ hi)).1]
      · intro pos hx hpos
        by_cases hlt : pos < min x d.first
        · obtain ⟨i, hi, r', hr', hin⟩ := hg.covered pos hx hlt
          rw [hothers i (hrest i (List.mem_append_left _ hi)).1] at hr'
          exact ⟨i, List.mem_cons_of_mem _ hi, r', hr', hin⟩
        · exact ⟨earlier, List.mem_cons_self, d.toIsolate, hr, by omega, by omega⟩
    · simp only [absorb, hc, hd, if_neg ht]
      refine ⟨[], earlier :: level, x, rfl, rfl, hp, fun _ _ => rfl, Nat.le_refl x, by simp, ?_,
        fun _ hx hpos => by omega⟩
      have hdx : d.last < x := by omega
      intro i hi r' hr'
      rcases List.mem_cons.mp hi with rfl | hi
      · rw [hr] at hr'
        obtain rfl := Option.some.inj hr'
        exact hdx
      · have := hbefore i hi d.toIsolate r' hr hr'
        omega

theorem begin_extended (hk : kind ≠ .contentBlock)
    (hl : ∀ i ∈ s.level, ∀ r, s.ranges[i]? = some r → r.last < first) :
    ∃ s', s.begin kind first last = (some s.ranges.length, s') ∧
      Extended s s.ranges.length first [] s.level first last s' := by
  have hlen : s.candidates.length = s.ranges.length := by simp [ranges]
  rw [begin, if_neg hk, hlen]
  refine ⟨_, rfl, ⟨rfl, ?_, fun i hi => ?_, Nat.le_refl first, by simp, hl,
    fun pos hx hpos => by omega⟩, rfl, rfl, .inr ⟨rfl, rfl⟩, by simp⟩
  · simp [ranges]
  · have hi' : i ≠ s.candidates.length := hlen ▸ hi
    simp only [ranges, List.getElem?_map, List.getElem?_append]
    split
    · rfl
    · rw [List.getElem?_eq_none (by simp only [List.length_singleton]; omega),
        List.getElem?_eq_none (by omega)]

/-- The latest range reaches further than it did. -/
theorem change_extended (f : Candidate → Candidate) {c : Candidate}
    (hl : Layer s.ranges s.level) (hlevel : s.level = place :: earlier)
    (hc : s.candidates[place]? = some c)
    (hf : (f c).toIsolate = { direction := c.direction, first := c.first, last })
    (hle : c.first ≤ first) (hin : first ≤ c.last + 1) :
    Extended s place first [place] earlier c.first last (s.change place f) := by
  have hr := range_of_candidate hc
  have hbefore := (List.pairwise_cons.mp (hlevel ▸ hl.order)).1
  have hdirection : c.direction = .leftToRight := by
    obtain ⟨r, hr', hd, _⟩ := hl.listed place (by simp [hlevel])
    rw [hr] at hr'
    exact Option.some.inj hr' ▸ hd
  refine ⟨⟨hlevel, by rw [change_here hc, hf, hdirection], fun i hi => change_other hi, hle, ?_,
    fun i hi r hr' => hbefore i hi c.toIsolate r hr hr', fun pos hx hpos => ?_⟩, hlevel, rfl,
    .inl (by simp), fun _ i hi => List.mem_singleton.mp hi⟩
  · intro i hi r hr'
    rw [List.mem_singleton.mp hi, hr] at hr'
    exact Nat.le_of_eq (congrArg Isolate.first (Option.some.inj hr'))
  · exact ⟨place, by simp, c.toIsolate, hr, hx, by omega⟩

/-- What a construct does to a level: the range that covers it becomes the latest one, if there is
any. -/
theorem extend_cases (kind : Construct) (hl : Layer s.ranges s.level)
    (hlast : ∀ i ∈ s.level, ∀ r, s.ranges[i]? = some r → r.last ≤ last) :
    (kind = .contentBlock ∧ s.extend kind first last = (none, s)) ∨
    ∃ place s' taken rest x, s.extend kind first last = (some place, s') ∧
      Extended s place first taken rest x last s' := by
  have hbegin (hb : s.extend kind first last = s.begin kind first last)
      (hapart : ∀ i ∈ s.level, ∀ r, s.ranges[i]? = some r → r.last < first) :
      (kind = .contentBlock ∧ s.extend kind first last = (none, s)) ∨
      ∃ place s' taken rest x, s.extend kind first last = (some place, s') ∧
        Extended s place first taken rest x last s' := by
    by_cases hk : kind = .contentBlock
    · exact .inl ⟨hk, by rw [hb, begin, if_pos hk]⟩
    · obtain ⟨s', hs', he⟩ := begin_extended hk hapart
      exact .inr ⟨_, s', _, _, _, hb.trans hs', he⟩
  cases hlevel : s.level with
  | nil => exact hbegin (by simp [extend, hlevel]) (by simp [hlevel])
  | cons place earlier =>
    obtain ⟨r, hr, hdirection, hrange⟩ := hl.listed place (by simp [hlevel])
    have hrlast := hlast place (by simp [hlevel]) r hr
    obtain ⟨c, hc, rfl⟩ := candidate_of_range hr
    obtain ⟨hbefore, horder⟩ := List.pairwise_cons.mp (hlevel ▸ hl.order)
    have hearlier : ∀ i ∈ earlier, ∀ r, s.ranges[i]? = some r → r.last < c.first :=
      fun i hi r hr' => hbefore i hi c.toIsolate r hr hr'
    by_cases hfollows : first = c.last + 1
    · refine .inr ⟨place, s.change place (fun range => { range with last }), [place], earlier,
        c.first, by simp only [extend, hlevel, hc, if_pos hfollows], ?_⟩
      exact change_extended _ hl hlevel hc rfl (by omega) (by omega)
    · by_cases hoverlaps : c.first ≤ last ∧ first ≤ c.last
      · by_cases hback : first < c.first
        · generalize hs₁ : s.change place (fun range =>
            { range with first := min range.first first, last := max range.last last }) = s₁
          have hothers : ∀ i ≠ place, s₁.ranges[i]? = s.ranges[i]? := by
            intro i hi
            rw [← hs₁, change_other hi]
          have hhere : s₁.ranges[place]? = some { direction := .leftToRight, first, last } := by
            rw [← hs₁, change_here hc, ← hdirection]
            simp only [Option.some.injEq, Isolate.mk.injEq, true_and]
            omega
          have hne : ∀ i ∈ earlier, i ≠ place := by
            rintro i hi rfl
            have := hearlier i hi c.toIsolate hr
            omega
          obtain ⟨taken, rest, x, rfl, hg⟩ := absorb_grown hhere
            (fun i hi => ⟨hne i hi, by
              rw [hothers i (hne i hi)]
              obtain ⟨r, hr', _, hrange'⟩ := hl.listed i (by simp [hlevel, hi])
              exact ⟨r, hr', hrange', hlast i (by simp [hlevel, hi]) r hr'⟩⟩)
            (horder.imp_of_mem (fun hi hj h a b ha hb => h a b
              (by rwa [hothers _ (hne _ hi)] at ha) (by rwa [hothers _ (hne _ hj)] at hb)))
          have hback' := hg.le
          have hs₁outer : s₁.outer = s.outer := by rw [← hs₁]; rfl
          refine .inr ⟨place, _, place :: taken, rest, x, by
              simp only [extend, hlevel, hc, if_neg hfollows, if_pos hoverlaps, if_pos hback, hs₁],
            ⟨hg.level, hg.here, fun i hi => (hg.others i hi).trans (hothers i hi), hg.le, ?_, ?_,
              ?_⟩, hlevel, (absorb_outer _ _ _).trans hs₁outer, .inl (by simp), fun he => ?_⟩
          · intro i hi r hr'
            rcases List.mem_cons.mp hi with rfl | hi
            · rw [hr] at hr'
              obtain rfl := Option.some.inj hr'
              omega
            · exact hg.within i hi r (by rwa [hothers i (hne i (List.mem_append_left _ hi))])
          · intro i hi r hr'
            exact hg.apart i hi r (by rwa [hothers i (hne i (List.mem_append_right _ hi))])
          · intro pos hx hpos
            obtain ⟨i, hi, r, hr', hin⟩ := hg.covered pos hx hpos
            rw [hothers i (hne i (List.mem_append_left _ hi))] at hr'
            exact ⟨i, List.mem_cons_of_mem _ hi, r, hr', hin⟩
          · -- A range that ends before the construct does not overlap it.
            have := he place (by simp) c.toIsolate hr
            omega
        · refine .inr ⟨place, s.change place (fun range =>
              { range with first := min range.first first, last := max range.last last }), [place],
            earlier, c.first,
            by simp only [extend, hlevel, hc, if_neg hfollows, if_pos hoverlaps, if_neg hback], ?_⟩
          refine change_extended _ hl hlevel hc ?_ (by omega) (by omega)
          simp only [Isolate.mk.injEq, true_and]
          omega
      · refine hbegin (by simp only [extend, hlevel, hc, if_neg hfollows, if_neg hoverlaps]) ?_
        have hfirst : c.last < first := by omega
        intro i hi r hr'
        rw [hlevel] at hi
        rcases List.mem_cons.mp hi with rfl | hi
        · rw [hr] at hr'
          obtain rfl := Option.some.inj hr'
          exact hfirst
        · have := hearlier i hi r hr'
          omega

end Search

end LineMarkup.Isolate

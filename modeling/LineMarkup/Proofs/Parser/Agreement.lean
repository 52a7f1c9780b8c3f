import LineMarkup.Proofs.Parser.Abreast

namespace LineMarkup

open Token (Face)
open Token.Stream
open Matcher (Settles)

namespace Rule

/-- What a rule does does not depend on what comes after the line. -/
def regular (inside : Construct) (rule : Rule) : Bool :=
  rule.pattern.sparesWords && rule.goesOn && rule.calm inside &&
    (rule.minLength == 0 || rule.pattern.takesWords)

theorem others_regular (inside : Construct) :
    ∀ rule ∈ others inside, rule.regular inside = true := by
  apply List.all_eq_true.mp
  cases inside <;> decide

/-- A list entry within a heading is the only exception: more of the line may start after it. -/
theorem signs_regular (inside : Construct) (acs : Bool) : ∀ sign ∈ signs inside,
    (atStart acs sign).pattern.sparesWords = true ∧ sign.goesOn = true ∧ sign.minLength = 0 ∧
      (inside.endsWithLine = false → sign.calm inside = true) := by
  have hall : (signs inside).all (fun sign => (atStart acs sign).pattern.sparesWords &&
      sign.goesOn && sign.minLength == 0 && (inside.endsWithLine || sign.calm inside)) = true := by
    cases inside <;> cases acs <;> decide
  intro sign hm
  have := List.all_eq_true.mp hall sign hm
  simp only [Bool.and_eq_true, Bool.or_eq_true, beq_iff_eq] at this
  obtain ⟨⟨⟨hspares, hgoes⟩, hmin⟩, hcalm⟩ := this
  refine ⟨hspares, hgoes, hmin, fun hends => ?_⟩
  rw [hends] at hcalm
  simpa using hcalm

variable {inside : Construct} {rule sign : Rule} {low : Nat} {reach : Option Nat} {x : Face}
  {skipped fs : List Face} {acs acs' : Bool}

theorem others_agree (hm : rule ∈ others inside) (hs : Settles rule.pattern.run fs reach)
    (hlow : ∀ n ∈ reach, low ≤ n) : Agree inside low [] fs rule rule := by
  have hr := others_regular inside rule hm
  simp only [regular, Bool.and_eq_true, Bool.or_eq_true, beq_iff_eq] at hr
  obtain ⟨⟨⟨hspares, hgoes⟩, hcalm⟩, hmin⟩ := hr
  refine ⟨rfl, hspares, hspares, hgoes, reach, hs, ?_, fun n hn => ?_⟩
  · simpa using hs
  · exact ⟨hlow n hn, hcalm, hmin.imp_right (fun hw => ⟨rfl, hw, hw⟩)⟩

theorem others_agree_none (hm : rule ∈ others inside) (hs : Settles rule.pattern.run fs none)
    (hs' : Settles rule.pattern.run (skipped ++ fs) none) :
    Agree inside low skipped fs rule rule := by
  have hr := others_regular inside rule hm
  simp only [regular, Bool.and_eq_true] at hr
  obtain ⟨⟨⟨hspares, hgoes⟩, _⟩, _⟩ := hr
  exact ⟨rfl, hspares, hspares, hgoes, none, hs, hs', by simp⟩

theorem signs_agree (hm : sign ∈ signs inside)
    (hs : Settles (start acs sign.pattern).run fs reach)
    (hs' : Settles (start acs' sign.pattern).run (skipped ++ fs) (reach.map (skipped.length + ·)))
    (hreach : ∀ n ∈ reach, low ≤ n ∧ inside.endsWithLine = false) :
    Agree inside low skipped fs (atStart acs sign) (atStart acs' sign) := by
  obtain ⟨hspares, hgoes, hmin, hcalm⟩ := signs_regular inside acs sign hm
  obtain ⟨hspares', _⟩ := signs_regular inside acs' sign hm
  refine ⟨rfl, hspares, hspares', hgoes, reach, hs, hs', fun n hn => ?_⟩
  obtain ⟨hlow, hends⟩ := hreach n hn
  exact ⟨hlow, hcalm hends, .inl hmin⟩

/-- All rules agree if those for the start of a line do. -/
theorem within_agree (ho : ∀ rule ∈ others inside, Agree inside low skipped fs rule rule)
    (hs : ∀ sign ∈ signs inside,
      Agree inside low skipped fs (atStart acs sign) (atStart acs' sign)) :
    List.Forall₂ (Agree inside low skipped fs) (within inside acs) (within inside acs') := by
  rw [within_split, within_split]
  refine List.rel_append (List.forall₂_same.mpr ho) ?_
  rw [List.forall₂_map_left_iff, List.forall₂_map_right_iff]
  exact List.forall₂_same.mpr hs

theorem break_settles_inner (hx : x ≠ .feed) (fs : List Face) :
    Settles paragraphBreak.pattern.run (x :: fs) none := by
  have hnew := Matcher.newline_settles x fs
  rw [if_neg hx] at hnew
  exact Matcher.seq_settles_none hnew

/-- Within a line. That a line may start is of use to both parsers or to none. -/
theorem within_agree_inner (hx : x ≠ .feed) (hc : acs = true → inside.endsWithLine = false)
    (ha : acs = acs' ∨
      ∀ sign ∈ signs inside, Settles (start true sign.pattern).run (x :: fs) none) :
    List.Forall₂ (Agree inside 0 [] (x :: fs)) (within inside acs) (within inside acs') := by
  have hnever (rest : Matcher) : Settles (start false rest).run (x :: fs) none :=
    start_settles_never hx fs
  refine within_agree (fun rule hm => ?_) (fun sign hm => ?_)
  · rcases others_inline inside rule hm with hi | rfl
    · obtain ⟨reach, hs⟩ := Matcher.inline_settles hi (x :: fs)
      exact others_agree hm hs (fun n _ => Nat.zero_le n)
    · exact others_agree hm (break_settles_inner hx fs) (by simp)
  · rcases ha with rfl | ha
    · obtain ⟨reach, hs⟩ := start_settles_any (signs_inline inside sign hm) acs x fs
      cases acs with
      | true =>
        exact signs_agree hm hs (by simpa using hs) (fun n _ => ⟨Nat.zero_le n, hc rfl⟩)
      | false => exact signs_agree hm (hnever _) (hnever _) (by simp)
    · have hnone (acs : Bool) : Settles (start acs sign.pattern).run (x :: fs) none := by
        cases acs with
        | true => exact ha sign hm
        | false => exact hnever _
      exact signs_agree hm (hnone acs) (hnone acs') (by simp)

/-- Where a line starts, whether the parsers knew that it would or not. -/
theorem within_agree_feed (acs acs' : Bool) (hl : inside.lapses = false)
    (hends : inside.endsWithLine = false)
    (hb : paragraphBreak ∈ others inside → Settles paragraphBreak.pattern.run (.feed :: fs) none) :
    List.Forall₂ (Agree inside 1 [] (.feed :: fs)) (within inside acs) (within inside acs') := by
  refine within_agree (fun rule hm => ?_) (fun sign hm => ?_)
  · rcases others_inline inside rule hm with hi | rfl
    · exact others_agree hm (others_miss hl hm hi fs) (by simp)
    · exact others_agree hm (hb hm) (by simp)
  · obtain ⟨reach, hs⟩ := start_settles_feed (signs_inline inside sign hm) fs
    have hboth (acs : Bool) := (hs acs).1
    exact signs_agree hm (hboth acs) (by simpa using hboth acs')
      (fun n hn => ⟨(hs acs).2 n hn, hends⟩)

/-- Where a line starts, for a parser that has taken the end of the line before and one that has
not. Something does start with the line. -/
theorem within_agree_late (hl : inside.lapses = false) (hends : inside.endsWithLine = false)
    (hb : paragraphBreak ∈ others inside →
      Settles paragraphBreak.pattern.run (.feed :: x :: fs) none)
    (hx : x ≠ .feed) (hsign : sign ∈ signs inside) {s : Token.Stream} (hs : Shows (x :: fs) s)
    (hrun : ((atStart true sign).pattern.run s).1 = true) :
    List.Forall₂ (Agree inside 0 [.feed] (x :: fs)) (within inside true) (within inside false) := by
  refine within_agree (fun rule hm => ?_) (fun sign hm => ?_)
  · rcases others_inline inside rule hm with hi | rfl
    · exact others_agree_none hm (others_miss_start hm hi hsign hx hs hrun)
        (others_miss hl hm hi (x :: fs))
    · exact others_agree_none hm (break_settles_inner hx fs) (hb hm)
  · obtain ⟨reach, hlate, hearly⟩ := start_settles_late (signs_inline inside sign hm) hx fs
    exact signs_agree hm hlate hearly (fun n _ => ⟨Nat.zero_le n, hends⟩)

end Rule

end LineMarkup

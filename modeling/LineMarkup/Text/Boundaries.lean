namespace LineMarkup.Text

/-- A list `[a, b, c, d]` in ascending order stands for the code points from `a` up to before `b`
and from `c` up to before `d`: each boundary passed on the way up switches between inside and
outside. -/
def within : List Nat → Nat → Bool
  | [], _ => false
  | boundary :: rest, code => if code < boundary then false else !within rest code

theorem within_of_lt (h : code < boundary) : within (boundary :: rest) code = false := by
  simp [within, h]

theorem within_of_le (h : boundary ≤ code) :
    within (boundary :: rest) code = !within rest code := by
  simp [within, Nat.not_lt.mpr h]

end LineMarkup.Text

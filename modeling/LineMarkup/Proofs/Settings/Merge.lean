import LineMarkup.Settings.ModeLine
import Mathlib.Data.List.Induction

namespace LineMarkup.Settings

variable {s t : Settings} {key : Variable}

theorem merge_empty (s : Settings) : s.merge {} = s := by
  simp [merge]

theorem merge_assoc (r s t : Settings) : (r.merge s).merge t = r.merge (s.merge t) := by
  simp [merge, Option.or_assoc]

/-- The variables that a value which cannot be read unsets. -/
def switches : List Variable :=
  [.showControlChars, .autoBrackets, .autoTriggerCompletions]

def switch (s : Settings) : Variable → Option Bool
  | .showControlChars => s.showControlChars
  | .autoBrackets => s.autoBrackets
  | .autoTriggerCompletions => s.autoTriggerCompletions
  | _ => none

def withoutSwitches (s : Settings) : Settings :=
  { s with showControlChars := none, autoBrackets := none, autoTriggerCompletions := none }

theorem withoutSwitches_merge (s t : Settings) :
    (s.merge t).withoutSwitches = s.withoutSwitches.merge t.withoutSwitches := by
  simp [merge, withoutSwitches]

theorem switch_merge (s t : Settings) (key : Variable) :
    (s.merge t).switch key = (t.switch key <|> s.switch key) := by
  cases key <;> rfl

/-- What an assignment does to the other fields does not depend on what is set. -/
theorem withoutSwitches_assign (source : Source) (s : Settings) (key : Variable) (value : Text) :
    (s.assign source key value).withoutSwitches =
      s.withoutSwitches.merge (({} : Settings).assign source key value).withoutSwitches := by
  cases key with
  | fontSize | replaceTabs | backupInterval =>
    simp only [assign]
    repeat' split
    all_goals simp [withoutSwitches, merge]
  | _ => simp [assign, withoutSwitches, merge]

theorem switch_assign (hk : key ∈ switches) (source : Source) (s : Settings) (other : Variable)
    (value : Text) :
    (s.assign source other value).switch key =
      if other = key then readSwitch? value else s.switch key := by
  simp only [switches, List.mem_cons, List.not_mem_nil, or_false] at hk
  cases other with
  | fontSize | replaceTabs | backupInterval =>
    simp only [assign]
    repeat' split
    all_goals rcases hk with rfl | rfl | rfl <;> simp_all [switch]
  | _ => rcases hk with rfl | rfl | rfl <;> simp [assign, switch]

def assignAll (s : Settings) (source : Source) (parts : List (Variable × Text)) : Settings :=
  parts.foldl (fun s part => s.assign source part.1 part.2) s

/-- The value that a variable is assigned last. -/
def lastValue? (parts : List (Variable × Text)) (key : Variable) : Option Text :=
  (parts.reverse.find? (·.1 = key)).map Prod.snd

theorem withoutSwitches_assignAll (source : Source) (parts : List (Variable × Text))
    (s : Settings) :
    (s.assignAll source parts).withoutSwitches =
      s.withoutSwitches.merge (({} : Settings).assignAll source parts).withoutSwitches := by
  induction parts generalizing s with
  | nil => exact (merge_empty _).symm
  | cons part parts ih =>
    rw [assignAll, List.foldl_cons, ← assignAll, ih, withoutSwitches_assign, merge_assoc, ← ih]
    rfl

theorem switch_assignAll (hk : key ∈ switches) (source : Source) (s : Settings)
    (parts : List (Variable × Text)) :
    (s.assignAll source parts).switch key =
      ((lastValue? parts key).map readSwitch?).getD (s.switch key) := by
  induction parts using List.reverseRecOn with
  | nil => rfl
  | append_singleton parts part ih =>
    rw [assignAll, List.foldl_append, List.foldl_cons, List.foldl_nil, switch_assign hk, lastValue?,
      List.reverse_append, List.reverse_singleton, List.singleton_append, List.find?_cons]
    by_cases hp : part.1 = key
    · simp [hp]
    · simp only [hp, decide_false, ↓reduceIte]
      exact ih

/-- A mode line applied in place gives what its settings give when they are merged. Only a switch
whose last value cannot be read is unset by the line, and keeps its value in the merge. -/
theorem parseModeLine_eq_merge (c : Settings) (line : Text) (source : Source) :
    let a := c.parseModeLine line source
    let b := c.merge (ofModeLine line source)
    a.withoutSwitches = b.withoutSwitches ∧ ∀ key ∈ switches,
      if (lastValue? (modeLineAssignments line) key).map readSwitch? = some none then
        a.switch key = none ∧ b.switch key = c.switch key
      else a.switch key = b.switch key := by
  intro a b
  refine ⟨?_, fun key hk => ?_⟩
  · rw [withoutSwitches_merge]
    exact withoutSwitches_assignAll source (modeLineAssignments line) c
  · have ha : a.switch key = _ := switch_assignAll hk source c (modeLineAssignments line)
    have hb : b.switch key = _ := switch_merge c (ofModeLine line source) key
    have hread : (ofModeLine line source).switch key = _ :=
      switch_assignAll hk source {} (modeLineAssignments line)
    have hempty : ({} : Settings).switch key = none := by
      cases key <;> rfl
    rw [ha, hb, hread, hempty]
    cases hlast : (lastValue? (modeLineAssignments line) key).map readSwitch? with
    | none => simp
    | some read => cases read <;> simp

/-- The later value of the switch counts, and it cannot be read. -/
theorem parseModeLine_unsets :
    let c : Settings := { fontSize := some 9, showControlChars := some true }
    let line := "font-size 12; show-control-chars on; show-control-chars maybe".toList
    (c.parseModeLine line .settings).switch .showControlChars = none ∧
      (c.merge (ofModeLine line .settings)).switch .showControlChars = some true := by
  have hlast : (lastValue? (modeLineAssignments
      "font-size 12; show-control-chars on; show-control-chars maybe".toList)
      .showControlChars).map readSwitch? = some none := by
    decide +kernel
  intro c line
  obtain ⟨_, hswitch⟩ := parseModeLine_eq_merge c line .settings
  have hkey := hswitch .showControlChars List.mem_cons_self
  rwa [if_pos hlast] at hkey

end LineMarkup.Settings

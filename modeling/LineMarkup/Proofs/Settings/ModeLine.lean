import LineMarkup.Proofs.Settings.Merge
import LineMarkup.Proofs.Text.Decimal
import LineMarkup.Proofs.Text.Lines
import LineMarkup.Proofs.Text.Trim

namespace LineMarkup.Settings

variable {s t : Settings} {key : Variable} {value : Text}

/-- What is written for a variable. -/
def written (s : Settings) : Variable → Option Text
  | .font => s.fontFamily
  | .fontSize => s.fontSize.map (fun size => Text.decimal size.toNat)
  | .indentMode => s.indentMode.map indentModeWord
  | .replaceTabs => s.indentStyle.map (fun style => switchWord (style = .spaces))
  | .indentWidth => s.indentWidth.map (fun width => Text.decimal width.toNat)
  | .tabWidth => s.tabWidth.map (fun width => Text.decimal width.toNat)
  | .scheme => s.colorScheme
  | .showLineNumbers => s.lineNumberStyle.map lineNumberWord
  | .showControlChars => s.showControlChars.map switchWord
  | .autoBrackets => s.autoBrackets.map switchWord
  | .autoTriggerCompletions => s.autoTriggerCompletions.map switchWord
  | .backupInterval => s.backupInterval.map (fun interval => Text.decimal interval.toNat)

/-- The settings with one field of `s`, the one that the variable stands for. -/
def only (s : Settings) : Variable → Settings
  | .font => { fontFamily := s.fontFamily }
  | .fontSize => { fontSize := s.fontSize }
  | .indentMode => { indentMode := s.indentMode }
  | .replaceTabs => { indentStyle := s.indentStyle }
  | .indentWidth => { indentWidth := s.indentWidth }
  | .tabWidth => { tabWidth := s.tabWidth }
  | .scheme => { colorScheme := s.colorScheme }
  | .showLineNumbers => { lineNumberStyle := s.lineNumberStyle }
  | .showControlChars => { showControlChars := s.showControlChars }
  | .autoBrackets => { autoBrackets := s.autoBrackets }
  | .autoTriggerCompletions => { autoTriggerCompletions := s.autoTriggerCompletions }
  | .backupInterval => { backupInterval := s.backupInterval }

theorem assignments_eq (s : Settings) :
    s.assignments = Variable.all.flatMap (fun key => (s.written key).toList.map (key, ·)) := by
  simp only [assignments, Variable.all, written, List.flatMap_cons, List.flatMap_nil,
    List.append_nil, List.append_assoc]

theorem merge_only (s : Settings) :
    Variable.all.foldl (fun t key => t.merge (s.only key)) {} = s := by
  simp [Variable.all, only, merge]

theorem only_eq_empty (h : s.written key = none) : s.only key = {} := by
  cases key <;> simp_all [written, only]

theorem readIndentMode?_word (mode : IndentMode) :
    readIndentMode? (indentModeWord mode) = some mode := by
  cases mode <;> rfl

theorem readLineNumberStyle?_word (style : LineNumberStyle) :
    readLineNumberStyle? (lineNumberWord style) = some style := by
  cases style <;> rfl

theorem readSwitch?_word (on : Bool) : readSwitch? (switchWord on) = some on := by
  cases on <;> decide +kernel

/-- A zero is no size of a font. Every other value is read back. -/
theorem assign_written (hsize : s.fontSize ≠ some 0) (h : s.written key = some value)
    (t : Settings) : t.assign .settings key value = t.merge (s.only key) := by
  cases key with
  | font | scheme => simp_all [written, assign, merge, only]
  | fontSize =>
    obtain ⟨size, hs, rfl⟩ := Option.map_eq_some_iff.mp h
    have hne : size ≠ 0 := fun hz => hsize (hz ▸ hs)
    simp [assign, Text.readWord?_decimal, hne, merge, only, hs]
  | replaceTabs =>
    obtain ⟨style, hs, rfl⟩ := Option.map_eq_some_iff.mp h
    cases style <;> simp [assign, readSwitch?_word, merge, only, hs]
  | _ =>
    obtain ⟨field, hs, rfl⟩ := Option.map_eq_some_iff.mp h
    simp [assign, Text.readWord?_decimal, readIndentMode?_word, readLineNumberStyle?_word,
      readSwitch?_word, merge, only, hs]

/-- Assigned one after the other, the values make up the settings again. -/
theorem assignAll_assignments (hsize : s.fontSize ≠ some 0) :
    ({} : Settings).assignAll .settings s.assignments = s := by
  -- One field after the other is merged in; a variable that is not set adds nothing.
  have hall (keys : List Variable) (t : Settings) :
      t.assignAll .settings (keys.flatMap (fun key => (s.written key).toList.map (key, ·))) =
        keys.foldl (fun t key => t.merge (s.only key)) t := by
    induction keys generalizing t with
    | nil => rfl
    | cons key keys ih =>
      rw [List.flatMap_cons, assignAll, List.foldl_append, ← assignAll, ih, List.foldl_cons]
      congr 1
      cases hw : s.written key with
      | none => rw [only_eq_empty hw, merge_empty]; rfl
      | some value => exact assign_written hsize hw t
  rw [assignments_eq, hall, merge_only]

/-- A text that a mode line can hold as a value. -/
structure Plain (value : Text) : Prop where
  nonempty : value ≠ []
  separator : ';' ∉ value
  head : ∀ c, value.head? = some c → Text.isBlank c = false
  last : ∀ c, value.getLast? = some c → Text.isBlank c = false

theorem Plain.of_alphanum (hn : value ≠ []) (h : ∀ c ∈ value, c.isAlphanum = true) :
    Plain value where
  nonempty := hn
  separator hs := absurd (h _ hs) (by decide)
  head c hc := Text.isBlank_of_alphanum (h c (List.mem_of_head? hc))
  last c hc := Text.isBlank_of_alphanum (h c (List.mem_of_getLast? hc))

theorem alphanum_of_all (h : (!value.isEmpty && value.all Char.isAlphanum) = true) :
    value ≠ [] ∧ ∀ c ∈ value, c.isAlphanum = true := by
  simpa using h

theorem written_alphanum (hfont : key ≠ .font) (hscheme : key ≠ .scheme)
    (h : s.written key = some value) : value ≠ [] ∧ ∀ c ∈ value, c.isAlphanum = true := by
  have hdecimal (n : Nat) :
      Text.decimal n ≠ [] ∧ ∀ c ∈ Text.decimal n, c.isAlphanum = true := by
    refine ⟨Text.decimal_ne_nil n, fun c hc => ?_⟩
    have hdigit : Text.isDigit c = c.isDigit := rfl
    rw [Char.isAlphanum, ← hdigit, Text.isDigit_of_mem_decimal hc, Bool.or_true]
  cases key with
  | font => exact absurd rfl hfont
  | scheme => exact absurd rfl hscheme
  | fontSize | indentWidth | tabWidth | backupInterval =>
    obtain ⟨word, _, rfl⟩ := Option.map_eq_some_iff.mp h
    exact hdecimal word.toNat
  | indentMode | showLineNumbers =>
    obtain ⟨choice, _, rfl⟩ := Option.map_eq_some_iff.mp h
    cases choice <;> exact alphanum_of_all rfl
  | _ =>
    obtain ⟨on, _, rfl⟩ := Option.map_eq_some_iff.mp h
    simp only [switchWord]
    split <;> exact alphanum_of_all rfl

theorem Variable.ofName?_name (key : Variable) : ofName? key.name = some key := by
  cases key <;> decide +kernel

theorem Variable.name_head (key : Variable) : ∃ c rest, key.name = c :: rest ∧
    Text.isBlank c = false := by
  cases key <;> exact ⟨_, _, rfl, rfl⟩

theorem Variable.name_separators (key : Variable) :
    ' ' ∉ key.name ∧ ';' ∉ key.name ∧ ':' ∉ key.name := by
  cases key <;> decide

theorem Plain.trim_eq (hp : Plain value) : Text.trim value = value :=
  Text.trim_eq_self hp.head hp.last

theorem assignment?_eq (hp : Plain value) (key : Variable) :
    assignment? (key.name ++ ' ' :: value) = some (key, value) := by
  have htrim : Text.trim (key.name ++ ' ' :: value) = key.name ++ ' ' :: value := by
    refine Text.trim_eq_self (fun c hc => ?_) (fun c hc => hp.last c ?_)
    · obtain ⟨first, rest, hname, hfirst⟩ := key.name_head
      rw [hname, List.cons_append, List.head?_cons] at hc
      exact Option.some.inj hc ▸ hfirst
    · rw [List.getLast?_append, List.getLast?_cons_of_ne_nil hp.nonempty,
        List.getLast?_eq_some_getLast hp.nonempty, Option.some_or] at hc
      rwa [List.getLast?_eq_some_getLast hp.nonempty]
  have hkeep : ∀ c ∈ key.name, decide (c ≠ ' ') = true := fun c hc =>
    decide_eq_true fun hspace => key.name_separators.1 (hspace ▸ hc)
  have htake : (key.name ++ ' ' :: value).takeWhile (· ≠ ' ') = key.name := by
    rw [List.takeWhile_append_of_pos hkeep, List.takeWhile_cons_of_neg (by simp), List.append_nil]
  have hdrop : (key.name ++ ' ' :: value).dropWhile (· ≠ ' ') = ' ' :: value := by
    rw [List.dropWhile_append_of_pos hkeep, List.dropWhile_cons_of_neg (by simp)]
  simp only [assignment?, htrim, htake, hdrop, Variable.ofName?_name, hp.trim_eq, Option.map_some]

theorem assignment?_congr {part other : Text} (h : Text.trim part = Text.trim other) :
    assignment? part = assignment? other := by
  rw [assignment?, assignment?, h]

theorem isBlank_of_mem_space : ∀ c ∈ [' '], Text.isBlank c = true := by
  intro c hc
  rw [List.mem_singleton.mp hc]
  rfl

/-- The assignments of what is left of a line without its prefix. -/
def bodyAssignments (body : Text) : List (Variable × Text) :=
  (Text.split ';' body).filterMap assignment?

section Blanks

variable {blanks : Text} (h : ∀ c ∈ blanks, Text.isBlank c = true)
include h

theorem separator_not_mem : ';' ∉ blanks :=
  fun hs => absurd (h _ hs) (by decide)

theorem bodyAssignments_blank_append (body : Text) :
    bodyAssignments (blanks ++ body) = bodyAssignments body := by
  have hn : Text.split ';' body ≠ [] := Text.split_ne_nil
  obtain ⟨part, parts, hs⟩ := List.exists_cons_of_ne_nil hn
  rw [bodyAssignments, bodyAssignments, Text.split_prepend (separator_not_mem h) hs, hs,
    List.filterMap_cons, List.filterMap_cons, assignment?_congr (Text.trim_blank_append h)]

theorem bodyAssignments_append_blank (body : Text) :
    bodyAssignments (body ++ blanks) = bodyAssignments body := by
  obtain ⟨front, last, hs, hlonger⟩ := Text.split_postpend (separator_not_mem h) body
  rw [bodyAssignments, bodyAssignments, hs, hlonger, List.filterMap_append, List.filterMap_append,
    List.filterMap_cons, List.filterMap_cons, assignment?_congr (Text.trim_append_blank h)]

end Blanks

theorem bodyAssignments_trim (body : Text) :
    bodyAssignments (Text.trim body) = bodyAssignments body := by
  obtain ⟨front, back, hbody, hfront, hback⟩ := Text.trim_surrounded body
  conv_rhs => rw [hbody, bodyAssignments_append_blank hback, bodyAssignments_blank_append hfront]

/-- Values that are written behind each other are found again. -/
theorem bodyAssignments_flatMap {parts : List (Variable × Text)}
    (h : ∀ part ∈ parts, Plain part.2) :
    bodyAssignments (parts.flatMap (fun part => part.1.name ++ ' ' :: part.2 ++ "; ".toList)) =
      parts := by
  induction parts with
  | nil => rfl
  | cons part parts ih =>
    obtain ⟨hp, hrest⟩ := List.forall_mem_cons.mp h
    have hn : ';' ∉ part.1.name ++ ' ' :: part.2 := by
      simp [hp.separator, part.1.name_separators]
    have hbody := ih hrest
    rw [← bodyAssignments_blank_append isBlank_of_mem_space] at hbody
    have hcut (rest : Text) : part.1.name ++ ' ' :: part.2 ++ "; ".toList ++ rest =
        part.1.name ++ ' ' :: part.2 ++ ';' :: ([' '] ++ rest) :=
      List.append_assoc _ _ _
    rw [List.flatMap_cons, hcut, bodyAssignments, Text.split_append hn, List.filterMap_cons,
      assignment?_eq hp, ← bodyAssignments, hbody]

theorem mem_assignments {part : Variable × Text} (h : part ∈ s.assignments) :
    s.written part.1 = some part.2 := by
  rw [assignments_eq] at h
  obtain ⟨key, _, h⟩ := List.mem_flatMap.mp h
  obtain ⟨value, hvalue, rfl⟩ := List.mem_map.mp h
  exact Option.mem_toList.mp hvalue

/-- What holds of the two texts and of words holds of all values that are written. -/
theorem written_of_texts {P : Text → Prop}
    (hfont : ∀ family, s.fontFamily = some family → P family)
    (hscheme : ∀ scheme, s.colorScheme = some scheme → P scheme)
    (hword : ∀ value : Text, value ≠ [] → (∀ c ∈ value, c.isAlphanum = true) → P value)
    (h : s.written key = some value) : P value := by
  by_cases hf : key = .font
  · subst hf
    exact hfont value h
  by_cases hs : key = .scheme
  · subst hs
    exact hscheme value h
  obtain ⟨hn, hall⟩ := written_alphanum hf hs h
  exact hword value hn hall

theorem bodyAssignments_toModeLine
    (hfont : ∀ family, s.fontFamily = some family → Plain family)
    (hscheme : ∀ scheme, s.colorScheme = some scheme → Plain scheme) :
    bodyAssignments s.toModeLine = s.assignments := by
  rw [toModeLine, bodyAssignments_trim]
  exact bodyAssignments_flatMap fun part hp =>
    written_of_texts hfont hscheme (fun _ => Plain.of_alphanum) (mem_assignments hp)

theorem colon_not_mem_toModeLine
    (hfont : ∀ family, s.fontFamily = some family → ':' ∉ family)
    (hscheme : ∀ scheme, s.colorScheme = some scheme → ':' ∉ scheme) :
    ':' ∉ s.toModeLine := by
  intro hc
  obtain ⟨part, hp, hc⟩ := List.mem_flatMap.mp (Text.mem_of_mem_trim hc)
  have hvalue : ':' ∉ part.2 :=
    written_of_texts hfont hscheme (fun _ _ hall hc => absurd (hall _ hc) (by decide))
      (mem_assignments hp)
  simp [part.1.name_separators, hvalue] at hc

theorem modeLineBody_of_no_colon {line : Text} (h : ':' ∉ line) : modeLineBody line = line := by
  have hall : ∀ c ∈ line, decide (c ≠ ':') = true := fun c hc =>
    decide_eq_true fun heq => h (heq ▸ hc)
  rw [modeLineBody, List.dropWhile_eq_nil_iff.mpr hall]
  split
  · contradiction
  · rfl

theorem ofModeLine_eq (line : Text) (source : Source) :
    ofModeLine line source =
      ({} : Settings).assignAll source (bodyAssignments (modeLineBody line)) :=
  rfl

/-- Settings are read from the mode line that is written for them, behind a prefix, and without one
when there is no colon in their texts. -/
theorem ofModeLine_toModeLine (hsize : s.fontSize ≠ some 0)
    (hfont : ∀ family, s.fontFamily = some family → Plain family)
    (hscheme : ∀ scheme, s.colorScheme = some scheme → Plain scheme) :
    ofModeLine ("katvan: ".toList ++ s.toModeLine) .settings = s ∧
      ((∀ family, s.fontFamily = some family → ':' ∉ family) →
        (∀ scheme, s.colorScheme = some scheme → ':' ∉ scheme) →
        ofModeLine s.toModeLine .settings = s) := by
  have hread := bodyAssignments_toModeLine hfont hscheme
  have hall := assignAll_assignments hsize
  refine ⟨?_, fun hfamily hcolors => ?_⟩
  · -- The space of the prefix stays before the first assignment, where it does not count.
    have hbody : modeLineBody ("katvan: ".toList ++ s.toModeLine) = [' '] ++ s.toModeLine := rfl
    rw [ofModeLine_eq, hbody, bodyAssignments_blank_append isBlank_of_mem_space, hread, hall]
  · rw [ofModeLine_eq, modeLineBody_of_no_colon (colon_not_mem_toModeLine hfamily hcolors), hread,
      hall]

/-- The name of a font may hold blanks and the name of a scheme a hyphen. -/
theorem ofModeLine_toModeLine_names :
    let s : Settings :=
      { fontFamily := some "DejaVu Sans".toList, fontSize := some 12, indentStyle := some .tabs,
        colorScheme := some "solarized-dark".toList, backupInterval := some 0 }
    ofModeLine ("katvan: ".toList ++ s.toModeLine) .settings = s ∧
      ofModeLine s.toModeLine .settings = s := by
  intro s
  have hnames : ∀ name ∈ ["DejaVu Sans".toList, "solarized-dark".toList],
      Plain name ∧ ':' ∉ name := by
    refine List.forall_mem_cons.mpr ⟨?_, List.forall_mem_singleton.mpr ?_⟩
    all_goals
      refine ⟨⟨by decide, by decide, ?_, ?_⟩, by decide⟩
      · rintro c ⟨⟩
        decide
      · rintro c ⟨⟩
        decide
  have hfont (family : Text) (h : s.fontFamily = some family) : Plain family ∧ ':' ∉ family :=
    hnames family (Option.some.inj h ▸ List.mem_cons_self)
  have hscheme (scheme : Text) (h : s.colorScheme = some scheme) :
      Plain scheme ∧ ':' ∉ scheme :=
    hnames scheme (Option.some.inj h ▸ List.mem_cons_of_mem _ List.mem_cons_self)
  obtain ⟨hbehind, hbare⟩ := ofModeLine_toModeLine (s := s) (by decide)
    (fun family h => (hfont family h).1) (fun scheme h => (hscheme scheme h).1)
  exact ⟨hbehind,
    hbare (fun family h => (hfont family h).2) (fun scheme h => (hscheme scheme h).2)⟩

end LineMarkup.Settings

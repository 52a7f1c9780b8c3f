import LineMarkup.Data.Basic
import LineMarkup.Settings.Basic

namespace LineMarkup.Settings

inductive Field
  | fontFamily
  | fontSize
  | indentMode
  | indentStyle
  | indentWidth
  | tabWidth
  | colorScheme
  | lineNumberStyle
  | showControlChars
  | autoBrackets
  | autoTriggerCompletions
  | backupInterval
deriving DecidableEq, Repr

namespace Field

/-- The order in which the fields are written. -/
def all : List Field :=
  [.fontFamily, .fontSize, .indentMode, .indentStyle, .indentWidth, .tabWidth, .colorScheme,
    .lineNumberStyle, .showControlChars, .autoBrackets, .autoTriggerCompletions, .backupInterval]

def name : Field → String
  | .fontFamily => "font-family"
  | .fontSize => "font-size"
  | .indentMode => "indent-mode"
  | .indentStyle => "indent-style"
  | .indentWidth => "indent-width"
  | .tabWidth => "tab-width"
  | .colorScheme => "color-scheme"
  | .lineNumberStyle => "line-number-style"
  | .showControlChars => "show-control-chars"
  | .autoBrackets => "auto-brackets"
  | .autoTriggerCompletions => "auto-trigger-completions"
  | .backupInterval => "backup-interval"

def ofName? (name : Text) : Option Field :=
  all.find? (fun field => field.name.toList = name)

end Field

def get? (s : Settings) : Field → Option Data
  | .fontFamily => s.fontFamily.map .text
  | .fontSize => s.fontSize.map (fun n => .number n.toNat)
  | .indentMode => s.indentMode.map (fun mode => .string mode.name)
  | .indentStyle => s.indentStyle.map (fun style => .string style.name)
  | .indentWidth => s.indentWidth.map (fun n => .number n.toNat)
  | .tabWidth => s.tabWidth.map (fun n => .number n.toNat)
  | .colorScheme => s.colorScheme.map .text
  | .lineNumberStyle => s.lineNumberStyle.map (fun style => .string style.name)
  | .showControlChars => s.showControlChars.map .bool
  | .autoBrackets => s.autoBrackets.map .bool
  | .autoTriggerCompletions => s.autoTriggerCompletions.map .bool
  | .backupInterval => s.backupInterval.map (fun n => .number n.toNat)

/-- The fields that are set. -/
def toData (s : Settings) : Data :=
  .record (Field.all.filterMap (fun field => (s.get? field).map (fun value => (field.name, value))))

/-- How values of a format are taken. A value of the wrong type is not. -/
structure Decoder (Value : Type) where
  isNull : Value → Bool
  word? : Value → Option UInt32
  bool? : Value → Option Bool
  text? : Value → Option Text
  /-- The name of one of several choices. -/
  choice? : Value → Option Text

def choose {α : Type} (all : List α) (name : α → String) (chosen : Text) : Option α :=
  all.find? (fun choice => (name choice).toList = chosen)

/-- Sets a field. A null leaves it unset. -/
def set? {Value : Type} (d : Decoder Value) (s : Settings) (field : Field) (value : Value) :
    Option Settings :=
  if d.isNull value then some s
  else match field with
    | .fontFamily => (d.text? value).map (fun v => { s with fontFamily := some v })
    | .fontSize => (d.word? value).map (fun v => { s with fontSize := some v })
    | .indentMode =>
      ((d.choice? value).bind (choose IndentMode.all IndentMode.name)).map
        (fun v => { s with indentMode := some v })
    | .indentStyle =>
      ((d.choice? value).bind (choose IndentStyle.all IndentStyle.name)).map
        (fun v => { s with indentStyle := some v })
    | .indentWidth => (d.word? value).map (fun v => { s with indentWidth := some v })
    | .tabWidth => (d.word? value).map (fun v => { s with tabWidth := some v })
    | .colorScheme => (d.text? value).map (fun v => { s with colorScheme := some v })
    | .lineNumberStyle =>
      ((d.choice? value).bind (choose LineNumberStyle.all LineNumberStyle.name)).map
        (fun v => { s with lineNumberStyle := some v })
    | .showControlChars => (d.bool? value).map (fun v => { s with showControlChars := some v })
    | .autoBrackets => (d.bool? value).map (fun v => { s with autoBrackets := some v })
    | .autoTriggerCompletions =>
      (d.bool? value).map (fun v => { s with autoTriggerCompletions := some v })
    | .backupInterval => (d.word? value).map (fun v => { s with backupInterval := some v })

/-- Settings from fields, none of them twice. -/
def ofFields? {Value : Type} (d : Decoder Value) (fields : List (Field × Value)) :
    Option Settings :=
  if (fields.map Prod.fst).Nodup then
    fields.foldlM (fun s (field, value) => s.set? d field value) {}
  else none

def word? (n : Nat) : Option UInt32 :=
  if n < UInt32.size then some (UInt32.ofNat n) else none

end LineMarkup.Settings

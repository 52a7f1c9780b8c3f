import LineMarkup.Settings.Basic
import LineMarkup.Text.Blank
import LineMarkup.Text.Decimal

namespace LineMarkup

namespace Settings

/-- Where a mode line stands. Some variables count in the settings of the application only. -/
inductive Source
  | settings
  | document
deriving DecidableEq, Repr

inductive Variable
  | font
  | fontSize
  | indentMode
  | replaceTabs
  | indentWidth
  | tabWidth
  | scheme
  | showLineNumbers
  | showControlChars
  | autoBrackets
  | autoTriggerCompletions
  | backupInterval
deriving DecidableEq, Repr

namespace Variable

def all : List Variable :=
  [.font, .fontSize, .indentMode, .replaceTabs, .indentWidth, .tabWidth, .scheme, .showLineNumbers,
    .showControlChars, .autoBrackets, .autoTriggerCompletions, .backupInterval]

def name : Variable → Text
  | .font => "font".toList
  | .fontSize => "font-size".toList
  | .indentMode => "indent-mode".toList
  | .replaceTabs => "replace-tabs".toList
  | .indentWidth => "indent-width".toList
  | .tabWidth => "tab-width".toList
  | .scheme => "scheme".toList
  | .showLineNumbers => "show-line-numbers".toList
  | .showControlChars => "show-control-chars".toList
  | .autoBrackets => "auto-brackets".toList
  | .autoTriggerCompletions => "auto-trigger-completions".toList
  | .backupInterval => "backup-interval".toList

def ofName? (name : Text) : Option Variable :=
  all.find? (fun key => key.name = name)

end Variable

def indentModeWord : IndentMode → Text
  | .off => "none".toList
  | .normal => "normal".toList
  | .smart => "typst".toList

def readIndentMode? (value : Text) : Option IndentMode :=
  IndentMode.all.find? (fun mode => indentModeWord mode = value)

def lineNumberWord : LineNumberStyle → Text
  | .bothSides => "both".toList
  | .primaryOnly => "primary".toList
  | .hidden => "none".toList

def readLineNumberStyle? (value : Text) : Option LineNumberStyle :=
  LineNumberStyle.all.find? (fun style => lineNumberWord style = value)

def switchWord (on : Bool) : Text :=
  if on then "on".toList else "off".toList

/-- Upper case counts as lower case. -/
def readSwitch? (value : Text) : Option Bool :=
  let value := value.map Char.toLower
  if ["on".toList, "true".toList, "1".toList].contains value then some true
  else if ["off".toList, "false".toList, "0".toList].contains value then some false
  else none

/-- Sets a variable. A value that cannot be read changes nothing, but for the last three switches it
unsets the variable. -/
def assign (source : Source) (s : Settings) (key : Variable) (value : Text) : Settings :=
  match key with
  | .font => { s with fontFamily := some value }
  | .fontSize =>
    match Text.readWord? value with
    | some size => if size = 0 then s else { s with fontSize := some size }
    | none => s
  | .indentMode => { s with indentMode := readIndentMode? value <|> s.indentMode }
  | .replaceTabs =>
    match readSwitch? value with
    | some on => { s with indentStyle := some (if on then .spaces else .tabs) }
    | none => s
  | .indentWidth => { s with indentWidth := Text.readWord? value <|> s.indentWidth }
  | .tabWidth => { s with tabWidth := Text.readWord? value <|> s.tabWidth }
  | .scheme => { s with colorScheme := some value }
  | .showLineNumbers =>
    { s with lineNumberStyle := readLineNumberStyle? value <|> s.lineNumberStyle }
  | .showControlChars => { s with showControlChars := readSwitch? value }
  | .autoBrackets => { s with autoBrackets := readSwitch? value }
  | .autoTriggerCompletions => { s with autoTriggerCompletions := readSwitch? value }
  | .backupInterval =>
    match source with
    | .settings => { s with backupInterval := Text.readWord? value <|> s.backupInterval }
    | .document => s

/-- What follows the first colon, unless the line starts with it. -/
def modeLineBody (line : Text) : Text :=
  match line.takeWhile (· ≠ ':'), line.dropWhile (· ≠ ':') with
  | _ :: _, _ :: rest => rest
  | _, _ => line

/-- A variable and its value, with a space between them. -/
def assignment? (part : Text) : Option (Variable × Text) :=
  let part := Text.trim part
  match part.dropWhile (· ≠ ' ') with
  | [] => none
  | _ :: value =>
    (Variable.ofName? (part.takeWhile (· ≠ ' '))).map (fun key => (key, Text.trim value))

/-- The assignments of a mode line. Parts that are none are passed over. -/
def modeLineAssignments (line : Text) : List (Variable × Text) :=
  (Text.split ';' (modeLineBody line)).filterMap assignment?

/-- Sets the variables of a mode line on top of what is set. -/
def parseModeLine (s : Settings) (line : Text) (source : Source) : Settings :=
  (modeLineAssignments line).foldl (fun s part => s.assign source part.1 part.2) s

def ofModeLine (line : Text) (source : Source) : Settings :=
  ({} : Settings).parseModeLine line source

def assignments (s : Settings) : List (Variable × Text) :=
  let word (value : UInt32) := Text.decimal value.toNat
  let set (key : Variable) (value : Option Text) : List (Variable × Text) :=
    value.toList.map (fun value => (key, value))
  set .font s.fontFamily ++
    set .fontSize (s.fontSize.map word) ++
    set .indentMode (s.indentMode.map indentModeWord) ++
    set .replaceTabs (s.indentStyle.map (fun style => switchWord (style = .spaces))) ++
    set .indentWidth (s.indentWidth.map word) ++
    set .tabWidth (s.tabWidth.map word) ++
    set .scheme s.colorScheme ++
    set .showLineNumbers (s.lineNumberStyle.map lineNumberWord) ++
    set .showControlChars (s.showControlChars.map switchWord) ++
    set .autoBrackets (s.autoBrackets.map switchWord) ++
    set .autoTriggerCompletions (s.autoTriggerCompletions.map switchWord) ++
    set .backupInterval (s.backupInterval.map word)

/-- The set variables as a mode line without a prefix. -/
def toModeLine (s : Settings) : Text :=
  Text.trim (s.assignments.flatMap (fun part => part.1.name ++ ' ' :: part.2 ++ "; ".toList))

def modeLineMarks : List Text :=
  ["kate:".toList, "katvan:".toList]

/-- A mode line runs from its mark to the end of the text, and there is something after the mark. -/
def startsModeLine (text : Text) : Bool :=
  modeLineMarks.any (fun mark =>
    mark.isPrefixOf text && mark.length < text.length && !text.contains '\n')

/-- The first mode line in a text. -/
def findModeLine? : Text → Option Text
  | [] => none
  | c :: rest => if startsModeLine (c :: rest) then some (c :: rest) else findModeLine? rest

end Settings

end LineMarkup

import LineMarkup.Text.Basic

namespace LineMarkup

inductive IndentMode
  | off
  | normal
  /-- Follows the structure of the code. -/
  | smart
deriving DecidableEq, Repr

namespace IndentMode

def all : List IndentMode := [.off, .normal, .smart]

def name : IndentMode → String
  | .off => "None"
  | .normal => "Normal"
  | .smart => "Smart"

end IndentMode

inductive IndentStyle
  | spaces
  | tabs
deriving DecidableEq, Repr

namespace IndentStyle

def all : List IndentStyle := [.spaces, .tabs]

def name : IndentStyle → String
  | .spaces => "Spaces"
  | .tabs => "Tabs"

end IndentStyle

inductive LineNumberStyle
  | bothSides
  | primaryOnly
  | hidden
deriving DecidableEq, Repr

namespace LineNumberStyle

def all : List LineNumberStyle := [.bothSides, .primaryOnly, .hidden]

def name : LineNumberStyle → String
  | .bothSides => "BothSides"
  | .primaryOnly => "PrimaryOnly"
  | .hidden => "None"

end LineNumberStyle

/-- Each setting may be left unset. -/
structure Settings where
  fontFamily : Option Text := none
  fontSize : Option UInt32 := none
  indentMode : Option IndentMode := none
  indentStyle : Option IndentStyle := none
  indentWidth : Option UInt32 := none
  tabWidth : Option UInt32 := none
  colorScheme : Option Text := none
  lineNumberStyle : Option LineNumberStyle := none
  showControlChars : Option Bool := none
  autoBrackets : Option Bool := none
  autoTriggerCompletions : Option Bool := none
  /-- Minutes between backups. -/
  backupInterval : Option UInt32 := none
deriving DecidableEq, Repr

namespace Settings

/-- What is set in `changes` replaces what is set in `s`. -/
def merge (s changes : Settings) : Settings :=
  { fontFamily := changes.fontFamily <|> s.fontFamily
    fontSize := changes.fontSize <|> s.fontSize
    indentMode := changes.indentMode <|> s.indentMode
    indentStyle := changes.indentStyle <|> s.indentStyle
    indentWidth := changes.indentWidth <|> s.indentWidth
    tabWidth := changes.tabWidth <|> s.tabWidth
    colorScheme := changes.colorScheme <|> s.colorScheme
    lineNumberStyle := changes.lineNumberStyle <|> s.lineNumberStyle
    showControlChars := changes.showControlChars <|> s.showControlChars
    autoBrackets := changes.autoBrackets <|> s.autoBrackets
    autoTriggerCompletions := changes.autoTriggerCompletions <|> s.autoTriggerCompletions
    backupInterval := changes.backupInterval <|> s.backupInterval }

def effectiveIndentMode (s : Settings) : IndentMode :=
  s.indentMode.getD .off

def effectiveIndentStyle (s : Settings) : IndentStyle :=
  s.indentStyle.getD .spaces

def effectiveIndentWidth (s : Settings) : UInt32 :=
  s.indentWidth.getD 4

/-- A tab is as wide as a level of indentation. -/
def effectiveTabWidth (s : Settings) : UInt32 :=
  s.tabWidth.getD s.effectiveIndentWidth

def effectiveColorScheme (s : Settings) : Text :=
  s.colorScheme.getD "auto".toList

def effectiveLineNumberStyle (s : Settings) : LineNumberStyle :=
  s.lineNumberStyle.getD .bothSides

def effectiveShowControlChars (s : Settings) : Bool :=
  s.showControlChars.getD true

def effectiveAutoBrackets (s : Settings) : Bool :=
  s.autoBrackets.getD true

def effectiveAutoTriggerCompletions (s : Settings) : Bool :=
  s.autoTriggerCompletions.getD true

def effectiveBackupInterval (s : Settings) : UInt32 :=
  s.backupInterval.getD 15

end Settings

end LineMarkup

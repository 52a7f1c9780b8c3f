import LineMarkup.Matcher.Basic

namespace LineMarkup.Matcher

/-- Words that begin or continue a code expression. -/
def codeKeywords : List Text :=
  ["and".toList, "as".toList, "auto".toList, "break".toList, "context".toList, "else".toList,
    "false".toList, "for".toList, "if".toList, "import".toList, "in".toList, "include".toList,
    "let".toList, "none".toList, "not".toList, "or".toList, "return".toList, "set".toList,
    "show".toList, "true".toList, "while".toList]

/-- Schemes that begin a bare link. -/
def linkSchemes : List Text :=
  ["http".toList, "https".toList]

def codeKeyword : Matcher :=
  .keyword codeKeywords

def linkScheme : Matcher :=
  .keyword linkSchemes

/-- The scanner cuts words at letters that announce a number, so one word may be several tokens. -/
def fullWord : Matcher :=
  .many1 (.kind .word)

def identifier : Matcher :=
  .seq fullWord (.many (.symbol '_'))

/-- A number with its unit. -/
def numberWithUnit : Matcher :=
  .seq (.kind .codeNumber) (.optional (.alt (.kind .word) (.symbol '%')))

/-- Where a line of content starts. -/
def lineStart (atContentStart : Bool) : Matcher :=
  any [.kind .begin, .kind .lineEnd, .test atContentStart]

def labelName : Matcher :=
  .many1 (any [.kind .word, .kind .codeNumber, .symbol '_', .symbol '-', .symbol '.'])

/-- A point before the name of a field or method. -/
def chainLink : Matcher :=
  .seq (.symbol '.') (.look (.kind .word))

end LineMarkup.Matcher

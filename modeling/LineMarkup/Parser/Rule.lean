import LineMarkup.Construct
import LineMarkup.Matcher.Phrase

namespace LineMarkup

inductive Action
  | push (kind : Construct)
  /-- Closes the innermost construct. -/
  | pop
  | instant (kind : Construct)
  /-- A new line of content may start here. -/
  | startContent
  /-- Closes the innermost arguments in math and the math around them. -/
  | popMath
deriving DecidableEq, Repr

/-- What may come directly after a match. -/
structure Continuation where
  pattern : Matcher
  actions : List Action
  /-- Not to be tried with code directly around it. -/
  outsideCode : Bool := false

/-- Of the rules of a construct the first whose pattern matches is followed. -/
structure Rule where
  pattern : Matcher
  actions : List Action
  /-- The actions are taken only if the match has at least this many characters. -/
  minLength : Nat := 0
  continuations : List Continuation := []
  /-- Taken when no continuation matches. -/
  otherwise : List Action := []

namespace Rule

open Matcher

def comments : List Rule :=
  [{ pattern := .symbols "//".toList, actions := [.push .commentLine] },
    { pattern := .symbols "/*".toList, actions := [.push .commentBlock] }]

def chain (kind : Construct) : Continuation :=
  { pattern := chainLink, actions := [.push kind] }

/-- The arguments after the name of a function. -/
def callArguments : List Continuation :=
  [{ pattern := .symbol '(', actions := [.push .codeArguments] },
    { pattern := .symbol '[', actions := [.push .contentBlock] }]

/-- After an argument of a call there may be one more content block, or a field of its value. -/
def afterArgument : List Continuation :=
  [{ pattern := .symbol '[', actions := [.push .contentBlock] },
    { chain .codeChain with outsideCode := true }]

def functionName : Matcher :=
  .seq identifier (.look (.alt (.symbol '(') (.symbol '[')))

def label : Rule :=
  { pattern := Matcher.all [.symbol '<', labelName, .symbol '>'], actions := [.instant .label] }

/-- Code within prose or math begins with a hash. -/
def codeStart : List Rule :=
  [{ pattern := .seq (.symbol '#') codeKeyword, actions := [.push .codeLine] },
    { pattern := .seq (.symbol '#') functionName
      actions := [.instant .codeFunction]
      continuations := callArguments },
    { pattern := .seq (.symbol '#') numberWithUnit
      actions := [.instant .codeNumber]
      continuations := [chain .codeChain] },
    { pattern := .symbols "#\"".toList, actions := [.push .codeString] },
    { pattern := .seq (.symbol '#') identifier
      actions := [.instant .codeVariable]
      continuations := [chain .codeChain] },
    { pattern := .seq (.discard (.symbol '#')) (.symbol '\x7b'), actions := [.push .codeBlock] },
    { pattern := .seq (.discard (.symbol '#')) (.symbol '['), actions := [.push .contentBlock] },
    { pattern := .seq (.discard (.symbol '#')) (.symbol '('), actions := [.push .codeArguments] }]

/-- An empty line, or one of blanks only. -/
def paragraphBreak : Rule :=
  { pattern := Matcher.all
      [.alt (.kind .begin) (.kind .lineEnd), .many (.kind .whitespace),
        .alt (.kind .textEnd) (.kind .lineEnd)]
    actions := [.pop] }

def blockEnd : Rule :=
  { pattern := .symbol ']', actions := [.pop], continuations := afterArgument }

def toggle (inside kind : Construct) (c : Char) : Rule :=
  { pattern := .symbol c, actions := [if inside = kind then .pop else .push kind] }

def mathStart : Rule :=
  { pattern := .symbol '$', actions := [.instant .mathDelimiter, .push .math] }

def raws : List Rule :=
  [{ pattern := .symbols "```".toList, actions := [.push .rawBlock] },
    { pattern := .symbol '\x60', actions := [.push .raw] }]

/-- The start of a line with its blanks, which belong to no construct. -/
def indentation (atContentStart : Bool) : Matcher :=
  .discard (.seq (lineStart atContentStart) (.many (.kind .whitespace)))

def headingStart (atContentStart : Bool) : Rule :=
  { pattern := Matcher.all
      [indentation atContentStart, .many1 (.symbol '='), .kind .whitespace]
    actions := [.push .heading] }

/-- After the sign of a list entry there may be a heading, or another entry. -/
def entry (atContentStart : Bool) : Rule :=
  { pattern := Matcher.all
      [indentation atContentStart, .alt (.symbol '-') (.symbol '+'), .many1 (.kind .whitespace)]
    actions := [.instant .listEntry, .startContent] }

def termEntry (atContentStart : Bool) : Rule :=
  { pattern := Matcher.all
      [indentation atContentStart, .symbol '/', .many1 (.kind .whitespace)]
    actions := [.instant .listEntry]
    continuations :=
      [{ pattern := .seq (.kind .word) (.look (.symbol ':')), actions := [.instant .term] }] }

def inContent (inside : Construct) (atContentStart : Bool) : List Rule :=
  comments ++ codeStart ++
    (if inside = .content ∨ inside = .contentBlock then [] else [paragraphBreak]) ++
    (if inside = .contentBlock then [blockEnd] else []) ++
    [mathStart, toggle inside .emphasis '_', toggle inside .strong '*',
      { pattern := .seq linkScheme (.symbols "://".toList), actions := [.push .link] }] ++
    raws ++
    [label,
      { pattern := .seq (.symbol '@') labelName, actions := [.instant .reference] }] ++
    [headingStart atContentStart, entry atContentStart, termEntry atContentStart]

/-- Single letters are plain variables in math. -/
def inMath (inside : Construct) : List Rule :=
  comments ++ codeStart ++
    (if inside = .mathArguments then [{ pattern := .symbol ')', actions := [.pop] }] else []) ++
    [{ pattern := .symbol '$', actions := [.instant .mathDelimiter, .popMath] },
      { pattern := .symbol '"', actions := [.push .stringLiteral] },
      { pattern := .symbol '(', actions := [.push .mathArguments] },
      { pattern := .seq fullWord (.look (.symbol '('))
        actions := [.instant .mathFunction]
        minLength := 2 },
      { pattern := fullWord
        actions := [.instant .mathSymbol]
        minLength := 2
        continuations := [chain .mathChain] }]

def codeEnd (inside : Construct) : List Rule :=
  (if inside = .codeBlock then [{ pattern := .symbol '\x7d', actions := [.pop] }]
    else [{ pattern := .symbol ';', actions := [.pop] }]) ++
  (if inside = .codeArguments then
    [{ pattern := .symbol ')', actions := [.pop], continuations := afterArgument }]
    else [])

def inCode (inside : Construct) : List Rule :=
  comments ++ codeEnd inside ++
    [{ pattern := .symbol '\x7b', actions := [.push .codeBlock] },
      { pattern := .symbol '(', actions := [.push .codeArguments] },
      { pattern := .symbol '[', actions := [.push .contentBlock] },
      { pattern := .symbol '"', actions := [.push .stringLiteral] }] ++
    raws ++
    [{ pattern := codeKeyword, actions := [.instant .codeKeyword] },
      { pattern := functionName, actions := [.instant .codeFunction] },
      { pattern := numberWithUnit, actions := [.instant .codeNumber] },
      mathStart, label]

/-- A link ends before a blank or a closing bracket. -/
def inLink : List Rule :=
  [{ pattern := .look (any [.kind .whitespace, .symbol ']', .symbol ')', .symbol '\x7d'])
     actions := [.pop] }]

/-- Anything but a name breaks a chain. -/
def broken : Rule :=
  { pattern := .test true, actions := [.pop] }

def inMathChain : List Rule :=
  [{ pattern := .seq fullWord (.look (.symbol '('))
     actions := [.instant .mathFunction, .pop] },
    { pattern := fullWord
      actions := [.instant .mathSymbol]
      continuations := [{ pattern := chainLink, actions := [] }]
      otherwise := [.pop] },
    broken]

def inCodeChain : List Rule :=
  [{ pattern := functionName
     actions := [.instant .codeFunction, .pop]
     continuations := callArguments },
    { pattern := identifier
      actions := [.instant .codeVariable]
      continuations := [{ pattern := chainLink, actions := [] }]
      otherwise := [.pop] },
    broken]

def closedBy (text : String) : Rule :=
  { pattern := .symbols text.toList, actions := [.pop] }

/-- A string that stands for an expression may be followed by a field or method. -/
def stringEnd (inside : Construct) : Rule :=
  { pattern := .symbol '"'
    actions := [.pop]
    continuations := if inside = .codeString then [chain .codeChain] else [] }

/-- The rules that hold directly inside a construct. -/
def within (inside : Construct) (atContentStart : Bool) : List Rule :=
  if inside.holdsContent then inContent inside atContentStart
  else if inside.holdsMath then inMath inside
  else if inside.holdsCode then inCode inside
  else match inside with
    | .link => inLink
    | .rawBlock => [closedBy "```"]
    | .raw => [closedBy "`"]
    | .commentBlock => [closedBy "*/"]
    | .mathChain => inMathChain
    | .codeChain => inCodeChain
    | .stringLiteral | .codeString => [stringEnd inside]
    | _ => []

end Rule

end LineMarkup

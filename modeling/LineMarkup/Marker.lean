import LineMarkup.Event

namespace LineMarkup

inductive MarkerKind
  | heading
  | emphasis
  | strong
  | link
  | raw
  | label
  | reference
  | listEntry
  | term
  | mathDelimiter
  | mathOperator
  | variableName
  | functionName
  | keyword
  | escape
  | comment
  | number
  | string
deriving DecidableEq, Repr

namespace MarkerKind

def name : MarkerKind → String
  | .heading => "Heading"
  | .emphasis => "Emphasis"
  | .strong => "StrongEmphasis"
  | .link => "Url"
  | .raw => "Raw"
  | .label => "Label"
  | .reference => "Reference"
  | .listEntry => "ListEntry"
  | .term => "Term"
  | .mathDelimiter => "MathDelimiter"
  | .mathOperator => "MathOperator"
  | .variableName => "VariableName"
  | .functionName => "FunctionName"
  | .keyword => "Keyword"
  | .escape => "Escape"
  | .comment => "Comment"
  | .number => "NumberLiteral"
  | .string => "StringLiteral"

/-- How a construct is highlighted from its start to its end, if it is at all. -/
def ofConstruct? : Construct → Option MarkerKind
  | .commentLine | .commentBlock => some .comment
  | .stringLiteral | .codeString => some .string
  | .mathDelimiter => some .mathDelimiter
  | .heading => some .heading
  | .emphasis => some .emphasis
  | .strong => some .strong
  | .link => some .link
  | .raw | .rawBlock => some .raw
  | .label => some .label
  | .reference => some .reference
  | .listEntry => some .listEntry
  | .term => some .term
  | .codeVariable | .mathSymbol => some .variableName
  | .codeFunction | .mathFunction => some .functionName
  | .codeKeyword => some .keyword
  | .codeNumber => some .number
  | _ => none

end MarkerKind

/-- A highlighted range of a line. Markers of different kinds may overlap. -/
structure Marker where
  kind : MarkerKind
  start : Nat
  stop : Nat
deriving DecidableEq, Repr

namespace Marker

def length (marker : Marker) : Nat :=
  marker.stop - marker.start

/-- An empty range is not marked. -/
def cover (kind : MarkerKind) (start stop : Nat) : List Marker :=
  if start < stop then [{ kind, start, stop }] else []

/-- Of a math delimiter only the last character is marked, without what was discarded before it. -/
def ofConstruct (frame : Frame) (stop : Nat) : List Marker :=
  match MarkerKind.ofConstruct? frame.kind with
  | none => []
  | some .mathDelimiter => cover .mathDelimiter (stop - 1) stop
  | some kind => cover kind frame.start stop

/-- Symbols that structure math without being operators. -/
def mathPunctuation : Text :=
  "()[]\x7b\x7d,;".toList

def ofLoose (token : Token) (frame : Frame) : List Marker :=
  match token.kind with
  | .escape =>
    if frame.kind.holdsContent || frame.kind = .math || frame.kind = .stringLiteral then
      cover .escape token.start token.stop
    else []
  | .symbol =>
    if frame.kind = .math && !token.text.all mathPunctuation.contains then
      cover .mathOperator token.start token.stop
    else []
  | _ => []

/-- A code line is opened by a keyword. -/
def ofEvent : Event → List Marker
  | .push frame stop => if frame.kind = .codeLine then cover .keyword frame.start stop else []
  | .pop frame stop _ => ofConstruct frame stop
  | .instant frame stop => ofConstruct frame stop
  | .loose token frame => ofLoose token frame

def ofEvents (events : List Event) : List Marker :=
  events.flatMap ofEvent

end Marker

end LineMarkup

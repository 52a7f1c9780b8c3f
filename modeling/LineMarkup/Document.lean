import LineMarkup.Line
import LineMarkup.LineStore.Basic

namespace LineMarkup

namespace Document

/-- The open spans that a line is parsed within, by id and kind. -/
abbrev Seed := List (Nat × Construct)

def seedOf (spans : List Span) : Seed :=
  (Span.unclosed spans).map (fun span => (span.id, span.kind))

/-- `seed` and `shebang` are what the analysis was made with. -/
structure Line where
  text : Text
  start : Nat
  seed : Seed
  shebang : Bool
  analysis : Analysis
deriving DecidableEq, Repr

namespace Line

/-- The position just past the line and its line break. -/
def next (line : Line) : Nat :=
  line.start + line.text.size + 1

def move (line : Line) (threshold : Nat) (delta : Int) : Line :=
  { line with
    start := (line.start + delta).toNat
    analysis := { line.analysis with spans := Span.shift line.analysis.spans threshold delta } }

end Line

/-- The interpreter line, which can only be the first. -/
def isShebang (previous : Option Line) (text : Text) : Bool :=
  previous.isNone && "#!".toList.isPrefixOf text

def seedAfter : Option Line → Seed
  | none => []
  | some line => seedOf line.analysis.spans

/-- Parses a text as the line after `previous`. -/
def parseLine (previous : Option Line) (text : Text) (nextId : Nat) : Line × Nat :=
  let start := (previous.map Line.next).getD 0
  let spans := (previous.map (·.analysis.spans)).getD []
  let seed := seedAfter previous
  if isShebang previous text then
    ({ text, start, seed, shebang := true, analysis := Analysis.shebang text }, nextId)
  else
    let (analysis, nextId) := Analysis.ofLine text spans start nextId
    ({ text, start, seed, shebang := false, analysis }, nextId)

/-- Whether a parse after `previous` would find the same. -/
def isUpToDate (previous : Option Line) (line : Line) : Bool :=
  line.seed = seedAfter previous && line.shebang = isShebang previous line.text

/-- Parses old lines again up to the first that is up to date, and moves the rest. -/
def settle (previous : Option Line) (threshold : Nat) (delta : Int) (nextId : Nat) :
    List Line → List Line × Nat
  | [] => ([], nextId)
  | line :: rest =>
    if isUpToDate previous line then ((line :: rest).map (·.move threshold delta), nextId)
    else
      let (line, nextId) := parseLine previous line.text nextId
      let (rest, nextId) := settle (some line) threshold delta nextId rest
      (line :: rest, nextId)

/-- Parses new lines, then settles the old lines after them. -/
def enter (previous : Option Line) (threshold : Nat) (delta : Int) (nextId : Nat)
    (old : List Line) : List Text → List Line × Nat
  | [] => settle previous threshold delta nextId old
  | text :: more =>
    let (line, nextId) := parseLine previous text nextId
    let (rest, nextId) := enter (some line) threshold delta nextId old more
    (line :: rest, nextId)

/-- The size of lines with a line break after each. -/
def sizeOf : List Text → Nat
  | [] => 0
  | text :: rest => text.size + 1 + sizeOf rest

end Document

/-- Ids from `nextId` on are unused. -/
structure Document where
  lines : List Document.Line
  nextId : Nat
deriving DecidableEq, Repr

namespace Document

def text (d : Document) : Text :=
  Text.unlines (d.lines.map Line.text)

/-- The size of the text in bytes. -/
def size (d : Document) : Nat :=
  match d.lines.getLast? with
  | none => 0
  | some line => line.start + line.text.size

/-- Replaces `remove` lines from line `first` on by new ones, within the bounds of the document. A
document without lines gets an empty one. -/
def splice (d : Document) (first remove : Nat) (insert : List Text) : Document :=
  let before := d.lines.take first
  let after := (d.lines.drop first).drop remove
  let removed := (d.lines.drop first).take remove
  let insert := if before.isEmpty && after.isEmpty && insert.isEmpty then [[]] else insert
  let threshold := (d.lines[first]?.map Line.start).getD (d.size + 1)
  let delta : Int := sizeOf insert - sizeOf (removed.map Line.text)
  let (entered, nextId) := enter before.getLast? threshold delta d.nextId after insert
  { lines := before ++ entered, nextId }

def empty : Document :=
  { lines := [], nextId := 0 }

def ofText (text : Text) : Document :=
  empty.splice 0 0 text.lines

/-- Replaces the lines from `first` up to before `stop` by the lines of a text. -/
def replaceLines (d : Document) (first stop : Nat) (text : Text) : Document :=
  d.splice first (stop - first) text.lines

def setText (d : Document) (text : Text) : Document :=
  d.replaceLines 0 d.lines.length text

def setLine (d : Document) (index : Nat) (text : Text) : Document :=
  d.replaceLines index (index + 1) text

def insertLine (d : Document) (index : Nat) (text : Text) : Document :=
  d.replaceLines index index text

def removeLine (d : Document) (index : Nat) : Document :=
  d.splice index 1 []

/-- Past the last line there are empty lines at the end of the text, without spans. -/
def store (d : Document) : LineStore :=
  let lines := d.lines.toArray
  { lineCount := lines.size
    lineStart := fun line => (lines[line]?.map Line.start).getD d.size
    lineText := fun line => (lines[line]?.map Line.text).getD []
    lineSpans := fun line => lines[line]?.map (·.analysis.spans) }

end Document

end LineMarkup

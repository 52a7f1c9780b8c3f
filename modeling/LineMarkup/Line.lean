import LineMarkup.Isolate
import LineMarkup.Marker
import LineMarkup.Parser.Run
import LineMarkup.Segment
import LineMarkup.Span.Record

namespace LineMarkup

/-- Spans have positions in the document, all else is relative to the line. -/
structure Analysis where
  markers : List Marker := []
  segments : List Segment := []
  isolates : List Isolate := []
  spans : List Span := []
deriving DecidableEq, Repr

namespace Analysis

/-- A first line that names an interpreter is no markup. -/
def shebang (text : Text) : Analysis :=
  { markers := Marker.cover .comment 0 text.size }

def unclosedKinds (analysis : Analysis) : List Construct :=
  Span.unclosedKinds analysis.spans

/-- Parses a line that starts at `base`, after a line with the spans `previous`. New spans get ids
from `nextId` on; the next unused one is answered with the analysis. -/
def ofLine (text : Text) (previous : List Span) (base nextId : Nat) : Analysis × Nat :=
  let carried := Span.unclosed previous
  let parse := Parse.ofText text (carried.map Span.kind)
  let record := (Span.Record.start carried base nextId).seeAll (parse.report false)
  let events := parse.report true
  ({ markers := Marker.ofEvents events
     segments := Segment.ofEvents events
     isolates := Isolate.ofEvents events
     spans := record.sorted }, record.nextId)

def ofLinesFrom (previous : List Span) (base nextId : Nat) : List Text → List Analysis
  | [] => []
  | line :: rest =>
    let (analysis, nextId) := ofLine line previous base nextId
    analysis :: ofLinesFrom analysis.spans (base + line.size + 1) nextId rest

/-- One analysis for each line of a text. -/
def ofText (text : Text) : List Analysis :=
  ofLinesFrom [] 0 0 text.lines

end Analysis

end LineMarkup

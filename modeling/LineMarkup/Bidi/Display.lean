import LineMarkup.Bidi.Direction
import LineMarkup.Isolate

namespace LineMarkup.Bidi

/-- A control character to be put in at `pos`, a boundary of the line. The closing mark of the range
that starts at `pos` stands at `reach`; a closing mark has no reach. -/
structure Mark where
  pos : Nat
  reach : Option Nat
  char : Char
deriving DecidableEq, Repr

namespace Mark

/-- At one position closing marks come first, then the opening marks of longer ranges. -/
def precedes (a b : Mark) : Bool :=
  a.pos < b.pos || a.pos = b.pos &&
    match a.reach, b.reach with
    | none, _ => true
    | some _, none => false
    | some l, some r => r ≤ l

def opening : IsolateDirection → Char
  | .auto => firstStrongIsolate
  | .leftToRight => leftToRightIsolate

/-- The two marks of an isolate, whose ends are moved up to boundaries of the line. -/
def ofIsolate (text : Text) (isolate : Isolate) : List Mark :=
  let start := text.nextBoundary isolate.first
  let stop := text.nextBoundary (isolate.last + 1)
  if start < stop then
    [{ pos := start, reach := some stop, char := opening isolate.direction },
      { pos := stop, reach := none, char := popDirectionalIsolate }]
  else []

def ofIsolates (text : Text) (isolates : List Isolate) : List Mark :=
  (isolates.flatMap (ofIsolate text)).mergeSort precedes

end Mark

/-- Bytes put in at a position of the line. -/
structure Injection where
  pos : Nat
  size : Nat
deriving DecidableEq, Repr

namespace Injection

def total : List Injection → Nat
  | [] => 0
  | injection :: rest => injection.size + total rest

end Injection

/-- A line with control characters put around its isolates. It is for shaping only, so positions are
mapped between it and the line it came from. -/
structure Display where
  text : Text
  /-- By position, at most one for each. -/
  injections : List Injection
deriving DecidableEq, Repr

namespace Display

/-- The rest of a line, from position `pos` on, with the marks that fall into it. -/
def inject (pos : Nat) : Text → List Mark → Text
  | [], marks => marks.map Mark.char
  | c :: rest, marks =>
    (marks.takeWhile (·.pos ≤ pos)).map Mark.char ++
      c :: inject (pos + c.utf8Size) rest (marks.dropWhile (·.pos ≤ pos))

/-- Puts a mark before the injections after it. -/
def prepend (mark : Mark) : List Injection → List Injection
  | [] => [{ pos := mark.pos, size := mark.char.utf8Size }]
  | next :: rest =>
    if next.pos = mark.pos then { next with size := mark.char.utf8Size + next.size } :: rest
    else { pos := mark.pos, size := mark.char.utf8Size } :: next :: rest

def ofIsolates (text : Text) (isolates : List Isolate) : Display :=
  let marks := Mark.ofIsolates text isolates
  { text := inject 0 text marks, injections := marks.foldr prepend [] }

/-- Where the character at `pos` of the line stands in the display text. -/
def toDisplay (display : Display) (pos : Nat) : Nat :=
  pos + Injection.total (display.injections.takeWhile (·.pos ≤ pos))

/-- The position of the line for a position of the display text. On a mark it is that of the
character after the mark. `shift` counts the bytes put in before the first of the injections. -/
def sourceFrom (pos shift : Nat) : List Injection → Nat
  | [] => pos - shift
  | next :: rest =>
    if pos < next.pos + shift then pos - shift
    else if pos < next.pos + shift + next.size then next.pos
    else sourceFrom pos (shift + next.size) rest

def toSource (display : Display) (pos : Nat) : Nat :=
  sourceFrom pos 0 display.injections

end Display

end LineMarkup.Bidi

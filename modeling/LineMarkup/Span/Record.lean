import LineMarkup.Event
import LineMarkup.Span.Basic

namespace LineMarkup.Span

/-- `spans` has the latest first. The line starts at `base`, and `nextId` is the next unused id. -/
structure Record where
  spans : List Span
  base : Nat
  nextId : Nat

namespace Record

def start (carried : List Span) (base nextId : Nat) : Record :=
  { spans := carried.reverse, base, nextId }

/-- The last position of a construct, which is never before its first. -/
def lastOf (r : Record) (frame : Frame) (stop : Nat) : Nat :=
  max (r.base + stop - 1) (r.base + frame.start)

def add (r : Record) (frame : Frame) (last : Option Nat) (implicit : Bool) : Record :=
  let span : Span :=
    { id := r.nextId, kind := frame.kind, first := r.base + frame.start, last, implicit }
  { r with spans := span :: r.spans, nextId := r.nextId + 1 }

/-- Closes the innermost open span, if it is of this kind. -/
def closeInnermost (kind : Construct) (last : Nat) (implicit : Bool) : List Span → List Span
  | [] => []
  | span :: rest =>
    if span.isOpen then
      if span.kind = kind then { span with last := some last, implicit } :: rest else span :: rest
    else span :: closeInnermost kind last implicit rest

/-- Of the constructs met in one piece only names in code are recorded. -/
def see (r : Record) : Event → Record
  | .push frame _ => r.add frame none false
  | .pop frame stop implicit =>
    { r with spans := closeInnermost frame.kind (r.lastOf frame stop) implicit r.spans }
  | .instant frame stop =>
    if frame.kind = .codeVariable || frame.kind = .codeFunction then
      r.add frame (some (r.lastOf frame stop)) true
    else r
  | .loose _ _ => r

def seeAll (r : Record) (events : List Event) : Record :=
  events.foldl see r

def sorted (r : Record) : List Span :=
  sort r.spans.reverse

end Record

end LineMarkup.Span

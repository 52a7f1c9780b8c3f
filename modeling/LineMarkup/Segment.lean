import LineMarkup.Event

namespace LineMarkup

/-- A run of prose as long as possible, with the blanks and punctuation between the words. Positions
are relative to the line; `stop` is exclusive. -/
structure Segment where
  start : Nat
  stop : Nat
deriving DecidableEq, Repr

namespace Segment

def length (segment : Segment) : Nat :=
  segment.stop - segment.start

/-- The token of an event that is prose. -/
def prose? : Event → Option Token
  | .loose token frame =>
    if frame.kind.holdsContent && !token.isSentinel then some token else none
  | _ => none

/-- Puts a token before the segments after it, as part of the first one if they touch. -/
def prepend (token : Token) : List Segment → List Segment
  | [] => [{ start := token.start, stop := token.stop }]
  | next :: rest =>
    if next.start = token.stop then { next with start := token.start } :: rest
    else { start := token.start, stop := token.stop } :: next :: rest

def ofEvents (events : List Event) : List Segment :=
  (events.filterMap prose?).foldr prepend []

end Segment

end LineMarkup

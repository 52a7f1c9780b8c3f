import LineMarkup.Construct
import LineMarkup.Token.Basic

namespace LineMarkup

/-- A construct that is open, or was met, from `start` on. A carried frame was opened on an earlier
line. -/
structure Frame where
  kind : Construct
  start : Nat
  carried : Bool := false
deriving DecidableEq, Repr

namespace Frame

def carriedOver (kind : Construct) : Frame :=
  { kind, start := 0, carried := true }

def root : Frame :=
  carriedOver .content

end Frame

/-- All `stop` positions are exclusive. -/
inductive Event
  | push (frame : Frame) (stop : Nat)
  /-- An implicit pop has no closing mark of its own. -/
  | pop (frame : Frame) (stop : Nat) (implicit : Bool)
  /-- A construct met in one piece. -/
  | instant (frame : Frame) (stop : Nat)
  /-- A token that belongs to no rule of the frame it stands in. -/
  | loose (token : Token) (frame : Frame)
deriving DecidableEq, Repr

end LineMarkup

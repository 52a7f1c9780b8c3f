import LineMarkup.Token.Scan

namespace LineMarkup.Token

/-- `consumed` has the latest token first. After the last unread token the text ends forever: every
further read answers an end token at `stop`. -/
structure Stream where
  consumed : List Token := []
  buffered : List Token := []
  unread : List Token
  stop : Nat
deriving DecidableEq, Repr

namespace Stream

def ofText (text : Text) : Stream :=
  { unread := beginning :: scan 0 text, stop := text.size }

/-- How many tokens were consumed since the last release. -/
def position (s : Stream) : Nat :=
  s.consumed.length

/-- Nothing is left to read, not even an end token that was looked at ahead. -/
def atEnd (s : Stream) : Bool :=
  s.buffered.isEmpty && s.unread.isEmpty

/-- Looks one token ahead. -/
def peek (s : Stream) : Token × Stream :=
  match s.buffered, s.unread with
  | token :: _, _ => (token, s)
  | [], token :: rest => (token, { s with buffered := [token], unread := rest })
  | [], [] => (ending s.stop, { s with buffered := [ending s.stop] })

/-- Consumes one token. -/
def fetch (s : Stream) : Token × Stream :=
  match s.buffered, s.unread with
  | token :: rest, _ => (token, { s with consumed := token :: s.consumed, buffered := rest })
  | [], token :: rest => (token, { s with consumed := token :: s.consumed, unread := rest })
  | [], [] => (ending s.stop, { s with consumed := ending s.stop :: s.consumed })

/-- Takes back what was consumed after the first `position` tokens. -/
def rewind (s : Stream) (position : Nat) : Stream :=
  let excess := s.position - position
  { s with
    consumed := s.consumed.drop excess
    buffered := (s.consumed.take excess).reverse ++ s.buffered }

/-- Consumed tokens in text order. -/
def taken (s : Stream) : List Token :=
  s.consumed.reverse

/-- The tokens consumed after the first `position` ones, in text order. -/
def takenSince (s : Stream) (position : Nat) : List Token :=
  (s.consumed.take (s.position - position)).reverse

/-- Lets go of the consumed tokens. -/
def release (s : Stream) : Stream :=
  { s with consumed := [] }

/-- Marks every consumed token as discarded. -/
def discard (s : Stream) : Stream :=
  { s with consumed := s.consumed.map Token.discard }

/-- Tokens that can still be read before the text ends forever. -/
def remaining (s : Stream) : Nat :=
  s.buffered.length + s.unread.length

end Stream

end LineMarkup.Token

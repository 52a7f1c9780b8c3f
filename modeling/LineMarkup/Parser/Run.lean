import LineMarkup.Parser.State

namespace LineMarkup

namespace Parser

/-- One round: a line end if it ends the innermost construct, else a rule of that construct, else
one loose token. -/
def step (p : Parser) : Parser :=
  let frame := p.top
  let (ended, p) := if frame.kind.endsWithLine then p.accept (.kind .lineEnd) else (false, p)
  if ended then
    let p := p.pop
    { p with atContentStart := p.atContentStart || p.top.kind.holdsContent }
  else
    let rules := Rule.within frame.kind p.atContentStart
    let p := { p with atContentStart := p.atContentStart && !frame.kind.holdsContent }
    match p.tryRules rules with
    | (true, p) => p
    | (false, p) => p.takeLoose frame

/-- Rounds until the stream is at its end, at most `fuel` of them. -/
def rounds : Nat → Parser → Parser
  | 0, p => p
  | fuel + 1, p => if p.stream.atEnd then p else rounds fuel p.step

/-- A round takes a token or closes a frame, and no frame is opened without a token. -/
def roundLimit (p : Parser) : Nat :=
  2 * (p.stream.remaining + 1) + p.stack.length

end Parser

/-- The outcome of a parse. Frames still open at its end are listed innermost first: `ended` are
those that end with the line, `unclosed` the others, the root frame last. -/
structure Parse where
  events : List Event
  ended : List Frame
  unclosed : List Frame
  stop : Nat

namespace Parse

def ofText (text : Text) (carried : List Construct) : Parse :=
  let start := Parser.ofText text carried
  let final := start.rounds start.roundLimit
  { events := final.events.reverse
    ended := final.stack.takeWhile (·.kind.endsWithLine)
    unclosed := final.stack.dropWhile (·.kind.endsWithLine)
    stop := text.size }

/-- All events. With `closing`, the unclosed frames are closed at the end of the text. -/
def report (parse : Parse) (closing : Bool) : List Event :=
  let frames := if closing then parse.ended ++ parse.unclosed else parse.ended
  parse.events ++ frames.map (fun frame => .pop frame parse.stop true)

end Parse

end LineMarkup

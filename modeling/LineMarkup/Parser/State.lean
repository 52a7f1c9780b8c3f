import LineMarkup.Event
import LineMarkup.Parser.Rule

namespace LineMarkup

/-- The range that the latest match covers, and the number of its characters. -/
structure Mark where
  start : Nat := 0
  stop : Nat := 0
  chars : Nat := 0
deriving DecidableEq, Repr

namespace Mark

/-- The range of the tokens of a match. Discarded tokens at the front are left out, unless there are
no others. A match without tokens leaves the mark where it was. -/
def cover (mark : Mark) (tokens : List Token) : Mark :=
  let shown := tokens.dropWhile Token.discarded
  let counted := if shown.isEmpty then tokens else shown
  match counted.head?, counted.getLast? with
  | some first, some last =>
    { start := first.start
      stop := max last.stop first.start
      chars := (counted.flatMap Token.text).length }
  | _, _ => mark

end Mark

/-- `stack` has the innermost frame first and the root frame last; `events` has the latest first. -/
structure Parser where
  stream : Token.Stream
  stack : List Frame
  atContentStart : Bool := false
  mark : Mark := {}
  events : List Event := []

namespace Parser

/-- A parse of `text` within constructs left open before it, the outermost first. -/
def ofText (text : Text) (carried : List Construct) : Parser :=
  { stream := .ofText text
    stack := (Frame.root :: carried.map Frame.carriedOver).reverse }

def top (p : Parser) : Frame :=
  p.stack.headD Frame.root

def report (p : Parser) (event : Event) : Parser :=
  { p with events := event :: p.events }

def push (p : Parser) (kind : Construct) : Parser :=
  let frame : Frame := { kind, start := p.mark.start }
  { p.report (.push frame p.mark.stop) with
    stack := frame :: p.stack
    atContentStart := p.atContentStart || kind = .contentBlock }

/-- The root frame always stays. -/
def pop (p : Parser) : Parser :=
  match p.stack with
  | frame :: below :: rest =>
    { p.report (.pop frame p.mark.stop false) with stack := below :: rest }
  | _ => p

def instant (p : Parser) (kind : Construct) : Parser :=
  p.report (.instant { kind, start := p.mark.start } p.mark.stop)

/-- Closes frames of a kind, as long as the innermost one is of that kind. -/
def popWhile (kind : Construct) : Nat → Parser → Parser
  | 0, p => p
  | fuel + 1, p => if p.top.kind = kind then popWhile kind fuel p.pop else p

def popMath (p : Parser) : Parser :=
  let p := popWhile .mathArguments p.stack.length p
  if p.top.kind = .math then p.pop else p

def act (p : Parser) : Action → Parser
  | .push kind => p.push kind
  | .pop => p.pop
  | .instant kind => p.instant kind
  | .startContent => { p with atContentStart := true }
  | .popMath => p.popMath

def perform (p : Parser) (actions : List Action) : Parser :=
  actions.foldl act p

/-- Tries a pattern at the cursor, and on a match takes its tokens for good. -/
def accept (p : Parser) (pattern : Matcher) : Bool × Parser :=
  match pattern.run p.stream with
  | (true, stream) =>
    (true, { p with stream := stream.release, mark := p.mark.cover stream.taken })
  | (false, stream) => (false, { p with stream })

def proceed (p : Parser) (otherwise : List Action) : List Continuation → Parser
  | [] => p.perform otherwise
  | next :: rest =>
    if next.outsideCode && p.top.kind.holdsCode then p.proceed otherwise rest
    else match p.accept next.pattern with
      | (true, p) => p.perform next.actions
      | (false, p) => p.proceed otherwise rest

/-- What a rule does once its pattern has matched. -/
def follow (p : Parser) (rule : Rule) : Parser :=
  if p.mark.chars < rule.minLength then p
  else (p.perform rule.actions).proceed rule.otherwise rule.continuations

/-- Follows the first rule that matches. -/
def tryRules (p : Parser) : List Rule → Bool × Parser
  | [] => (false, p)
  | rule :: rest =>
    match p.accept rule.pattern with
    | (true, p) => (true, p.follow rule)
    | (false, p) => p.tryRules rest

/-- Takes one token that no rule wants. -/
def takeLoose (p : Parser) (frame : Frame) : Parser :=
  let (token, stream) := p.stream.fetch
  let p := { p with
    stream := stream.release
    mark := if token.discarded then p.mark else p.mark.cover [token] }
  p.report (.loose token frame)

end Parser

end LineMarkup

import LineMarkup.Token.Stream

namespace LineMarkup

open Token (Stream)

/-- Patterns over the next tokens of a stream, with ordered choice. -/
inductive Matcher
  | kind (kind : TokenKind)
  /-- One symbol token of this character. -/
  | symbol (c : Char)
  /-- Symbol tokens that spell these characters. -/
  | symbols (text : Text)
  /-- A whole word, in as many tokens as it was cut into, out of these. -/
  | keyword (words : List Text)
  /-- Succeeds or fails without a look at the stream. -/
  | test (outcome : Bool)
  | seq (first second : Matcher)
  | alt (first second : Matcher)
  | optional (body : Matcher)
  | many1 (body : Matcher)
  /-- Matches without consuming. -/
  | look (body : Matcher)
  /-- Marks all that is consumed by the end of the body as discarded. -/
  | discard (body : Matcher)
deriving Repr

namespace Matcher

def many (body : Matcher) : Matcher :=
  .optional (.many1 body)

def all : List Matcher → Matcher
  | [] => .test true
  | [last] => last
  | first :: rest => .seq first (all rest)

def any : List Matcher → Matcher
  | [] => .test false
  | [last] => last
  | first :: rest => .alt first (any rest)

/-- One token, if it satisfies `p`. -/
def one (p : Token → Bool) (s : Stream) : Bool × Stream :=
  let (token, after) := s.fetch
  if p token then (true, after) else (false, after.rewind s.position)

/-- Symbols one after another, up to the first that differs. -/
def spell : Text → Stream → Bool × Stream
  | [], s => (true, s)
  | c :: rest, s =>
    let (token, after) := s.fetch
    if token.isSymbol c then spell rest after else (false, after)

/-- Repeats `body` until it fails, at most `fuel` times. -/
def repeated (body : Stream → Bool × Stream) : Nat → Stream → Stream
  | 0, s => s
  | fuel + 1, s =>
    match body s with
    | (true, after) => repeated body fuel after
    | (false, after) => after

/-- One or more repetitions. Each but the last consumes a token, so there are no more of them than
tokens ahead. -/
def repeated1 (body : Stream → Bool × Stream) (s : Stream) : Bool × Stream :=
  match body s with
  | (true, after) => (true, repeated body (after.remaining + 1) after)
  | (false, after) => (false, after)

def word : Stream → Bool × Stream :=
  repeated1 (one (·.kind = .word))

def run : Matcher → Stream → Bool × Stream
  | .kind k, s => one (·.kind = k) s
  | .symbol c, s => one (·.isSymbol c) s
  | .symbols text, s =>
    match spell text s with
    | (true, after) => (true, after)
    | (false, after) => (false, after.rewind s.position)
  | .keyword words, s =>
    match word s with
    | (true, after) =>
      if ((after.takenSince s.position).flatMap Token.text) ∈ words then (true, after)
      else (false, after.rewind s.position)
    | (false, after) => (false, after)
  | .test outcome, s => (outcome, s)
  | .seq first second, s =>
    match run first s with
    | (true, after) =>
      match run second after with
      | (true, after) => (true, after)
      | (false, after) => (false, after.rewind s.position)
    | (false, after) => (false, after)
  | .alt first second, s =>
    match run first s with
    | (true, after) => (true, after)
    | (false, after) => run second after
  | .optional body, s => (true, (run body s).2)
  | .many1 body, s => repeated1 (run body) s
  | .look body, s =>
    let (matched, after) := run body s
    (matched, after.rewind s.position)
  | .discard body, s =>
    match run body s with
    | (true, after) => (true, after.discard)
    | (false, after) => (false, after)

end Matcher

end LineMarkup

import LineMarkup.Event

namespace LineMarkup

inductive IsolateDirection
  /-- The direction of the first strong character inside. -/
  | auto
  | leftToRight
deriving DecidableEq, Repr

namespace IsolateDirection

def name : IsolateDirection → String
  | .auto => "Auto"
  | .leftToRight => "LeftToRight"

def ofName? (name : String) : Option IsolateDirection :=
  [.auto, .leftToRight].find? (fun direction : IsolateDirection => direction.name == name)

end IsolateDirection

/-- A range of a line whose direction is to be kept apart from the text around it. Code constructs
that follow each other share one. -/
structure Isolate where
  direction : IsolateDirection
  first : Nat
  last : Nat
deriving DecidableEq, Repr

namespace Isolate

/-- A range that may still grow, or be dropped. -/
structure Candidate extends Isolate where
  dropped : Bool := false
deriving DecidableEq, Repr

/-- Candidates in the order they were found. Math and content blocks open a nesting level each:
`level` has the places of the code ranges of the innermost level, the latest first, and `outer`
those of the levels around it. -/
structure Search where
  candidates : List Candidate := []
  level : List Nat := []
  outer : List (List Nat) := []

namespace Search

def add (s : Search) (direction : IsolateDirection) (first last : Nat) : Search :=
  if first ≤ last then { s with candidates := s.candidates ++ [{ direction, first, last }] } else s

def change (s : Search) (place : Nat) (f : Candidate → Candidate) : Search :=
  { s with candidates := s.candidates.modify place f }

def drop (s : Search) (place : Nat) : Search :=
  s.change place (fun candidate => { candidate with dropped := true })

/-- After the range at `place` grew to the left, takes in those earlier ranges of the level that it
touches now. -/
def absorb (s : Search) (place : Nat) : List Nat → Search
  | [] => { s with level := [place] }
  | earlier :: rest =>
    match s.candidates[place]?, s.candidates[earlier]? with
    | some range, some other =>
      if range.first = other.last + 1 ∨ range.first ≤ other.last ∧ other.last ≤ range.last then
        let grown :=
          s.change place (fun range => { range with first := min range.first other.first })
        (grown.drop earlier).absorb place rest
      else { s with level := place :: earlier :: rest }
    | _, _ => { s with level := place :: earlier :: rest }

/-- A new code range. A content block has a range of its own and starts no code range. -/
def begin (s : Search) (kind : Construct) (first last : Nat) : Option Nat × Search :=
  if kind = .contentBlock then (none, s)
  else
    let place := s.candidates.length
    (some place,
      { s with
        candidates := s.candidates ++ [{ direction := .leftToRight, first, last }]
        level := place :: s.level })

/-- Lets the latest code range of the level reach over a construct that follows or overlaps it, else
starts a new range. Answers the place of the range that covers the construct. -/
def extend (s : Search) (kind : Construct) (first last : Nat) : Option Nat × Search :=
  match s.level with
  | [] => s.begin kind first last
  | place :: earlier =>
    match s.candidates[place]? with
    | none => s.begin kind first last
    | some range =>
      if first = range.last + 1 then
        (some place, s.change place (fun range => { range with last }))
      else if range.first ≤ last ∧ first ≤ range.last then
        let grown := s.change place (fun range =>
          { range with first := min range.first first, last := max range.last last })
        (some place, if first < range.first then grown.absorb place earlier else grown)
      else s.begin kind first last

def openLevel (s : Search) : Search :=
  { s with level := [], outer := s.level :: s.outer }

/-- The outermost level is never closed. -/
def closeLevel (s : Search) : Search :=
  match s.outer with
  | [] => s
  | level :: outer => { s with level, outer }

/-- A chain covers the point it starts with. -/
def push (s : Search) (frame : Frame) (stop : Nat) : Search :=
  match frame.kind with
  | .contentBlock | .math => s.openLevel
  | .codeChain =>
    match s.level with
    | [] => s
    | place :: _ => s.change place (fun range => { range with last := stop - 1 })
  | _ => s

/-- The range of a content block is without its brackets. -/
def ownRange (s : Search) (kind : Construct) (first last : Nat) : Search :=
  match kind with
  | .reference => s.add .auto first last
  | .contentBlock => if last = 0 then s else s.add .auto (first + 1) (last - 1)
  | .math => s.add .leftToRight first last
  | _ => s

def codeRange (s : Search) (kind : Construct) (first last : Nat) (implicit : Bool) : Search :=
  if kind.isCode || kind = .contentBlock then
    match s.extend kind first last with
    | (none, s) => s
    | (some place, s) =>
      if implicit || kind = .codeBlock || kind = .codeLine then s.drop place else s
  else s

def close (s : Search) (frame : Frame) (stop : Nat) (implicit : Bool) : Search :=
  let last := max (stop - 1) frame.start
  let s := if frame.kind = .contentBlock || frame.kind = .math then s.closeLevel else s
  let s := if implicit then s else s.ownRange frame.kind frame.start last
  s.codeRange frame.kind frame.start last implicit

/-- Frames of earlier lines have no range on this one. -/
def see (s : Search) : Event → Search
  | .push frame stop => if frame.carried then s else s.push frame stop
  | .pop frame stop implicit => if frame.carried then s else s.close frame stop implicit
  | .instant frame stop => if frame.carried then s else s.close frame stop false
  | .loose _ _ => s

end Search

def ofEvents (events : List Event) : List Isolate :=
  let search := events.foldl Search.see {}
  (search.candidates.filter (!·.dropped)).map (·.toIsolate)

end Isolate

end LineMarkup

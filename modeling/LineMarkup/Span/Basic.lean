import LineMarkup.Construct

namespace LineMarkup

/-- Positions are inclusive and count from the start of the document. There is no last position
while the construct goes on after the line. An implicit span is closed without a mark of its own. -/
structure Span where
  id : Nat
  kind : Construct
  first : Nat
  last : Option Nat
  implicit : Bool := false
deriving DecidableEq, Repr

namespace Span

def isOpen (span : Span) : Bool :=
  span.last.isNone

/-- Which of two spans with the same first position reaches farther, or as far and is older. -/
def reachesFarther (a b : Span) : Bool :=
  match a.last, b.last with
  | none, none => a.id ≤ b.id
  | none, some _ => true
  | some _, none => false
  | some l, some r => r < l || l = r && a.id ≤ b.id

/-- The order of spans on a line: by first position, then the longer one, then the older one. -/
def precedes (a b : Span) : Bool :=
  a.first < b.first || a.first = b.first && reachesFarther a b

/-- Equal spans keep their order. -/
def sort (spans : List Span) : List Span :=
  spans.mergeSort precedes

def isSorted : List Span → Bool
  | a :: b :: rest => precedes a b && isSorted (b :: rest)
  | _ => true

/-- The spans that go on after the line, the outermost first. -/
def unclosed (spans : List Span) : List Span :=
  spans.filter isOpen

def unclosedKinds (spans : List Span) : List Construct :=
  (unclosed spans).map kind

def find? (spans : List Span) (id : Nat) : Option Span :=
  List.find? (fun span => span.id = id) spans

/-- Moves a position at or after `start` by `delta`, not below zero. -/
def shiftPosition (start : Nat) (delta : Int) (pos : Nat) : Nat :=
  if start ≤ pos then (pos + delta).toNat else pos

def shift (spans : List Span) (start : Nat) (delta : Int) : List Span :=
  spans.map (fun span =>
    { span with
      first := shiftPosition start delta span.first
      last := span.last.map (shiftPosition start delta) })

end Span

end LineMarkup

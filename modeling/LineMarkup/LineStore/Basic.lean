import LineMarkup.Span.Basic
import LineMarkup.Text.Basic

namespace LineMarkup

/-- The lines of a document, as far as queries on its structure need them. -/
structure LineStore where
  lineCount : Nat
  /-- The position of the first character of a line. -/
  lineStart : Nat → Nat
  lineText : Nat → Text
  /-- The spans recorded when the line was last parsed. -/
  lineSpans : Nat → Option (List Span)

namespace LineStore

def lineSize (store : LineStore) (line : Nat) : Nat :=
  (store.lineText line).size

/-- Halves the lines from `low` up to before `high` until one is left. -/
def search (store : LineStore) (pos low high : Nat) : Nat :=
  if 1 < high - low then
    let middle := (low + high) / 2
    if store.lineStart middle ≤ pos then search store pos middle high
    else search store pos low middle
  else low
termination_by high - low

/-- The line that holds `pos`. The position after the last character of a line is in that line. -/
def lineOf? (store : LineStore) (pos : Nat) : Option Nat :=
  if store.lineCount = 0 then none
  else
    let line := store.search pos 0 store.lineCount
    if pos ≤ store.lineStart line + store.lineSize line then some line else none

/-- The innermost span of a line that is in effect at `pos`. It starts before `pos`. -/
def spanAt? (store : LineStore) (line pos : Nat) : Option Span := do
  let spans ← store.lineSpans line
  spans.reverse.find? (fun span => span.first < pos && span.last.all (pos ≤ ·))

/-- The line where a span of `line` begins. -/
def startLine (store : LineStore) (span : Span) (line : Nat) : Nat :=
  if store.lineStart line ≤ span.first then line else (store.lineOf? span.first).getD line

end LineStore

/-- What kind of text a position is in. -/
inductive Environment
  | unknown
  | content
  | code
  | math
  | other
deriving DecidableEq, Repr

namespace Environment

def name : Environment → String
  | .unknown => "Unknown"
  | .content => "Content"
  | .code => "Code"
  | .math => "Math"
  | .other => "Other"

def ofConstruct (kind : Construct) : Environment :=
  if kind.holdsContent then .content
  else if kind.holdsCode then .code
  else if kind.holdsMath then .math
  else .other

end Environment

namespace LineStore

def environment (store : LineStore) (pos : Nat) : Environment :=
  match store.lineOf? pos with
  | none => .unknown
  | some line =>
    match store.spanAt? line pos with
    | none => .content
    | some span => .ofConstruct span.kind

end LineStore

end LineMarkup

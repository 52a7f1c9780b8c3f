import LineMarkup.LineStore.Basic

namespace LineMarkup.LineStore

/-- A line break at `pos` opens a deeper level if the construct there begins on the same line. -/
def increasesIndent (store : LineStore) (pos : Nat) : Bool :=
  match store.lineOf? pos with
  | none => false
  | some line =>
    match store.spanAt? line pos with
    | none => false
    | some span => span.kind.isIndenting && store.startLine span line = line

/-- The line to line up with at `pos`: where the outermost construct begins that ends there, else
the line of `pos`. -/
def indentBlock? (store : LineStore) (pos : Nat) : Option Nat := do
  let line ← store.lineOf? pos
  let spans := (store.lineSpans line).getD []
  let ended := (spans.takeWhile (·.first ≤ pos)).find? (fun span =>
    span.kind.isIndenting && span.last = some pos)
  return (ended.map (store.startLine · line)).getD line

/-- The same for the first construct that ends anywhere on a line. -/
def indentBlockOfLine? (store : LineStore) (line : Nat) : Option Nat :=
  if line < store.lineCount then
    let spans := (store.lineSpans line).getD []
    let ended := spans.find? (fun span => span.kind.isIndenting && span.last.isSome)
    some ((ended.map (store.startLine · line)).getD line)
  else none

def startsLeftLeaning (store : LineStore) (line : Nat) : Bool :=
  line < store.lineCount &&
    ((store.lineSpans line).getD []).any (fun span =>
      store.lineStart line ≤ span.first && span.kind.isLeftLeaning)

/-- A list entry may start a line in plain prose only. -/
def mayStartEntry (store : LineStore) (line : Nat) : Bool :=
  line < store.lineCount &&
    (store.spanAt? line (store.lineStart line)).all (fun span =>
      span.kind = .content || span.kind = .contentBlock)

end LineMarkup.LineStore

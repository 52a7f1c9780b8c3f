import LineMarkup.Yaml.Node
import LineMarkup.Yaml.Place

namespace LineMarkup.Yaml

/-- Which line breaks at the end of a block are part of its text. -/
inductive Chomping
  | strip
  /-- Only the one that ends the last line. -/
  | clip
  | keep
deriving DecidableEq, Repr

namespace Chomping

def ofMark? (c : Char) : Option Chomping :=
  if c = '-' then some .strip else if c = '+' then some .keep else none

def trim (chomping : Chomping) (breaks : Breaks) : Breaks :=
  match chomping with
  | .strip => []
  | .clip => breaks.take 1
  | .keep => breaks

end Chomping

structure BlockHeader where
  indentation : Option Nat
  chomping : Chomping
deriving DecidableEq, Repr

namespace BlockHeader

def indentationOfMark? (c : Char) : Option Nat :=
  if '1' ≤ c && c ≤ '9' then some (c.toNat - '0'.toNat) else none

def takeMark {α : Type} (ofMark? : Char → Option α) (place : Place) : Option α × Place :=
  match place.next?.bind ofMark? with
  | some mark => (some mark, place.advance 1)
  | none => (none, place)

/-- The marks after the sign of a block scalar, at most one of each kind. -/
def read (place : Place) : BlockHeader × Place :=
  let (first, place) := takeMark Chomping.ofMark? place
  let (indentation, place) := takeMark indentationOfMark? place
  let (second, place) :=
    if first.isSome then (none, place) else takeMark Chomping.ofMark? place
  ({ indentation, chomping := (first <|> second).getD .clip }, place)

end BlockHeader

/-- Past indentation and empty lines, over at most `fuel` lines. As long as the indentation is not
known, all spaces are part of it; `deepest` is the farthest column met. Tabs do not indent. -/
def skipEmptyLines (indent : Option Nat) : Nat → Nat → Place → Option (Breaks × Nat × Place)
  | 0, _, _ => none
  | fuel + 1, deepest, place =>
    let spaces := (place.rest.takeWhile (· = ' ')).length
    let count := (indent.map (fun indent => min spaces (indent - place.column))).getD spaces
    let place := { place with rest := place.rest.drop count, column := place.column + count }
    let deepest := max deepest place.column
    match place.next? with
    | none => some ([], deepest, place)
    | some c =>
      if c = '\t' && indent.all (place.column < ·) then none
      else if isBreak c then do
        let (more, deepest, after) ← skipEmptyLines indent fuel deepest place.newLine
        return (breakChar c :: more, deepest, after)
      else some ([], deepest, place)

/-- A line with the line breaks up to the next one that is not empty. -/
structure BlockLine where
  text : Text
  breaks : Breaks
deriving DecidableEq, Repr

namespace BlockLine

def startsBlank (line : BlockLine) : Bool :=
  line.text.head?.any (fun c => c = ' ' || c = '\t')

/-- The lines at column `indent`, at most `fuel` of them. -/
def readAll (indent : Nat) : Nat → Place → Option (List BlockLine × Place)
  | 0, _ => none
  | fuel + 1, place =>
    if place.column ≠ indent || place.rest.isEmpty then some ([], place)
    else
      let text := place.rest.takeWhile (!isBreak ·)
      let after := place.advance text.length
      match after.next? with
      | none => some ([{ text, breaks := [] }], after)
      | some c => do
        let (more, _, next) ←
          skipEmptyLines (some indent) (after.rest.length + 1) 0 after.newLine
        let (lines, last) ← readAll indent fuel next
        return ({ text, breaks := breakChar c :: more } :: lines, last)

/-- The text of the lines. Line breaks next to a line that starts with a blank are not folded. -/
def assemble (literal : Bool) (chomping : Chomping) : List BlockLine → Text
  | [] => []
  | [line] => line.text ++ chomping.trim line.breaks
  | line :: next :: rest =>
    let between :=
      if literal || line.startsBlank || next.startsBlank then line.breaks else fold line.breaks
    line.text ++ between ++ assemble literal chomping (next :: rest)

end BlockLine

/-- `parent` is the column of what the scalar is a value of. -/
def blockScalar (literal : Bool) (parent : Nat) (place : Place) : Option (Node × Place) := do
  let (header, place) := BlockHeader.read (place.advance 1)
  let place := place.skipBlanks.skipComment
  if !place.next?.all isBreak then none
  else
    let given := header.indentation.map (parent + ·)
    let (leading, deepest, first) ←
      skipEmptyLines given (place.rest.length + 1) 0 place.newLine
    let indent := given.getD (max deepest (parent + 1))
    let (lines, after) ← BlockLine.readAll indent (place.rest.length + 1) first
    let text :=
      if !lines.isEmpty then leading ++ BlockLine.assemble literal header.chomping lines
      else if header.chomping = .keep then leading
      else []
    return (.scalar false text, after)

end LineMarkup.Yaml

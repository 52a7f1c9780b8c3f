import LineMarkup.Yaml.Node
import LineMarkup.Yaml.Place

namespace LineMarkup.Yaml

def isFlowMark (c : Char) : Bool :=
  ",[]\x7b\x7d".toList.contains c

/-- Whether a plain scalar may begin here. -/
def beginsPlain (flow : Bool) (place : Place) : Bool :=
  match place.next? with
  | none => false
  | some c =>
    if c = '-' then !place.gapAfter
    else if c = '?' || c = ':' then !flow && !place.gapAfter
    else !isBlankOrNul c && !",[]\x7b\x7d#&*!|>'\"%@`".toList.contains c

/-- One line of a plain scalar, without the blanks at its end. -/
def plainLine (flow : Bool) : Char → Text → Text
  | _, [] => []
  | previous, c :: rest =>
    if isBreak c || c = '#' && isBlankOrNul previous || c = ':' && rest.head?.all isBlankOrNul ||
        flow && isFlowMark c then []
    else
      let more := plainLine flow c rest
      if more.isEmpty && (c = ' ' || c = '\t') then [] else c :: more

/-- In flow style a colon may not touch a mark of the flow. -/
def hasBadColon (line rest : Text) : Bool :=
  holdsPair (· = ':') (fun c => isFlowMark c || c = '?') (line ++ rest.take 1)

/-- Whether a tab stands in the first `indent` columns of one of the lines after this place, up to
the next that is not empty. -/
def isTabIndented (indent : Nat) : Nat → Place → Bool
  | 0, _ => false
  | fuel + 1, place =>
    let place := ({ place with fresh := false } : Place).skipBlanks
    if place.next?.any isBreak then
      let below := place.newLine.skipBlanks
      below.column < indent && below.next? = some '\t' || isTabIndented indent fuel place.newLine
    else false

/-- The lines of a plain scalar. Lines after the first are indented at least up to `indent`. -/
def plainLines (flow : Bool) (indent : Nat) : Nat → Char → Place → Option (Text × Place)
  | 0, _, _ => none
  | fuel + 1, previous, place =>
    let line := plainLine flow previous place.rest
    let after := place.advance line.length
    let isTabbed := isTabIndented indent (after.rest.length + 1) after
    if isTabbed || flow && hasBadColon line after.rest then none
    else
      let (breaks, next) := skipBreaks (place.rest.length + 1) after
      let continues := !breaks.isEmpty && !next.atEnd && (flow || indent ≤ next.column) &&
        !(plainLine flow ' ' next.rest).isEmpty
      if continues then do
        let (more, after) ← plainLines flow indent fuel ' ' next
        return (line ++ fold breaks ++ more, after)
      else some (line, if breaks.isEmpty then after else { next with fresh := true })

def plain (flow : Bool) (indent : Nat) (place : Place) : Option (Node × Place) := do
  let (text, after) ← plainLines flow indent (place.rest.length + 1) 'x' place
  return (.scalar true text, after)

end LineMarkup.Yaml

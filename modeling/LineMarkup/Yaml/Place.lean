import LineMarkup.Yaml.Style

namespace LineMarkup.Yaml

/-- A place in the text. `fresh` holds as long as the line has had nothing but indentation. -/
structure Place where
  rest : Text
  column : Nat := 0
  fresh : Bool := true

namespace Place

def next? (place : Place) : Option Char :=
  place.rest.head?

/-- The next character is a blank or a line break, or there is none. -/
def atGap (place : Place) : Bool :=
  place.next?.all isBlankOrNul

/-- The character after the next one is a blank or a line break, or there is none. -/
def gapAfter (place : Place) : Bool :=
  place.rest.tail.head?.all isBlankOrNul

def advance (place : Place) (n : Nat) : Place :=
  { rest := place.rest.drop n, column := place.column + n, fresh := false }

/-- Past the line break at the front. -/
def newLine (place : Place) : Place :=
  match place.rest with
  | '\r' :: '\n' :: rest => { rest }
  | rest => { rest := rest.tail }

/-- Past the blanks at the front. Tabs do not indent. -/
def skipBlanks (place : Place) : Place :=
  let count := (place.rest.takeWhile (fun c => c = ' ' || !place.fresh && c = '\t')).length
  { place with rest := place.rest.drop count, column := place.column + count }

def skipComment (place : Place) : Place :=
  if place.next? = some '#' then
    { place with rest := place.rest.dropWhile (!isBreak ·), fresh := false }
  else place

/-- To the next character that is no part of blanks, comments and line breaks, over at most `fuel`
lines. -/
def skipLines : Nat → Place → Place
  | 0, place => place
  | fuel + 1, place =>
    let place := place.skipBlanks.skipComment
    if place.next?.any isBreak then skipLines fuel place.newLine else place

def skipGap (place : Place) : Place :=
  place.skipLines (place.rest.length + 1)

/-- The same within flow style, where tabs count as blanks everywhere. -/
def skipFlowLines : Nat → Place → Place
  | 0, place => place
  | fuel + 1, place =>
    let place := ({ place with fresh := false } : Place).skipBlanks.skipComment
    if place.next?.any isBreak then skipFlowLines fuel place.newLine else place

def skipFlowGap (place : Place) : Place :=
  place.skipFlowLines (place.rest.length + 1)

/-- At a line that begins or ends a document. -/
def atDocumentMark (place : Place) : Bool :=
  place.column = 0 && isDocumentMark place.rest && (place.advance 3).atGap

def atEnd (place : Place) : Bool :=
  place.rest.isEmpty || place.atDocumentMark

end Place

/-- The line breaks inside a scalar, as they count in its text. -/
abbrev Breaks := List Char

/-- The line and paragraph separators stand for themselves, all other line breaks for line feeds. -/
def breakChar (c : Char) : Char :=
  if c = '\u2028' || c = '\u2029' then c else '\n'

/-- Past blanks and line breaks inside a scalar, over at most `fuel` lines. -/
def skipBreaks : Nat → Place → Breaks × Place
  | 0, place => ([], place)
  | fuel + 1, place =>
    let place := ({ place with fresh := false } : Place).skipBlanks
    match place.next? with
    | some c =>
      if isBreak c then
        let (more, after) := skipBreaks fuel place.newLine
        (breakChar c :: more, after)
      else ([], place)
    | none => ([], place)

/-- What stands for the line breaks between two lines of a scalar: a blank for a single line feed,
and of more line breaks all but a line feed at the front. -/
def fold : Breaks → Text
  | [] => []
  | first :: rest => if first ≠ '\n' then first :: rest else if rest.isEmpty then [' '] else rest

end LineMarkup.Yaml

import LineMarkup.Text.Basic
import LineMarkup.Text.Class

namespace LineMarkup.Bidi

def arabicLetterMark : Char := '\u061C'

def leftToRightMark : Char := '\u200E'

def rightToLeftMark : Char := '\u200F'

def leftToRightIsolate : Char := '\u2066'

def rightToLeftIsolate : Char := '\u2067'

def firstStrongIsolate : Char := '\u2068'

def popDirectionalIsolate : Char := '\u2069'

/-- Marks without width that act only on the direction of the text next to them. -/
def isSingleMark (c : Char) : Bool :=
  c = arabicLetterMark || c = leftToRightMark || c = rightToLeftMark

def opensIsolate (c : Char) : Bool :=
  c = leftToRightIsolate || c = rightToLeftIsolate || c = firstStrongIsolate

def isControl (c : Char) : Bool :=
  isSingleMark c || opensIsolate c || c = popDirectionalIsolate

inductive Direction
  | leftToRight
  | rightToLeft
  | auto
deriving DecidableEq, Repr

namespace Direction

def name : Direction → String
  | .leftToRight => "LeftToRight"
  | .rightToLeft => "RightToLeft"
  | .auto => "Auto"

/-- Only so many characters are looked at. -/
def probeLimit : Nat := 100

/-- The direction of the first strong character that is in no isolate, at isolate depth `depth`. -/
def probe : Nat → Text → Direction
  | _, [] => .auto
  | depth, c :: rest =>
    if opensIsolate c then probe (depth + 1) rest
    else if c = popDirectionalIsolate then probe (depth - 1) rest
    else if depth ≠ 0 then probe depth rest
    else if Text.isStrongRightToLeft c then .rightToLeft
    else if Text.isStrongLeftToRight c then .leftToRight
    else probe depth rest

def ofText (text : Text) : Direction :=
  probe 0 (text.take probeLimit)

end Direction

end LineMarkup.Bidi

import LineMarkup.Text.Boundaries
import LineMarkup.Text.Alphabetic
import LineMarkup.Text.Numeric
import LineMarkup.Text.IdentifierContinue

namespace LineMarkup.Text

def isDigit (c : Char) : Bool :=
  '0' ≤ c && c ≤ '9'

def isHexDigit (c : Char) : Bool :=
  isDigit c || 'a' ≤ c && c ≤ 'f' || 'A' ≤ c && c ≤ 'F'

/-- Letters that announce a binary, octal or hexadecimal number. -/
def isBaseLetter (c : Char) : Bool :=
  c = 'b' || c = 'o' || c = 'x'

def isSign (c : Char) : Bool :=
  c = '+' || c = '-'

def isAlphabetic (c : Char) : Bool :=
  within alphabetic c.toNat

def isLetterOrNumber (c : Char) : Bool :=
  isAlphabetic c || within numeric c.toNat

/-- Letters, numbers and marks of any script, `_` and `-`. -/
def isWordContinuation (c : Char) : Bool :=
  c = '_' || c = '-' || isLetterOrNumber c || within identifierContinue c.toNat

/-- Space separators and the tab. -/
def isHorizontalSpace (c : Char) : Bool :=
  c = ' ' || c = '\t' || c = '\u00A0' || c = '\u1680' || '\u2000' ≤ c && c ≤ '\u200A' ||
    c = '\u202F' || c = '\u205F' || c = '\u3000'

/-- Carriage return, line feed, and the line and paragraph separators. -/
def isLineEnd (c : Char) : Bool :=
  c = '\r' || c = '\n' || c = '\u2028' || c = '\u2029'

/-- The Hebrew block and its presentation forms. -/
def isHebrew (c : Char) : Bool :=
  '\u0590' ≤ c && c ≤ '\u05FF' || '\uFB1D' ≤ c && c ≤ '\uFB4F'

/-- Blocks of the scripts written from right to left, as a boundary list. -/
def rightToLeftBlocks : List Nat :=
  [0x590, 0x900, 0xFB1D, 0xFE00, 0xFE70, 0xFF00, 0x10800, 0x11000, 0x1E800, 0x1F000]

def isStrongRightToLeft (c : Char) : Bool :=
  within rightToLeftBlocks c.toNat && isAlphabetic c

def isStrongLeftToRight (c : Char) : Bool :=
  isAlphabetic c && !isStrongRightToLeft c

end LineMarkup.Text

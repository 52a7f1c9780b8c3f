import LineMarkup.Yaml.Scalar

namespace LineMarkup.Yaml

def isBreak (c : Char) : Bool :=
  c = '\n' || c = '\r' || c = '\u0085' || c = '\u2028' || c = '\u2029'

def isBlankOrNul (c : Char) : Bool :=
  c = ' ' || c = '\t' || c = '\x00' || isBreak c

/-- Characters that may stand unescaped: no control characters but the line feed, no byte order mark
and no noncharacters at the end of the basic plane. -/
def isPrintable (c : Char) : Bool :=
  c = '\n' || ' ' ≤ c && c ≤ '~' ||
    '\u00A0' ≤ c && c ≠ '\uFEFF' && c.toNat ≠ 0xFFFE && c.toNat ≠ 0xFFFF

/-- A mark that opens something else at the start of a plain scalar. `next` is the character after
it, if there is one. -/
def opensIndicator (c : Char) (next : Option Char) : Bool :=
  "#,[]\x7b\x7d&*!|>'\"%@`".toList.contains c ||
    (c = '?' || c = ':' || c = '-') && next.all isBlankOrNul

/-- A colon before a blank, or a hash after one. -/
def holdsIndicator : Char → Text → Bool
  | _, [] => false
  | previous, c :: rest =>
    c = ':' && rest.head?.all isBlankOrNul || c = '#' && isBlankOrNul previous ||
      holdsIndicator c rest

def isDocumentMark (text : Text) : Bool :=
  "---".toList.isPrefixOf text || "...".toList.isPrefixOf text

def isIndicator : Text → Bool
  | [] => false
  | c :: rest => isDocumentMark (c :: rest) || opensIndicator c rest.head? || holdsIndicator c rest

/-- Whether some character that satisfies `p` comes directly before one that satisfies `q`. -/
def holdsPair (p q : Char → Bool) : Text → Bool
  | a :: b :: rest => p a && q b || holdsPair p q (b :: rest)
  | _ => false

inductive Style
  | plain
  | singleQuoted
  | doubleQuoted
  | literal
deriving DecidableEq, Repr

/-- A text with characters to be escaped, or with a blank before a line break. -/
def isSpecial (text : Text) : Bool :=
  text.any (!isPrintable ·) || holdsPair (· = ' ') isBreak text

def styleOf (text : Text) : Style :=
  if text.contains '\n' then
    if isSpecial text || text.getLast? = some ' ' then .doubleQuoted else .literal
  else if isSpecial text || holdsPair isBreak (· = ' ') text then .doubleQuoted
  else if isResolved text || isIndicator text || text.any isBreak ||
      text.head? = some ' ' || text.getLast? = some ' ' then .singleQuoted
  else .plain

end LineMarkup.Yaml

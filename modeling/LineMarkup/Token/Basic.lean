import LineMarkup.Text.Basic

namespace LineMarkup

inductive TokenKind
  /-- Empty, before the first character. -/
  | begin
  /-- Empty, after the last character. -/
  | textEnd
  /-- Letters, numbers and marks, with `_` and `-` between them. -/
  | word
  /-- A number with optional sign, base letter, fraction and exponent. -/
  | codeNumber
  /-- A backslash and the character it escapes. -/
  | escape
  | whitespace
  | lineEnd
  /-- Any other single character. -/
  | symbol
deriving DecidableEq, Repr

namespace TokenKind

def all : List TokenKind :=
  [.begin, .textEnd, .word, .codeNumber, .escape, .whitespace, .lineEnd, .symbol]

def name : TokenKind → String
  | .begin => "Begin"
  | .textEnd => "TextEnd"
  | .word => "Word"
  | .codeNumber => "CodeNumber"
  | .escape => "Escape"
  | .whitespace => "Whitespace"
  | .lineEnd => "LineEnd"
  | .symbol => "Symbol"

def ofName? (name : String) : Option TokenKind :=
  all.find? (fun kind => kind.name == name)

end TokenKind

/-- A discarded token takes part in a match without widening the range of the match. -/
structure Token where
  kind : TokenKind
  start : Nat
  text : Text
  discarded : Bool := false
deriving DecidableEq, Repr

namespace Token

def size (token : Token) : Nat :=
  token.text.size

/-- The position just past the token. -/
def stop (token : Token) : Nat :=
  token.start + token.size

def isSymbol (token : Token) (c : Char) : Bool :=
  token.kind = .symbol && token.text.head? = some c

def discard (token : Token) : Token :=
  { token with discarded := true }

/-- Begin and end tokens stand for no text. -/
def isSentinel (token : Token) : Bool :=
  token.kind = .begin || token.kind = .textEnd

end Token

end LineMarkup

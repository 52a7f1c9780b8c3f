import LineMarkup.Text.Class
import LineMarkup.Token.Basic
import LineMarkup.Token.Number

namespace LineMarkup.Token

open Text Number

/-- Underscores at the end of a word are left to the emphasis markup. -/
def wordTail (rest : Text) : Nat :=
  ((rest.takeWhile isWordContinuation).reverse.dropWhile (· = '_')).length

/-- What a backslash takes: a code point in braces after `u`, else one character. -/
def escaped : Text → Nat
  | 'u' :: '\x7b' :: rest =>
    let digits := run isHexDigit rest
    if digits ≠ 0 ∧ (rest.drop digits).head? = some '\x7d' then digits + 3 else 1
  | _ => 1

/-- The kind of the lexeme that starts with `c`, and how many characters it takes from the rest. -/
def lexeme (c : Char) (rest : Text) : TokenKind × Nat :=
  if isDigit c || isBaseLetter c || isSign c then
    match Number.length (c :: rest) with
    | n + 1 => (.codeNumber, n)
    | 0 => (if isSign c then .symbol else .word, 0)
  else if isLetterOrNumber c then (.word, wordTail rest)
  else if c = '\\' then
    match rest with
    | [] => (.symbol, 0)
    | d :: _ =>
      if isHorizontalSpace d || isLineEnd d then (.symbol, 0) else (.escape, escaped rest)
  else if isHorizontalSpace c then (.whitespace, run isHorizontalSpace rest)
  else if isLineEnd c then
    (.lineEnd, if c = '\r' ∧ rest.head? = some '\n' then 1 else 0)
  else (.symbol, 0)

/-- The lexemes of a text whose first character stands at `start`. -/
def scan (start : Nat) : Text → List Token
  | [] => []
  | c :: rest =>
    let (kind, more) := lexeme c rest
    let token : Token := { kind, start, text := c :: rest.take more }
    token :: scan token.stop (rest.drop more)
termination_by text => text.length

def beginning : Token :=
  { kind := .begin, start := 0, text := [] }

def ending (stop : Nat) : Token :=
  { kind := .textEnd, start := stop, text := [] }

/-- All tokens of a text, with the empty ones at both ends. -/
def tokenize (text : Text) : List Token :=
  beginning :: scan 0 text ++ [ending text.size]

end LineMarkup.Token

import LineMarkup.Text.Basic
import LineMarkup.Text.Class

namespace LineMarkup.Token.Number

/-- The functions here answer how many characters at the front of a text they take. -/
def run (p : Char → Bool) (text : Text) : Nat :=
  (text.takeWhile p).length

def sign : Text → Nat
  | c :: _ => if Text.isSign c then 1 else 0
  | [] => 0

/-- A point counts only with a digit after it. -/
def fraction (isDigit : Char → Bool) : Text → Nat
  | '.' :: rest => if run isDigit rest = 0 then 0 else run isDigit rest + 1
  | _ => 0

/-- The digits of an exponent are decimal, and there is at least one. -/
def exponent : Text → Nat
  | c :: rest =>
    if c = 'e' || c = 'E' then
      let signs := sign rest
      let digits := run Text.isDigit (rest.drop signs)
      if digits = 0 then 0 else signs + digits + 1
    else 0
  | [] => 0

/-- Digits with what may follow them. -/
def magnitude (isDigit : Char → Bool) (text : Text) : Nat :=
  let whole := run isDigit text
  if whole = 0 then 0
  else
    let upToFraction := whole + fraction isDigit (text.drop whole)
    upToFraction + exponent (text.drop upToFraction)

/-- A base letter counts only with digits after it. After `x` they are hexadecimal, after `b` and
`o` all decimal digits are taken. -/
def unsigned : Text → Nat
  | c :: rest =>
    if Text.isBaseLetter c then
      let digits := magnitude (if c = 'x' then Text.isHexDigit else Text.isDigit) rest
      if digits = 0 then 0 else digits + 1
    else magnitude Text.isDigit (c :: rest)
  | [] => 0

/-- A sign counts only with a number after it. -/
def length (text : Text) : Nat :=
  let digits := unsigned (text.drop (sign text))
  if digits = 0 then 0 else sign text + digits

end LineMarkup.Token.Number

import LineMarkup.Text.Class
import LineMarkup.Text.Basic

namespace LineMarkup.Text

/-- Digits without leading zeros. -/
def decimal (n : Nat) : Text :=
  if n < 10 then [n.digitChar] else decimal (n / 10) ++ [(n % 10).digitChar]

def digitValue (c : Char) : Nat :=
  c.toNat - '0'.toNat

def decimalValue (digits : Text) : Nat :=
  digits.foldl (fun value c => 10 * value + digitValue c) 0

/-- Reads decimal digits, after a plus sign or none. A number beyond 32 bits is not read. -/
def readWord? (text : Text) : Option UInt32 :=
  let digits := if text.head? = some '+' then text.tail else text
  if digits.isEmpty || !digits.all isDigit || UInt32.size ≤ decimalValue digits then none
  else some (UInt32.ofNat (decimalValue digits))

end LineMarkup.Text

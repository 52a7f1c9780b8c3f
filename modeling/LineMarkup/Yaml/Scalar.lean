import LineMarkup.Text.Class
import LineMarkup.Text.Decimal

namespace LineMarkup.Yaml

def isNull (scalar : Text) : Bool :=
  ["null".toList, "Null".toList, "NULL".toList, "~".toList].contains scalar

def boolean? (scalar : Text) : Option Bool :=
  if ["true".toList, "True".toList, "TRUE".toList].contains scalar then some true
  else if ["false".toList, "False".toList, "FALSE".toList].contains scalar then some false
  else none

def dropSign (sign : Char) (scalar : Text) : Text :=
  if scalar.head? = some sign then scalar.tail else scalar

/-- Digits after a leading zero are text and no number. -/
def isPaddedDigits (scalar : Text) : Bool :=
  let digits := if scalar.head?.any Text.isSign then scalar.tail else scalar
  1 < digits.length && digits.head? = some '0' && digits.tail.all Text.isDigit

def digitIn? (base : Nat) (c : Char) : Option Nat :=
  let value :=
    if Text.isDigit c then c.toNat - '0'.toNat
    else if Text.isHexDigit c then c.toLower.toNat - 'a'.toNat + 10
    else base
  if value < base then some value else none

/-- The value of one or more digits. -/
def valueIn? (base : Nat) (digits : Text) : Option Nat :=
  if digits.isEmpty then none
  else digits.foldl (fun value c => do return base * (← value) + (← digitIn? base c)) (some 0)

/-- A number after a mark of its base. -/
def based? (digits : Text) : Option Nat :=
  match digits with
  | '0' :: 'x' :: rest => valueIn? 16 rest
  | '0' :: 'o' :: rest => valueIn? 8 rest
  | '0' :: 'b' :: rest => valueIn? 2 rest
  | _ => none

/-- An integer that is not negative and has at most 128 bits. -/
def natural? (scalar : Text) : Option Nat :=
  let digits := dropSign '+' scalar
  let value := if isPaddedDigits scalar then none else based? digits <|> valueIn? 10 digits
  value.filter (· < Nat.pow 2 128)

/-- A negative integer has its sign before the mark of its base. -/
def isNegative (scalar : Text) : Bool :=
  match scalar with
  | '-' :: digits =>
    !isPaddedDigits scalar && (based? digits <|> valueIn? 10 digits).any (· ≤ Nat.pow 2 127)
  | _ => false

/-- The digits of a real number and the power of ten of the last one. -/
structure Real where
  digits : Nat
  exponent : Int

/-- An exponent with an optional sign and one or more digits, or none. -/
def exponent? : Text → Option Int
  | [] => some 0
  | mark :: rest =>
    if mark = 'e' || mark = 'E' then
      match rest with
      | '-' :: digits => (valueIn? 10 digits).map (fun value => -(value : Int))
      | _ => (valueIn? 10 (dropSign '+' rest)).map (fun value => (value : Int))
    else none

/-- Digits with a point among them or none, and an exponent or none. -/
def real? (scalar : Text) : Option Real :=
  let whole := scalar.takeWhile Text.isDigit
  let rest := scalar.dropWhile Text.isDigit
  let hasPoint := rest.head? = some '.'
  let part := if hasPoint then rest.tail.takeWhile Text.isDigit else []
  let rest := if hasPoint then rest.tail.dropWhile Text.isDigit else rest
  if whole.isEmpty && part.isEmpty then none
  else (exponent? rest).map (fun exponent =>
    { digits := Text.decimalValue (whole ++ part), exponent := exponent - part.length })

/-- From this number on, a real number is beyond the doubles. -/
def doubleLimit : Nat :=
  Nat.pow 2 1024 - Nat.pow 2 970

/-- Whether a real number rounds to a finite double. A number of that size has at most 309 digits
before its point. -/
def isFinite (real : Real) : Bool :=
  let size : Int := (Text.decimal real.digits).length + real.exponent
  if real.digits = 0 || size < 309 then true
  else if 309 < size then false
  else
    real.digits * Nat.pow 10 real.exponent.toNat <
      doubleLimit * Nat.pow 10 (-real.exponent).toNat

def infinities : List Text :=
  [".inf".toList, ".Inf".toList, ".INF".toList]

def isReal (scalar : Text) : Bool :=
  let unsigned := dropSign '+' scalar
  if unsigned.length < scalar.length && unsigned.head?.any Text.isSign then false
  else
    infinities.contains unsigned || scalar.head? = some '-' && infinities.contains scalar.tail ||
      [".nan".toList, ".NaN".toList, ".NAN".toList].contains scalar ||
      (real? (dropSign '-' unsigned)).any isFinite

/-- Whether a plain scalar would be taken for something else than its text. -/
def isResolved (scalar : Text) : Bool :=
  scalar.isEmpty || isNull scalar || (boolean? scalar).isSome || (natural? scalar).isSome ||
    isNegative scalar || isPaddedDigits scalar || isReal scalar

end LineMarkup.Yaml

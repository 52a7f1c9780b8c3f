import LineMarkup.Text.Class
import LineMarkup.Text.Decimal

namespace LineMarkup.Json

/-- A number with a sign, a fraction or an exponent is kept apart from the plain integers. A string
that holds half of a surrogate pair has the form of a string, but no text. -/
inductive Value
  | null
  | bool (value : Bool)
  | integer (value : Nat)
  | otherNumber
  | string (text : Option Text)
  | array (items : List Value)
  | object (members : List (Option Text × Value))

abbrev Reader (α : Type) := Text → Option (α × Text)

def skipBlanks (text : Text) : Text :=
  text.dropWhile (fun c => c = ' ' || c = '\t' || c = '\n' || c = '\r')

/-- Passes over fixed characters. -/
def expect : Text → Text → Option Text
  | [], text => some text
  | c :: more, d :: rest => if c = d then expect more rest else none
  | _ :: _, [] => none

/-- One or more digits. -/
def digits (text : Text) : Option (Text × Text) :=
  match text.takeWhile Text.isDigit with
  | [] => none
  | found => some (found, text.dropWhile Text.isDigit)

/-- A leading zero stands alone. -/
def wholePart (text : Text) : Option (Text × Text) := do
  let (found, rest) ← digits text
  if found.head? = some '0' ∧ found.length ≠ 1 then none else some (found, rest)

/-- Whether there is a fraction, and the text after it. -/
def fraction : Text → Option (Bool × Text)
  | '.' :: rest => (digits rest).map (fun (_, rest) => (true, rest))
  | text => some (false, text)

def exponent : Text → Option (Bool × Text)
  | c :: rest =>
    if c = 'e' || c = 'E' then
      let rest := if rest.head?.any Text.isSign then rest.tail else rest
      (digits rest).map (fun (_, rest) => (true, rest))
    else some (false, c :: rest)
  | [] => some (false, [])

def number (text : Text) : Option (Value × Text) := do
  let negative := text.head? = some '-'
  let (whole, rest) ← wholePart (if negative then text.tail else text)
  let (hasFraction, rest) ← fraction rest
  let (hasExponent, rest) ← exponent rest
  if negative || hasFraction || hasExponent then return (.otherNumber, rest)
  else return (.integer (Text.decimalValue whole), rest)

def hexValue? (c : Char) : Option Nat :=
  if Text.isDigit c then some (c.toNat - '0'.toNat)
  else if Text.isHexDigit c then some (c.toLower.toNat - 'a'.toNat + 10)
  else none

/-- Four hexadecimal digits. -/
def unit? (a b c d : Char) : Option Nat := do
  return 4096 * (← hexValue? a) + 256 * (← hexValue? b) + 16 * (← hexValue? c) + (← hexValue? d)

def isHighHalf (unit : Nat) : Bool :=
  0xD800 ≤ unit && unit < 0xDC00

def isLowHalf (unit : Nat) : Bool :=
  0xDC00 ≤ unit && unit < 0xE000

def simpleEscape? (c : Char) : Option Char :=
  match c with
  | '"' => some '"'
  | '\\' => some '\\'
  | '/' => some '/'
  | 'b' => some '\x08'
  | 'f' => some '\x0c'
  | 'n' => some '\n'
  | 'r' => some '\r'
  | 't' => some '\t'
  | _ => none

def putBefore (c : Option Char) (read : Option Text × Text) : Option Text × Text :=
  (do return (← c) :: (← read.1), read.2)

/-- The characters of a string, after its opening quote. Control characters have to be escaped. -/
def stringTail : Text → Option (Option Text × Text)
  | [] => none
  | '"' :: rest => some (some [], rest)
  | '\\' :: 'u' :: a :: b :: c :: d :: rest =>
    match unit? a b c d with
    | none => none
    | some unit =>
      match rest with
      | '\\' :: 'u' :: e :: f :: g :: h :: after =>
        match unit? e f g h with
        | none => none
        | some second =>
          if isHighHalf unit && isLowHalf second then
            let code := 0x10000 + 0x400 * (unit - 0xD800) + (second - 0xDC00)
            (stringTail after).map (putBefore (some (Char.ofNat code)))
          else
            let char := if isHighHalf unit || isLowHalf unit then none else some (Char.ofNat unit)
            (stringTail ('\\' :: 'u' :: e :: f :: g :: h :: after)).map (putBefore char)
      | rest =>
        let char := if isHighHalf unit || isLowHalf unit then none else some (Char.ofNat unit)
        (stringTail rest).map (putBefore char)
  | '\\' :: c :: rest =>
    match simpleEscape? c with
    | none => none
    | some char => (stringTail rest).map (putBefore (some char))
  | c :: rest => if c < ' ' || c = '\\' then none else (stringTail rest).map (putBefore (some c))
termination_by text => text.length

mutual

/-- A value, at most `fuel` levels and items deep in the text. -/
def value : Nat → Text → Option (Value × Text)
  | 0, _ => none
  | fuel + 1, text =>
    match skipBlanks text with
    | 'n' :: rest => (expect "ull".toList rest).map (fun rest => (.null, rest))
    | 't' :: rest => (expect "rue".toList rest).map (fun rest => (.bool true, rest))
    | 'f' :: rest => (expect "alse".toList rest).map (fun rest => (.bool false, rest))
    | '"' :: rest => (stringTail rest).map (fun (text, rest) => (.string text, rest))
    | '[' :: rest =>
      match skipBlanks rest with
      | ']' :: rest => some (.array [], rest)
      | rest => (items fuel rest).map (fun (items, rest) => (.array items, rest))
    | '\x7b' :: rest =>
      match skipBlanks rest with
      | '\x7d' :: rest => some (.object [], rest)
      | rest => (members fuel rest).map (fun (members, rest) => (.object members, rest))
    | rest => number rest

/-- The items of an array that is not empty, and its closing bracket. -/
def items : Nat → Text → Option (List Value × Text)
  | 0, _ => none
  | fuel + 1, text => do
    let (first, rest) ← value fuel text
    match skipBlanks rest with
    | ',' :: rest =>
      let (more, rest) ← items fuel rest
      return (first :: more, rest)
    | ']' :: rest => return ([first], rest)
    | _ => none

def member : Nat → Text → Option ((Option Text × Value) × Text)
  | 0, _ => none
  | fuel + 1, text =>
    match skipBlanks text with
    | '"' :: rest => do
      let (key, rest) ← stringTail rest
      match skipBlanks rest with
      | ':' :: rest =>
        let (value, rest) ← value fuel rest
        return ((key, value), rest)
      | _ => none
    | _ => none

/-- The members of an object that is not empty, and its closing brace. -/
def members : Nat → Text → Option (List (Option Text × Value) × Text)
  | 0, _ => none
  | fuel + 1, text => do
    let (first, rest) ← member fuel text
    match skipBlanks rest with
    | ',' :: rest =>
      let (more, rest) ← members fuel rest
      return (first :: more, rest)
    | '\x7d' :: rest => return ([first], rest)
    | _ => none

end

/-- One value with nothing but blanks around it. Every level and item takes at least one character
and at most three calls. -/
def read? (text : Text) : Option Value := do
  let (value, rest) ← value (3 * text.length + 3) text
  if (skipBlanks rest).isEmpty then some value else none

end LineMarkup.Json

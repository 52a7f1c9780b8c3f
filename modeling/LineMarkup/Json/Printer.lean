import LineMarkup.Data.Basic
import LineMarkup.Text.Decimal

namespace LineMarkup.Json

def hexDigit (n : Nat) : Char :=
  (n % 16).digitChar

/-- Only quotes, backslashes and control characters are escaped. -/
def escape (c : Char) : Text :=
  if c = '"' then ['\\', '"']
  else if c = '\\' then ['\\', '\\']
  else if c = '\x08' then ['\\', 'b']
  else if c = '\t' then ['\\', 't']
  else if c = '\n' then ['\\', 'n']
  else if c = '\x0c' then ['\\', 'f']
  else if c = '\r' then ['\\', 'r']
  else if c < ' ' then "\\u00".toList ++ [hexDigit (c.toNat / 16), hexDigit c.toNat]
  else [c]

def quote (text : Text) : Text :=
  '"' :: text.flatMap escape ++ ['"']

/-- A line break and the blanks at the start of the next line. -/
def newline (depth : Nat) : Text :=
  '\n' :: List.replicate (2 * depth) ' '

/-- Items between brackets, each on a line of its own. -/
def enclose (depth : Nat) (opening closing : Char) (items : List Text) : Text :=
  match items with
  | [] => [opening, closing]
  | first :: rest =>
    opening :: newline (depth + 1) ++ first ++
      rest.flatMap (fun item => ',' :: newline (depth + 1) ++ item) ++ newline depth ++ [closing]

mutual

def printAt (depth : Nat) : Data → Text
  | .null => "null".toList
  | .bool true => "true".toList
  | .bool false => "false".toList
  | .number n => Text.decimal n
  | .text t => quote t
  | .list items => enclose depth '[' ']' (printItems (depth + 1) items)
  | .record fields => enclose depth '\x7b' '\x7d' (printFields (depth + 1) fields)

def printItems (depth : Nat) : List Data → List Text
  | [] => []
  | item :: rest => printAt depth item :: printItems depth rest

def printFields (depth : Nat) : List (String × Data) → List Text
  | [] => []
  | (name, value) :: rest =>
    (quote name.toList ++ ": ".toList ++ printAt depth value) :: printFields depth rest

end

def print (data : Data) : Text :=
  printAt 0 data

end LineMarkup.Json

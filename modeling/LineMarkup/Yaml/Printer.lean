import LineMarkup.Data.Basic
import LineMarkup.Yaml.Style

namespace LineMarkup.Yaml

def upperHex (width n : Nat) : Text :=
  let digits := (Nat.toDigits 16 n).map Char.toUpper
  List.replicate (width - digits.length) '0' ++ digits

def escapeLetter? (c : Char) : Option Char :=
  match c with
  | '\x00' => some '0'
  | '\x07' => some 'a'
  | '\x08' => some 'b'
  | '\t' => some 't'
  | '\n' => some 'n'
  | '\x0b' => some 'v'
  | '\x0c' => some 'f'
  | '\r' => some 'r'
  | '\x1b' => some 'e'
  | '"' => some '"'
  | '\\' => some '\\'
  | '\u0085' => some 'N'
  | '\u2028' => some 'L'
  | '\u2029' => some 'P'
  | _ => none

def escape (c : Char) : Text :=
  match escapeLetter? c with
  | some letter => ['\\', letter]
  | none =>
    if isPrintable c then [c]
    else if c.toNat ≤ 0xFF then "\\x".toList ++ upperHex 2 c.toNat
    else if c.toNat ≤ 0xFFFF then "\\u".toList ++ upperHex 4 c.toNat
    else "\\U".toList ++ upperHex 8 c.toNat

/-- How the line breaks at the end of a literal block are kept. -/
def chomping (text : Text) : Text :=
  match text.reverse with
  | c :: rest =>
    if !isBreak c then ['-'] else if rest.head?.all isBreak then ['+'] else []
  | [] => ['-']

def indentation : Text :=
  [' ', ' ']

/-- Puts the indentation before each line that is not empty. `fresh` tells whether a line begins. -/
def indented : Bool → Text → Text
  | _, [] => []
  | fresh, c :: rest =>
    if isBreak c then c :: indented true rest
    else (if fresh then indentation else []) ++ c :: indented false rest

def endLine (line : Text) : Text :=
  line ++ ['\n']

/-- The lines of a literal block, with their line breaks. A line or paragraph separator at the end
of the text ends the last line. -/
def blockLines (text : Text) : List Text :=
  let lines := Text.lines (indented true text)
  let last := lines.getLast?.getD []
  lines.dropLast.map endLine ++
    if last.isEmpty then [] else if last.getLast?.any isBreak then [last] else [endLine last]

def quoteSingly (text : Text) : Text :=
  let doubled := text.flatMap (fun c => if c = '\'' then [c, c] else [c])
  let ending := if text.getLast?.any isBreak then indentation else []
  '\'' :: indented false doubled ++ ending ++ ['\'']

def textLines (text : Text) : List Text :=
  match styleOf text with
  | .plain => [endLine text]
  | .singleQuoted => [endLine (quoteSingly text)]
  | .doubleQuoted => [endLine ('"' :: text.flatMap escape ++ ['"'])]
  | .literal =>
    let hint := if text.head?.all (fun c => c = ' ' || isBreak c) then ['2'] else []
    endLine ('|' :: hint ++ chomping text) :: blockLines text

/-- The first line of a value goes after its key, the others below it. -/
def keyLines (key : Text) : List Text → List Text
  | [] => []
  | first :: rest => (key ++ ':' :: ' ' :: first) :: rest

/-- The first line of an item goes after a dash, the others below it. -/
def itemLines : List Text → List Text
  | [] => []
  | first :: rest => ('-' :: ' ' :: first) :: rest.map (indentation ++ ·)

mutual

def lines : Data → List Text
  | .list (item :: rest) => itemsLines (item :: rest)
  | .record (field :: rest) => fieldsLines (field :: rest)
  | .null => [endLine "null".toList]
  | .bool value => [endLine (if value then "true".toList else "false".toList)]
  | .number n => [endLine (Text.decimal n)]
  | .text t => textLines t
  | .list [] => [endLine "[]".toList]
  | .record [] => [endLine "\x7b\x7d".toList]

def itemsLines : List Data → List Text
  | [] => []
  | item :: rest => itemLines (lines item) ++ itemsLines rest

/-- A list stands below its key without being indented. -/
def fieldsLines : List (String × Data) → List Text
  | [] => []
  | (name, value) :: rest =>
    let key := name.toList
    let field :=
      match value with
      | .list (_ :: _) => endLine (key ++ [':']) :: lines value
      | .record (_ :: _) => endLine (key ++ [':']) :: (lines value).map (indentation ++ ·)
      | _ => keyLines key (lines value)
    field ++ fieldsLines rest

end

mutual

/-- All texts in data, in the order in which they are written. -/
def texts : Data → List Text
  | .text t => [t]
  | .list items => itemsTexts items
  | .record fields => fieldsTexts fields
  | _ => []

def itemsTexts : List Data → List Text
  | [] => []
  | item :: rest => texts item ++ itemsTexts rest

def fieldsTexts : List (String × Data) → List Text
  | [] => []
  | (_, value) :: rest => texts value ++ fieldsTexts rest

end

/-- Whether the last literal block keeps all its line breaks, so that the end has to be marked. -/
def isOpenEnded (data : Data) : Bool :=
  ((texts data).filter (styleOf · = .literal)).getLast?.any (chomping · = ['+'])

def print (data : Data) : Text :=
  (lines data).flatten ++ if isOpenEnded data then "...\n".toList else []

end LineMarkup.Yaml

import LineMarkup.Yaml.Node
import LineMarkup.Yaml.Place

namespace LineMarkup.Yaml

def escapeCode? (c : Char) : Option Char :=
  match c with
  | '0' => some '\x00'
  | 'a' => some '\x07'
  | 'b' => some '\x08'
  | 't' => some '\t'
  | '\t' => some '\t'
  | 'n' => some '\n'
  | 'v' => some '\x0b'
  | 'f' => some '\x0c'
  | 'r' => some '\r'
  | 'e' => some '\x1b'
  | ' ' => some ' '
  | '"' => some '"'
  | '/' => some '/'
  | '\\' => some '\\'
  | 'N' => some '\u0085'
  | '_' => some '\u00A0'
  | 'L' => some '\u2028'
  | 'P' => some '\u2029'
  | _ => none

def escapeWidth? (c : Char) : Option Nat :=
  match c with
  | 'x' => some 2
  | 'u' => some 4
  | 'U' => some 8
  | _ => none

/-- The character after a backslash, and how much of the text it takes. -/
def escaped? : Text → Option (Char × Nat)
  | [] => none
  | c :: rest =>
    match escapeCode? c, escapeWidth? c with
    | some char, _ => some (char, 1)
    | none, some width => do
      let digits := rest.take width
      let code ← valueIn? 16 digits
      if digits.length = width ∧ code.isValidChar then some (Char.ofNat code, width + 1) else none
    | none, none => none

/-- The text of a quoted scalar after its opening quote. Blanks next to a line break are dropped. -/
def quotedTail (quote : Char) : Nat → Place → Option (Text × Place)
  | 0, _ => none
  | fuel + 1, place =>
    if place.atDocumentMark then none
    else match place.rest with
      | [] => none
      | c :: rest =>
        if c = quote then
          if quote = '\'' ∧ rest.head? = some '\'' then do
            let (text, after) ← quotedTail quote fuel (place.advance 2)
            return ('\'' :: text, after)
          else some ([], place.advance 1)
        else if c = '\\' ∧ quote = '"' then
          if rest.head?.any isBreak then
            let (breaks, after) := skipBreaks place.rest.length (place.advance 1)
            (quotedTail quote fuel after).map (fun (text, after) => (breaks.tail ++ text, after))
          else do
            let (char, width) ← escaped? rest
            let (text, after) ← quotedTail quote fuel (place.advance (width + 1))
            return (char :: text, after)
        else if isBlankOrNul c then
          let (breaks, after) := skipBreaks place.rest.length place
          if breaks.isEmpty then do
            let (text, after) ← quotedTail quote fuel (place.advance 1)
            return (c :: text, after)
          else do
            let (text, after) ← quotedTail quote fuel after
            return (fold breaks ++ text, after)
        else do
          let (text, after) ← quotedTail quote fuel (place.advance 1)
          return (c :: text, after)

def quoted (quote : Char) (place : Place) : Option (Node × Place) := do
  let (text, after) ← quotedTail quote (place.rest.length + 1) (place.advance 1)
  return (.scalar false text, after)

end LineMarkup.Yaml

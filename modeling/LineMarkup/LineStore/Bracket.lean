import LineMarkup.LineStore.Basic
import LineMarkup.Text.Class

namespace LineMarkup.LineStore

/-- A span is followed no farther than this many lines. -/
def scanLimit : Nat := 1000

/-- The last position of a span, looked for from `line` on in at most `fuel` lines. -/
def lastFrom (store : LineStore) (id : Nat) : Nat → Nat → Option Nat
  | 0, _ => none
  | fuel + 1, line =>
    if line < store.lineCount then
      match (store.lineSpans line).bind (Span.find? · id) with
      | some { last := some last, .. } => some last
      | _ => lastFrom store id fuel (line + 1)
    else none

/-- The partner of a bracket at `pos`, by the first of the spans of its line that begins or ends
there. -/
def partner (store : LineStore) (pos line : Nat) : List Span → Option Nat
  | [] => none
  | span :: rest =>
    if pos < span.first then none
    else if !span.kind.isDelimited then partner store pos line rest
    else if span.last = some pos then some span.first
    else if span.first = pos then
      match span.last with
      | some last => some last
      | none => store.lastFrom span.id (scanLimit + 1) (line + 1)
    else partner store pos line rest

def matchingBracket (store : LineStore) (pos : Nat) : Option Nat := do
  let line ← store.lineOf? pos
  store.partner pos line (← store.lineSpans line)

end LineStore

/-- The selection lies between the anchor and the position. -/
structure Cursor where
  position : Nat
  anchor : Nat := position
deriving DecidableEq, Repr

namespace Cursor

def hasSelection (cursor : Cursor) : Bool :=
  cursor.position ≠ cursor.anchor

end Cursor

namespace LineStore

/-- The construct just before `pos`, if it is not prose, and the one that `pos` is in. One closed
without a mark of its own, such as a name, still counts right after its end. -/
def constructsAt (store : LineStore) (line pos : Nat) : Option Construct × Construct :=
  let here := ((store.spanAt? line pos).map Span.kind).getD .content
  if store.lineStart line < pos then
    match store.spanAt? line (pos - 1) with
    | some span => (some span.kind, if span.implicit then span.kind else here)
    | none => (none, here)
  else (none, here)

/-- What is known of the place where an opening bracket is typed. -/
structure Place where
  previous : Option Construct
  inside : Construct
  before : Option Char
  selected : Bool

namespace Place

def afterHash (place : Place) : Bool :=
  place.before = some '#'

def afterBackslash (place : Place) : Bool :=
  place.before = some '\\'

/-- A name may be followed by the arguments of a call. -/
def inName (place : Place) : Bool :=
  place.inside = .codeVariable || place.inside = .codeFunction

def inRaw (place : Place) : Bool :=
  place.inside = .raw || place.inside = .rawBlock

/-- After a Hebrew letter a quote is part of an abbreviation. -/
def opensQuotation (place : Place) : Bool :=
  !place.afterBackslash && (!place.before.any Text.isHebrew || place.selected)

/-- Whether the opening character is to be closed here. -/
def closes (place : Place) (opening : Char) : Bool :=
  let content := place.inside.holdsContent
  let code := place.inside.holdsCode
  let math := place.inside.holdsMath
  match opening with
  | '(' => code || place.inName || math || content && place.afterHash
  | '\x7b' => code || (content || math) && place.afterHash
  | '[' =>
    code || place.inName || (content || math) && place.afterHash ||
      place.previous = some .codeArguments || place.previous = some .contentBlock
  | '$' => code || content && !place.afterBackslash
  | '"' => code || math || (content || place.inRaw) && place.opensQuotation
  | '<' => content
  | '*' => content && place.inside ≠ .strong
  | '_' => content && place.inside ≠ .emphasis
  | _ => false

end Place

def closing : Char → Char
  | '(' => ')'
  | '\x7b' => '\x7d'
  | '[' => ']'
  | '<' => '>'
  | c => c

/-- The closing character to add after `opening` is typed at the cursor. -/
def closingBracket (store : LineStore) (cursor : Cursor) (opening : Char) : Option Char := do
  let line ← store.lineOf? cursor.position
  let (previous, inside) := store.constructsAt line cursor.position
  let before := (store.lineText line).before? (cursor.position - store.lineStart line)
  let place : Place :=
    { previous, inside, before := before.bind List.getLast?, selected := cursor.hasSelection }
  if place.closes opening then some (closing opening) else none

end LineStore

end LineMarkup

import LineMarkup.Yaml.Block
import LineMarkup.Yaml.Plain
import LineMarkup.Yaml.Quoted

namespace LineMarkup.Yaml

mutual

def flowNode : Nat → Place → Option (Node × Place)
  | 0, _ => none
  | fuel + 1, place =>
    match place.next? with
    | some '[' => do
      let (items, after) ← flowItems fuel (place.advance 1).skipFlowGap
      return (.sequence items, after)
    | some '\x7b' => do
      let (entries, after) ← flowEntries fuel (place.advance 1).skipFlowGap
      return (.mapping entries, after)
    | some '"' => quoted '"' place
    | some '\'' => quoted '\'' place
    | _ => if beginsPlain true place then plain true 0 place else none

/-- What follows a key in flow style, if a colon does. -/
def flowValue : Nat → Place → Option (Option Node × Place)
  | 0, _ => none
  | fuel + 1, place =>
    if place.next? = some ':' then
      let place := (place.advance 1).skipFlowGap
      if place.next?.any (fun c => c = ',' || c = ']' || c = '\x7d') then
        some (some .empty, place)
      else do
        let (value, after) ← flowNode fuel place
        return (some value, after.skipFlowGap)
    else some (none, place)

def flowItems : Nat → Place → Option (List Node × Place)
  | 0, _ => none
  | fuel + 1, place =>
    if place.atDocumentMark then none
    else if place.next? = some ']' then some ([], place.advance 1)
    else do
      let (first, after) ← flowNode fuel place
      let (value, after) ← flowValue fuel after.skipFlowGap
      let item := match value with
        | some value => .mapping [(first, value)]
        | none => first
      match after.next? with
      | some ',' =>
        let (more, after) ← flowItems fuel (after.advance 1).skipFlowGap
        return (item :: more, after)
      | some ']' => return ([item], after.advance 1)
      | _ => none

def flowEntries : Nat → Place → Option (List (Node × Node) × Place)
  | 0, _ => none
  | fuel + 1, place =>
    if place.atDocumentMark then none
    else if place.next? = some '\x7d' then some ([], place.advance 1)
    else do
      let (key, after) ← flowNode fuel place
      let (value, after) ← flowValue fuel after.skipFlowGap
      let entry := (key, value.getD .empty)
      match after.next? with
      | some ',' =>
        let (more, after) ← flowEntries fuel (after.advance 1).skipFlowGap
        return (entry :: more, after)
      | some '\x7d' => return ([entry], after.advance 1)
      | _ => none

end

/-- A key stands on one line and has a colon after it. -/
def key? (place : Place) : Option (Node × Place) := do
  let (node, after) ←
    match place.next? with
    | some '"' => quoted '"' place
    | some '\'' => quoted '\'' place
    | some c =>
      if c = '[' || c = '\x7b' then flowNode (3 * place.rest.length + 3) place
      else if beginsPlain false place then
        let line := plainLine false 'x' place.rest
        some (.scalar true line, place.advance line.length)
      else none
    | none => none
  let colon := after.skipBlanks
  let taken := place.rest.take (place.rest.length - colon.rest.length)
  if colon.next? = some ':' && colon.gapAfter && !taken.any isBreak then
    some (node, colon.advance 1)
  else none

mutual

/-- A node at this place. `parent` is the first column that is deeper than what is around it. A
mapping or sequence begins only where a line or an item does. -/
def blockNode : Nat → Nat → Bool → Place → Option (Node × Place)
  | 0, _, _, _ => none
  | fuel + 1, parent, startsBlock, place =>
    match place.next? with
    | none => none
    | some c =>
      if c = '-' && place.gapAfter then
        if startsBlock then do
          let (items, after) ← blockItems fuel place.column place
          return (.sequence items, after)
        else none
      else match key? place with
        | some _ =>
          if startsBlock then do
            let (entries, after) ← blockEntries fuel place.column place
            return (.mapping entries, after)
          else none
        | none =>
          if c = '|' || c = '>' then blockScalar (c = '|') (parent - 1) place
          else if c = '[' || c = '\x7b' then flowNode (3 * place.rest.length + 3) place
          else if c = '"' || c = '\'' then quoted c place
          else if beginsPlain false place then do
            let (node, after) ← plain false parent place
            if (after.skipBlanks.next? = some ':') then none else return (node, after)
          else none

/-- The value after a key at `column`, on the same line or below. -/
def blockValue : Nat → Nat → Place → Option (Node × Place)
  | 0, _, _ => none
  | fuel + 1, column, place =>
    let inline := place.skipBlanks.skipComment
    if inline.rest.isEmpty || inline.next?.any isBreak then
      let below := inline.skipGap
      if below.atEnd || below.column < column then some (.empty, below)
      else if below.column = column then
        if below.next? = some '-' && below.gapAfter then blockNode fuel (column + 1) true below
        else some (.empty, below)
      else blockNode fuel (column + 1) true below
    else blockNode fuel (column + 1) false inline

def blockEntries : Nat → Nat → Place → Option (List (Node × Node) × Place)
  | 0, _, _ => none
  | fuel + 1, column, place => do
    let (key, after) ← key? place
    let (value, after) ← blockValue fuel column after
    let next := after.skipGap
    if next.atEnd || next.fresh && next.column < column then return ([(key, value)], next)
    else if next.fresh && next.column = column then
      let (more, after) ← blockEntries fuel column next
      return ((key, value) :: more, after)
    else none

def blockItems : Nat → Nat → Place → Option (List Node × Place)
  | 0, _, _ => none
  | fuel + 1, column, place => do
    let inline := ({ place.advance 1 with fresh := true } : Place).skipBlanks.skipComment
    let below := inline.skipGap
    let sameLine := !(inline.rest.isEmpty || inline.next?.any isBreak)
    let (item, after) ←
      if sameLine then blockNode fuel (column + 1) true inline
      else if below.atEnd || below.column ≤ column then some (.empty, below)
      else blockNode fuel (column + 1) true below
    let next := after.skipGap
    if next.fresh && next.column = column && next.next? = some '-' && next.gapAfter &&
        !next.atEnd then
      let (more, after) ← blockItems fuel column next
      return (item :: more, after)
    else if next.atEnd || next.fresh && next.column ≤ column then return ([item], next)
    else none

end

/-- Characters that a text may hold at all. -/
def isAllowed (c : Char) : Bool :=
  c = '\t' || c = '\n' || c = '\r' || ' ' ≤ c && c ≤ '~' || c = '\u0085' || '\u00A0' ≤ c

def skipDirectives : Nat → Place → Place
  | 0, place => place
  | fuel + 1, place =>
    if place.column = 0 && place.next? = some '%' then
      let line := place.advance (place.rest.takeWhile (!isBreak ·)).length
      skipDirectives fuel line.newLine.skipGap
    else place

/-- What is left after the node of a document has to be blank, but for a mark of its end. -/
def isFinished (place : Place) : Bool :=
  let place := place.skipGap
  if place.column = 0 && "...".toList.isPrefixOf place.rest && (place.advance 3).atGap then
    (place.advance 3).skipGap.rest.isEmpty
  else place.rest.isEmpty

/-- The node of a text that holds one document. A document without content is an empty scalar.
Anchors, aliases, tags and keys behind a question mark are not read. -/
def read? (text : Text) : Option Node := do
  let text := if text.head? = some '\uFEFF' then text.tail else text
  if !text.all isAllowed then none
  else
    let place := ({ rest := text } : Place).skipGap
    let content := skipDirectives (text.length + 1) place
    let marked := content.atDocumentMark && content.next? = some '-'
    if content.rest.length < place.rest.length && !marked then none
    else
      let start := if marked then (content.advance 3).skipGap else content
      let (node, after) ←
        if start.atEnd then some (.empty, start)
        else blockNode (3 * text.length + 3) 0 (!marked || start.fresh) start
      if isFinished after then return node else none

end LineMarkup.Yaml

namespace LineMarkup

abbrev Text := List Char

namespace Text

/-- Bytes of the UTF-8 form. A position counts the bytes before it, so it may fall inside a
character. -/
def size : Text → Nat
  | [] => 0
  | c :: rest => c.utf8Size + size rest

@[simp] theorem size_nil : size [] = 0 := rfl

@[simp] theorem size_cons : size (c :: text) = c.utf8Size + size text := rfl

@[simp] theorem size_append : size (a ++ b) = size a + size b := by
  induction a with
  | nil => simp
  | cons c a ih => simp [ih, Nat.add_assoc]

/-- The pieces between separators. There is always at least one. -/
def split (separator : Char) : Text → List Text
  | [] => [[]]
  | c :: rest =>
    if c = separator then [] :: split separator rest
    else match split separator rest with
      | [] => [[c]]
      | piece :: more => (c :: piece) :: more

/-- Pieces put back together with one separator between neighbours. -/
def join (separator : Char) : List Text → Text
  | [] => []
  | [piece] => piece
  | piece :: more => piece ++ separator :: join separator more

theorem split_ne_nil : split separator text ≠ [] := by
  cases text with
  | nil => simp [split]
  | cons c rest =>
    simp only [split]
    split
    · simp
    · split <;> simp

/-- The lines between line feeds. -/
def lines (text : Text) : List Text :=
  split '\n' text

def unlines (lines : List Text) : Text :=
  join '\n' lines

/-- The characters before position `pos`, or nothing if `pos` is no boundary of the text. -/
def before? : Text → Nat → Option Text
  | _, 0 => some []
  | [], _ + 1 => none
  | c :: rest, pos =>
    if pos < c.utf8Size then none else (before? rest (pos - c.utf8Size)).map (c :: ·)

/-- The first boundary at or after `pos`, or the size of a shorter text. -/
def nextBoundary : Text → Nat → Nat
  | _, 0 => 0
  | [], _ + 1 => 0
  | c :: rest, pos => c.utf8Size + nextBoundary rest (pos - c.utf8Size)

/-- One-based line and column of the character at `pos`. Columns count characters. -/
def lineAndColumn (text : Text) (pos : Nat) : Nat × Nat :=
  go text pos 1 1
where
  go : Text → Nat → Nat → Nat → Nat × Nat
    | [], _, line, column => (line, column)
    | _, 0, line, column => (line, column)
    | c :: rest, pos, line, column =>
      let pos := pos - c.utf8Size
      if c = '\n' then go rest pos (line + 1) 1 else go rest pos line (column + 1)

end Text

end LineMarkup

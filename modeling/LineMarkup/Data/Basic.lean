import LineMarkup.Text.Basic

namespace LineMarkup

/-- Data to be written out. -/
inductive Data
  | null
  | bool (value : Bool)
  | number (value : Nat)
  | text (value : Text)
  | list (items : List Data)
  | record (fields : List (String × Data))

namespace Data

def string (value : String) : Data :=
  .text value.toList

end Data

end LineMarkup

import LineMarkup.Json.Printer
import LineMarkup.Json.Reader
import LineMarkup.Settings.Field

namespace LineMarkup.Settings

/-- A choice is its name, or an object with null under its name. -/
def jsonDecoder : Decoder Json.Value where
  isNull
    | .null => true
    | _ => false
  word?
    | .integer n => word? n
    | _ => none
  bool?
    | .bool b => some b
    | _ => none
  text?
    | .string text => text
    | _ => none
  choice?
    | .string text => text
    | .object [(key, .null)] => key
    | _ => none

/-- Members with other names are passed over. -/
def jsonFields : List (Option Text × Json.Value) → Option (List (Field × Json.Value))
  | [] => some []
  | (none, _) :: _ => none
  | (some key, value) :: rest =>
    (jsonFields rest).map (fun fields =>
      match Field.ofName? key with
      | some field => (field, value) :: fields
      | none => fields)

def ofJson? (text : Text) : Option Settings :=
  match Json.read? text with
  | some (.object members) => (jsonFields members).bind (ofFields? jsonDecoder)
  | some (.array items) =>
    if items.length ≤ Field.all.length then ofFields? jsonDecoder (Field.all.zip items) else none
  | _ => none

def toJson (s : Settings) : Text :=
  Json.print s.toData

end LineMarkup.Settings

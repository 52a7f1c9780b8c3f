import LineMarkup.Settings.Field
import LineMarkup.Yaml.Printer
import LineMarkup.Yaml.Reader

namespace LineMarkup.Settings

/-- Only plain scalars are numbers, booleans or null; every scalar has its text. -/
def yamlDecoder : Decoder Yaml.Node where
  isNull
    | .scalar plain text => plain && (text.isEmpty || Yaml.isNull text)
    | _ => false
  word?
    | .scalar true text => (Yaml.natural? text).bind word?
    | _ => none
  bool?
    | .scalar true text => Yaml.boolean? text
    | _ => none
  text?
    | .scalar _ text => some text
    | _ => none
  choice?
    | .scalar _ text => some text
    | _ => none

/-- Entries with other keys are passed over, but a key has to be a scalar. -/
def yamlFields : List (Yaml.Node × Yaml.Node) → Option (List (Field × Yaml.Node))
  | [] => some []
  | (.scalar _ key, value) :: rest =>
    (yamlFields rest).map (fun fields =>
      match Field.ofName? key with
      | some field => (field, value) :: fields
      | none => fields)
  | _ :: _ => none

/-- An empty text stands for an empty mapping. -/
def ofYaml? (text : Text) : Option Settings :=
  match Yaml.read? text with
  | some (.mapping entries) => (yamlFields entries).bind (ofFields? yamlDecoder)
  | some (.scalar _ []) => some {}
  | _ => none

def toYaml (s : Settings) : Text :=
  Yaml.print s.toData

end LineMarkup.Settings

import LineMarkup.Text.Basic

namespace LineMarkup.Yaml

/-- A plain scalar may stand for something else than its text. -/
inductive Node
  | scalar (plain : Bool) (text : Text)
  | sequence (items : List Node)
  | mapping (entries : List (Node × Node))

namespace Node

def empty : Node :=
  .scalar true []

end Node

end LineMarkup.Yaml

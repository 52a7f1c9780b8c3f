import LineMarkup.LineStore.Basic

namespace LineMarkup

structure Color where
  red : UInt8
  green : UInt8
  blue : UInt8
  alpha : UInt8 := 255
deriving DecidableEq, Repr

namespace Color

def hexDigits (byte : UInt8) : Text :=
  [Nat.digitChar (byte.toNat / 16), Nat.digitChar (byte.toNat % 16)]

/-- The alpha value is written only if the color is not opaque. -/
def hexName (color : Color) : Text :=
  '#' :: hexDigits color.red ++ hexDigits color.green ++ hexDigits color.blue ++
    if color.alpha = 255 then [] else hexDigits color.alpha

end Color

namespace LineStore

def symbolPath : Text :=
  "sym.".toList

/-- In code a symbol goes by its name, and in math without the path of its module. -/
def symbolExpression (store : LineStore) (pos : Nat) (name : Text) : Option Text :=
  if name.isEmpty then none
  else match store.environment pos with
    | .unknown => none
    | .code | .other => some name
    | .math =>
      if symbolPath.isPrefixOf name then some (name.drop symbolPath.length) else some ('#' :: name)
    | .content => some ('#' :: name)

def colorExpression (store : LineStore) (pos : Nat) (color : Color) : Option Text :=
  let expression := "rgb(\"".toList ++ color.hexName ++ "\")".toList
  match store.environment pos with
  | .unknown => none
  | .code => some expression
  | _ => some ('#' :: expression)

/-- A reference in prose, a string elsewhere. -/
def labelExpression (store : LineStore) (pos : Nat) (label : Text) : Option Text :=
  if label.isEmpty then none
  else match store.environment pos with
    | .unknown => none
    | .content => some ('@' :: label)
    | _ => some ('"' :: label ++ ['"'])

end LineStore

end LineMarkup

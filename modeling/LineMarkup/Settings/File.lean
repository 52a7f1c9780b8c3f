import LineMarkup.Settings.Json
import LineMarkup.Settings.Yaml

namespace LineMarkup.Settings

inductive Format
  | json
  | yaml
deriving DecidableEq, Repr

inductive FileError
  /-- The file cannot be read or written. -/
  | inaccessible (path : Text)
  | invalidJson
  | invalidYaml
  | unsupportedFormat (path : Text)
deriving DecidableEq, Repr

namespace FileError

def message : FileError → Text
  | .inaccessible path => "Could not access settings file ".toList ++ path
  | .invalidJson => "Invalid JSON settings".toList
  | .invalidYaml => "Invalid YAML settings".toList
  | .unsupportedFormat path => "Unsupported settings file format: ".toList ++ path

def code : FileError → String
  | .inaccessible _ => "settings::io"
  | .invalidJson => "settings::json"
  | .invalidYaml => "settings::yaml"
  | .unsupportedFormat _ => "settings::unsupported_format"

def help : FileError → String
  | .inaccessible _ => "Check that the file exists and that its directory is writable."
  | .invalidJson => "The settings file must hold a JSON object with kebab-case keys."
  | .invalidYaml => "The settings file must hold a YAML mapping with kebab-case keys."
  | .unsupportedFormat _ => "Use a file ending in .json, .yaml or .yml."

end FileError

/-- The names along a path. -/
def pathNames (path : Text) : List Text :=
  (Text.split '/' path).filter (fun name => !name.isEmpty && name ≠ ['.'])

/-- What follows the last point of the last name, if something stands before the point. -/
def extension? (path : Text) : Option Text := do
  let name ← (pathNames path).getLast?
  let extension := (name.reverse.takeWhile (· ≠ '.')).reverse
  if name = "..".toList ∨ name.length ≤ extension.length + 1 then none else some extension

def Format.ofPath? (path : Text) : Option Format := do
  let extension ← extension? path
  if extension = "json".toList then some .json
  else if extension = "yaml".toList ∨ extension = "yml".toList then some .yaml
  else none

/-- What stands under a name along a path. -/
inductive Entry
  | file (bytes : ByteArray)
  | directory

/-- The entries below a folder by the names along their paths, the latest first. A folder is a value,
so that loading and saving are functions of it. -/
structure Folder where
  entries : List (List Text × Entry) := []

namespace Folder

def find? (folder : Folder) (names : List Text) : Option Entry :=
  if names.isEmpty then some .directory
  else (folder.entries.find? (fun entry => entry.1 = names)).map Prod.snd

def isDirectory (folder : Folder) (names : List Text) : Bool :=
  match folder.find? names with
  | some .directory => true
  | _ => false

/-- Goes along names through directories. The last name need not be there. -/
def walk (folder : Folder) (reached : List Text) : List Text → Option (List Text)
  | [] => some reached
  | name :: rest =>
    if !folder.isDirectory reached then none
    else if name = "..".toList then
      if reached.isEmpty then none else walk folder reached.dropLast rest
    else walk folder (reached ++ [name]) rest

/-- A path that ends in a slash is one of a directory. -/
def filePlace? (folder : Folder) (path : Text) : Option (List Text) :=
  if path.getLast? = some '/' then none else folder.walk [] (pathNames path)

def read? (folder : Folder) (path : Text) : Option Text := do
  match ← folder.find? (← folder.filePlace? path) with
  | .file bytes => (String.fromUTF8? bytes).map String.toList
  | .directory => none

/-- A file is not written over a directory. -/
def write? (folder : Folder) (path : Text) (bytes : ByteArray) : Option Folder := do
  let names ← folder.filePlace? path
  if folder.isDirectory names then none
  else some { entries := (names, .file bytes) :: folder.entries }

def makeDirectory (folder : Folder) (path : Text) : Folder :=
  let names := pathNames path
  let directories := (List.range names.length).map (fun n => (names.take (n + 1), Entry.directory))
  { entries := directories ++ folder.entries }

end Folder

def load (folder : Folder) (path : Text) : Except FileError Settings :=
  match Format.ofPath? path with
  | none => .error (.unsupportedFormat path)
  | some format =>
    match folder.read? path with
    | none => .error (.inaccessible path)
    | some text =>
      match format with
      | .json => (ofJson? text).elim (.error .invalidJson) .ok
      | .yaml => (ofYaml? text).elim (.error .invalidYaml) .ok

def save (s : Settings) (folder : Folder) (path : Text) : Except FileError Folder :=
  match Format.ofPath? path with
  | none => .error (.unsupportedFormat path)
  | some format =>
    let text := match format with
      | .json => s.toJson
      | .yaml => s.toYaml
    (folder.write? path (String.ofList text).toUTF8).elim (.error (.inaccessible path)) .ok

end LineMarkup.Settings

import IndentMarkup.Command

/-! Command line arguments. The first argument that is not an option is the command and the second
the template; options may stand anywhere, with their value behind an equals sign or as the next
argument. -/
namespace IndentMarkup.Command

structure Arguments where
  words : List String := []
  settings : List (String × String) := []
  verbosity : Nat := 0

namespace Arguments

/-- The options that take a value. -/
def settingNames : List String := ["--values", "--options", "--ref-attr", "--format", "-f"]

/-- An option with its value behind an equals sign. -/
def setting? (argument : String) : Option (String × String) :=
  let name := String.ofList (argument.toList.takeWhile (· != '='))
  match argument.toList.dropWhile (· != '=') with
  | '=' :: value => if settingNames.contains name then some (name, String.ofList value) else none
  | _ => none

/-- How much an option adds to the verbosity: one for each letter, if there are no others. -/
def verbosity? (argument : String) : Option Nat :=
  match argument.toList with
  | '-' :: 'v' :: rest => if rest.all (· == 'v') then some (rest.length + 1) else none
  | _ => if argument == "--verbose" then some 1 else none

def addSetting (known : Arguments) (name value : String) : Arguments :=
  { known with settings := known.settings ++ [(name, value)] }

/-- Reads arguments, behind those that have been read. -/
def read (known : Arguments) : List String → Option Arguments
  | [] => some known
  | argument :: rest =>
    match verbosity? argument with
    | some more => read { known with verbosity := known.verbosity + more } rest
    | none =>
      match setting? argument with
      | some (name, value) => read (known.addSetting name value) rest
      | none =>
        if settingNames.contains argument then
          match rest with
          | value :: rest => read (known.addSetting argument value) rest
          | [] => none
        else if argument.startsWith "-" then none
        else read { known with words := known.words ++ [argument] } rest

def value? (arguments : Arguments) (name : String) : Option String :=
  (arguments.settings.find? (·.1 == name)).map (·.2)

/-- What the arguments ask for. -/
def request? (arguments : Arguments) : Option Request := do
  match arguments.words with
  | ["render", path] =>
    let name := (arguments.value? "--format").orElse fun _ => arguments.value? "-f"
    let format ← Format.ofName? (name.getD "html")
    return .render {
      path, format
      values := arguments.value? "--values"
      options := arguments.value? "--options"
      refAttr := arguments.value? "--ref-attr" }
  | ["check", path] => if arguments.settings.isEmpty then some (.check path) else none
  | _ => none

end Arguments

def usage : String :=
  "usage: render PATH [-v] [--values JSON] [--options JSON] [--ref-attr NAME]\n" ++
  "              [--format FORMAT]\n" ++
  "       check PATH [-v]\n" ++
  "formats: html, ast-tag, bindings\n"

end IndentMarkup.Command

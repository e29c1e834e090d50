import IndentMarkup.Number.Format
import IndentMarkup.Text.Quoted
import IndentMarkup.Value.Basic

/-! The display form of values, used in messages and outlines. Texts are quoted, so that they
cannot be taken for anything else; nodes and host objects show only what they are. -/
namespace IndentMarkup.Value

variable {ν : Type}

/-- What a list of display forms looks like between brackets. -/
def bracketed (opening closing : String) (parts : List String) : String :=
  opening ++ ", ".intercalate parts ++ closing

mutual

def display : Value ν → String
  | .absent => "absent"
  | .bool value => if value then "true" else "false"
  | .number value => Number.format value
  | .string text => Text.quoted text
  | .node _ => "<node>"
  | .list items => bracketed "[" "]" (displayItems items)
  | .map entries => bracketed "\x7b" "\x7d" (displayEntries entries)
  | .ref names _ => bracketed "ref(" ")" names
  | .host _ => "<opaque>"

def displayItems : List (Value ν) → List String
  | [] => []
  | item :: rest => display item :: displayItems rest

def displayEntries : List (String × Value ν) → List String
  | [] => []
  | (key, value) :: rest => (key ++ ": " ++ display value) :: displayEntries rest

end

end IndentMarkup.Value

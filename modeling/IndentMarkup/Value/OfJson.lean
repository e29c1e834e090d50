import IndentMarkup.Json.Basic
import IndentMarkup.Value.Basic

/-! JSON documents as values: each kind of document is a kind of value, and `null` is absence. -/
namespace IndentMarkup.Value

variable {ν : Type}

mutual

/-- The value of a JSON document. -/
def ofJson : Json → Value ν
  | .null => .absent
  | .bool value => .bool value
  | .number value => .number value
  | .string text => .string text
  | .array items => .list (ofJsonItems items)
  | .object members => .map (ofJsonMembers members)

def ofJsonItems : List Json → List (Value ν)
  | [] => []
  | item :: rest => ofJson item :: ofJsonItems rest

def ofJsonMembers : List (String × Json) → List (String × Value ν)
  | [] => []
  | (key, value) :: rest => (key, ofJson value) :: ofJsonMembers rest

end

end IndentMarkup.Value

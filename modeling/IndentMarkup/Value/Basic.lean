/-! Values: what a slot of a source holds when the document is evaluated. A value may be a
reference, which stands for what its projection makes of the variables it names; it is looked up
where the value is used. -/
namespace IndentMarkup

/-- What a reference makes of the values of its names. -/
inductive Projection (β : Type) where
  /-- The first of the values, absent if there is none. -/
  | first
  /-- What a function of the host makes of them. A function is known by its name and by the values
  that it has captured. -/
  | closure (function : String) (captured : List β)
  deriving DecidableEq, Repr

/-- Something that only the host and its builder know: an event callback, or any other object. -/
structure Handle where
  label : String
  /-- Whether it can be called when an event is dispatched. -/
  callable : Bool
  deriving DecidableEq, Repr

/-- A value; `ν` are the output nodes of the builder in use. -/
inductive Value (ν : Type) where
  | absent
  | bool (value : Bool)
  | number (value : Float)
  | string (value : String)
  /-- An output node that exists already. -/
  | node (node : ν)
  | list (items : List (Value ν))
  /-- Keys with values, in order. -/
  | map (entries : List (String × Value ν))
  /-- A reference to variables, by name. -/
  | ref (names : List String) (projection : Projection (Value ν))
  | host (handle : Handle)
  deriving Repr, Inhabited

namespace Value

variable {ν : Type}

/-- The value of a single variable, unchanged. -/
def variableRef (name : String) : Value ν :=
  .ref [name] .first

def string? : Value ν → Option String
  | .string text => some text
  | _ => none

/-- Whether a condition holds with this value. Absent values, `false`, zero, numbers that are none
and the empty text are the ones with which it does not. -/
def isTruthy : Value ν → Bool
  | .absent => false
  | .bool value => value
  | .number value => value != 0.0 && !value.isNaN
  | .string text => !text.isEmpty
  | _ => true

def kindName : Value ν → String
  | .absent => "absent"
  | .bool _ => "bool"
  | .number _ => "number"
  | .string _ => "str"
  | .node _ => "node"
  | .list _ => "list"
  | .map _ => "map"
  | .ref _ _ => "ref"
  | .host _ => "opaque"

/-! ## Equality -/

section Equality

variable [BEq ν]

mutual

/-- Whether two values are equal. A number that is none differs from itself, and references and
host objects that were made apart are never equal. -/
def equal : Value ν → Value ν → Bool
  | .absent, .absent => true
  | .bool a, .bool b => a == b
  | .number a, .number b => a == b
  | .string a, .string b => a == b
  | .node a, .node b => a == b
  | .list a, .list b => equalItems a b
  | .map a, .map b => equalEntries a b
  | _, _ => false

def equalItems : List (Value ν) → List (Value ν) → Bool
  | [], [] => true
  | a :: as, b :: bs => equal a b && equalItems as bs
  | _, _ => false

def equalEntries : List (String × Value ν) → List (String × Value ν) → Bool
  | [], [] => true
  | (key, a) :: as, (key', b) :: bs => key == key' && equal a b && equalEntries as bs
  | _, _ => false

end

end Equality

end Value

end IndentMarkup

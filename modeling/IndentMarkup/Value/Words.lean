import IndentMarkup.Value.Display
import IndentMarkup.Value.Host

/-! A host of few words. Where references come from data and not from a program, their functions
are words with a fixed meaning. -/
namespace IndentMarkup

variable {ν : Type}

namespace Value

/-- A number times all of these values, if they are numbers. -/
def productFrom (start : Float) : List (Value ν) → Option Float
  | [] => some start
  | .number value :: rest => productFrom (start * value) rest
  | _ :: _ => none

/-- A value as part of a longer text. -/
def plainText : Value ν → String
  | .string text => text
  | value => value.display

end Value

namespace Projection

/-- This value, whatever the names stand for. -/
def constant (value : Value ν) : Projection (Value ν) := .closure "constant" [value]

/-- The value of one of the names, absent if there are fewer. -/
def argument (index : Nat) : Projection (Value ν) := .closure "argument" [.number index.toFloat]

/-- The names with their values. -/
def entries (names : List String) : Projection (Value ν) := .closure "entries" (names.map .string)

/-- A word that captures nothing. -/
def word (name : String) : Projection (Value ν) := .closure name []

end Projection

namespace Host

/-- What a word makes of its arguments. A word that is not known gives no value. -/
def say (word : String) (captured arguments : List (Value ν)) : Value ν :=
  let first := arguments.headD .absent
  match word, captured with
  | "constant", [value] => value
  | "argument", [.number index] => arguments.getD index.toUInt64.toNat .absent
  | "entries", names => .map ((names.map Value.plainText).zip arguments)
  | "list", _ => .list arguments
  | "count", _ => .number arguments.length.toFloat
  | "wrapped", _ => .string ("_" ++ first.display ++ "_")
  | "concatenation", _ => .string (String.join (arguments.map Value.plainText))
  | "product", _ => ((Value.productFrom 1.0 arguments).map Value.number).getD .absent
  | "kind", _ => .string first.kindName
  | "negation", _ => .bool !first.isTruthy
  | "indirection", _ =>
    match first with
    | .string name => .variableRef name
    | value => value
  | _, _ => .absent

/-- The host that knows these words and no others. -/
abbrev ofWords : Host ν := ⟨say⟩

end Host

end IndentMarkup

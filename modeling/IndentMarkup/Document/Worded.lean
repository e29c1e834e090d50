import IndentMarkup.Document.Basic
import IndentMarkup.Value.Basic

/-! Words as values. For evaluation, literal text and a slot that holds the same text are one and
the same, except as the base of an element. -/
namespace IndentMarkup

variable {ν : Type}

/-- The value of a word: literal text as a text, and what a slot holds. -/
def Word.value : Word (Value ν) → Value ν
  | .text content => .string content
  | .slot value => value

/-- The name of an attribute that is not a splat. -/
def Attribute.nameValue? : Attribute (Value ν) → Option (Value ν)
  | .pair name _ | .bare name => some name.value
  | .splat _ => none

def Attribute.nameText? (entry : Attribute (Value ν)) : Option String :=
  entry.nameValue?.bind Value.string?

/-- The value of an attribute: what its name is given, or what is to be spread. -/
def Attribute.assigned : Attribute (Value ν) → Value ν
  | .pair _ value => value.value
  | .bare _ => .bool true
  | .splat value => value

/-! ## Equality of documents -/

section Equality

variable [BEq ν]

/-- Whether two optional values are both missing, or equal. -/
def Value.equalOption : Option (Value ν) → Option (Value ν) → Bool
  | none, none => true
  | some a, some b => a.equal b
  | _, _ => false

/-- Whether two bases are equal: a tag name never equals a slot. -/
def Word.equalBase : Word (Value ν) → Word (Value ν) → Bool
  | .text a, .text b => a == b
  | .slot a, .slot b => a.equal b
  | _, _ => false

/-- Whether two attributes have equal names and equal values, or spread equal values. -/
def Attribute.equal (a b : Attribute (Value ν)) : Bool :=
  Value.equalOption a.nameValue? b.nameValue? && a.assigned.equal b.assigned

def Attribute.equalLists : List (Attribute (Value ν)) → List (Attribute (Value ν)) → Bool
  | [], [] => true
  | a :: as, b :: bs => a.equal b && equalLists as bs
  | _, _ => false

def Header.equal (a b : Header (Value ν)) : Bool :=
  a.base.equalBase b.base && Attribute.equalLists a.attributes b.attributes &&
    Value.equalOption (a.refName.map Word.value) (b.refName.map Word.value)

mutual

def Node.equal : Node (Value ν) → Node (Value ν) → Bool
  | .element a as, .element b bs => a.equal b && Node.equalLists as bs
  | .text a, .text b => a == b
  | .newLine, .newLine => true
  | .slot a, .slot b => a.equal b
  | .ifBlock a as as', .ifBlock b bs bs' =>
    a.equal b && Node.equalLists as bs && Node.equalLists as' bs'
  | .forBlock x a as, .forBlock y b bs => x == y && a.equal b && Node.equalLists as bs
  | _, _ => false

def Node.equalLists : List (Node (Value ν)) → List (Node (Value ν)) → Bool
  | [], [] => true
  | a :: as, b :: bs => Node.equal a b && Node.equalLists as bs
  | _, _ => false

end

def Document.equal (a b : Document (Value ν)) : Bool :=
  Node.equalLists a.children b.children

end Equality

end IndentMarkup

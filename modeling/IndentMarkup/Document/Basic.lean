/-! Documents: the tree that a source stands for, before evaluation. Wherever the markup allows
either literal text or a slot, a `Word` says which of the two was written. The tree is generic in
the slot values, so nothing in it depends on what they are. -/
namespace IndentMarkup

/-- A name or a value as written: literal text or a slot. -/
inductive Word (α : Type) where
  | text (content : String)
  | slot (value : α)
  deriving DecidableEq, Repr

inductive Attribute (α : Type) where
  /-- A name with its value. -/
  | pair (name value : Word α)
  /-- A name alone, which stands for the value true. -/
  | bare (name : Word α)
  /-- A slot that is to hold a map; it stands for one pair per entry of the map. -/
  | splat (value : α)
  deriving DecidableEq, Repr

/-- What is written of an element before its content. -/
structure Header (α : Type) where
  base : Word α
  /-- Class and identifier shorthands first, then the entries of the attribute list. -/
  attributes : List (Attribute α)
  /-- The name under which the element is bound, if any. -/
  refName : Option (Word α)
  deriving DecidableEq, Repr

inductive Node (α : Type) where
  | element (header : Header α) (children : List (Node α))
  | text (content : String)
  | newLine
  /-- A slot in text position. -/
  | slot (value : α)
  | ifBlock (condition : α) (thenBranch elseBranch : List (Node α))
  | forBlock (variableName : String) (iterable : α) (body : List (Node α))
  deriving Repr, Inhabited

structure Document (α : Type) where
  children : List (Node α)
  deriving Repr

/-- The literal text of a word that is not a slot. -/
def Word.literal? {α : Type} : Word α → Option String
  | .text content => some content
  | .slot _ => none

/-- The literal tag of an element that is not built from a slot. -/
def Header.tagName? {α : Type} (header : Header α) : Option String :=
  header.base.literal?

namespace Node

variable {α : Type}

def isNewLine : Node α → Bool
  | .newLine => true
  | _ => false

def isElement : Node α → Bool
  | .element _ _ => true
  | _ => false

def kindName : Node α → String
  | .element _ _ => "Element"
  | .text _ => "Text"
  | .newLine => "NewLine"
  | .slot _ => "InterpolatedText"
  | .ifBlock _ _ _ => "If"
  | .forBlock _ _ _ => "For"

end Node

def Document.kindName : String := "Document"

def Document.isEmpty {α : Type} (document : Document α) : Bool :=
  document.children.isEmpty

/-! ## Other slot values in the same document -/

section Map

variable {α β : Type}

def Word.map (f : α → β) : Word α → Word β
  | .text content => .text content
  | .slot value => .slot (f value)

def Attribute.map (f : α → β) : Attribute α → Attribute β
  | .pair name value => .pair (name.map f) (value.map f)
  | .bare name => .bare (name.map f)
  | .splat value => .splat (f value)

def Header.map (f : α → β) (header : Header α) : Header β :=
  ⟨header.base.map f, header.attributes.map (Attribute.map f), header.refName.map (Word.map f)⟩

mutual

def Node.map (f : α → β) : Node α → Node β
  | .element header children => .element (header.map f) (Node.mapAll f children)
  | .text content => .text content
  | .newLine => .newLine
  | .slot value => .slot (f value)
  | .ifBlock condition thenBranch elseBranch =>
    .ifBlock (f condition) (Node.mapAll f thenBranch) (Node.mapAll f elseBranch)
  | .forBlock variableName iterable body =>
    .forBlock variableName (f iterable) (Node.mapAll f body)

def Node.mapAll (f : α → β) : List (Node α) → List (Node β)
  | [] => []
  | node :: rest => Node.map f node :: Node.mapAll f rest

end

def Document.map (f : α → β) (document : Document α) : Document β :=
  ⟨Node.mapAll f document.children⟩

end Map

end IndentMarkup

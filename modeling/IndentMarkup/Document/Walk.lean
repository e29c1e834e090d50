import IndentMarkup.Document.Basic

/-! Walks over documents. A walk meets every node once, each before what it contains, and knows
how deep it stands; between the two branches of an `if` it meets the mark of the second. -/
namespace IndentMarkup

variable {α : Type}

inductive Visit (α : Type) where
  | element (header : Header α)
  | text (content : String)
  | newLine
  | slot (value : α)
  | ifBlock (condition : α)
  /-- The place between the branches of an `if`. -/
  | elseMark
  | forBlock (variableName : String) (iterable : α)
  deriving Repr

mutual

/-- The walk over a node that stands at a depth. -/
def Node.walk (depth : Nat) : Node α → List (Nat × Visit α)
  | .element header children => (depth, .element header) :: Node.walkAll (depth + 1) children
  | .text content => [(depth, .text content)]
  | .newLine => [(depth, .newLine)]
  | .slot value => [(depth, .slot value)]
  | .ifBlock condition thenBranch elseBranch =>
    (depth, .ifBlock condition) :: Node.walkAll (depth + 1) thenBranch ++
      (depth, .elseMark) :: Node.walkAll (depth + 1) elseBranch
  | .forBlock variableName iterable body =>
    (depth, .forBlock variableName iterable) :: Node.walkAll (depth + 1) body

def Node.walkAll (depth : Nat) : List (Node α) → List (Nat × Visit α)
  | [] => []
  | node :: rest => Node.walk depth node ++ Node.walkAll depth rest

end

def Document.walk (document : Document α) : List (Nat × Visit α) :=
  Node.walkAll 0 document.children

end IndentMarkup

import IndentMarkup.Proofs.Scanning
import IndentMarkup.Parser.Header

/-! Printing documents as markup. Every node has one line of its own, at the indent of its level;
what it contains stands below it, deeper by a run of blanks that is free at every place. `Printable`
says which documents have a printed form: literal text must not hold what would end it. -/
namespace IndentMarkup

open Source (ofChars ofText joinLines)

variable {α : Type}

/-! ## Headers -/

def Word.printed : Word α → Source α
  | .text content => ofText content
  | .slot value => [.slot value]

/-- The value of a pair: literal text stands in double quotes. -/
def Word.printedValue : Word α → Source α
  | .text content => .char '"' :: (ofText content ++ [.char '"'])
  | .slot value => [.slot value]

def Attribute.printed : Attribute α → Source α
  | .pair name value => name.printed ++ .char '=' :: value.printedValue
  | .bare name => name.printed
  | .splat value => [.char '*', .slot value]

/-- The entries of an attribute list, one space between each and the next. -/
def Attribute.printedList : List (Attribute α) → Source α
  | [] => []
  | [entry] => entry.printed
  | entry :: more => entry.printed ++ .char ' ' :: Attribute.printedList more

/-- An attribute list between its brackets, which are left out with the last entry. -/
def Header.printedAttributes (header : Header α) : Source α :=
  match header.attributes with
  | [] => []
  | entries => .char '(' :: (Attribute.printedList entries ++ [.char ')'])

def Header.printedRef (header : Header α) : Source α :=
  match header.refName with
  | none => []
  | some name => .char ' ' :: .char '@' :: name.printed

def Header.printed (header : Header α) : Source α :=
  header.base.printed ++ (header.printedAttributes ++ header.printedRef)

/-! ## Layouts -/

/-- A step from one node of a document to another. -/
inductive Step where
  /-- To the first node below, for an `if` the first of its first branch. -/
  | below
  /-- To the first node of the second branch of an `if`. -/
  | otherwise
  /-- To the next node of the same block. -/
  | next
  deriving DecidableEq, Repr

/-- What is free in the printed form of a document. -/
structure Layout where
  /-- The indent of the outermost level. -/
  base : Blanks
  /-- How much deeper each block stands than its parent. The block is given by the steps to its
  parent, the last one first, and the step from there into the block. -/
  gap : List Step → Gap
  /-- Whether a line break follows the last line. -/
  finalBreak : Bool

/-! ## Documents -/

/-- The line of a node, from behind its indent. A line break has no line of its own. -/
def Node.printedLine : Node α → Source α
  | .element header _ => header.printed
  | .text content => .char '|' :: .char ' ' :: ofText content
  | .newLine => []
  | .slot value => [.char '|', .char ' ', .slot value]
  | .ifBlock condition _ _ => ofText "- if " ++ [.slot condition]
  | .forBlock variableName iterable _ =>
    ofText "- for " ++ (ofText variableName ++ (ofText " of " ++ [.slot iterable]))

/-- The line between the branches of an `if`, from behind its indent. -/
def elseLine : Source α := ofText "- else"

mutual

/-- The lines below the line of a node that stands at an indent. -/
def Node.lowerLines (gap : List Step → Gap) (place : List Step) (indent : Blanks) :
    Node α → List (Source α)
  | .element _ children =>
    Node.printedLines gap (.below :: place) (indent.below (gap (.below :: place))) children
  | .ifBlock _ thenBranch elseBranch =>
    Node.printedLines gap (.below :: place) (indent.below (gap (.below :: place))) thenBranch ++
      if elseBranch.isEmpty then []
      else
        (ofChars indent.chars ++ elseLine) ::
          Node.printedLines gap (.otherwise :: place)
            (indent.below (gap (.otherwise :: place))) elseBranch
  | .forBlock _ _ body =>
    Node.printedLines gap (.below :: place) (indent.below (gap (.below :: place))) body
  | _ => []

def Node.printedLines (gap : List Step → Gap) (place : List Step) (indent : Blanks) :
    List (Node α) → List (Source α)
  | [] => []
  | node :: rest =>
    (ofChars indent.chars ++ node.printedLine) ::
      (Node.lowerLines gap place indent node ++
        Node.printedLines gap (.next :: place) indent rest)

end

def Document.printed (layout : Layout) (document : Document α) : Source α :=
  joinLines (Node.printedLines layout.gap [] layout.base document.children ++
    if layout.finalBreak then [[]] else [])

/-! ## What can be printed -/

/-- A literal tag: characters of a tag name, the first no dash and the last no colon. -/
structure IsTagName (name : String) : Prop where
  nonempty : name.toList ≠ []
  chars : ∀ c ∈ name.toList, Parser.isTagChar c = true
  first : name.toList.head? ≠ some '-'
  last : name.toList.getLast? ≠ some ':'

instance (name : String) : Decidable (IsTagName name) :=
  decidable_of_iff (name.toList ≠ [] ∧ name.toList.all Parser.isTagChar = true ∧
      name.toList.head? ≠ some '-' ∧ name.toList.getLast? ≠ some ':')
    ⟨fun ⟨hne, hall, hfirst, hlast⟩ => ⟨hne, List.all_eq_true.mp hall, hfirst, hlast⟩,
      fun h => ⟨h.nonempty, List.all_eq_true.mpr h.chars, h.first, h.last⟩⟩

structure IsIdentifier (name : String) : Prop where
  nonempty : name.toList ≠ []
  chars : ∀ c ∈ name.toList, Parser.isIdentifierChar c = true

instance (name : String) : Decidable (IsIdentifier name) :=
  decidable_of_iff (name.toList ≠ [] ∧ name.toList.all Parser.isIdentifierChar = true)
    ⟨fun ⟨hne, hall⟩ => ⟨hne, List.all_eq_true.mp hall⟩,
      fun h => ⟨h.nonempty, List.all_eq_true.mpr h.chars⟩⟩

/-- An attribute name that does not look like a splat. -/
structure IsAttributeName (name : String) : Prop where
  nonempty : name.toList ≠ []
  chars : ∀ c ∈ name.toList, Parser.isNameChar c = true
  first : name.toList.head? ≠ some '*'

instance (name : String) : Decidable (IsAttributeName name) :=
  decidable_of_iff (name.toList ≠ [] ∧ name.toList.all Parser.isNameChar = true ∧
      name.toList.head? ≠ some '*')
    ⟨fun ⟨hne, hall, hfirst⟩ => ⟨hne, List.all_eq_true.mp hall, hfirst⟩,
      fun h => ⟨h.nonempty, List.all_eq_true.mpr h.chars, h.first⟩⟩

/-- A text that can stand in double quotes. -/
def IsQuotable (content : String) : Prop :=
  '"' ∉ content.toList ∧ '\n' ∉ content.toList

instance (content : String) : Decidable (IsQuotable content) :=
  inferInstanceAs (Decidable (_ ∧ _))

/-- A text that can stand on a line of its own. -/
def IsLine (content : String) : Prop :=
  content.toList ≠ [] ∧ '\n' ∉ content.toList

instance (content : String) : Decidable (IsLine content) :=
  inferInstanceAs (Decidable (_ ∧ _))

/-- The word is a slot, or its literal text has the property. -/
def Word.Literally (property : String → Prop) : Word α → Prop
  | .text content => property content
  | .slot _ => True

instance (property : String → Prop) [DecidablePred property] :
    (word : Word α) → Decidable (word.Literally property)
  | .text content => inferInstanceAs (Decidable (property content))
  | .slot _ => inferInstanceAs (Decidable True)

def Attribute.Printable : Attribute α → Prop
  | .pair name value => name.Literally IsAttributeName ∧ value.Literally IsQuotable
  | .bare name => name.Literally IsAttributeName
  | .splat _ => True

instance : (entry : Attribute α) → Decidable entry.Printable
  | .pair _ _ => inferInstanceAs (Decidable (_ ∧ _))
  | .bare name => inferInstanceAs (Decidable (name.Literally IsAttributeName))
  | .splat _ => inferInstanceAs (Decidable True)

structure Header.Printable (header : Header α) : Prop where
  base : header.base.Literally IsTagName
  attributes : ∀ entry ∈ header.attributes, entry.Printable
  refName : ∀ name ∈ header.refName, name.Literally IsIdentifier

instance (header : Header α) : Decidable header.Printable :=
  decidable_of_iff (header.base.Literally IsTagName ∧
      (∀ entry ∈ header.attributes, entry.Printable) ∧
      ∀ name ∈ header.refName, name.Literally IsIdentifier)
    ⟨fun ⟨hbase, hattributes, href⟩ => ⟨hbase, hattributes, href⟩,
      fun h => ⟨h.base, h.attributes, h.refName⟩⟩

mutual

def Node.Printable : Node α → Prop
  | .element header children => header.Printable ∧ Node.AllPrintable children
  | .text content => IsLine content
  | .newLine => False
  | .slot _ => True
  | .ifBlock _ thenBranch elseBranch =>
    Node.AllPrintable thenBranch ∧ Node.AllPrintable elseBranch
  | .forBlock variableName _ body => IsIdentifier variableName ∧ Node.AllPrintable body

def Node.AllPrintable : List (Node α) → Prop
  | [] => True
  | node :: rest => Node.Printable node ∧ Node.AllPrintable rest

end

mutual

def Node.decidePrintable : (node : Node α) → Decidable node.Printable
  | .element header children =>
    have := Node.decideAllPrintable children
    inferInstanceAs (Decidable (header.Printable ∧ Node.AllPrintable children))
  | .text content => inferInstanceAs (Decidable (IsLine content))
  | .newLine => inferInstanceAs (Decidable False)
  | .slot _ => inferInstanceAs (Decidable True)
  | .ifBlock _ thenBranch elseBranch =>
    have := Node.decideAllPrintable thenBranch
    have := Node.decideAllPrintable elseBranch
    inferInstanceAs (Decidable (Node.AllPrintable thenBranch ∧ Node.AllPrintable elseBranch))
  | .forBlock variableName _ body =>
    have := Node.decideAllPrintable body
    inferInstanceAs (Decidable (IsIdentifier variableName ∧ Node.AllPrintable body))

def Node.decideAllPrintable : (nodes : List (Node α)) → Decidable (Node.AllPrintable nodes)
  | [] => inferInstanceAs (Decidable True)
  | node :: rest =>
    have := Node.decidePrintable node
    have := Node.decideAllPrintable rest
    inferInstanceAs (Decidable (node.Printable ∧ Node.AllPrintable rest))

end

def Document.Printable (document : Document α) : Prop :=
  Node.AllPrintable document.children

instance (document : Document α) : Decidable document.Printable :=
  Node.decideAllPrintable document.children

end IndentMarkup

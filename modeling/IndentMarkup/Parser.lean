import IndentMarkup.Parser.Block

/-! Parsing whole sources. A document is one block at the indent of its first line that is not
blank; whatever that block leaves over is an error of indentation. -/
namespace IndentMarkup

open Text (isBlank)

variable {α : Type}

namespace Parser

/-- The indent of the first line that is not blank. -/
def baseIndent (source : Source α) : Indent :=
  charsWhile isBlank (skipBlankLines source)

/-- The input from behind that indent. -/
def firstItem (source : Source α) : Source α :=
  afterWhile isBlank (skipBlankLines source)

/-- Input left over behind the document: a line at an indent that no open level has. -/
def leftover (base : Indent) (rest : Source α) : Failure α :=
  let cause :=
    match Indent.compare (charsWhile isBlank rest) base with
    | .shallower | .incomparable => .malformedIndent
    | .deeper | .same => .leftoverInput
  ⟨cause, afterWhile isBlank rest⟩

/-- The document of these nodes, provided that no input is left over. -/
def finish (base : Indent) (nodes : List (Node α)) (rest : Source α) :
    Except (Failure α) (Document α) :=
  if rest.isEmpty then .ok ⟨nodes⟩ else .error (leftover base rest)

def Traced.document (source : Source α) : Traced α (Document α) := do
  match ← Traced.block (baseIndent source) (firstItem source) with
  | some ⟨(nodes, rest), _⟩ => ⟨[], finish (baseIndent source) nodes rest⟩
  | none => ⟨[], finish (baseIndent source) [] (firstItem source)⟩

def document (source : Source α) : Except (Failure α) (Document α) :=
  (Traced.document source).outcome

theorem document_eq (source : Source α) :
    document source = (do
      match ← block (baseIndent source) (firstItem source) with
      | some (nodes, rest) => finish (baseIndent source) nodes rest
      | none => finish (baseIndent source) [] (firstItem source)) := by
  rw [← map_outcome_block]
  simp only [document, Traced.document, Traced.outcome_bind]
  cases (Traced.block (baseIndent source) (firstItem source)).outcome with
  | error => rfl
  | ok found => cases found <;> rfl

/-- The document of a source does not depend on the blank lines at its front. -/
theorem document_skipBlankLines (source : Source α) :
    document (skipBlankLines source) = document source := by
  simp only [document_eq, baseIndent, firstItem, skipBlankLines_skipBlankLines]

/-- Nothing is an empty document. -/
theorem document_nil : document ([] : Source α) = .ok ⟨[]⟩ := by
  have hitem : firstItem ([] : Source α) = [] := by
    rw [firstItem, skipBlankLines_nil]
    rfl
  rw [document_eq, hitem, block_eq, item_nil]
  rfl

end Parser

/-- The document that a source stands for. -/
def parse (source : Source α) : Except SyntaxError (Document α) :=
  (Parser.document source).mapError (Failure.locate source)

theorem parse_eq_ok {source : Source α} {document : Document α} :
    parse source = .ok document ↔ Parser.document source = .ok document := by
  unfold parse
  cases Parser.document source with
  | ok parsed =>
    show Except.ok parsed = .ok document ↔ Except.ok parsed = .ok document
    rw [Except.ok.injEq, Except.ok.injEq]
  | error failure =>
    constructor
    · intro h
      contradiction
    · intro h
      contradiction

theorem parse_eq_error {source : Source α} {error : SyntaxError} :
    parse source = .error error ↔
      ∃ failure, Parser.document source = .error failure ∧ failure.locate source = error := by
  unfold parse
  cases Parser.document source with
  | ok parsed =>
    constructor
    · intro h
      contradiction
    · rintro ⟨failure, h, -⟩
      contradiction
  | error failure =>
    show Except.error (failure.locate source) = .error error ↔ _
    simp

end IndentMarkup

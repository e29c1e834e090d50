import IndentMarkup.Proofs.InsetBlocks

/-! Absolute indentation. Only how indents stand to one another matters to the parser, not how far
they are from the edge: moving a whole source to the right changes neither whether it is accepted
nor its document. A tab in the source could stand behind a margin where it stood in front of a line,
and be compared with the margin then. -/
namespace IndentMarkup

variable {α : Type}

/-! ## Slots that are filled with what they held -/

theorem Word.map_id (word : Word α) : word.map id = word := by
  cases word <;> rfl

theorem Attribute.map_id (attr : Attribute α) : attr.map id = attr := by
  cases attr <;> simp [Attribute.map, Word.map_id]

theorem Header.map_id (header : Header α) : header.map id = header := by
  obtain ⟨base, attributes, refName⟩ := header
  have hattributes : attributes.map (Attribute.map id) = attributes := by
    simp [funext Attribute.map_id]
  cases refName <;> simp [Header.map, Word.map_id, hattributes]

mutual

theorem Node.map_id (node : Node α) : node.map id = node := by
  cases node with
  | element header children => rw [map, Header.map_id, mapAll_id children]
  | text content => rfl
  | newLine => rfl
  | slot value => rfl
  | ifBlock condition thenBranch elseBranch =>
    rw [map, mapAll_id thenBranch, mapAll_id elseBranch]
    rfl
  | forBlock variableName iterable body =>
    rw [map, mapAll_id body]
    rfl

theorem Node.mapAll_id (nodes : List (Node α)) : mapAll id nodes = nodes := by
  match nodes with
  | [] => rfl
  | node :: rest => rw [mapAll, map_id node, mapAll_id rest]

end

theorem Document.map_id (document : Document α) : document.map id = document := by
  rw [map, Node.mapAll_id]

/-! ## Moving a source -/

/-- The source with a margin at its start and behind every line break. -/
def Source.moved (margin : Blanks) (source : Source α) : Source α :=
  source.insetLines id margin

/-- **Absolute indentation does not matter.** A source without tabs is accepted with a document
exactly where it is accepted with this document behind a margin. -/
theorem parse_moved (margin : Blanks) {source : Source α} (h : .char '\t' ∉ source)
    (document : Document α) :
    parse (source.moved margin) = .ok document ↔ parse source = .ok document := by
  rw [parse_eq_ok, parse_eq_ok, Source.moved, Parser.document_insetLines fun _ => h]
  cases Parser.document source with
  | error failure =>
    constructor
    · intro hfailed
      contradiction
    · intro hfailed
      contradiction
  | ok found => simp only [Parser.insetOutcome, Document.map_id]

/-- A list with a text of two lines, behind two spaces. -/
theorem parse_moved_list :
    let source : Source Nat := Source.ofText "ul\n  li one\n    two\n"
    let margin : Blanks := ⟨[' ', ' '], by simp [Text.isBlank]⟩
    let document : Document Nat := ⟨[.element ⟨.text "ul", [], none⟩
      [.element ⟨.text "li", [], none⟩ [.text "one", .newLine, .text "two"]]]⟩
    Source.moved margin source = Source.ofText "  ul\n    li one\n      two\n  " ∧
      .char '\t' ∉ source ∧
      (parse (Source.moved margin source) = .ok document ↔ parse source = .ok document) := by
  intro source margin document
  have hsource : .char '\t' ∉ source := by decide
  exact ⟨by decide, hsource, parse_moved margin hsource document⟩

end IndentMarkup

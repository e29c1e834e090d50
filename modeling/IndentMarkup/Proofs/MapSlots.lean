import IndentMarkup.Proofs.InsetBlocks

/-! Parsing and slot values. Filling the slots of a source anew is the same as putting no margin in
front of its lines, so a source with other values in its slots has the same document with these
values in it, or fails in the same way and at the same place. -/
namespace IndentMarkup

variable {α β : Type}

def Blanks.none : Blanks := ⟨[], fun _ hc => absurd hc List.not_mem_nil⟩

namespace Source

@[simp] theorem mapSlots_nil (f : α → β) : mapSlots f ([] : Source α) = [] := rfl

@[simp] theorem mapSlots_char (f : α → β) (c : Char) (rest : Source α) :
    mapSlots f (.char c :: rest) = .char c :: mapSlots f rest := rfl

@[simp] theorem mapSlots_slot (f : α → β) (value : α) (rest : Source α) :
    mapSlots f (.slot value :: rest) = .slot (f value) :: mapSlots f rest := rfl

theorem length_mapSlots (f : α → β) (source : Source α) :
    (source.mapSlots f).length = source.length :=
  List.length_map _

/-- Without a margin only the slots change. -/
theorem inset_none (f : α → β) (source : Source α) : inset f .none source = mapSlots f source := by
  induction source with
  | nil => rfl
  | cons symbol rest ih =>
    cases symbol with
    | slot value => simp [inset, ih]
    | char c =>
      rw [inset, ih]
      split <;> rfl

theorem insetLines_none (f : α → β) (source : Source α) :
    insetLines f .none source = mapSlots f source :=
  inset_none f source

end Source

/-! ## Places -/

theorem Source.firstSegment_mapSlots (f : α → β) (source : Source α) :
    (source.mapSlots f).firstSegment = source.firstSegment := by
  induction source with
  | nil => rfl
  | cons symbol rest ih =>
    cases symbol with
    | slot value => rfl
    | char c => simp [firstSegment, ih]

theorem Position.behind_mapSlots (f : α → β) (taken : Source α) :
    behind (taken.mapSlots f) = behind taken := by
  have hadvance : ∀ (position : Position) (symbol : Symbol α),
      position.advance (symbol.map f) = position.advance symbol := by
    intro position symbol
    cases symbol <;> rfl
  simp only [behind, Source.mapSlots, List.foldl_map, hadvance]

theorem Position.ofRest_mapSlots (f : α → β) (source rest : Source α) :
    ofRest (source.mapSlots f) (rest.mapSlots f) = ofRest source rest := by
  have htake : (source.mapSlots f).take (source.length - rest.length) =
      Source.mapSlots f (source.take (source.length - rest.length)) := List.map_take.symm
  rw [ofRest, Source.length_mapSlots, Source.length_mapSlots, htake, behind_mapSlots, ofRest]

theorem Failure.locate_mapSlots (f : α → β) (source : Source α) (failure : Failure α) :
    (failure.inset f .none).locate (source.mapSlots f) = failure.locate source := by
  simp only [locate, Failure.inset, Source.inset_none, Position.ofRest_mapSlots,
    Source.firstSegment_mapSlots]

/-- The parser does not look into slots: with other values in them the same source has the same
document with the other values in it, or fails in the same way. -/
theorem parse_mapSlots (f : α → β) (source : Source α) :
    parse (source.mapSlots f) = (parse source).map (Document.map f) := by
  have hdocument : Parser.document (source.mapSlots f) =
      Parser.insetOutcome f .none (Document.map f) (Parser.document source) := by
    rw [← Source.insetLines_none]
    apply Parser.document_insetLines
    intro hmargin
    contradiction
  unfold parse
  rw [hdocument]
  cases Parser.document source with
  | error failure => exact congrArg Except.error (failure.locate_mapSlots f source)
  | ok document => rfl

end IndentMarkup

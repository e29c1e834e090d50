import IndentMarkup.Source.Position

/-! Failures of the parser. A failure is a cause and the input that was left when it was found;
seen from the whole source, it names a segment, a line of that segment and the rest of its text. -/
namespace IndentMarkup

/-- The part of a line of control flow behind which the line has to end. -/
inductive LinePart where
  | ifCondition
  | elseMark
  | iteratedValue
  deriving DecidableEq, Repr

def LinePart.phrase : LinePart → String
  | .ifCondition => "if condition"
  | .elseMark => "else"
  | .iteratedValue => "iterated value"

/-- What is wrong with a source. -/
inductive Cause where
  /-- A line fits none of the open levels. -/
  | malformedIndent
  /-- Input is left over at the indent of the document or deeper. -/
  | leftoverInput
  /-- A line begins with nothing that an item can begin with. -/
  | unknownIndicator
  /-- Nothing follows the colon of a block expansion. -/
  | elementExpected
  /-- No identifier follows this mark. -/
  | identifierExpected (mark : Char)
  /-- The input ends within a wrapped attribute list. -/
  | unclosedAttributes
  | attributeNameExpected
  /-- No slot follows the star of a splat. -/
  | splatExpected
  | unclosedQuotation
  /-- No word follows the dash. -/
  | instructionExpected
  | unknownInstruction (word : String)
  | conditionExpected
  /-- Something stands on the line behind this part. -/
  | newlineExpected (part : LinePart)
  | variableExpected
  | ofExpected
  | iterableExpected
  deriving DecidableEq, Repr

def Cause.message : Cause → String
  | .malformedIndent => "malformed indent"
  | .leftoverInput => "incomparable indent found"
  | .unknownIndicator => "unknown indicator"
  | .elementExpected => "element expected after ':'"
  | .identifierExpected mark => s!"ident expected after {mark}"
  | .unclosedAttributes => "unclosed attr list"
  | .attributeNameExpected => "attr name expected"
  | .splatExpected => "object expected after splat attribute *"
  | .unclosedQuotation => "unclosed quotation"
  | .instructionExpected => "instruction expected after -"
  | .unknownInstruction word => s!"invalid instruction: {word}"
  | .conditionExpected => "condition expected after 'if'"
  | .newlineExpected part => s!"newline expected after {part.phrase}"
  | .variableExpected => "variable name expected after 'for'"
  | .ofExpected => "'of' expected after for variable"
  | .iterableExpected => "iterated value expected after 'of'"

structure Failure (α : Type) where
  cause : Cause
  rest : Source α
  deriving DecidableEq, Repr

/-- A failure with its place in the source. -/
structure SyntaxError where
  cause : Cause
  /-- What is left of the text of the segment. -/
  remaining : String
  segment : Nat
  /-- Counts from 1 within the segment. -/
  line : Nat
  deriving DecidableEq, Repr

/-- The failure as seen from the source in which it was found. -/
def Failure.locate {α : Type} (source : Source α) (failure : Failure α) : SyntaxError :=
  let position := Position.ofRest source failure.rest
  ⟨failure.cause, String.ofList failure.rest.firstSegment, position.segment, position.line⟩

def SyntaxError.message (error : SyntaxError) : String :=
  error.cause.message ++ s!" (segment {error.segment}, line {error.line}): " ++
    "\x7b" ++ error.remaining ++ "\x7d"

/-! ## Steps that can fail -/

/-- A bind gives a result where both of its steps do. -/
theorem of_bind_ok {ε β γ : Type} {first : Except ε β} {next : β → Except ε γ} {result : γ}
    (h : (first >>= next) = .ok result) : ∃ value, first = .ok value ∧ next value = .ok result := by
  cases first with
  | error => contradiction
  | ok value => exact ⟨value, rfl, h⟩

theorem pure_none_ne {ε β : Type} (value : β) :
    (pure none : Except ε (Option β)) ≠ .ok (some value) := by
  intro h
  exact absurd (Except.ok.inj h) (Option.some_ne_none value).symm

end IndentMarkup

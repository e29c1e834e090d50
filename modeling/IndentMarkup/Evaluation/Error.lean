/-! Errors of evaluation: a value stands where it cannot be used. Each error shows the value in its
display form. -/
namespace IndentMarkup

inductive EvaluationError where
  | invalidTextValue (shown : String)
  | invalidElementBase (shown : String)
  | invalidAttributeName (shown : String)
  | invalidAttributeValue (name shown : String)
  | invalidRefName (shown : String)
  /-- What is to be spread over attributes is not a map. -/
  | invalidSplat (shown : String)
  | notIterable (shown : String)
  deriving DecidableEq, Repr

def EvaluationError.message : EvaluationError → String
  | .invalidTextValue shown => s!"invalid text value: {shown}"
  | .invalidElementBase shown => s!"invalid element base: {shown}"
  | .invalidAttributeName shown => s!"invalid attribute name: {shown}"
  | .invalidAttributeValue name shown => s!"invalid value for attribute {name}: {shown}"
  | .invalidRefName shown => s!"invalid ref name: {shown}"
  | .invalidSplat shown => s!"splat value is not a map: {shown}"
  | .notIterable shown => s!"value is not iterable: {shown}"

end IndentMarkup

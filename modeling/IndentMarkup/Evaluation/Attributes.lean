import IndentMarkup.Document.Worded
import IndentMarkup.Evaluation.Context
import IndentMarkup.Evaluation.Error
import IndentMarkup.Value.Display

/-! Final attributes. The attributes written on an element are resolved in order, maps are spread
in place, values of one name are joined by spaces, and names that begin with an exclamation mark
are events. -/
namespace IndentMarkup

variable {ν : Type}

structure EventBinding (ν : Type) where
  event : String
  callback : Value ν
  options : Option (Value ν)

/-- The attributes of an element in the order of their first mention, and its events. -/
structure AttributeSet (ν : Type) where
  attributes : List (String × String) := []
  events : List (EventBinding ν) := []

namespace AttributeSet

/-- The text of an attribute value, if the attribute is set at all. -/
def valueText (name : String) (value : Value ν) : Except EvaluationError (Option String) :=
  match value with
  | .bool true => .ok (some "")
  | .bool false | .absent => .ok none
  | .string text => .ok (some text)
  | .number value => .ok (some (Number.format value))
  | other => .error (.invalidAttributeValue name other.display)

/-- Adds a text under a name: behind the text that is there, or at the end. -/
def merge (name text : String) : List (String × String) → List (String × String)
  | [] => [(name, text)]
  | (known, merged) :: rest =>
    if known = name then (known, merged ++ " " ++ text) :: rest
    else (known, merged) :: merge name text rest

section

variable [Host ν]

/-- The listener for an event: the first item of a list is the callback and the second the options;
any other value is the callback. -/
def eventBinding (context : Context ν) (event : String) : Value ν → EventBinding ν
  | .list items =>
    let items := items.map context.resolve
    ⟨event, items.headD .absent, items[1]?⟩
  | callback => ⟨event, callback, none⟩

/-- Adds a name with its value, both resolved. -/
def add (context : Context ν) (set : AttributeSet ν) (name value : Value ν) :
    Except EvaluationError (AttributeSet ν) :=
  match name with
  | .string name =>
    match name.toList with
    | '!' :: event =>
      .ok { set with events := set.events ++ [eventBinding context (String.ofList event) value] }
    | _ => do
      match ← valueText name value with
      | some text => return { set with attributes := merge name text set.attributes }
      | none => return set
  | other => .error (.invalidAttributeName other.display)

/-- Adds the entries of a map, each as a name with its value. -/
def addEntries (context : Context ν) (set : AttributeSet ν) :
    List (String × Value ν) → Except EvaluationError (AttributeSet ν)
  | [] => .ok set
  | (name, value) :: rest => do
    let set ← set.add context (.string name) (context.resolve value)
    addEntries context set rest

def addWritten (context : Context ν) (set : AttributeSet ν) (entry : Attribute (Value ν)) :
    Except EvaluationError (AttributeSet ν) :=
  match entry.nameValue? with
  | some name => set.add context (context.resolve name) (context.resolve entry.assigned)
  | none =>
    match context.resolve entry.assigned with
    | .map entries => set.addEntries context entries
    | other => .error (.invalidSplat other.display)

/-- Adds written attributes in order, up to the first that is faulty. -/
def addAll (context : Context ν) (set : AttributeSet ν) :
    List (Attribute (Value ν)) → Except EvaluationError (AttributeSet ν)
  | [] => .ok set
  | entry :: rest => do
    let set ← set.addWritten context entry
    addAll context set rest

def build (context : Context ν) (written : List (Attribute (Value ν))) :
    Except EvaluationError (AttributeSet ν) :=
  addAll context {} written

end

end AttributeSet

end IndentMarkup

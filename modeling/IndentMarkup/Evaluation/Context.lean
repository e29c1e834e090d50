import IndentMarkup.Evaluation.Bindings
import IndentMarkup.Evaluation.Options
import IndentMarkup.Evaluation.Variables
import IndentMarkup.Value.Host

/-! Contexts: what the names in a document stand for while it is evaluated. A loop sets its variable
for the time that its body takes and puts back what was there before; a name that begins with an at
sign stands for the node bound last under the rest of it. -/
namespace IndentMarkup

/-- The options, the bindings so far, and the variables of the loops that are running. -/
structure Context (ν : Type) where
  options : Options := {}
  bindings : Bindings ν := {}
  scope : Variables ν := {}

namespace Context

variable {ν : Type}

def bind (context : Context ν) (name : String) (node : ν) : Context ν :=
  { context with bindings := context.bindings.add name node }

def setVariable (context : Context ν) (name : String) (value : Value ν) : Context ν :=
  { context with scope := context.scope.insert name value }

/-- Puts back what a variable was before, if it was there at all. -/
def restoreVariable (context : Context ν) (name : String) (before : Option (Value ν)) :
    Context ν :=
  { context with scope := context.scope.restore name before }

/-- Runs a body with a variable. Afterwards the variable is what it was before, however the body
ends. -/
def letIn {β : Type} (context : Context ν) (name : String) (value : Value ν)
    (body : Context ν → β × Context ν) : β × Context ν :=
  let before := context.scope.get? name
  let (result, after) := body (context.setVariable name value)
  (result, after.restoreVariable name before)

/-- The value of the variable of a name, absent if there is none. -/
def loopVariable (context : Context ν) (name : String) : Value ν :=
  (context.scope.get? name).getD .absent

/-- The node bound last under a name, absent if there is none. -/
def boundNode (context : Context ν) (name : String) : Value ν :=
  ((context.bindings.last? name).map Value.node).getD .absent

def lookup (context : Context ν) (name : String) : Value ν :=
  match name.toList with
  | '@' :: bound => context.boundNode (String.ofList bound)
  | _ => context.loopVariable name

/-- What a body leaves unchanged in the variables is unchanged behind the loop. -/
theorem scope_restore (context after : Context ν) {name : String} {value : Value ν}
    (h : after.scope = (context.setVariable name value).scope) :
    (after.restoreVariable name (context.scope.get? name)).scope = context.scope := by
  unfold restoreVariable
  rw [h]
  exact context.scope.restore_insert name value

/-- A variable that is set hides the one of its name and no other. -/
theorem loopVariable_setVariable (context : Context ν) (name other : String) (value : Value ν) :
    (context.setVariable name value).loopVariable other =
      if other = name then value else context.loopVariable other := by
  unfold loopVariable setVariable
  rw [Variables.get?_insert]
  by_cases h : other = name <;> simp [h]

section

variable [Host ν]

/-- The value that a value comes to when every reference on the way is followed. One that leads on
and on comes to nothing. -/
def resolve (context : Context ν) (value : Value ν) : Value ν :=
  (value.resolve? context.lookup).getD .absent

end

end Context

end IndentMarkup

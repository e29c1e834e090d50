import IndentMarkup.Evaluation.Attributes
import IndentMarkup.Evaluation.Builder

/-! Evaluation: from a document to output nodes. Each node of the document gives a sequence of
output nodes. The state of the builder and the context change on the way; what has changed before
an error stays changed. -/
namespace IndentMarkup

variable {σ ν : Type}

/-- A step of an evaluation that is worth a note. -/
inductive EvaluationEvent where
  | bound (name : String)
  | iteration (variableName : String) (index : Nat)
  deriving DecidableEq, Repr

def EvaluationEvent.message : EvaluationEvent → String
  | .bound name => s!"binding @{name}"
  | .iteration variableName index => s!"for {variableName} iteration {index}"

/-- What changes during an evaluation. -/
structure EvaluationState (σ ν : Type) where
  builder : σ
  context : Context ν
  /-- The notes so far, the latest first. -/
  journal : List EvaluationEvent := []

/-- A computation within an evaluation. An error keeps the state in which it arose. -/
abbrev Evaluate (σ ν : Type) := ExceptT EvaluationError (StateM (EvaluationState σ ν))

namespace Evaluate

/-- Lets the builder act. -/
def build {β : Type} (action : StateM σ β) : Evaluate σ ν β :=
  fun ⟨builder, context, journal⟩ =>
    let (result, builder) := action builder
    (.ok result, ⟨builder, context, journal⟩)

def ask {β : Type} (look : Context ν → β) : Evaluate σ ν β :=
  fun state => (.ok (look state.context), state)

def note (event : EvaluationEvent) : Evaluate σ ν Unit :=
  fun state => (.ok (), { state with journal := event :: state.journal })

def bindNode (name : String) (node : ν) : Evaluate σ ν Unit :=
  fun state => (.ok (), { state with context := state.context.bind name node })

/-- Runs a body with a variable. Afterwards the variable is what it was before, also if the body
fails. -/
def withVariable {β : Type} (name : String) (value : Value ν) (body : Evaluate σ ν β) :
    Evaluate σ ν β :=
  fun ⟨builder, context, journal⟩ =>
    let ((result, builder, journal), context) := context.letIn name value fun context =>
      let (result, after) := body ⟨builder, context, journal⟩
      ((result, after.builder, after.journal), after.context)
    (result, ⟨builder, context, journal⟩)

/-- Runs a step for each item in turn and joins what the steps give. -/
def collect {β γ : Type} (step : β → Evaluate σ ν (List γ)) : List β → Evaluate σ ν (List γ)
  | [] => return []
  | item :: rest => do
    let first ← step item
    let others ← collect step rest
    return first ++ others

/-- Runs a step for each item in turn. -/
def each {β : Type} (step : β → Evaluate σ ν Unit) : List β → Evaluate σ ν Unit
  | [] => return ()
  | item :: rest => do
    step item
    each step rest

end Evaluate

/-- How requests to a builder end: with what they come to or the first error, and the builder behind
them. They may go on forever. -/
abbrev Ending (σ β : Type) := Option (Except EvaluationError β × σ)

/-- What a builder is asked for. -/
abbrev Requests (σ β : Type) := ExceptT EvaluationError (StateT σ Option) β

def Requests.ask {β : Type} (action : StateM σ β) : Requests σ β :=
  fun builder =>
    let (result, builder) := action builder
    some (.ok result, builder)

/-- Asks the builder for what a look at the context calls for. Requests that go on forever have no
effect. -/
def Evaluate.request {β : Type} (requests : Context ν → Requests σ (List β)) :
    Evaluate σ ν (List β) :=
  fun ⟨builder, context, journal⟩ =>
    match requests context builder with
    | some (result, builder) => (result, ⟨builder, context, journal⟩)
    | none => (.ok [], ⟨builder, context, journal⟩)

open Evaluate

section

variable [Host ν] [TreeBuilder σ ν]

/-! ## Values in node position -/

/-- The nodes of a value in text position: texts and numbers become text, an absent value an empty
text, a node stays itself, and a list becomes the nodes of its items. -/
def textNodes (context : Context ν) : Value ν → σ → Ending σ (List ν) := _go
where
  _go (value : Value ν) : σ → Ending σ (List ν) :=
    (match value with
    | .string content => do return [← .ask (TreeBuilder.createText content)]
    | .number value => do return [← .ask (TreeBuilder.createText (Number.format value))]
    | .absent => do return [← .ask (TreeBuilder.createText "")]
    | .node node => return [node]
    | .list items => do
      let nodes ← items.mapM fun item => _go (context.resolve item)
      return nodes.flatten
    | other => throw (.invalidTextValue other.display) : Requests σ (List ν))
  partial_fixpoint

/-- The nodes of a value in the place of an element's base: a text is the tag of a new element, a
node stays itself, and a list becomes the nodes of its items. -/
def elementNodes (context : Context ν) : Value ν → σ → Ending σ (List ν) := _go
where
  _go (value : Value ν) : σ → Ending σ (List ν) :=
    (match value with
    | .string tag => do return [← .ask (TreeBuilder.createElement tag)]
    | .node node => return [node]
    | .list items => do
      let nodes ← items.mapM fun item => _go (context.resolve item)
      return nodes.flatten
    | other => throw (.invalidElementBase other.display) : Requests σ (List ν))
  partial_fixpoint

def baseNodes (base : Word (Value ν)) : Evaluate σ ν (List ν) :=
  match base with
  | .text tag => do return [← build (TreeBuilder.createElement tag)]
  | .slot value => request fun context => elementNodes context (context.resolve value)

/-! ## Headers -/

/-- Sets the attributes of an element and registers its listeners. Nothing is done if one of the
written attributes is faulty. -/
def applyAttributes (element : ν) (written : List (Attribute (Value ν))) : Evaluate σ ν Unit := do
  match ← ask fun context => AttributeSet.build context written with
  | .error error => throw error
  | .ok set =>
    each (fun (name, value) => build (TreeBuilder.setAttribute element name value)) set.attributes
    each (fun binding => build (TreeBuilder.addEventListener element binding.event binding.callback
      binding.options)) set.events

/-- Binds an element under the name in its header. The options may ask for an attribute that shows
the name. -/
def applyRefName (element : ν) (refName : Option (Word (Value ν))) : Evaluate σ ν Unit :=
  match refName with
  | none => return ()
  | some word => do
    match ← ask fun context => context.resolve word.value with
    | .string name =>
      match ← ask fun context => context.options.attrForRefName with
      | some attr => build (TreeBuilder.setAttribute element attr name)
      | none => pure ()
      note (.bound name)
      bindNode name element
    | other => throw (.invalidRefName other.display)

/-! ## Nodes -/

/-- The items that a loop runs over: those of a list, or the characters of a text. -/
def iterationItems (context : Context ν) (iterable : Value ν) :
    Except EvaluationError (List (Value ν)) :=
  match context.resolve iterable with
  | .list items => .ok items
  | .string text => .ok (text.toList.map fun c => .string (String.singleton c))
  | other => .error (.notIterable other.display)

mutual

/-- The output nodes of a node. An element gets its attributes, its binding and then its children,
which take the place of any it has. -/
def evaluateNode : Node (Value ν) → Evaluate σ ν (List ν)
  | .element header children => do
    let elements ← baseNodes header.base
    each (fun element => do
      applyAttributes element header.attributes
      applyRefName element header.refName
      if !children.isEmpty then
        build (TreeBuilder.removeAllChildren element)
        appendAll element children) elements
    return elements
  | .text content => do return [← build (TreeBuilder.createText content)]
  | .newLine => do return [← build (TreeBuilder.createText "\n")]
  | .slot value => request fun context => textNodes context (context.resolve value)
  | .ifBlock condition thenBranch elseBranch => do
    if (← ask fun context => context.resolve condition).isTruthy then evaluateAll thenBranch
    else evaluateAll elseBranch
  | .forBlock variableName iterable body => do
    match ← ask fun context => iterationItems context iterable with
    | .error error => throw error
    | .ok items =>
      collect (fun (item, index) => do
        note (.iteration variableName index)
        withVariable variableName item (evaluateAll body)) items.zipIdx

def evaluateAll : List (Node (Value ν)) → Evaluate σ ν (List ν)
  | [] => return []
  | node :: rest => do
    let first ← evaluateNode node
    let others ← evaluateAll rest
    return first ++ others

/-- Appends the output nodes of several nodes to a parent, those of each node before the next is
evaluated. -/
def appendAll (parent : ν) : List (Node (Value ν)) → Evaluate σ ν Unit
  | [] => return ()
  | node :: rest => do
    let nodes ← evaluateNode node
    each (fun child => build (TreeBuilder.appendChild parent child)) nodes
    appendAll parent rest

end

/-! ## Documents -/

/-- What an evaluation comes to: the output nodes on the top level, and the bindings. -/
structure Evaluation (ν : Type) where
  nodes : List ν
  bindings : Bindings ν

/-- Evaluates a document with a fresh context, up to the end or the first error. -/
def Document.run (document : Document (Value ν)) (options : Options) (builder : σ) :
    Except EvaluationError (List ν) × EvaluationState σ ν :=
  (evaluateAll document.children).run ⟨builder, { options }, []⟩

/-- Evaluates a document with a builder. The builder keeps what it has made, also if the evaluation
fails. -/
def Document.evaluate (document : Document (Value ν)) (options : Options) (builder : σ) :
    Except EvaluationError (Evaluation ν) × σ :=
  let (result, state) := document.run options builder
  (result.map fun nodes => ⟨nodes, state.context.bindings⟩, state.builder)

end

/-- All output nodes on the top level in one fragment. -/
def Evaluation.fragment [TreeBuilder σ ν] (evaluation : Evaluation ν) : StateM σ ν :=
  TreeBuilder.createFragment evaluation.nodes

end IndentMarkup

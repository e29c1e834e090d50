import IndentMarkup.Proofs.Evaluating
import IndentMarkup.Proofs.PlainValues
import Mathlib.Data.List.Induction

/-! Scopes of loop variables. A program is a computation of which each step can be seen: it looks at
the context, binds nodes, runs bodies with a variable, and may fail anywhere or go on behind a body
that has failed. At every moment of every program a name stands for what the bodies around it say,
and at the end the variables are what they were. The evaluation of a node is such a program. -/
namespace IndentMarkup

variable {σ ν : Type}

/-! ## Programs -/

/-- A computation, step by step. -/
inductive Program (σ ν : Type) : Type → Type 1 where
  | done {β : Type} (value : β) : Program σ ν β
  | fail {β : Type} (error : EvaluationError) : Program σ ν β
  | build {β : Type} (action : StateM σ β) : Program σ ν β
  | ask {β : Type} (look : Context ν → β) : Program σ ν β
  /-- Asks the builder for what a look at the context calls for. -/
  | request {β : Type} (requests : Context ν → Requests σ (List β)) : Program σ ν (List β)
  | note (event : EvaluationEvent) : Program σ ν Unit
  | bindNode (name : String) (node : ν) : Program σ ν Unit
  | andThen {β γ : Type} (first : Program σ ν β) (next : β → Program σ ν γ) : Program σ ν γ
  /-- A body with a variable. -/
  | withVariable {β : Type} (name : String) (value : Value ν) (body : Program σ ν β) :
      Program σ ν β
  /-- A body behind which the program goes on, also if the body fails. -/
  | attempt {β : Type} (body : Program σ ν β) : Program σ ν (Except EvaluationError β)

namespace Program

variable {β γ : Type}

instance : Monad (Program σ ν) where
  pure := done
  bind := andThen

/-- The computation that a program describes. -/
def run {β : Type} : Program σ ν β → Evaluate σ ν β
  | done value => pure value
  | fail error => throw error
  | build action => Evaluate.build action
  | ask look => Evaluate.ask look
  | request requests => Evaluate.request requests
  | note event => Evaluate.note event
  | bindNode name node => Evaluate.bindNode name node
  | andThen first next => first.run >>= fun value => (next value).run
  | withVariable name value body => Evaluate.withVariable name value body.run
  | attempt body => fun state =>
    let (result, after) := body.run state
    (.ok result, after)

/-- The state in which the body of a variable begins. -/
def within (name : String) (value : Value ν) (state : EvaluationState σ ν) : EvaluationState σ ν :=
  { state with context := state.context.setVariable name value }

/-- The nodes that a program binds, in order. -/
def bound {β : Type} : Program σ ν β → EvaluationState σ ν → List (String × ν)
  | bindNode name node, _ => [(name, node)]
  | andThen first next, state =>
    first.bound state ++
      match first.run state with
      | (.ok value, after) => (next value).bound after
      | (.error _, _) => []
  | withVariable name value body, state => body.bound (within name value state)
  | attempt body, state => body.bound state
  | _, _ => []

/-- A moment of a program: the variables whose bodies are running, the innermost first, the nodes
bound since the program began, in order, and the context as it then is. -/
structure Moment (ν : Type) where
  enclosing : List (String × Value ν)
  bound : List (String × ν)
  context : Context ν

/-- What happens while a program runs from a state: its own beginning, and the moments of its
parts. -/
inductive During : {β : Type} → Program σ ν β → EvaluationState σ ν → Moment ν → Prop
  | start {β : Type} {program : Program σ ν β} {state : EvaluationState σ ν} :
      During program state ⟨[], [], state.context⟩
  | first {β γ : Type} {first : Program σ ν β} {next : β → Program σ ν γ}
      {state : EvaluationState σ ν} {moment : Moment ν} :
      During first state moment → During (first.andThen next) state moment
  | next {β γ : Type} {first : Program σ ν β} {next : β → Program σ ν γ} {value : β}
      {state after : EvaluationState σ ν} {moment : Moment ν} :
      first.run state = (.ok value, after) → During (next value) after moment →
        During (first.andThen next) state { moment with bound := first.bound state ++ moment.bound }
  | body {β : Type} {name : String} {value : Value ν} {body : Program σ ν β}
      {state : EvaluationState σ ν} {moment : Moment ν} :
      During body (within name value state) moment →
        During (withVariable name value body) state
          { moment with enclosing := moment.enclosing ++ [(name, value)] }
  | attempted {β : Type} {body : Program σ ν β} {state : EvaluationState σ ν} {moment : Moment ν} :
      During body state moment → During (attempt body) state moment

end Program

/-! ## Variables of several loops -/

namespace Variables

/-- Sets variables one after another, the first of the list last. -/
def insertAll (scope : Variables ν) (entries : List (String × Value ν)) : Variables ν :=
  entries.foldr (fun entry scope => scope.insert entry.1 entry.2) scope

@[simp] theorem insertAll_nil (scope : Variables ν) : scope.insertAll [] = scope := rfl

theorem insertAll_append (scope : Variables ν) (inner outer : List (String × Value ν)) :
    scope.insertAll (inner ++ outer) = (scope.insertAll outer).insertAll inner :=
  List.foldr_append

/-- The variable set last hides the others of its name. -/
theorem get?_insertAll (scope : Variables ν) (entries : List (String × Value ν))
    (name : String) :
    (scope.insertAll entries).get? name =
      ((entries.find? (·.1 == name)).map (·.2)).or (scope.get? name) := by
  induction entries with
  | nil => rfl
  | cons entry rest ih =>
    rw [insertAll, List.foldr_cons, get?_insert, List.find?_cons]
    by_cases h : name = entry.1
    · simp [h]
    · have hne : (entry.1 == name) = false := beq_eq_false_iff_ne.mpr fun e => h e.symm
      rw [if_neg h, hne]
      exact ih

end Variables

/-! ## Bindings only grow -/

namespace Bindings

def addAll (bindings : Bindings ν) (nodes : List (String × ν)) : Bindings ν :=
  nodes.foldl (fun bindings entry => bindings.add entry.1 entry.2) bindings

theorem addAll_append (bindings : Bindings ν) (front back : List (String × ν)) :
    bindings.addAll (front ++ back) = (bindings.addAll front).addAll back :=
  List.foldl_append

/-- The last node under a name is the one added last, if there is one. -/
theorem last?_addAll (bindings : Bindings ν) (nodes : List (String × ν)) (name : String) :
    (bindings.addAll nodes).last? name =
      ((nodes.reverse.find? (·.1 == name)).map (·.2)).or (bindings.last? name) := by
  induction nodes using List.reverseRecOn with
  | nil => rfl
  | append_singleton front entry ih =>
    rw [addAll_append, addAll, List.foldl_cons, List.foldl_nil, last?_add, ih,
      List.reverse_append, List.reverse_singleton, List.singleton_append, List.find?_cons]
    by_cases h : name = entry.1
    · simp [h]
    · have hne : (entry.1 == name) = false := beq_eq_false_iff_ne.mpr fun e => h e.symm
      rw [if_neg h, hne]

/-- A name that is bound again keeps its place, and a new one comes last. -/
theorem names_add (bindings : Bindings ν) (name : String) (node : ν) :
    bindings.names <+: (bindings.add name node).names := by
  have hentries : ∀ entries : List (String × List ν),
      entries.map (·.1) <+: (addTo name node entries).map (·.1) := by
    intro entries
    induction entries with
    | nil => exact List.nil_prefix
    | cons entry rest ih =>
      obtain ⟨known, nodes⟩ := entry
      by_cases h : known = name
      · simp [addTo, h]
      · simpa [addTo, h] using ih
  exact hentries bindings.entries

/-- What was bound stays bound, in front of what is bound later. -/
structure Grown (before after : Bindings ν) : Prop where
  nodes : ∀ name, (before.get? name).getD [] <+: (after.get? name).getD []
  names : before.names <+: after.names

theorem Grown.refl (bindings : Bindings ν) : Grown bindings bindings :=
  ⟨fun _ => List.prefix_rfl, List.prefix_rfl⟩

theorem Grown.add {before after : Bindings ν} (h : Grown before after) (name : String) (node : ν) :
    Grown before (after.add name node) := by
  refine ⟨fun other => (h.nodes other).trans ?_, h.names.trans (names_add after name node)⟩
  rw [get?_add]
  split
  · rename_i hsame
    subst hsame
    exact List.prefix_append _ _
  · exact List.prefix_rfl

theorem grown_addAll (bindings : Bindings ν) (nodes : List (String × ν)) :
    Grown bindings (bindings.addAll nodes) := by
  induction nodes using List.reverseRecOn with
  | nil => exact .refl bindings
  | append_singleton front entry ih =>
    rw [addAll_append]
    exact ih.add entry.1 entry.2

end Bindings

/-! ## The context of a program -/

namespace Program

open Value (isLoopName)

/-- The context that differs from this one in what is bound and in the variables around. -/
def contextAt (context : Context ν) (enclosing : List (String × Value ν))
    (nodes : List (String × ν)) : Context ν :=
  ⟨context.options, context.bindings.addAll nodes, context.scope.insertAll enclosing⟩

/-- Behind a body its variable is what it was in front of it, however much the body has bound. -/
theorem restoreVariable_contextAt (context : Context ν) (name : String) (value : Value ν)
    (nodes : List (String × ν)) :
    (contextAt (context.setVariable name value) [] nodes).restoreVariable name
      (context.scope.get? name) = contextAt context [] nodes :=
  congrArg (Context.mk _ _) (context.scope_restore (contextAt _ [] nodes) rfl)

/-- A run only adds bindings to the context, however it ends: behind each body its variable is what
it was in front of it. -/
theorem context_run {β : Type} (program : Program σ ν β) (state : EvaluationState σ ν) :
    (program.run state).2.context = contextAt state.context [] (program.bound state) := by
  induction program generalizing state with
  | done | fail | build | ask | note => rfl
  | request requests =>
    rw [run, Evaluate.request_apply]
    split <;> rfl
  | bindNode name node => rfl
  | andThen first next ihfirst ihnext =>
    have hfirst := ihfirst state
    simp only [run, bound, Evaluate.bind_apply]
    rcases hrun : first.run state with ⟨result, after⟩
    rw [hrun] at hfirst
    cases result with
    | error error => simpa only [List.append_nil] using hfirst
    | ok value =>
      show ((next value).run after).2.context = _
      rw [ihnext value after, hfirst]
      simp only [contextAt, Bindings.addAll_append, Variables.insertAll_nil]
  | withVariable name value body ih =>
    show (body.run (within name value state)).2.context.restoreVariable name
        (state.context.scope.get? name) =
      contextAt state.context [] (body.bound (within name value state))
    rw [ih]
    exact restoreVariable_contextAt state.context name value _
  | attempt body ih => exact ih state

/-- At every moment the context is that of the beginning with the variables around and the nodes
bound since. -/
theorem During.context_eq {β : Type} {program : Program σ ν β} {state : EvaluationState σ ν}
    {moment : Moment ν} (h : During program state moment) :
    moment.context = contextAt state.context moment.enclosing moment.bound := by
  induction h with
  | start => rfl
  | first _ ih => exact ih
  | @next _ _ first next value state after moment hrun _ ih =>
    have hafter := context_run first state
    rw [hrun] at hafter
    rw [ih, hafter]
    simp only [contextAt, Bindings.addAll_append, Variables.insertAll_nil]
  | body _ ih =>
    rw [ih]
    simp only [contextAt, within, Variables.insertAll_append]
    rfl
  | attempted _ ih => exact ih

/-- The value of the innermost variable of a name among these. -/
def innermost? (scope : List (String × Value ν)) (name : String) : Option (Value ν) :=
  (scope.find? (·.1 == name)).map (·.2)

/-- The node bound last under a name among these. -/
def latest? (nodes : List (String × ν)) (name : String) : Option ν :=
  (nodes.reverse.find? (·.1 == name)).map (·.2)

/-- A name without the sign of a binding stands for the innermost variable around, or for one from
before, or for nothing. -/
theorem lookup_contextAt (context : Context ν) (enclosing : List (String × Value ν))
    (nodes : List (String × ν)) {name : String} (hname : isLoopName name = true) :
    (contextAt context enclosing nodes).lookup name =
      ((innermost? enclosing name).or (context.scope.get? name)).getD .absent := by
  rw [Context.lookup_of_isLoopName hname, Context.loopVariable, contextAt,
    Variables.get?_insertAll]
  rfl

/-- A name with that sign stands for the node bound last under the rest of it. -/
theorem lookup_at_contextAt (context : Context ν) (enclosing : List (String × Value ν))
    (nodes : List (String × ν)) (name : String) :
    (contextAt context enclosing nodes).lookup ("@" ++ name) =
      (((latest? nodes name).or (context.bindings.last? name)).map Value.node).getD .absent := by
  have hchars : ("@" ++ name).toList = '@' :: name.toList := by
    simp
  unfold Context.lookup Context.boundNode contextAt latest?
  rw [hchars]
  simp only [String.ofList_toList, Bindings.last?_addAll]

/-- Of a context nothing has changed but that more nodes are bound. -/
structure Restored (before after : Context ν) : Prop where
  scope : after.scope = before.scope
  bindings : before.bindings.Grown after.bindings
  options : after.options = before.options

/-- What names stand for while a program runs, and what is left of it in the context when it has
come to its end or has failed. -/
structure ScopesHold {β : Type} (program : Program σ ν β) (state : EvaluationState σ ν) : Prop where
  loops : ∀ moment, During program state moment → ∀ name, isLoopName name = true →
    moment.context.lookup name =
      ((innermost? moment.enclosing name).or (state.context.scope.get? name)).getD .absent
  bindings : ∀ moment, During program state moment → ∀ name,
    moment.context.lookup ("@" ++ name) =
      (((latest? moment.bound name).or
        (state.context.bindings.last? name)).map Value.node).getD .absent
  restored : Restored state.context (program.run state).2.context

theorem restored_run {β : Type} (program : Program σ ν β) (state : EvaluationState σ ν) :
    Restored state.context (program.run state).2.context := by
  rw [context_run]
  exact ⟨rfl, Bindings.grown_addAll _ _, rfl⟩

theorem scopesHold {β : Type} (program : Program σ ν β) (state : EvaluationState σ ν) :
    program.ScopesHold state where
  loops moment h name hname := by
    rw [h.context_eq]
    exact lookup_contextAt state.context moment.enclosing moment.bound hname
  bindings moment h name := by
    rw [h.context_eq]
    exact lookup_at_contextAt state.context moment.enclosing moment.bound name
  restored := restored_run program state

/-- A body that fails within another one of its variable, and binds a node before. -/
example :
    let inner : Program Unit Nat Unit :=
      withVariable "x" (.string "inner")
        (andThen (bindNode "n" 7) fun _ => fail (.notIterable "absent"))
    let program : Program Unit Nat (Value Nat × Value Nat) :=
      withVariable "x" (.string "outer") (andThen (attempt inner) fun _ =>
        ask fun context => (context.lookup "x", context.lookup "@n"))
    (program.run ⟨(), {}, []⟩).1 = .ok (.string "outer", .node 7) := by
  rfl

/-! ## Loops of programs -/

/-- Runs a step for each item in turn and joins what the steps give. -/
def collect {β γ : Type} (step : β → Program σ ν (List γ)) : List β → Program σ ν (List γ)
  | [] => return []
  | item :: rest => do
    let first ← step item
    let others ← collect step rest
    return first ++ others

def each {β : Type} (step : β → Program σ ν Unit) : List β → Program σ ν Unit
  | [] => return ()
  | item :: rest => do
    step item
    each step rest

@[simp] theorem run_pure {β : Type} (value : β) : (pure value : Program σ ν β).run = pure value := rfl

@[simp] theorem run_bind {β γ : Type} (first : Program σ ν β) (next : β → Program σ ν γ) :
    (first >>= next).run = first.run >>= fun value => (next value).run := rfl

theorem run_collect {β γ : Type} (step : β → Program σ ν (List γ)) (items : List β) :
    (collect step items).run = Evaluate.collect (fun item => (step item).run) items := by
  induction items with
  | nil => rfl
  | cons item rest ih => simp only [collect, Evaluate.collect, run_bind, run_pure, ih]

theorem run_each {β : Type} (step : β → Program σ ν Unit) (items : List β) :
    (each step items).run = Evaluate.each (fun item => (step item).run) items := by
  induction items with
  | nil => rfl
  | cons item rest ih => simp only [each, Evaluate.each, run_bind, ih]

end Program

/-! ## The evaluation as a program -/

section

open Program

variable [Host ν] [TreeBuilder σ ν]

def basesProgram (base : Word (Value ν)) : Program σ ν (List ν) :=
  match base with
  | .text tag => do return [← build (TreeBuilder.createElement tag)]
  | .slot value => request fun context => elementNodes context (context.resolve value)

def attributesProgram (element : ν) (written : List (Attribute (Value ν))) : Program σ ν Unit := do
  match ← ask fun context => AttributeSet.build context written with
  | .error error => fail error
  | .ok set =>
    Program.each (fun (name, value) => build (TreeBuilder.setAttribute element name value))
      set.attributes
    Program.each (fun binding => build (TreeBuilder.addEventListener element binding.event
      binding.callback binding.options)) set.events

def refNameProgram (element : ν) (refName : Option (Word (Value ν))) : Program σ ν Unit :=
  match refName with
  | none => return ()
  | some word => do
    match ← ask fun context => context.resolve word.value with
    | .string name =>
      match ← ask fun context => context.options.attrForRefName with
      | some attr => build (TreeBuilder.setAttribute element attr name)
      | none => pure ()
      note (.bound name)
      bindNode name element
    | other => fail (.invalidRefName other.display)

mutual

/-- The program of a node: the steps of its evaluation. -/
def Node.program : Node (Value ν) → Program σ ν (List ν)
  | .element header children => do
    let elements ← basesProgram header.base
    Program.each (fun element => do
      attributesProgram element header.attributes
      refNameProgram element header.refName
      if !children.isEmpty then
        build (TreeBuilder.removeAllChildren element)
        Node.appendProgram element children) elements
    return elements
  | .text content => do return [← build (TreeBuilder.createText content)]
  | .newLine => do return [← build (TreeBuilder.createText "\n")]
  | .slot value => request fun context => textNodes context (context.resolve value)
  | .ifBlock condition thenBranch elseBranch => do
    if (← ask fun context => context.resolve condition).isTruthy then Node.programOfAll thenBranch
    else Node.programOfAll elseBranch
  | .forBlock variableName iterable body => do
    match ← ask fun context => iterationItems context iterable with
    | .error error => fail error
    | .ok items =>
      Program.collect (fun (item, index) => do
        note (.iteration variableName index)
        withVariable variableName item (Node.programOfAll body)) items.zipIdx

def Node.programOfAll : List (Node (Value ν)) → Program σ ν (List ν)
  | [] => return []
  | node :: rest => do
    let first ← Node.program node
    let others ← Node.programOfAll rest
    return first ++ others

/-- The program that appends the output nodes of several nodes to a parent. -/
def Node.appendProgram (parent : ν) : List (Node (Value ν)) → Program σ ν Unit
  | [] => return ()
  | node :: rest => do
    let nodes ← Node.program node
    Program.each (fun child => build (TreeBuilder.appendChild parent child)) nodes
    Node.appendProgram parent rest

end

/-! ## The program runs as the evaluation does -/

theorem run_basesProgram (base : Word (Value ν)) :
    (basesProgram base : Program σ ν (List ν)).run = baseNodes base := by
  cases base with
  | text tag => rfl
  | slot value => rfl

theorem run_attributesProgram (element : ν) (written : List (Attribute (Value ν))) :
    (attributesProgram element written : Program σ ν Unit).run = applyAttributes element written := by
  unfold attributesProgram applyAttributes
  rw [run_bind]
  congr 1
  funext built
  cases built with
  | error error => rfl
  | ok set =>
    simp only [run_bind, run_each]
    rfl

theorem run_refNameProgram (element : ν) (refName : Option (Word (Value ν))) :
    (refNameProgram element refName : Program σ ν Unit).run = applyRefName element refName := by
  cases refName with
  | none => rfl
  | some word =>
    unfold refNameProgram applyRefName
    simp only [run_bind]
    congr 1
    funext resolved
    cases resolved with
    | string name =>
      simp only [run_bind]
      congr 1
      funext attr
      cases attr <;> rfl
    | _ => rfl

mutual

theorem run_program (node : Node (Value ν)) :
    (Node.program node : Program σ ν (List ν)).run = evaluateNode node := by
  cases node with
  | element header children =>
    rw [Node.program, evaluateNode]
    simp only [run_bind, run_pure, run_each, run_basesProgram, run_attributesProgram,
      run_refNameProgram]
    have hchildren : ∀ element,
        (if !children.isEmpty then (do
            build (TreeBuilder.removeAllChildren element)
            Node.appendProgram element children) else pure () : Program σ ν Unit).run =
          if !children.isEmpty then (do
            Evaluate.build (TreeBuilder.removeAllChildren element)
            appendAll element children) else pure () := by
      intro element
      cases children.isEmpty with
      | true => rfl
      | false =>
        simp only [Bool.not_false, if_true, run_bind, run_appendProgram element children]
        rfl
    simp only [hchildren]
  | text content =>
    rw [Node.program, evaluateNode]
    rfl
  | newLine =>
    rw [Node.program, evaluateNode]
    rfl
  | slot value =>
    rw [Node.program, evaluateNode]
    rfl
  | ifBlock condition thenBranch elseBranch =>
    rw [Node.program, evaluateNode, run_bind]
    congr 1
    funext resolved
    cases resolved.isTruthy with
    | true => exact run_programOfAll thenBranch
    | false => exact run_programOfAll elseBranch
  | forBlock variableName iterable body =>
    rw [Node.program, evaluateNode, run_bind]
    congr 1
    funext items
    cases items with
    | error error => rfl
    | ok items =>
      rw [run_collect]
      congr 1
      funext item
      rw [run_bind]
      congr 1
      funext _
      rw [← run_programOfAll body]
      rfl

theorem run_programOfAll (nodes : List (Node (Value ν))) :
    (Node.programOfAll nodes : Program σ ν (List ν)).run = evaluateAll nodes := by
  cases nodes with
  | nil =>
    rw [Node.programOfAll, evaluateAll]
    rfl
  | cons node rest =>
    rw [Node.programOfAll, evaluateAll]
    simp only [run_bind, run_pure, run_program node, run_programOfAll rest]

theorem run_appendProgram (parent : ν) (nodes : List (Node (Value ν))) :
    (Node.appendProgram parent nodes : Program σ ν Unit).run = appendAll parent nodes := by
  cases nodes with
  | nil =>
    rw [Node.appendProgram, appendAll]
    rfl
  | cons node rest =>
    rw [Node.appendProgram, appendAll]
    simp only [run_bind, run_each, run_program node, run_appendProgram parent rest]
    rfl

end

/-- Loop variables obey the discipline of a stack in every program, and the evaluation of every node
is one: it looks at the context only at moments of its program, and however it ends, it leaves the
variables as they were and only adds to what is bound. -/
theorem scopes_hold :
    (∀ (β : Type) (program : Program σ ν β) (state : EvaluationState σ ν),
      program.ScopesHold state) ∧
    ∀ (node : Node (Value ν)) (state : EvaluationState σ ν),
      (Node.program node : Program σ ν (List ν)).run = evaluateNode node ∧
        Restored state.context (evaluateNode node state).2.context := by
  refine ⟨fun _ program state => scopesHold program state, fun node state => ?_⟩
  have hrun := run_program (σ := σ) node
  exact ⟨hrun, hrun ▸ restored_run (Node.program node) state⟩

end

end IndentMarkup

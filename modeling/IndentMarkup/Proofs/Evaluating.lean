import IndentMarkup.Proofs.LeafWalks

/-! Evaluations step by step. A computation takes a state to an outcome and a state; the equations
say so of each way to build one. What every action of a builder keeps, an evaluation keeps, whether
it succeeds or fails. -/
namespace IndentMarkup

variable {σ ν : Type}

namespace Evaluate

variable {β γ : Type}

/-! ## The equations of computations -/

@[simp] theorem pure_apply (value : β) (state : EvaluationState σ ν) :
    (pure value : Evaluate σ ν β) state = (.ok value, state) := rfl

/-- The second computation takes the state that the first has left, unless the first has failed. -/
theorem bind_apply (first : Evaluate σ ν β) (next : β → Evaluate σ ν γ)
    (state : EvaluationState σ ν) :
    (first >>= next) state =
      match (first state : Except EvaluationError β × EvaluationState σ ν) with
      | (.ok value, after) => next value after
      | (.error error, after) => (.error error, after) := by
  show (StateT.bind first (ExceptT.bindCont next)) state = _
  unfold StateT.bind
  rcases first state with ⟨_ | _, _⟩ <;> rfl

theorem build_apply (action : StateM σ β) (state : EvaluationState σ ν) :
    build action state =
      (.ok (action state.builder).1, { state with builder := (action state.builder).2 }) := rfl

theorem note_apply (event : EvaluationEvent) (state : EvaluationState σ ν) :
    note event state = (.ok (), { state with journal := event :: state.journal }) := rfl

theorem bindNode_apply (name : String) (node : ν) (state : EvaluationState σ ν) :
    bindNode name node state = (.ok (), { state with context := state.context.bind name node }) := rfl

theorem ask_apply (look : Context ν → β) (state : EvaluationState σ ν) :
    ask look state = (.ok (look state.context), state) := rfl

/-- What the context holds goes to the rest of the computation. -/
theorem ask_bind_apply (look : Context ν → β) (next : β → Evaluate σ ν γ)
    (state : EvaluationState σ ν) : (ask look >>= next) state = next (look state.context) state := rfl

theorem withVariable_apply (name : String) (value : Value ν) (body : Evaluate σ ν β)
    (state : EvaluationState σ ν) :
    withVariable name value body state =
      let result := body { state with context := state.context.setVariable name value }
      (result.1, { result.2 with
        context := result.2.context.restoreVariable name (state.context.scope.get? name) }) := rfl

/-- A computation in two steps succeeds where both of them do. -/
theorem of_bind_ok {first : Evaluate σ ν β} {next : β → Evaluate σ ν γ} {result : γ}
    {state after : EvaluationState σ ν} (h : (first >>= next) state = (.ok result, after)) :
    ∃ value between, first state = (.ok value, between) ∧ next value between = (.ok result, after) := by
  rw [bind_apply] at h
  split at h
  · rename_i value between hfirst
    exact ⟨value, between, hfirst, h⟩
  · obtain ⟨hresult, -⟩ := Prod.mk.inj h
    contradiction

/-! ## What a computation keeps -/

section

/-- However a computation ends, the state of the builder still has this property if it had it. -/
def Keeps (P : σ → Prop) (computation : Evaluate σ ν β) : Prop :=
  ∀ state, P state.builder → P (computation state).2.builder

variable {P : σ → Prop}

theorem keeps_pure (value : β) : Keeps P (pure value : Evaluate σ ν β) := fun _ h => h

theorem keeps_throw (error : EvaluationError) : Keeps P (throw error : Evaluate σ ν β) :=
  fun _ h => h

theorem keeps_ask (look : Context ν → β) : Keeps P (ask look : Evaluate σ ν β) := fun _ h => h

theorem keeps_note (event : EvaluationEvent) : Keeps P (note event : Evaluate σ ν Unit) :=
  fun _ h => h

theorem keeps_bindNode (name : String) (node : ν) :
    Keeps P (bindNode name node : Evaluate σ ν Unit) := fun _ h => h

theorem keeps_build {action : StateM σ β} (h : ∀ builder, P builder → P (action builder).2) :
    Keeps P (build action : Evaluate σ ν β) := fun state => h state.builder

theorem Keeps.bind {first : Evaluate σ ν β} {next : β → Evaluate σ ν γ} (hfirst : Keeps P first)
    (hnext : ∀ value, Keeps P (next value)) : Keeps P (first >>= next) := by
  intro state hstate
  have hbetween := hfirst state hstate
  rw [bind_apply]
  split
  · rename_i value between heq
    rw [heq] at hbetween
    exact hnext value between hbetween
  · rename_i error between heq
    rw [heq] at hbetween
    exact hbetween

theorem Keeps.withVariable {body : Evaluate σ ν β} (hbody : Keeps P body) (name : String)
    (value : Value ν) : Keeps P (withVariable name value body) :=
  fun state hstate => hbody { state with context := state.context.setVariable name value } hstate

theorem keeps_collect {step : β → Evaluate σ ν (List γ)} (hstep : ∀ item, Keeps P (step item))
    (items : List β) : Keeps P (collect step items) := by
  induction items with
  | nil => exact keeps_pure []
  | cons item rest ih => exact (hstep item).bind fun _ => ih.bind fun _ => keeps_pure _

theorem keeps_each {step : β → Evaluate σ ν Unit} (hstep : ∀ item, Keeps P (step item))
    (items : List β) : Keeps P (each step items) := by
  induction items with
  | nil => exact keeps_pure ()
  | cons item rest ih => exact (hstep item).bind fun _ => ih

end

/-! ## What a success ensures -/

section

/-- From a state with the first property, a computation that succeeds comes to a result and a state
with the second. -/
def Ensures (P : EvaluationState σ ν → Prop) (computation : Evaluate σ ν β)
    (Q : β → EvaluationState σ ν → Prop) : Prop :=
  ∀ state, P state → ∀ result state', computation state = (.ok result, state') →
    Q result state'

variable {P : EvaluationState σ ν → Prop} {Q : β → EvaluationState σ ν → Prop}

theorem ensures_pure {value : β} (h : ∀ state, P state → Q value state) :
    Ensures P (pure value : Evaluate σ ν β) Q := by
  intro state hstate result state' hrun
  obtain ⟨hresult, rfl⟩ := Prod.mk.inj hrun
  obtain rfl := Except.ok.inj hresult
  exact h state hstate

theorem ensures_throw (error : EvaluationError) :
    Ensures P (throw error : Evaluate σ ν β) Q := by
  intro state _ result state' hrun
  obtain ⟨hresult, -⟩ := Prod.mk.inj hrun
  contradiction

theorem ensures_ask {look : Context ν → β}
    (h : ∀ state, P state → Q (look state.context) state) :
    Ensures P (ask look : Evaluate σ ν β) Q := by
  intro state hstate result state' hrun
  obtain ⟨hresult, rfl⟩ := Prod.mk.inj hrun
  obtain rfl := Except.ok.inj hresult
  exact h state hstate

theorem ensures_build {action : StateM σ β}
    (h : ∀ state, P state →
      Q (action state.builder).1 { state with builder := (action state.builder).2 }) :
    Ensures P (build action : Evaluate σ ν β) Q := by
  intro state hstate result state' hrun
  obtain ⟨hresult, rfl⟩ := Prod.mk.inj hrun
  obtain rfl := Except.ok.inj hresult
  exact h state hstate

theorem Ensures.bind {first : Evaluate σ ν β} {next : β → Evaluate σ ν γ}
    {last : γ → EvaluationState σ ν → Prop} (hfirst : Ensures P first Q)
    (hnext : ∀ value, Ensures (Q value) (next value) last) :
    Ensures P (first >>= next) last := by
  intro state hstate result state' hrun
  obtain ⟨value, between, hvalue, hrun⟩ := of_bind_ok hrun
  exact hnext value between (hfirst state hstate value between hvalue) result state' hrun

/-- What each step ensures again, a loop ensures. -/
theorem ensures_each {step : β → Evaluate σ ν Unit} {items : List β}
    (hstep : ∀ item ∈ items, Ensures P (step item) fun _ => P) :
    Ensures P (each step items) fun _ => P := by
  induction items with
  | nil => exact ensures_pure fun _ h => h
  | cons item rest ih =>
    obtain ⟨hitem, hrest⟩ := List.forall_mem_cons.mp hstep
    exact hitem.bind fun _ => ih hrest

end

/-! ## What holds however a computation ends -/

section

/-- From a state with the first property a computation comes to a result and a state with the last
one, or it fails in a state with the property for failures. -/
def Runs (P : EvaluationState σ ν → Prop) (computation : Evaluate σ ν β)
    (fault : EvaluationState σ ν → Prop) (Q : β → EvaluationState σ ν → Prop) : Prop :=
  ∀ state, P state →
    match (computation state : Except EvaluationError β × EvaluationState σ ν) with
    | (.ok result, after) => Q result after
    | (.error _, after) => fault after

variable {P fault : EvaluationState σ ν → Prop} {Q : β → EvaluationState σ ν → Prop}

theorem runs_pure {value : β} (h : ∀ state, P state → Q value state) :
    Runs P (pure value : Evaluate σ ν β) fault Q := h

theorem runs_throw {error : EvaluationError} (h : ∀ state, P state → fault state) :
    Runs P (throw error : Evaluate σ ν β) fault Q := h

theorem runs_ask {look : Context ν → β} (h : ∀ state, P state → Q (look state.context) state) :
    Runs P (ask look : Evaluate σ ν β) fault Q := h

theorem runs_build {action : StateM σ β}
    (h : ∀ state, P state →
      Q (action state.builder).1 { state with builder := (action state.builder).2 }) :
    Runs P (build action : Evaluate σ ν β) fault Q := h

theorem Runs.bind {first : Evaluate σ ν β} {next : β → Evaluate σ ν γ}
    {last : γ → EvaluationState σ ν → Prop} (hfirst : Runs P first fault Q)
    (hnext : ∀ value, Runs (Q value) (next value) fault last) :
    Runs P (first >>= next) fault last := by
  intro state hstate
  have hbetween := hfirst state hstate
  rw [bind_apply]
  generalize first state = run at hbetween ⊢
  obtain ⟨error | value, between⟩ := run
  · exact hbetween
  · exact hnext value between hbetween

/-- What each step keeps, a loop keeps. -/
theorem runs_each {step : β → Evaluate σ ν Unit} {items : List β}
    (hstep : ∀ item ∈ items, Runs P (step item) fault fun _ => P) :
    Runs P (each step items) fault fun _ => P := by
  induction items with
  | nil => exact runs_pure fun _ h => h
  | cons item rest ih =>
    obtain ⟨hitem, hrest⟩ := List.forall_mem_cons.mp hstep
    exact hitem.bind fun _ => ih hrest

/-- A loop that collects adds to what there is, as each of its steps does. -/
theorem runs_collect {step : β → Evaluate σ ν (List γ)} {items : List β}
    (gathered : List γ → EvaluationState σ ν → Prop)
    (hstep : ∀ item ∈ items, ∀ known,
      Runs (gathered known) (step item) fault fun found => gathered (known ++ found))
    (known : List γ) :
    Runs (gathered known) (collect step items) fault fun found => gathered (known ++ found) := by
  induction items generalizing known with
  | nil => exact runs_pure fun state h => by rwa [List.append_nil]
  | cons item rest ih =>
    obtain ⟨hitem, hrest⟩ := List.forall_mem_cons.mp hstep
    refine (hitem known).bind fun first => (ih hrest (known ++ first)).bind fun others => ?_
    refine runs_pure fun state h => ?_
    rwa [← List.append_assoc]

end

end Evaluate

/-! ## What an evaluation keeps -/

/-- Every action of a builder keeps a property of its state, whatever nodes it is about. Evaluation
makes no fragments. -/
structure TreeBuilder.Keeps [TreeBuilder σ ν] (P : σ → Prop) : Prop where
  createElement (tag : String) (builder : σ) :
    P builder → P ((createElement tag : StateM σ ν) builder).2
  createText (content : String) (builder : σ) :
    P builder → P ((createText content : StateM σ ν) builder).2
  setAttribute (element : ν) (name value : String) (builder : σ) :
    P builder → P ((setAttribute element name value : StateM σ Unit) builder).2
  addEventListener (element : ν) (event : String) (callback : Value ν)
    (options : Option (Value ν)) (builder : σ) :
    P builder → P ((addEventListener element event callback options : StateM σ Unit) builder).2
  appendChild (parent child : ν) (builder : σ) :
    P builder → P ((appendChild parent child : StateM σ Unit) builder).2
  removeAllChildren (parent : ν) (builder : σ) :
    P builder → P ((removeAllChildren parent : StateM σ Unit) builder).2

section

open Evaluate

variable [Host ν] [TreeBuilder σ ν] {P : σ → Prop}

omit [Host ν] in
theorem keeps_textNode (hP : TreeBuilder.Keeps P) (leaf : Value ν) :
    Keeps P (textNode leaf : Evaluate σ ν ν) := by
  unfold textNode
  split
  · exact keeps_build (hP.createText _)
  · exact keeps_build (hP.createText _)
  · exact keeps_build (hP.createText _)
  · exact keeps_pure _
  · exact keeps_throw _

omit [Host ν] in
theorem keeps_baseNode (hP : TreeBuilder.Keeps P) (leaf : Value ν) :
    Keeps P (baseNode leaf : Evaluate σ ν ν) := by
  unfold baseNode
  split
  · exact keeps_build (hP.createElement _)
  · exact keeps_pure _
  · exact keeps_throw _

omit [TreeBuilder σ ν] in
theorem keeps_leafNodes {nodeOf : Value ν → Evaluate σ ν ν} (hnode : ∀ leaf, Keeps P (nodeOf leaf))
    (fits : Value ν → Bool) (value : Value ν) : Keeps P (leafNodes nodeOf fits value) :=
  (keeps_ask _).bind fun _ => keeps_collect (fun leaf => (hnode leaf).bind fun _ => keeps_pure _) _

theorem keeps_baseNodes (hP : TreeBuilder.Keeps P) (base : Word (Value ν)) :
    Keeps P (baseNodes base : Evaluate σ ν (List ν)) := by
  cases base with
  | text tag => exact (keeps_build (hP.createElement tag)).bind fun _ => keeps_pure _
  | slot value =>
    rw [baseNodes_slot]
    exact keeps_leafNodes (keeps_baseNode hP) _ value

theorem keeps_applyAttributes (hP : TreeBuilder.Keeps P) (element : ν)
    (written : List (Attribute (Value ν))) :
    Keeps P (applyAttributes element written : Evaluate σ ν Unit) := by
  refine (keeps_ask _).bind fun built => ?_
  cases built with
  | error error => exact keeps_throw error
  | ok set =>
    refine Keeps.bind (keeps_each (fun attr => ?_) _) fun _ => keeps_each (fun binding => ?_) _
    · exact keeps_build (hP.setAttribute element attr.1 attr.2)
    · exact keeps_build (hP.addEventListener element _ _ _)

theorem keeps_applyRefName (hP : TreeBuilder.Keeps P) (element : ν)
    (refName : Option (Word (Value ν))) :
    Keeps P (applyRefName element refName : Evaluate σ ν Unit) := by
  cases refName with
  | none => exact keeps_pure ()
  | some word =>
    refine (keeps_ask _).bind fun resolved => ?_
    split
    · rename_i name
      have hbinding : Keeps P (do note (.bound name); bindNode name element : Evaluate σ ν Unit) :=
        (keeps_note _).bind fun _ => keeps_bindNode name element
      refine (keeps_ask _).bind fun attr => ?_
      cases attr with
      | none => exact (keeps_pure ()).bind fun _ => hbinding
      | some attr => exact (keeps_build (hP.setAttribute element attr name)).bind fun _ => hbinding
    · exact keeps_throw _

mutual

/-- What every action of a builder keeps, the evaluation of a node keeps. -/
theorem keeps_evaluateNode (hP : TreeBuilder.Keeps P) (node : Node (Value ν)) :
    Keeps P (evaluateNode node : Evaluate σ ν (List ν)) := by
  cases node with
  | element header children =>
    rw [evaluateNode]
    refine (keeps_baseNodes hP header.base).bind fun elements => ?_
    refine Keeps.bind (keeps_each (fun element => ?_) elements) fun _ => keeps_pure _
    refine (keeps_applyAttributes hP element _).bind fun _ =>
      (keeps_applyRefName hP element _).bind fun _ => ?_
    split
    · exact (keeps_build (hP.removeAllChildren element)).bind fun _ =>
        keeps_appendAll hP element children
    · exact keeps_pure ()
  | text content =>
    rw [evaluateNode]
    exact (keeps_build (hP.createText content)).bind fun _ => keeps_pure _
  | newLine =>
    rw [evaluateNode]
    exact (keeps_build (hP.createText "\n")).bind fun _ => keeps_pure _
  | slot value =>
    rw [evaluateNode_slot]
    exact keeps_leafNodes (keeps_textNode hP) _ value
  | ifBlock condition thenBranch elseBranch =>
    rw [evaluateNode]
    refine (keeps_ask _).bind fun resolved => ?_
    split
    · exact keeps_evaluateAll hP thenBranch
    · exact keeps_evaluateAll hP elseBranch
  | forBlock variableName iterable body =>
    rw [evaluateNode]
    refine (keeps_ask _).bind fun items => ?_
    cases items with
    | error error => exact keeps_throw error
    | ok items =>
      refine keeps_collect (fun item => (keeps_note _).bind fun _ => ?_) _
      exact (keeps_evaluateAll hP body).withVariable variableName item.1

/-- What every action of a builder keeps, the evaluation of several nodes keeps. -/
theorem keeps_evaluateAll (hP : TreeBuilder.Keeps P) (nodes : List (Node (Value ν))) :
    Keeps P (evaluateAll nodes : Evaluate σ ν (List ν)) := by
  cases nodes with
  | nil =>
    rw [evaluateAll]
    exact keeps_pure []
  | cons node rest =>
    rw [evaluateAll]
    exact (keeps_evaluateNode hP node).bind fun _ =>
      (keeps_evaluateAll hP rest).bind fun _ => keeps_pure _

theorem keeps_appendAll (hP : TreeBuilder.Keeps P) (parent : ν) (nodes : List (Node (Value ν))) :
    Keeps P (appendAll parent nodes : Evaluate σ ν Unit) := by
  cases nodes with
  | nil =>
    rw [appendAll]
    exact keeps_pure ()
  | cons node rest =>
    rw [appendAll]
    refine (keeps_evaluateNode hP node).bind fun outputs => ?_
    refine Keeps.bind (keeps_each (fun child => ?_) outputs) fun _ =>
      keeps_appendAll hP parent rest
    exact keeps_build (hP.appendChild parent child)

end

/-- A successful evaluation ends in a state with its bindings and its builder. -/
theorem Document.of_evaluate_ok {document : Document (Value ν)} {options : Options}
    {builder builder' : σ} {evaluation : Evaluation ν}
    (h : document.evaluate options builder = (.ok evaluation, builder')) :
    ∃ state, evaluateAll document.children ⟨builder, { options }, []⟩ = (.ok evaluation.nodes, state) ∧
      state.builder = builder' ∧ state.context.bindings = evaluation.bindings := by
  unfold Document.evaluate at h
  rcases hrun : document.run options builder with ⟨result, state⟩
  rw [hrun] at h
  obtain ⟨hresult, rfl⟩ := Prod.mk.inj h
  cases result with
  | error error => contradiction
  | ok nodes =>
    obtain rfl := Except.ok.inj hresult
    exact ⟨state, hrun, rfl, rfl⟩

/-- What every action of a builder keeps, the evaluation of a document keeps, also if it fails. -/
theorem Document.keeps_evaluate (hP : TreeBuilder.Keeps P) (document : Document (Value ν))
    (options : Options) {builder : σ} (h : P builder) :
    P (document.evaluate options builder).2 :=
  keeps_evaluateAll hP document.children ⟨builder, { options }, []⟩ h

end

end IndentMarkup

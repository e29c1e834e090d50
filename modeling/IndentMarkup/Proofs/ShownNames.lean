import IndentMarkup.CallLog
import IndentMarkup.Proofs.SideBySide
import Mathlib.Data.List.Induction

/-! Shown names. The attribute that shows the names of bound elements changes nothing else. A script
records what an evaluation asks of its builder and where it binds elements; whatever the options,
the evaluation comes to what the script comes to, and its requests are those of the script with one
attribute set at every place where an element is bound, or with nothing there. -/
namespace IndentMarkup

open Evaluate

variable {ν β γ : Type}

/-! ## No value depends on the options -/

namespace Context

def withOptions (context : Context ν) (options : Options) : Context ν :=
  { context with options }

variable [Host ν] (context : Context ν) (options : Options)

@[simp] theorem resolve_withOptions :
    (context.withOptions options).resolve = context.resolve :=
  resolve_congr rfl

@[simp] theorem leaves_withOptions (fits : Value ν → Bool) (value : Value ν) :
    (context.withOptions options).leaves fits value = context.leaves fits value :=
  leaves_congr (resolve_withOptions context options) fits value

end Context

namespace AttributeSet

variable [Host ν] (context : Context ν) (options : Options)

theorem add_withOptions (set : AttributeSet ν) (name value : Value ν) :
    set.add (context.withOptions options) name value = set.add context name value := by
  have hevent : ∀ (event : String) (value : Value ν),
      eventBinding (context.withOptions options) event value = eventBinding context event value := by
    intro event value
    cases value <;> simp only [eventBinding, Context.resolve_withOptions]
  simp only [add, hevent]

theorem addEntries_withOptions (set : AttributeSet ν) (entries : List (String × Value ν)) :
    set.addEntries (context.withOptions options) entries = set.addEntries context entries := by
  induction entries generalizing set with
  | nil => rfl
  | cons entry rest ih =>
    simp only [addEntries, add_withOptions, Context.resolve_withOptions, ih]

theorem addAll_withOptions (set : AttributeSet ν) (written : List (Attribute (Value ν))) :
    addAll (context.withOptions options) set written = addAll context set written := by
  induction written generalizing set with
  | nil => rfl
  | cons entry rest ih =>
    simp only [addAll, addWritten, add_withOptions, addEntries_withOptions,
      Context.resolve_withOptions, ih]

theorem build_withOptions (written : List (Attribute (Value ν))) :
    build (context.withOptions options) written = build context written :=
  addAll_withOptions context options {} written

end AttributeSet

theorem iterationItems_withOptions [Host ν] (context : Context ν) (options : Options)
    (iterable : Value ν) :
    iterationItems (context.withOptions options) iterable = iterationItems context iterable := by
  simp only [iterationItems, Context.resolve_withOptions]

/-! ## Bindings as groups -/

namespace Bindings

/-- The nodes of each name, the names in the order in which they first occur. -/
def grouped (pairs : List (String × ν)) : Bindings ν :=
  ⟨(pairs.map (·.1)).eraseDups.map fun name => (name, (pairs.filter (·.1 == name)).map (·.2))⟩

/-- One more name comes last, unless it has occurred before. -/
theorem eraseDups_append_singleton (names : List String) (name : String) :
    (names ++ [name]).eraseDups =
      if name ∈ names then names.eraseDups else names.eraseDups ++ [name] := by
  have hsingle : [name].eraseDups = [name] := by
    rw [List.eraseDups_cons, List.filter_nil, List.eraseDups_nil]
  rw [List.eraseDups_append, List.cons_removeAll]
  by_cases h : name ∈ names <;> simp [h, List.removeAll, hsingle]

theorem nodup_eraseDups (names : List String) : names.eraseDups.Nodup := by
  induction names using List.reverseRecOn with
  | nil => simp
  | append_singleton front name ih =>
    rw [eraseDups_append_singleton]
    split
    · exact ih
    · rename_i hname
      rw [List.nodup_append]
      refine ⟨ih, by simp, fun known hknown other hother => ?_⟩
      rw [List.mem_singleton.mp hother]
      rintro rfl
      exact hname (List.mem_eraseDups.mp hknown)

/-- What is done to the entry of a name does nothing where there is none. -/
theorem map_of_not_mem {name : String} {names : List String} (hname : name ∉ names)
    {there elsewhere : String → List ν} :
    (names.map fun known => (known, if known = name then there known else elsewhere known)) =
      names.map fun known => (known, elsewhere known) := by
  refine List.map_congr_left fun known hknown => ?_
  rw [if_neg]
  rintro rfl
  exact hname hknown

/-- Among entries with different names, a node goes to the entry of its name. -/
theorem addTo_map (name : String) (node : ν) (nodes : String → List ν) {names : List String}
    (hnodup : names.Nodup) :
    addTo name node (names.map fun known => (known, nodes known)) =
      if name ∈ names then
        names.map fun known => (known, if known = name then nodes known ++ [node] else nodes known)
      else (names.map fun known => (known, nodes known)) ++ [(name, [node])] := by
  induction names with
  | nil => rfl
  | cons first rest ih =>
    obtain ⟨hfirst, hrest⟩ := List.nodup_cons.mp hnodup
    rw [List.map_cons, addTo]
    by_cases h : first = name
    · subst h
      simp [map_of_not_mem hfirst]
    · rw [if_neg h, ih hrest]
      by_cases hmem : name ∈ rest
      · simp [hmem, h]
      · have hne : name ≠ first := fun heq => h heq.symm
        simp [hmem, hne]

/-- A group takes one more node. -/
theorem add_grouped (pairs : List (String × ν)) (name : String) (node : ν) :
    (grouped pairs).add name node = grouped (pairs ++ [(name, node)]) := by
  have hnodes : ∀ known : String, ((pairs ++ [(name, node)]).filter (·.1 == known)).map (·.2) =
      if known = name then (pairs.filter (·.1 == known)).map (·.2) ++ [node]
      else (pairs.filter (·.1 == known)).map (·.2) := by
    intro known
    by_cases h : known = name
    · simp [h]
    · have hne : name ≠ known := fun heq => h heq.symm
      simp [h, hne]
  have hnew : name ∉ pairs.map (·.1) → (pairs.filter (·.1 == name)).map (·.2) = [] := by
    intro hname
    rw [List.map_eq_nil_iff, List.filter_eq_nil_iff]
    intro entry hentry heq
    exact hname (beq_iff_eq.mp heq ▸ List.mem_map_of_mem hentry)
  simp only [add, grouped, addTo_map name node _ (nodup_eraseDups _), hnodes, List.map_append,
    List.map_cons, List.map_nil, eraseDups_append_singleton, List.mem_eraseDups]
  split
  · rfl
  · rename_i hname
    have hfresh : name ∉ (pairs.map (·.1)).eraseDups := mt List.mem_eraseDups.mp hname
    rw [List.map_append, map_of_not_mem hfresh]
    simp [hnew hname]

end Bindings

/-! ## Scripts -/

/-- Something that an evaluation does. -/
inductive ScriptStep where
  | call (call : Call)
  /-- An element is bound under a name. A parent is one with children of its own to come. -/
  | bound (name : String) (element : Nat) (parent : Bool)
  deriving DecidableEq, Repr

namespace ScriptStep

/-- The requests of a step, where this attribute shows the names. -/
def calls (attr : Option String) : ScriptStep → List Call
  | .call request => [request]
  | .bound name element _ => (attr.map fun attr => .setAttribute element attr name).toList

def binding? : ScriptStep → Option (String × Nat)
  | .call _ => none
  | .bound name element _ => some (name, element)

def bindings (steps : List ScriptStep) : List (String × Nat) :=
  steps.filterMap binding?

@[simp] theorem bindings_append (front back : List ScriptStep) :
    bindings (front ++ back) = bindings front ++ bindings back :=
  List.filterMap_append

@[simp] theorem bindings_calls (calls : List Call) : bindings (calls.map .call) = [] := by
  simp [bindings, binding?]

@[simp] theorem flatMap_calls (attr : Option String) (calls : List Call) :
    (calls.map ScriptStep.call).flatMap (ScriptStep.calls attr) = calls := by
  induction calls with
  | nil => rfl
  | cons call rest ih => simpa [ScriptStep.calls] using ih

/-- Behind every parent that is bound, it is cleared next. -/
def Settled (steps : List ScriptStep) : Prop :=
  ∀ front name element rest, steps = front ++ .bound name element true :: rest →
    ∃ more, rest = .call (.removeAllChildren element) :: more

theorem settled_calls (calls : List Call) : Settled (calls.map .call) := by
  intro front name element rest h
  have hmem : ScriptStep.bound name element true ∈ calls.map ScriptStep.call := by simp [h]
  simp at hmem

/-- What has to follow where an element is bound: a parent is cleared. -/
def follow (element : Nat) (parent : Bool) : List ScriptStep :=
  if parent then [.call (.removeAllChildren element)] else []

theorem settled_follow (element : Nat) (parent : Bool) : Settled (follow element parent) := by
  cases parent with
  | false => exact settled_calls []
  | true => exact settled_calls [.removeAllChildren element]

theorem settled_bound (name : String) (element : Nat) (parent : Bool) :
    Settled (.bound name element parent :: follow element parent) := by
  intro front known bound rest h
  cases front with
  | nil =>
    obtain ⟨hstep, rfl⟩ := List.cons.inj h
    obtain ⟨rfl, rfl, rfl⟩ := ScriptStep.bound.inj hstep
    exact ⟨[], rfl⟩
  | cons step front =>
    exact settled_follow element parent front known bound rest (List.cons.inj h).2

theorem Settled.append {front back : List ScriptStep} (hfront : Settled front)
    (hback : Settled back) : Settled (front ++ back) := by
  intro before name element rest h
  rcases List.append_eq_append_iff.mp h with ⟨between, rfl, hrest⟩ | ⟨between, hbefore, hbetween⟩
  · exact hback between name element rest hrest
  · cases between with
    | nil => exact hback [] name element rest hbetween.symm
    | cons step between =>
      obtain ⟨rfl, hrest⟩ := List.cons.inj hbetween
      obtain ⟨more, rfl⟩ := hfront before name element between hbefore
      exact ⟨more ++ back, hrest⟩

end ScriptStep

/-- A builder that records a script. -/
structure Script where
  nextId : Nat := 0
  steps : List ScriptStep := []

namespace Script

/-- Records the requests that an action makes of a call log. -/
def act (action : StateM CallLog β) : StateM Script β := fun script =>
  let (result, log) := action ⟨script.nextId, #[]⟩
  (result, ⟨log.nextId, script.steps ++ log.calls.toList.map .call⟩)

/-- Records that an element is bound. -/
def mark (name : String) (element : Nat) (parent : Bool) : StateM Script Unit := fun script =>
  ((), { script with steps := script.steps ++ [.bound name element parent] })

instance : TreeBuilder Script Nat where
  createElement tag := act (TreeBuilder.createElement tag)
  createText content := act (TreeBuilder.createText content)
  setAttribute element name value := act (TreeBuilder.setAttribute element name value)
  addEventListener element event callback options :=
    act (TreeBuilder.addEventListener element event callback options)
  appendChild parent child := act (TreeBuilder.appendChild parent child)
  removeAllChildren parent := act (TreeBuilder.removeAllChildren parent)
  createFragment nodes := act (TreeBuilder.createFragment nodes)

end Script

section

variable [Host Nat]

/-- Binds an element under the name in its header and marks the place. -/
def markedRefName (element : Nat) (refName : Option (Word (Value Nat))) (parent : Bool) :
    Evaluate Script Nat Unit :=
  match refName with
  | none => return ()
  | some word => do
    match ← ask fun context => context.resolve word.value with
    | .string name =>
      build (Script.mark name element parent)
      note (.bound name)
      bindNode name element
    | other => throw (.invalidRefName other.display)

mutual

/-- Evaluates a node and marks where elements are bound. -/
def Node.marked : Node (Value Nat) → Evaluate Script Nat (List Nat)
  | .element header children => do
    let elements ← baseNodes header.base
    each (fun element => do
      applyAttributes element header.attributes
      markedRefName element header.refName (!children.isEmpty)
      if !children.isEmpty then
        build (TreeBuilder.removeAllChildren element)
        Node.appendMarked element children) elements
    return elements
  | .text content => do return [← build (TreeBuilder.createText content)]
  | .newLine => do return [← build (TreeBuilder.createText "\n")]
  | .slot value => evaluateNode (.slot value)
  | .ifBlock condition thenBranch elseBranch => do
    if (← ask fun context => context.resolve condition).isTruthy then Node.markedAll thenBranch
    else Node.markedAll elseBranch
  | .forBlock variableName iterable body => do
    match ← ask fun context => iterationItems context iterable with
    | .error error => throw error
    | .ok items =>
      collect (fun (item, index) => do
        note (.iteration variableName index)
        withVariable variableName item (Node.markedAll body)) items.zipIdx

def Node.markedAll : List (Node (Value Nat)) → Evaluate Script Nat (List Nat)
  | [] => return []
  | node :: rest => do
    let first ← Node.marked node
    let others ← Node.markedAll rest
    return first ++ others

def Node.appendMarked (parent : Nat) : List (Node (Value Nat)) → Evaluate Script Nat Unit
  | [] => return ()
  | node :: rest => do
    let nodes ← Node.marked node
    each (fun child => build (TreeBuilder.appendChild parent child)) nodes
    Node.appendMarked parent rest

end

def Document.markedRun (document : Document (Value Nat)) :
    Except EvaluationError (List Nat) × EvaluationState Script Nat :=
  (Node.markedAll document.children).run ⟨{}, {}, []⟩

/-- What an evaluation of the document does, up to its end or its first error. -/
def Document.script (document : Document (Value Nat)) : List ScriptStep :=
  document.markedRun.2.builder.steps

end

def EvaluationEvent.boundName? : EvaluationEvent → Option String
  | .bound name => some name
  | .iteration _ _ => none

/-! ## The script and the evaluation -/

/-- An evaluation with these options has come as far as the script. -/
structure Shown (options : Options) (s : EvaluationState Script Nat)
    (t : EvaluationState CallLog Nat) : Prop where
  nextId : t.builder.nextId = s.builder.nextId
  calls : t.builder.calls.toList =
    s.builder.steps.flatMap (ScriptStep.calls options.attrForRefName)
  context : t.context = s.context.withOptions options
  journal : t.journal = s.journal
  bindings : s.context.bindings = .grouped (ScriptStep.bindings s.builder.steps)
  noted : s.journal.reverse.filterMap EvaluationEvent.boundName? =
    (ScriptStep.bindings s.builder.steps).map (·.1)

/-- The same between the steps of the evaluation, when what has to follow has followed. -/
structure InStep (options : Options) (s : EvaluationState Script Nat)
    (t : EvaluationState CallLog Nat) : Prop extends Shown options s t where
  settled : ScriptStep.Settled s.builder.steps

/-- What an action adds to a call log does not depend on the requests before. -/
def CallLog.Appends (action : StateM CallLog β) : Prop :=
  ∀ log, action log =
    ((action ⟨log.nextId, #[]⟩).1, ⟨(action ⟨log.nextId, #[]⟩).2.nextId,
      log.calls ++ (action ⟨log.nextId, #[]⟩).2.calls⟩)

theorem CallLog.appends_create (call : Nat → Call) : Appends (create call) := by
  intro log
  simp only [create, Array.append_push, Array.append_empty]

theorem CallLog.appends_record (call : Call) : Appends (record call) := by
  intro log
  simp only [record, Array.append_push, Array.append_empty]

section

variable {options : Options}

/-- An action of the builder is the same request in the script and in the log. -/
theorem Shown.build {action : StateM CallLog β} (haction : CallLog.Appends action)
    {s : EvaluationState Script Nat} {t : EvaluationState CallLog Nat} (h : Shown options s t) :
    ∃ calls : List Call,
      (action t.builder).1 = (Script.act action s.builder).1 ∧
        (Script.act action s.builder).2.steps = s.builder.steps ++ calls.map .call ∧
          Shown options { s with builder := (Script.act action s.builder).2 }
            { t with builder := (action t.builder).2 } := by
  have hlog := haction t.builder
  rw [h.nextId] at hlog
  have hsteps : (Script.act action s.builder).2.steps =
      s.builder.steps ++ (action ⟨s.builder.nextId, #[]⟩).2.calls.toList.map .call := rfl
  refine ⟨_, ?_, hsteps, ?_⟩
  · rw [hlog]
    rfl
  · refine ⟨?_, ?_, h.context, h.journal, ?_, ?_⟩
    · rw [hlog]
      rfl
    · rw [hlog]
      simp [hsteps, h.calls]
    · simp only [hsteps]
      simpa using h.bindings
    · simp only [hsteps]
      simpa using h.noted

/-- Two computations keep in step and come to the same. -/
def KeepsStep (options : Options) (first : Evaluate Script Nat β)
    (second : Evaluate CallLog Nat β) : Prop :=
  Related (InStep options) (InStep options) first second fun x y s t => y = x ∧ InStep options s t

theorem keepsStep_pure (value : β) :
    KeepsStep options (pure value) (pure value) :=
  related_pure fun _ _ h => ⟨rfl, h⟩

theorem keepsStep_throw (error : EvaluationError) :
    KeepsStep options (throw error : Evaluate Script Nat β) (throw error) :=
  fun _ _ h => .failure h

theorem KeepsStep.bind {first : Evaluate Script Nat β} {second : Evaluate CallLog Nat β}
    {next : β → Evaluate Script Nat γ} {other : β → Evaluate CallLog Nat γ}
    (hfirst : KeepsStep options first second)
    (hnext : ∀ value, KeepsStep options (next value) (other value)) :
    KeepsStep options (first >>= next) (second >>= other) := by
  refine Related.bind hfirst fun x y s t h => ?_
  obtain ⟨rfl, h⟩ := h
  exact hnext y s t h

/-- Both look at something that does not depend on the options. -/
theorem keepsStep_ask {look : Context Nat → β}
    (hlook : ∀ context, look (context.withOptions options) = look context)
    {next : β → Evaluate Script Nat γ} {other : β → Evaluate CallLog Nat γ}
    (hnext : ∀ value, KeepsStep options (next value) (other value)) :
    KeepsStep options (ask look >>= next) (ask look >>= other) := by
  refine related_ask fun s t h => ?_
  rw [h.context, hlook]
  exact hnext (look s.context) s t h

theorem keepsStep_build {action : StateM CallLog β} (haction : CallLog.Appends action) :
    KeepsStep options (build (Script.act action)) (build action) := by
  intro s t h
  obtain ⟨calls, hresult, hsteps, hshown⟩ := h.toShown.build haction
  refine .success ⟨hresult, hshown, ?_⟩
  show ScriptStep.Settled (Script.act action s.builder).2.steps
  rw [hsteps]
  exact h.settled.append (ScriptStep.settled_calls calls)

theorem keepsStep_iteration (variableName : String) (index : Nat) :
    KeepsStep options (note (.iteration variableName index)) (note (.iteration variableName index)) := by
  intro s t h
  refine .success ⟨rfl, ⟨h.nextId, h.calls, h.context, congrArg _ h.journal, h.bindings, ?_⟩,
    h.settled⟩
  rw [List.reverse_cons, List.filterMap_append, h.noted]
  simp [EvaluationEvent.boundName?]

theorem KeepsStep.withVariable {first : Evaluate Script Nat β} {second : Evaluate CallLog Nat β}
    (h : KeepsStep options first second) (name : String) (value : Value Nat) :
    KeepsStep options (withVariable name value first) (withVariable name value second) := by
  intro s t hbefore
  have hpush : InStep options { s with context := s.context.setVariable name value }
      { t with context := t.context.setVariable name value } := by
    refine ⟨⟨hbefore.nextId, hbefore.calls, ?_, hbefore.journal, hbefore.bindings, hbefore.noted⟩,
      hbefore.settled⟩
    rw [hbefore.context]
    rfl
  have hpop : ∀ {s' : EvaluationState Script Nat} {t' : EvaluationState CallLog Nat},
      InStep options s' t' → InStep options
        { s' with context :=
            s'.context.restoreVariable name (s.context.scope.get? name) }
        { t' with context :=
            t'.context.restoreVariable name (t.context.scope.get? name) } := by
    intro s' t' h'
    refine ⟨⟨h'.nextId, h'.calls, ?_, h'.journal, h'.bindings, h'.noted⟩, h'.settled⟩
    rw [h'.context, hbefore.context]
    rfl
  have halike := h _ _ hpush
  rw [withVariable_apply, withVariable_apply]
  generalize first { s with context := s.context.setVariable name value } = run at halike ⊢
  generalize second { t with context := t.context.setVariable name value } = run' at halike ⊢
  cases halike with
  | success hend => exact .success ⟨hend.1, hpop hend.2⟩
  | failure hend => exact .failure (hpop hend)

theorem keepsStep_collect {step : β → Evaluate Script Nat (List γ)}
    {step' : β → Evaluate CallLog Nat (List γ)}
    (hstep : ∀ item, KeepsStep options (step item) (step' item)) (items : List β) :
    KeepsStep options (collect step items) (collect step' items) := by
  induction items with
  | nil => exact keepsStep_pure []
  | cons item rest ih =>
    exact (hstep item).bind fun _ => ih.bind fun _ => keepsStep_pure _

theorem keepsStep_each {step : β → Evaluate Script Nat Unit}
    {step' : β → Evaluate CallLog Nat Unit}
    (hstep : ∀ item, KeepsStep options (step item) (step' item)) (items : List β) :
    KeepsStep options (each step items) (each step' items) := by
  induction items with
  | nil => exact keepsStep_pure ()
  | cons item rest ih => exact (hstep item).bind fun _ => ih

/-! ### Nodes -/

theorem keepsStep_textNode (leaf : Value Nat) :
    KeepsStep options (textNode leaf : Evaluate Script Nat Nat) (textNode leaf) := by
  unfold textNode
  split
  · exact keepsStep_build (CallLog.appends_create _)
  · exact keepsStep_build (CallLog.appends_create _)
  · exact keepsStep_build (CallLog.appends_create _)
  · exact keepsStep_pure _
  · exact keepsStep_throw _

theorem keepsStep_baseNode (leaf : Value Nat) :
    KeepsStep options (baseNode leaf : Evaluate Script Nat Nat) (baseNode leaf) := by
  unfold baseNode
  split
  · exact keepsStep_build (CallLog.appends_create _)
  · exact keepsStep_pure _
  · exact keepsStep_throw _

section

variable [Host Nat]

theorem keepsStep_leafNodes {nodeOf : Value Nat → Evaluate Script Nat Nat}
    {nodeOf' : Value Nat → Evaluate CallLog Nat Nat}
    (hnode : ∀ leaf, KeepsStep options (nodeOf leaf) (nodeOf' leaf)) (fits : Value Nat → Bool)
    (value : Value Nat) :
    KeepsStep options (leafNodes nodeOf fits value) (leafNodes nodeOf' fits value) := by
  refine keepsStep_ask (fun context => context.leaves_withOptions options fits value) fun leaves => ?_
  exact keepsStep_collect (fun leaf => (hnode leaf).bind fun _ => keepsStep_pure _) leaves

theorem keepsStep_baseNodes (base : Word (Value Nat)) :
    KeepsStep options (baseNodes base : Evaluate Script Nat (List Nat)) (baseNodes base) := by
  cases base with
  | text tag =>
    exact (keepsStep_build (CallLog.appends_create _)).bind fun _ => keepsStep_pure _
  | slot value =>
    rw [baseNodes_slot, baseNodes_slot]
    exact keepsStep_leafNodes keepsStep_baseNode _ value

theorem keepsStep_applyAttributes (element : Nat) (written : List (Attribute (Value Nat))) :
    KeepsStep options (applyAttributes element written : Evaluate Script Nat Unit)
      (applyAttributes element written) := by
  refine keepsStep_ask (fun context => AttributeSet.build_withOptions context options written)
    fun built => ?_
  cases built with
  | error error => exact keepsStep_throw error
  | ok set =>
    refine (keepsStep_each (fun attr => ?_) _).bind fun _ => keepsStep_each (fun binding => ?_) _
    · exact keepsStep_build (CallLog.appends_record _)
    · exact keepsStep_build (CallLog.appends_record _)

omit [Host Nat] in
/-- Where an element is bound, the log gets the attribute that the options ask for. -/
theorem Shown.bound {s : EvaluationState Script Nat} {t : EvaluationState CallLog Nat}
    (h : Shown options s t) (name : String) (element : Nat) (parent : Bool) :
    Shown options
      ⟨(Script.mark name element parent s.builder).2, s.context.bind name element,
        .bound name :: s.journal⟩
      ⟨{ t.builder with calls := t.builder.calls ++
          ((ScriptStep.bound name element parent).calls options.attrForRefName).toArray },
        t.context.bind name element, .bound name :: t.journal⟩ := by
  refine ⟨h.nextId, ?_, ?_, congrArg _ h.journal, ?_, ?_⟩
  · simp [Script.mark, h.calls]
  · rw [h.context]
    rfl
  · show s.context.bindings.add name element = _
    rw [h.bindings, Bindings.add_grouped]
    simp [Script.mark, ScriptStep.bindings, ScriptStep.binding?]
  · rw [List.reverse_cons, List.filterMap_append, h.noted]
    simp [Script.mark, ScriptStep.bindings, ScriptStep.binding?, EvaluationEvent.boundName?]

/-- Behind the name of a parent the parent has still to be cleared. -/
theorem related_refName (element : Nat) (refName : Option (Word (Value Nat))) (parent : Bool) :
    Related (InStep options) (InStep options) (markedRefName element refName parent)
      (applyRefName element refName) fun _ _ s t => Shown options s t ∧
        ScriptStep.Settled (s.builder.steps ++ ScriptStep.follow element parent) := by
  cases refName with
  | none =>
    exact related_pure fun s t h =>
      ⟨h.toShown, h.settled.append (ScriptStep.settled_follow element parent)⟩
  | some word =>
    refine related_ask fun s t h => ?_
    rw [h.context, Context.resolve_withOptions]
    cases s.context.resolve word.value with
    | string name =>
      have hshown := h.toShown.bound name element parent
      have hsettled : ScriptStep.Settled
          (s.builder.steps ++ [.bound name element parent] ++ ScriptStep.follow element parent) := by
        rw [List.append_assoc]
        exact h.settled.append (ScriptStep.settled_bound name element parent)
      have hattr : t.context.options.attrForRefName = options.attrForRefName := by
        rw [h.context]
        rfl
      dsimp only
      rw [ask_bind_apply, hattr]
      cases hoption : options.attrForRefName with
      | none =>
        simp only [ScriptStep.calls, hoption, Option.map_none, Option.toList_none,
          Array.append_empty] at hshown
        exact .success ⟨hshown, hsettled⟩
      | some attr =>
        simp only [ScriptStep.calls, hoption, Option.map_some, Option.toList_some,
          Array.append_singleton] at hshown
        exact .success ⟨hshown, hsettled⟩
    | _ => exact .failure h

omit [Host Nat] in
theorem related_clear (element : Nat) :
    Related (InStep options)
      (fun s t => Shown options s t ∧
        ScriptStep.Settled (s.builder.steps ++ ScriptStep.follow element true))
      (build (TreeBuilder.removeAllChildren element) : Evaluate Script Nat Unit)
      (build (TreeBuilder.removeAllChildren element) : Evaluate CallLog Nat Unit)
      fun _ _ => InStep options := by
  intro s t ⟨h, hsettled⟩
  obtain ⟨-, -, -, hshown⟩ := h.build (CallLog.appends_record (.removeAllChildren element))
  exact .success ⟨hshown, hsettled⟩

mutual

/-- The script of a node keeps in step with its evaluation. -/
theorem keepsStep_evaluateNode (node : Node (Value Nat)) :
    KeepsStep options (Node.marked node) (evaluateNode node : Evaluate CallLog Nat (List Nat)) := by
  cases node with
  | element header children =>
    rw [Node.marked, evaluateNode]
    refine (keepsStep_baseNodes header.base).bind fun elements => ?_
    refine KeepsStep.bind (keepsStep_each (fun element => ?_) elements) fun _ => keepsStep_pure _
    refine (keepsStep_applyAttributes element header.attributes).bind fun _ => ?_
    refine Related.bind (related_refName element header.refName (!children.isEmpty)) fun _ _ => ?_
    cases children.isEmpty with
    | true => exact related_pure fun s t h => ⟨rfl, h.1, by simpa [ScriptStep.follow] using h.2⟩
    | false =>
      exact Related.bind (related_clear element) fun _ _ => keepsStep_appendAll element children
  | text content =>
    rw [Node.marked, evaluateNode]
    exact (keepsStep_build (CallLog.appends_create _)).bind fun _ => keepsStep_pure _
  | newLine =>
    rw [Node.marked, evaluateNode]
    exact (keepsStep_build (CallLog.appends_create _)).bind fun _ => keepsStep_pure _
  | slot value =>
    rw [Node.marked, evaluateNode_slot, evaluateNode_slot]
    exact keepsStep_leafNodes keepsStep_textNode _ value
  | ifBlock condition thenBranch elseBranch =>
    rw [Node.marked, evaluateNode]
    refine keepsStep_ask (fun context => ?_) fun resolved => ?_
    · rw [Context.resolve_withOptions]
    · split
      · exact keepsStep_evaluateAll thenBranch
      · exact keepsStep_evaluateAll elseBranch
  | forBlock variableName iterable body =>
    rw [Node.marked, evaluateNode]
    refine keepsStep_ask (fun context => iterationItems_withOptions context options iterable)
      fun items => ?_
    cases items with
    | error error => exact keepsStep_throw error
    | ok items =>
      refine keepsStep_collect (fun item => (keepsStep_iteration _ _).bind fun _ => ?_) _
      exact (keepsStep_evaluateAll body).withVariable variableName item.1

theorem keepsStep_evaluateAll (nodes : List (Node (Value Nat))) :
    KeepsStep options (Node.markedAll nodes) (evaluateAll nodes : Evaluate CallLog Nat (List Nat)) := by
  cases nodes with
  | nil =>
    rw [Node.markedAll, evaluateAll]
    exact keepsStep_pure []
  | cons node rest =>
    rw [Node.markedAll, evaluateAll]
    exact (keepsStep_evaluateNode node).bind fun _ =>
      (keepsStep_evaluateAll rest).bind fun _ => keepsStep_pure _

theorem keepsStep_appendAll (parent : Nat) (nodes : List (Node (Value Nat))) :
    KeepsStep options (Node.appendMarked parent nodes)
      (appendAll parent nodes : Evaluate CallLog Nat Unit) := by
  cases nodes with
  | nil =>
    rw [Node.appendMarked, appendAll]
    exact keepsStep_pure ()
  | cons node rest =>
    rw [Node.appendMarked, appendAll]
    refine (keepsStep_evaluateNode node).bind fun outputs => ?_
    refine KeepsStep.bind (keepsStep_each (fun child => ?_) outputs) fun _ =>
      keepsStep_appendAll parent rest
    exact keepsStep_build (CallLog.appends_record _)

end

/-- The evaluation of a document comes to what its script comes to. -/
theorem Document.alike_markedRun (document : Document (Value Nat)) (options : Options) :
    Alike (InStep options) (fun nodes nodes' s t => nodes' = nodes ∧ InStep options s t)
      document.markedRun (document.run options ({} : CallLog)) := by
  refine keepsStep_evaluateAll document.children _ _ ⟨⟨rfl, rfl, rfl, rfl, rfl, rfl⟩, ?_⟩
  exact ScriptStep.settled_calls []

end

end

/-! ## With and without the attribute -/

section

variable [Host Nat]

theorem Document.inStep_run (document : Document (Value Nat)) (options : Options) :
    (document.run options ({} : CallLog)).1 = document.markedRun.1 ∧
      InStep options document.markedRun.2 (document.run options ({} : CallLog)).2 := by
  have halike := document.alike_markedRun options
  generalize document.markedRun = script at halike ⊢
  generalize document.run options ({} : CallLog) = run at halike ⊢
  cases halike with
  | success h => exact ⟨congrArg _ h.1, h.2⟩
  | failure h => exact ⟨rfl, h⟩

/-- An evaluation gives the nodes and the bindings of the script, or its error. -/
theorem Document.evaluate_eq_script (document : Document (Value Nat)) (options : Options) :
    (document.evaluate options ({} : CallLog)).1 = document.markedRun.1.map fun nodes =>
      ⟨nodes, .grouped (ScriptStep.bindings document.script)⟩ := by
  obtain ⟨hresult, hstep⟩ := document.inStep_run options
  have hbindings : (document.run options ({} : CallLog)).2.context.bindings =
      .grouped (ScriptStep.bindings document.script) := by
    rw [hstep.context]
    exact hstep.bindings
  have hevaluate : (document.evaluate options ({} : CallLog)).1 =
      (document.run options ({} : CallLog)).1.map fun nodes =>
        ⟨nodes, (document.run options ({} : CallLog)).2.context.bindings⟩ := rfl
  rw [hevaluate, hresult, hbindings]

/-- **The attribute for names only adds attributes.** With and without it a document comes to the
same nodes and bindings, or to the same error. The requests are those of one script: where the
script binds an element there is one request for the attribute with it and none without, and
directly behind that place a parent is cleared. What is bound is what the script binds, in its
order, and on success each name has all its nodes. -/
theorem attrForRefName_only_adds (document : Document (Value Nat)) (attr : String) :
    let plain := document.evaluate {} ({} : CallLog)
    let shown := document.evaluate (Options.withAttrForRefName {} attr) ({} : CallLog)
    let script := document.script
    shown.1 = plain.1 ∧
      plain.2.calls.toList = script.flatMap (ScriptStep.calls none) ∧
      shown.2.calls.toList = script.flatMap (ScriptStep.calls (some attr)) ∧
      ScriptStep.Settled script ∧
      (∀ evaluation, plain.1 = .ok evaluation →
        evaluation.bindings = .grouped (ScriptStep.bindings script)) ∧
      let ended := (document.run {} ({} : CallLog)).2
      ended.context.bindings = .grouped (ScriptStep.bindings script) ∧
        ended.journal.reverse.filterMap EvaluationEvent.boundName? =
          (ScriptStep.bindings script).map (·.1) := by
  intro plain shown script
  have hplain := (document.inStep_run {}).2
  have hshown := (document.inStep_run (Options.withAttrForRefName {} attr)).2
  refine ⟨?_, hplain.calls, hshown.calls, hplain.settled, ?_, ?_, ?_⟩
  · exact (document.evaluate_eq_script _).trans (document.evaluate_eq_script _).symm
  · intro evaluation hevaluation
    have hresult := (document.evaluate_eq_script {}).symm.trans hevaluation
    cases hnodes : document.markedRun.1 with
    | error error =>
      rw [hnodes] at hresult
      contradiction
    | ok nodes =>
      rw [hnodes] at hresult
      rw [← Except.ok.inj hresult]
  · rw [hplain.context]
    exact hplain.bindings
  · rw [hplain.journal]
    exact hplain.noted

end

end IndentMarkup

import IndentMarkup.Proofs.Courses
import IndentMarkup.Proofs.FinalAttributes
import IndentMarkup.Value.Words
import Mathlib.Data.List.Flatten
import Mathlib.Data.List.Nodup

/-! The calls about each element. An evaluation makes an element, or several of them for one header,
and then takes one after the other through its course; between the calls about one element stand
those about the nodes below it. The script stays orderly on the way, so it is orderly also where an
error ends it. No value brings nodes of its own: every element is made by the evaluation. -/
namespace IndentMarkup

open Evaluate

/-! ## Names of attributes -/

namespace AttributeSet

variable {ν : Type} [Host ν] {context : Context ν} {set after : AttributeSet ν}

omit [Host ν] in
/-- A name comes last unless it is there. -/
theorem names_merge (name text : String) (attributes : List (String × String)) :
    (merge name text attributes).map (·.1) =
      if name ∈ attributes.map (·.1) then attributes.map (·.1)
      else attributes.map (·.1) ++ [name] := by
  induction attributes with
  | nil => rfl
  | cons entry rest ih =>
    obtain ⟨known, merged⟩ := entry
    by_cases hname : known = name
    · simp [merge, hname]
    · have hne : name ≠ known := fun heq => hname heq.symm
      rw [merge, if_neg hname, List.map_cons, ih, List.map_cons]
      split <;> simp_all

/-- No two attributes have the same name. -/
def Distinct (set : AttributeSet ν) : Prop :=
  (set.attributes.map (·.1)).Nodup

omit [Host ν] in
theorem Distinct.merge (h : set.Distinct) (name text : String) :
    Distinct ({ set with attributes := merge name text set.attributes } : AttributeSet ν) := by
  show ((AttributeSet.merge name text set.attributes).map (·.1)).Nodup
  rw [names_merge]
  split
  · exact h
  · rename_i hname
    exact h.append (List.nodup_singleton name) (List.disjoint_singleton.mpr hname)

theorem Distinct.add (h : set.Distinct) {name value : Value ν}
    (hadd : set.add context name value = .ok after) : after.Distinct := by
  unfold AttributeSet.add at hadd
  split at hadd
  · rename_i name
    split at hadd
    · obtain rfl := Except.ok.inj hadd
      exact h
    · rcases hvalue : valueText name value with error | (_ | text)
      all_goals rw [hvalue] at hadd
      · contradiction
      · obtain rfl := Except.ok.inj hadd
        exact h
      · obtain rfl := Except.ok.inj hadd
        exact h.merge name text
  · contradiction

theorem Distinct.addEntries {entries : List (String × Value ν)} (h : set.Distinct)
    (hadd : set.addEntries context entries = .ok after) : after.Distinct := by
  induction entries generalizing set with
  | nil =>
    obtain rfl := Except.ok.inj hadd
    exact h
  | cons entry rest ih =>
    obtain ⟨between, hfirst, hrest⟩ := of_bind_ok hadd
    exact ih (h.add hfirst) hrest

theorem Distinct.addWritten {entry : Attribute (Value ν)} (h : set.Distinct)
    (hadd : set.addWritten context entry = .ok after) : after.Distinct := by
  unfold AttributeSet.addWritten at hadd
  split at hadd
  · exact h.add hadd
  · split at hadd
    · exact h.addEntries hadd
    · contradiction

theorem Distinct.addAll {written : List (Attribute (Value ν))} (h : set.Distinct)
    (hadd : set.addAll context written = .ok after) : after.Distinct := by
  induction written generalizing set with
  | nil =>
    obtain rfl := Except.ok.inj hadd
    exact h
  | cons entry rest ih =>
    obtain ⟨between, hfirst, hrest⟩ := of_bind_ok hadd
    exact ih (h.addWritten hfirst) hrest

/-- What is built from a written list names each attribute once. -/
theorem distinct_of_build {written : List (Attribute (Value ν))}
    (h : build context written = .ok after) : after.Distinct := by
  have hempty : Distinct ({} : AttributeSet ν) := List.nodup_nil
  exact hempty.addAll h

end AttributeSet

namespace Script

/-! ## What a script takes down -/

theorem act_record (call : Call) (script : Script) :
    act (CallLog.record call) script = ((), ⟨script.nextId, script.steps ++ [.call call]⟩) := rfl

theorem foldl_record {β : Type} (call : β → Call) (items : List β) (script : Script) :
    items.foldl (fun script item => (act (CallLog.record (call item)) script).2) script =
      ⟨script.nextId, script.steps ++ (items.map call).map .call⟩ := by
  induction items generalizing script with
  | nil => simp
  | cons item rest ih =>
    rw [List.foldl_cons, ih, act_record]
    simp

/-- An event as it is taken down. -/
def shownEvent (binding : EventBinding Nat) : String × String × Option String :=
  (binding.event, binding.callback.display, binding.options.map Value.display)

theorem request_eq (set : AttributeSet Nat) (element : Nat) (script : Script) :
    set.request element script = ⟨script.nextId, script.steps ++
      (Call.decoration set.attributes (set.events.map shownEvent) element).map .call⟩ := by
  have hattributes := foldl_record (fun entry : String × String =>
    .setAttribute element entry.1 entry.2) set.attributes script
  have hevents := foldl_record (fun binding : EventBinding Nat =>
    .addEventListener element binding.event binding.callback.display
      (binding.options.map Value.display)) set.events
  refine Eq.trans (hevents _) ?_
  refine Eq.trans (congrArg (fun script : Script => (⟨script.nextId, script.steps ++ _⟩ : Script))
    hattributes) ?_
  simp [Call.decoration, shownEvent, Function.comp_def]

/-! ## Evaluations -/

open Value (Plain)

/-- The state of an evaluation that has gone on from a script, with these elements in hand. The new
nodes are among those made on the way. -/
structure Ready (start : Script) (hand : List (Nat × Stage)) (new : List Nat)
    (state : EvaluationState Script Nat) : Prop where
  underway : Underway start hand state.builder
  new : ∀ node ∈ new, start.nextId ≤ node ∧ node < state.builder.nextId
  plain : state.context.PlainVariables fun _ => False

/-- An evaluation that has failed leaves an orderly script. -/
def Stopped (state : EvaluationState Script Nat) : Prop :=
  state.builder.Orderly

variable {start : Script} {hand : List (Nat × Stage)} {new : List Nat}
  {state : EvaluationState Script Nat} {element : Nat} {stage : Stage}

theorem Ready.stopped (h : Ready start hand new state) : Stopped state :=
  h.underway.orderly

/-- A node that is made now is new. -/
theorem Ready.new_node (h : Ready start hand new state) :
    ∀ node ∈ new ++ [state.builder.nextId],
      start.nextId ≤ node ∧ node < state.builder.nextId + 1 := by
  intro node hnode
  rcases List.mem_append.mp hnode with hnode | hnode
  · exact ⟨(h.new node hnode).1, Nat.lt_succ_of_lt (h.new node hnode).2⟩
  · obtain rfl := List.mem_singleton.mp hnode
    exact ⟨h.underway.nextId_le, Nat.lt_succ_self _⟩

/-- Whatever comes now begins here. -/
theorem Ready.here (h : Ready start hand new state) : Ready state.builder hand [] state :=
  ⟨h.underway.here, by simp, h.plain⟩

/-- What has begun on the way belongs to the whole. -/
theorem Ready.trans {after : EvaluationState Script Nat} {hand' : List (Nat × Stage)}
    {found : List Nat} (h : Ready start hand new state)
    (h' : Ready state.builder hand' found after) : Ready start hand' (new ++ found) after := by
  refine ⟨h.underway.trans h'.underway, fun node hnode => ?_, h'.plain⟩
  rcases List.mem_append.mp hnode with hnode | hnode
  · exact ⟨(h.new node hnode).1, Nat.lt_of_lt_of_le (h.new node hnode).2 h'.underway.nextId_le⟩
  · exact ⟨Nat.le_trans h.underway.nextId_le (h'.new node hnode).1, (h'.new node hnode).2⟩

/-- The steps bring an element in hand to another stage. -/
theorem Ready.advance (h : Ready start ((element, stage) :: hand) new state)
    {more : List ScriptStep} {next : Stage} (hleads : stage.Leads element more next)
    (hplaced : ∀ child, .call (.appendChild element child) ∈ more →
      Placed (state.builder.steps ++ more) element child) :
    Ready start ((element, next) :: hand) new
      { state with builder := ⟨state.builder.nextId, state.builder.steps ++ more⟩ } :=
  ⟨h.underway.advance hleads hplaced, h.new, h.plain⟩

/-- A computation adds its output nodes to the new ones, and leaves the elements in hand alone. -/
def Yields (computation : Evaluate Script Nat (List Nat)) : Prop :=
  ∀ start hand new, Runs (Ready start hand new) computation Stopped
    fun nodes => Ready start hand (new ++ nodes)

theorem yields_nil : Yields (pure []) :=
  fun start hand new => runs_pure fun state h => by rwa [List.append_nil]

theorem Yields.append {first second : Evaluate Script Nat (List Nat)} (hfirst : Yields first)
    (hsecond : Yields second) :
    Yields (do
      let nodes ← first
      let others ← second
      return nodes ++ others) := by
  intro start hand new
  refine (hfirst start hand new).bind fun nodes => (hsecond start hand _).bind fun others => ?_
  refine runs_pure fun state h => ?_
  rwa [← List.append_assoc]

theorem yields_collect {β : Type} {step : β → Evaluate Script Nat (List Nat)} {items : List β}
    (hstep : ∀ item ∈ items, Yields (step item)) : Yields (collect step items) :=
  fun start hand new =>
    runs_collect (Ready start hand)
      (fun item hitem known => hstep item hitem start hand known) new

theorem yields_createText (content : String) :
    Yields (do return [← build (TreeBuilder.createText content)]) := by
  intro start hand new
  refine Runs.bind (Q := fun id => Ready start hand (new ++ [id])) (runs_build fun state h => ?_)
    fun id => runs_pure fun state h => h
  have hcreate := h.underway.create (.createText state.builder.nextId content) rfl rfl
    (.inl ⟨content, rfl⟩)
  exact ⟨hcreate, h.new_node, h.plain⟩

theorem yields_textNode {leaf : Value Nat} (hleaf : Plain (fun _ => False) leaf) :
    Yields (do return [← textNode leaf]) := by
  unfold textNode
  split
  · exact yields_createText _
  · exact yields_createText _
  · exact yields_createText _
  · rename_i node
    exact (hleaf.nodes node (by simp [Value.nodes])).elim
  · exact fun start hand new => Runs.bind (Q := fun _ _ => False)
      (runs_throw fun state h => h.stopped) fun _ _ h => h.elim

section

variable [Host Nat]

/-- The leaves of a plain value become nodes one by one. -/
theorem runs_leafNodes {nodeOf : Value Nat → Evaluate Script Nat Nat}
    (gathered : List Nat → EvaluationState Script Nat → Prop)
    (hplain : ∀ known state, gathered known state → state.context.PlainVariables fun _ => False)
    (hnode : ∀ leaf, Plain (fun _ => False) leaf → ∀ known,
      Runs (gathered known) (do return [← nodeOf leaf]) Stopped fun found => gathered (known ++ found))
    {fits : Value Nat → Bool} {value : Value Nat} (hvalue : Plain (fun _ => False) value)
    (known : List Nat) :
    Runs (gathered known) (leafNodes nodeOf fits value) Stopped
      fun found => gathered (known ++ found) := by
  refine Runs.bind (Q := fun leaves state => gathered known state ∧
    ∀ leaf ∈ leaves, Plain (fun _ => False) leaf) (runs_ask fun state h => ⟨h, fun leaf hleaf => ?_⟩)
    fun leaves => ?_
  · exact (hplain known state h).leaves hvalue hleaf
  · rintro state ⟨h, hleaves⟩
    exact runs_collect gathered (fun leaf hleaf => hnode leaf (hleaves leaf hleaf)) known state h

/-! ### Elements -/

/-- These elements have just been made. -/
def allBare (elements : List Nat) : List (Nat × Stage) :=
  elements.map fun element => (element, .bare)

/-- Elements are made, and then all of them are in hand. -/
def Makes (computation : Evaluate Script Nat (List Nat)) : Prop :=
  ∀ start hand new known, Runs (Ready start (hand ++ allBare known) (new ++ known)) computation Stopped
    fun elements => Ready start (hand ++ allBare (known ++ elements)) (new ++ (known ++ elements))

omit [Host Nat] in
theorem makes_createElement (tag : String) :
    Makes (do return [← build (TreeBuilder.createElement tag)]) := by
  intro start hand new known
  refine Runs.bind (Q := fun id => Ready start (hand ++ allBare (known ++ [id]))
    (new ++ (known ++ [id]))) (runs_build fun state h => ?_) fun id => runs_pure fun state h => h
  rw [allBare, List.map_append, ← List.append_assoc, ← List.append_assoc]
  exact ⟨h.underway.createElement tag, h.new_node, h.plain⟩

omit [Host Nat] in
theorem makes_baseNode {leaf : Value Nat} (hleaf : Plain (fun _ => False) leaf) :
    Makes (do return [← baseNode leaf]) := by
  unfold baseNode
  split
  · exact makes_createElement _
  · rename_i node
    exact (hleaf.nodes node (by simp [Value.nodes])).elim
  · exact fun start hand new known => Runs.bind (Q := fun _ _ => False)
      (runs_throw fun state h => h.stopped) fun _ _ h => h.elim

theorem makes_baseNodes {base : Word (Value Nat)}
    (hslots : ∀ value ∈ base.slots, Plain (fun _ => False) value) : Makes (baseNodes base) := by
  cases base with
  | text tag => exact makes_createElement tag
  | slot value =>
    rw [baseNodes_slot]
    intro start hand new
    exact runs_leafNodes (fun known => Ready start (hand ++ allBare known) (new ++ known))
      (fun known state h => h.plain) (fun leaf hleaf => makes_baseNode hleaf start hand new)
      (hslots value List.mem_cons_self)

theorem runs_applyAttributes (written : List (Attribute (Value Nat))) :
    Runs (Ready start ((element, .bare) :: hand) new) (applyAttributes element written) Stopped
      fun _ => Ready start ((element, .decorated) :: hand) new := by
  intro state h
  rw [applyAttributes_apply]
  cases hbuild : AttributeSet.build state.context written with
  | error error => exact h.stopped
  | ok set =>
    show Ready start _ new { state with builder := set.request element state.builder }
    rw [request_eq]
    refine h.advance (Stage.leads_decorated (AttributeSet.distinct_of_build hbuild) _) ?_
    intro child happend
    simp [Call.decoration] at happend

theorem runs_markedRefName (refName : Option (Word (Value Nat))) (parent : Bool) :
    Runs (Ready start ((element, .decorated) :: hand) new) (markedRefName element refName parent)
      Stopped fun _ => Ready start ((element, .named) :: hand) new := by
  cases refName with
  | none =>
    refine runs_pure fun state h => ?_
    simpa using h.advance Stage.leads_unnamed (by simp)
  | some word =>
    refine Runs.bind (runs_ask (Q := fun _ => Ready start ((element, .decorated) :: hand) new)
      fun state h => h) fun resolved => ?_
    split
    · rename_i name
      intro state h
      have hnamed := h.advance (Stage.leads_named name parent) (by simp)
      exact ⟨hnamed.underway, hnamed.new, hnamed.plain⟩
    · exact runs_throw fun state h => h.stopped

omit [Host Nat] in
/-- New nodes are appended to an element that was cleared before they were made. -/
theorem runs_appendChildren {children : List Nat}
    (hcleared : .call (.removeAllChildren element) ∈ start.steps) :
    Runs (Ready start ((element, .cleared) :: hand) children)
      (each (fun child => build (TreeBuilder.appendChild element child)) children) Stopped
      fun _ => Ready start ((element, .cleared) :: hand) children := by
  refine runs_each fun child hchild => runs_build fun state h => ?_
  refine h.advance (Stage.leads_appended child) fun appended happend => ?_
  obtain ⟨-, rfl⟩ := Call.appendChild.inj (ScriptStep.call.inj (List.mem_singleton.mp happend))
  exact h.underway.placed hcleared (h.new _ hchild).1 (h.new _ hchild).2

omit [Host Nat] in
/-- Each of the elements in hand is taken through its course. -/
theorem runs_each_element {fill : Nat → Evaluate Script Nat Unit}
    (hfill : ∀ element hand, Runs (Ready start ((element, .bare) :: hand) new) (fill element) Stopped
      fun _ => Ready start hand new) (elements : List Nat) (hand : List (Nat × Stage)) :
    Runs (Ready start (allBare elements ++ hand) new) (each fill elements) Stopped
      fun _ => Ready start hand new := by
  induction elements with
  | nil => exact runs_pure fun state h => h
  | cons element rest ih => exact (hfill element _).bind fun _ => ih

/-- The children of an element come when it has been cleared. -/
def Fills (element : Nat) (computation : Evaluate Script Nat Unit) : Prop :=
  ∀ start hand, .call (.removeAllChildren element) ∈ start.steps →
    Runs (Ready start ((element, .cleared) :: hand) []) computation Stopped
      fun _ => Ready start ((element, .cleared) :: hand) []

omit [Host Nat] in
/-- When it has its children, an element is done. -/
theorem Fills.runs {computation : Evaluate Script Nat Unit} (hfill : Fills element computation) :
    Runs (fun state => Ready start ((element, .cleared) :: hand) new state ∧
        .call (.removeAllChildren element) ∈ state.builder.steps)
      computation Stopped fun _ => Ready start hand new := by
  rintro state ⟨h, hcleared⟩
  -- for the children the script begins here, so all that is made from here on comes after the clearing
  have hfilled := hfill state.builder hand hcleared state h.here
  generalize computation state = run at hfilled ⊢
  obtain ⟨error | _, after⟩ := run
  · exact hfilled
  · have hwhole := h.trans hfilled
    rw [List.append_nil] at hwhole
    exact ⟨hwhole.underway.drop, hwhole.new, hwhole.plain⟩

/-- An element that has just been made is taken through its course. -/
theorem runs_fill {header : Header (Value Nat)} {children : List (Node (Value Nat))}
    (hfill : Fills element (Node.appendMarked element children)) :
    Runs (Ready start ((element, .bare) :: hand) new)
      (do
        applyAttributes element header.attributes
        markedRefName element header.refName (!children.isEmpty)
        if !children.isEmpty then
          build (TreeBuilder.removeAllChildren element)
          Node.appendMarked element children)
      Stopped fun _ => Ready start hand new := by
  refine (runs_applyAttributes _).bind fun _ => (runs_markedRefName _ _).bind fun _ => ?_
  split
  · refine Runs.bind (runs_build fun state h => ⟨?_, ?_⟩) fun _ => hfill.runs
    · exact h.advance Stage.leads_cleared (by simp)
    · exact List.mem_append_right _ List.mem_cons_self
  · exact runs_pure fun state h => ⟨h.underway.drop, h.new, h.plain⟩

/-- All elements of a header are made before the first of them goes on. -/
theorem yields_element {header : Header (Value Nat)} {children : List (Node (Value Nat))}
    (hbase : ∀ value ∈ header.base.slots, Plain (fun _ => False) value)
    (hfill : ∀ element, Fills element (Node.appendMarked element children)) :
    Yields (Node.marked (.element header children)) := by
  rw [Node.marked]
  intro start hand new
  have hmake := makes_baseNodes hbase start hand new []
  simp only [allBare, List.map_nil, List.append_nil, List.nil_append] at hmake
  refine hmake.bind fun elements => ?_
  refine Runs.bind (Q := fun _ => Ready start hand (new ++ elements)) ?_
    fun _ => runs_pure fun state h => h
  intro state h
  exact runs_each_element (fun element hand => runs_fill (hfill element)) elements hand state
    ⟨h.underway.perm List.perm_append_comm, h.new, h.plain⟩

/-! ### Nodes -/

omit [Host Nat] in
theorem Yields.withVariable {body : Evaluate Script Nat (List Nat)} (hbody : Yields body)
    {value : Value Nat} (hvalue : Plain (fun _ => False) value) (name : String) :
    Yields (withVariable name value body) := by
  intro start hand new state h
  rw [withVariable_apply]
  have hend := hbody start hand new { state with context := state.context.setVariable name value }
    ⟨h.underway, h.new, h.plain.setVariable hvalue name⟩
  generalize body { state with context := state.context.setVariable name value } = run at hend ⊢
  obtain ⟨error | nodes, after⟩ := run
  · exact hend
  · exact ⟨hend.underway, hend.new, hend.plain.restoreVariable fun _ => h.plain.get?⟩

theorem yields_forBlock {variableName : String} {iterable : Value Nat}
    {body : List (Node (Value Nat))} (hiterable : Plain (fun _ => False) iterable)
    (hbody : Yields (Node.markedAll body)) :
    Yields (Node.marked (.forBlock variableName iterable body)) := by
  rw [Node.marked]
  intro start hand new
  refine Runs.bind (Q := fun items state => Ready start hand new state ∧
    ∀ found, items = .ok found → ∀ item ∈ found, Plain (fun _ => False) item)
    (runs_ask fun state h => ⟨h, fun found hfound => ?_⟩) fun items => ?_
  · exact h.plain.iterationItems hiterable hfound
  rintro state ⟨h, hitems⟩
  cases items with
  | error error => exact h.stopped
  | ok items =>
    refine yields_collect (fun entry hentry start hand new => ?_) start hand new state h
    have hitem := hitems items rfl entry.1 (List.fst_mem_of_mem_zipIdx hentry)
    have hnote : Runs (Ready start hand new) (note (.iteration variableName entry.2)) Stopped
        fun _ => Ready start hand new := fun state h => ⟨h.underway, h.new, h.plain⟩
    exact hnote.bind fun _ => hbody.withVariable hitem variableName start hand new

mutual

theorem yields_marked (node : Node (Value Nat))
    (hslots : ∀ value ∈ node.slots, Plain (fun _ => False) value) : Yields (Node.marked node) := by
  cases node with
  | element header children =>
    have hchildren : ∀ value ∈ Node.slotsOfAll children, Plain (fun _ => False) value :=
      fun value h => hslots value (by simp [Node.slots, h])
    exact yields_element (fun value h => hslots value (by simp [Node.slots, Header.slots, h]))
      fun element => fills_appendMarked element children hchildren
  | text content =>
    rw [Node.marked]
    exact yields_createText content
  | newLine =>
    rw [Node.marked]
    exact yields_createText "\n"
  | slot value =>
    rw [Node.marked, evaluateNode_slot]
    exact fun start hand => runs_leafNodes (Ready start hand) (fun known state h => h.plain)
      (fun leaf hleaf => yields_textNode hleaf start hand) (hslots value List.mem_cons_self)
  | ifBlock condition thenBranch elseBranch =>
    rw [Node.marked]
    intro start hand new
    refine Runs.bind (runs_ask (Q := fun _ => Ready start hand new) fun state h => h)
      fun resolved => ?_
    split
    · exact yields_markedAll thenBranch
        (fun value h => hslots value (by simp [Node.slots, h])) start hand new
    · exact yields_markedAll elseBranch
        (fun value h => hslots value (by simp [Node.slots, h])) start hand new
  | forBlock variableName iterable body =>
    exact yields_forBlock (hslots iterable List.mem_cons_self)
      (yields_markedAll body fun value h => hslots value (by simp [Node.slots, h]))

theorem yields_markedAll (nodes : List (Node (Value Nat)))
    (hslots : ∀ value ∈ Node.slotsOfAll nodes, Plain (fun _ => False) value) :
    Yields (Node.markedAll nodes) := by
  cases nodes with
  | nil =>
    rw [Node.markedAll]
    exact yields_nil
  | cons node rest =>
    rw [Node.markedAll]
    exact (yields_marked node fun value h => hslots value (by simp [Node.slotsOfAll, h])).append
      (yields_markedAll rest fun value h => hslots value (by simp [Node.slotsOfAll, h]))

theorem fills_appendMarked (element : Nat) (nodes : List (Node (Value Nat)))
    (hslots : ∀ value ∈ Node.slotsOfAll nodes, Plain (fun _ => False) value) :
    Fills element (Node.appendMarked element nodes) := by
  intro start hand hcleared
  cases nodes with
  | nil =>
    rw [Node.appendMarked]
    exact runs_pure fun state h => h
  | cons node rest =>
    rw [Node.appendMarked]
    have hnode := yields_marked node fun value h => hslots value (by simp [Node.slotsOfAll, h])
    have hrest := fills_appendMarked element rest
      fun value h => hslots value (by simp [Node.slotsOfAll, h])
    refine (hnode start _ []).bind fun children => ?_
    refine Runs.bind (runs_appendChildren hcleared) fun _ state h => ?_
    exact hrest start hand hcleared state ⟨h.underway, by simp, h.plain⟩

end

end

end Script

/-! ## From the script to the calls -/

namespace ScriptStep

variable (attr : Option String) (steps : List ScriptStep)

theorem of_mem_calls {attr : Option String} {step : ScriptStep} {call : Call}
    (h : call ∈ step.calls attr) :
    call.target = step.target ∧ (step = .call call ∨ ∃ id name value, call = .setAttribute id name value) := by
  cases step with
  | call request =>
    obtain rfl := List.mem_singleton.mp h
    exact ⟨rfl, .inl rfl⟩
  | bound name element parent =>
    obtain ⟨attr, -, rfl⟩ := Option.map_eq_some_iff.mp (Option.mem_toList.mp h)
    exact ⟨rfl, .inr ⟨element, attr, name, rfl⟩⟩

/-- The calls about a node are those of the steps about it. -/
theorem filter_flatMap_calls (id : Nat) :
    (steps.flatMap (calls attr)).filter (·.target == id) = (about id steps).flatMap (calls attr) := by
  induction steps with
  | nil => rfl
  | cons step rest ih =>
    rw [List.flatMap_cons, List.filter_append, ih]
    by_cases htarget : step.target = id
    · have hall : (calls attr step).filter (·.target == id) = calls attr step :=
        List.filter_eq_self.mpr fun call hcall =>
          beq_iff_eq.mpr ((of_mem_calls hcall).1.trans htarget)
      simp [hall, about, htarget]
    · have hnone : (calls attr step).filter (·.target == id) = [] :=
        List.filter_eq_nil_iff.mpr fun call hcall heq =>
          htarget ((of_mem_calls hcall).1.symm.trans (beq_iff_eq.mp heq))
      simp [hnone, about, htarget]

theorem made_flatMap_calls : Call.made (steps.flatMap (calls attr)) = made steps := by
  have hstep : ∀ step : ScriptStep, (calls attr step).filterMap Call.made? = step.made?.toList := by
    intro step
    cases step with
    | call request => cases hmade : request.made? <;> simp [calls, made?, hmade]
    | bound name element parent => cases attr <;> rfl
  rw [Call.made, List.filterMap_flatMap, made, List.filterMap_eq_flatMap_toList]
  exact congrArg (steps.flatMap ·) (funext hstep)

theorem mem_bindings {name : String} {element : Nat} :
    (name, element) ∈ bindings steps ↔ ∃ flag, .bound name element flag ∈ steps := by
  simp only [bindings, List.mem_filterMap]
  constructor
  · rintro ⟨step, hstep, hbinding⟩
    cases step with
    | call request => contradiction
    | bound known id flag =>
      obtain ⟨rfl, rfl⟩ := Prod.mk.inj (Option.some.inj hbinding)
      exact ⟨flag, hstep⟩
  · rintro ⟨flag, hstep⟩
    exact ⟨_, hstep, rfl⟩

end ScriptStep

namespace Script

open ScriptStep (about)

variable {script : Script} {attr : Option String}

/-- Unless a call makes a text, it is about an element on its course. -/
theorem Orderly.course_of_call (h : script.Orderly) {call : Call}
    (hcall : call ∈ script.steps.flatMap (ScriptStep.calls attr)) (htext : call.isText = false) :
    ∃ (course : Course) (parent : Bool),
      about call.target script.steps = course.steps parent call.target := by
  obtain ⟨step, hstep, hcall⟩ := List.mem_flatMap.mp hcall
  have htarget := (ScriptStep.of_mem_calls hcall).1
  rcases h.courses call.target (htarget ▸ h.known step hstep) with ⟨content, hcontent⟩ | hcourse
  · have habout : step ∈ about call.target script.steps :=
      ScriptStep.mem_about.mpr ⟨hstep, htarget.symm⟩
    rw [hcontent] at habout
    obtain rfl := List.mem_singleton.mp habout
    rw [List.mem_singleton.mp hcall] at htext
    contradiction
  · exact hcourse

/-- What is appended has its place also among the calls. -/
theorem Orderly.placed_of_call (h : script.Orderly) {parent child : Nat}
    (happend : .appendChild parent child ∈ script.steps.flatMap (ScriptStep.calls attr)) :
    ∃ create : Call, create.made? = some child ∧
      [.removeAllChildren parent, create, .appendChild parent child].Sublist
        (script.steps.flatMap (ScriptStep.calls attr)) := by
  obtain ⟨step, hstep, hcall⟩ := List.mem_flatMap.mp happend
  rcases (ScriptStep.of_mem_calls hcall).2 with rfl | ⟨id, name, value, heq⟩
  · obtain ⟨create, hcreate, hsub⟩ := h.placed parent child hstep
    exact ⟨create, hcreate, hsub.flatMap (ScriptStep.calls attr)⟩
  · contradiction

/-- An element is bound where its course says so. -/
theorem bound_iff {course : Course} {parent : Bool} {id : Nat} {name : String}
    (h : about id script.steps = course.steps parent id) :
    (name, id) ∈ ScriptStep.bindings script.steps ↔ course.name = some name := by
  rw [ScriptStep.mem_bindings, ← Course.bound_mem_steps parent, ← h]
  exact exists_congr fun flag => ⟨fun h => ScriptStep.mem_about.mpr ⟨h, rfl⟩,
    fun h => (ScriptStep.mem_about.mp h).1⟩

end Script

/-- A group has the nodes of its name. -/
theorem Bindings.mem_grouped {ν : Type} {pairs : List (String × ν)} {name : String} {node : ν} :
    (∃ nodes, (name, nodes) ∈ (grouped pairs).entries ∧ node ∈ nodes) ↔ (name, node) ∈ pairs := by
  simp only [grouped, List.mem_map, List.mem_eraseDups, Prod.mk.injEq]
  constructor
  · rintro ⟨nodes, ⟨known, -, rfl, rfl⟩, hnode⟩
    obtain ⟨entry, hentry, rfl⟩ := List.mem_map.mp hnode
    obtain ⟨hmem, hname⟩ := List.mem_filter.mp hentry
    rwa [← beq_iff_eq.mp hname]
  · intro hmem
    refine ⟨_, ⟨name, ⟨_, hmem, rfl⟩, rfl, rfl⟩, List.mem_map.mpr ⟨(name, node), ?_, rfl⟩⟩
    exact List.mem_filter.mpr ⟨hmem, beq_self_eq_true name⟩

/-! ## Documents -/

/-- Where the slots of a document hold no nodes, and no references but to loop variables, its script
is orderly, however the evaluation ends. -/
theorem Document.orderly_script [Host Nat] {document : Document (Value Nat)}
    (hslots : ∀ value ∈ document.slots, value.nodes = [] ∧
      ∀ reference ∈ value.references, Value.isLoopReference reference = true) :
    document.markedRun.2.builder.Orderly := by
  have hplain : ∀ value ∈ Node.slotsOfAll document.children, Value.Plain (fun _ => False) value := by
    intro value hvalue
    obtain ⟨hnodes, hreferences⟩ := hslots value hvalue
    exact ⟨by simp [hnodes], hreferences⟩
  have hready : Script.Ready {} [] [] (⟨{}, {}, []⟩ : EvaluationState Script Nat) :=
    ⟨⟨Script.orderly_empty, Script.orderly_empty, List.prefix_rfl, List.nodup_nil, by simp⟩, by simp,
      Context.allVariables_fresh _ {}⟩
  have hend := Script.yields_markedAll document.children hplain {} [] [] _ hready
  show Script.Orderly (Node.markedAll document.children _).2.builder
  generalize Node.markedAll document.children ⟨{}, {}, []⟩ = run at hend ⊢
  obtain ⟨error | nodes, after⟩ := run
  · exact hend
  · exact hend.stopped

/-- **The calls about an element take a fixed course.** The slots of the document hold no nodes, and
no references but to loop variables; the evaluation may succeed or fail. An element is made, and no
node is made twice. It then gets attributes with different names, then its listeners, then the
attribute that shows its name, if the options ask for it and the element is bound, and if it is
cleared then, children are appended to it. A child is made after its parent has been cleared. -/
theorem calls_take_courses [Host Nat] (document : Document (Value Nat)) (options : Options)
    (hslots : ∀ value ∈ document.slots, value.nodes = [] ∧
      ∀ reference ∈ value.references, Value.isLoopReference reference = true) :
    let calls := (document.evaluate options ({} : CallLog)).2.calls.toList
    let bindings := (document.run options ({} : CallLog)).2.context.bindings
    (Call.made calls).Nodup ∧
      (∀ call ∈ calls, call.isText = false → ∃ course : Course,
        calls.filter (·.target == call.target) = course.calls options.attrForRefName call.target ∧
          ∀ name, course.name = some name ↔
            ∃ nodes, (name, nodes) ∈ bindings.entries ∧ call.target ∈ nodes) ∧
      ∀ parent child, .appendChild parent child ∈ calls → ∃ create : Call, create.made? = some child ∧
        [.removeAllChildren parent, create, .appendChild parent child].Sublist calls := by
  intro calls bindings
  have horderly := document.orderly_script hslots
  have hstep := (document.inStep_run options).2
  have hcalls : calls = document.script.flatMap (ScriptStep.calls options.attrForRefName) :=
    hstep.calls
  have hbindings : bindings = .grouped (ScriptStep.bindings document.script) := by
    show (document.run options ({} : CallLog)).2.context.bindings = _
    rw [hstep.context]
    exact hstep.bindings
  refine ⟨?_, fun call hcall htext => ?_, fun parent child happend => ?_⟩
  · rw [hcalls, ScriptStep.made_flatMap_calls]
    exact horderly.numbered ▸ List.nodup_range
  · obtain ⟨course, parent, hcourse⟩ := horderly.course_of_call (hcalls ▸ hcall) htext
    refine ⟨course, ?_, fun name => ?_⟩
    · rw [hcalls, ScriptStep.filter_flatMap_calls, ← Course.flatMap_steps parent]
      exact congrArg (List.flatMap _) hcourse
    · rw [hbindings, Bindings.mem_grouped]
      exact (Script.bound_iff hcourse).symm
  · rw [hcalls] at happend ⊢
    exact horderly.placed_of_call happend

/-- Two lists from a list of tag names; behind the item of the first stands no text. -/
def brokenList : Document (Value Nat) :=
  ⟨[.element ⟨.slot (.list [.string "ul", .string "ol"]),
      [.pair (.text "class") (.text "a"), .pair (.text "!click") (.slot (.string "go"))],
      some (.text "list")⟩
    [.element ⟨.text "li", [], none⟩ [.text "b"], .slot (.bool true)]]⟩

attribute [local instance] Host.ofWords in
/-- The evaluation fails when the second list has only been made. The first is on its course, up to
where it is filled. -/
theorem calls_take_courses_brokenList :
    ∃ (calls : List Call) (course : Course),
      (brokenList.evaluate ⟨some "data-ref"⟩ ({} : CallLog)).2.calls.toList = calls ∧
      (brokenList.run ⟨some "data-ref"⟩ ({} : CallLog)).1.toOption = none ∧
      calls.filter (·.target == 1) = [.createElement 1 "ol"] ∧
      calls.filter (·.target == 0) = course.calls (some "data-ref") 0 ∧
      course.calls (some "data-ref") 0 =
        [.createElement 0 "ul", .setAttribute 0 "class" "a",
          .addEventListener 0 "click" "\"go\"" none, .setAttribute 0 "data-ref" "list",
          .removeAllChildren 0, .appendChild 0 2] ∧
      course.name = some "list" := by
  have hslots : ∀ value ∈ brokenList.slots, value.nodes = [] ∧
      ∀ reference ∈ value.references, Value.isLoopReference reference = true := by decide
  have hrun : brokenList.run ⟨some "data-ref"⟩ ({} : CallLog) =
      (.error (.invalidTextValue "true"), ⟨⟨4, #[.createElement 0 "ul", .createElement 1 "ol",
        .setAttribute 0 "class" "a", .addEventListener 0 "click" "\"go\"" none,
        .setAttribute 0 "data-ref" "list", .removeAllChildren 0, .createElement 2 "li",
        .removeAllChildren 2, .createText 3 "b", .appendChild 2 3, .appendChild 0 2]⟩,
        ⟨⟨some "data-ref"⟩, ⟨[("list", [0])]⟩, {}⟩, [.bound "list"]⟩) := by
    simp only [brokenList, Document.run, ExceptT.run, evaluateAll, evaluateNode, baseNodes,
      applyAttributes, applyRefName, appendAll, Evaluate.each, Evaluate.bind_apply,
      Evaluate.pure_apply, Evaluate.ask_apply, Evaluate.build_apply,
      Evaluate.request_apply, Requests.bind_apply, Requests.pure_apply,
      Requests.ask_apply, elementNodes, elementNodes._go, textNodes, textNodes._go, List.mapM_cons, List.mapM_nil,
      List.flatten_cons, List.flatten_nil, List.cons_append, List.nil_append, AttributeSet.build,
      AttributeSet.addAll, AttributeSet.addWritten, Attribute.nameValue?, Attribute.assigned,
      Word.value, List.isEmpty, Bool.not_false, if_true, Context.resolve_list,
      Context.resolve_string, Context.resolve_bool]
    rfl
  have hcalls : (brokenList.evaluate ⟨some "data-ref"⟩ ({} : CallLog)).2.calls.toList =
      [.createElement 0 "ul", .createElement 1 "ol", .setAttribute 0 "class" "a",
        .addEventListener 0 "click" "\"go\"" none, .setAttribute 0 "data-ref" "list",
        .removeAllChildren 0, .createElement 2 "li", .removeAllChildren 2, .createText 3 "b",
        .appendChild 2 3, .appendChild 0 2] := by
    rw [Document.evaluate, hrun]
  have hbindings : (brokenList.run ⟨some "data-ref"⟩ ({} : CallLog)).2.context.bindings =
      ⟨[("list", [0])]⟩ := by rw [hrun]
  have hfailed : (brokenList.run ⟨some "data-ref"⟩ ({} : CallLog)).1.toOption = none := by
    rw [hrun]
    rfl
  have hcourses := (calls_take_courses brokenList ⟨some "data-ref"⟩ hslots).2.1
  rw [hcalls, hbindings] at hcourses
  obtain ⟨course, hcourse, hname⟩ := hcourses (.createElement 0 "ul") (by decide) rfl
  refine ⟨_, course, hcalls, hfailed, rfl, hcourse, ?_, (hname "list").mpr ⟨[0], by decide⟩⟩
  rw [show course.calls (some "data-ref") 0 = _ from hcourse.symm]
  rfl

end IndentMarkup

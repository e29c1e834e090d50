import IndentMarkup.Proofs.Evaluating
import IndentMarkup.Proofs.PlainValues
import IndentMarkup.Proofs.SlotsTaken

/-! Nodes of an evaluation's own. Where the slots of a document hold no nodes, all that an
evaluation gives and all that it binds are nodes which its builder has made. The invariant carries
the nodes that are in hand along with those that are bound. -/
namespace IndentMarkup

variable {σ ν : Type}

/-- A builder has the nodes that it makes, and never loses one. -/
structure TreeBuilder.Makes [TreeBuilder σ ν] (has : ν → σ → Prop) : Prop where
  createElement (tag : String) (builder : σ) :
    has ((createElement tag : StateM σ ν) builder).1 ((createElement tag : StateM σ ν) builder).2
  createText (content : String) (builder : σ) :
    has ((createText content : StateM σ ν) builder).1
      ((createText content : StateM σ ν) builder).2
  keeps (node : ν) : TreeBuilder.Keeps (has node)

open Evaluate
open Value (Plain)

/-- The builder has the nodes in hand and all that are bound, and no variable brings others. -/
structure Supplied (has : ν → σ → Prop) (inHand : List ν) (state : EvaluationState σ ν) : Prop where
  plain : state.context.PlainVariables fun _ => False
  bound : ∀ entry ∈ state.context.bindings.entries, ∀ node ∈ entry.2, has node state.builder
  inHand : ∀ node ∈ inHand, has node state.builder

section

variable {has : ν → σ → Prop} {inHand : List ν}

theorem Supplied.mono {state : EvaluationState σ ν} {fewer : List ν}
    (h : Supplied has inHand state) (hfewer : fewer ⊆ inHand) : Supplied has fewer state :=
  ⟨h.plain, h.bound, fun node hnode => h.inHand node (hfewer hnode)⟩

/-- A computation adds its output nodes to those in hand. -/
def Supplies (has : ν → σ → Prop) (inHand : List ν) (computation : Evaluate σ ν (List ν)) : Prop :=
  Ensures (Supplied has inHand) computation fun nodes => Supplied has (inHand ++ nodes)

theorem supplies_nil : Supplies has inHand (pure []) :=
  ensures_pure fun state h => by rwa [List.append_nil]

theorem Supplies.append {first second : Evaluate σ ν (List ν)} (hfirst : Supplies has inHand first)
    (hsecond : ∀ inHand, Supplies has inHand second) :
    Supplies has inHand (do
      let nodes ← first
      let others ← second
      return nodes ++ others) := by
  refine Ensures.bind hfirst fun nodes => Ensures.bind (hsecond _) fun others => ?_
  exact ensures_pure fun state h => List.append_assoc inHand nodes others ▸ h

theorem supplies_collect {β : Type} {step : β → Evaluate σ ν (List ν)} {items : List β}
    (hstep : ∀ item ∈ items, ∀ inHand, Supplies has inHand (step item)) (inHand : List ν) :
    Supplies has inHand (collect step items) := by
  induction items generalizing inHand with
  | nil => exact supplies_nil
  | cons item rest ih =>
    obtain ⟨hitem, hrest⟩ := List.forall_mem_cons.mp hstep
    exact (hitem inHand).append (ih hrest)

/-- An action that keeps every node keeps what is supplied. -/
theorem supplied_build {β : Type} {action : StateM σ β}
    (hkeeps : ∀ node builder, has node builder → has node (action builder).2) :
    Ensures (Supplied has inHand) (build action) fun _ => Supplied has inHand :=
  ensures_build fun _ h => ⟨h.plain,
    fun entry hentry node hnode => hkeeps node _ (h.bound entry hentry node hnode),
    fun node hnode => hkeeps node _ (h.inHand node hnode)⟩

theorem supplied_note (event : EvaluationEvent) :
    Ensures (Supplied has inHand) (note event) fun _ => Supplied has inHand := by
  rintro state h result state' hrun
  obtain ⟨-, rfl⟩ := Prod.mk.inj hrun
  exact ⟨h.plain, h.bound, h.inHand⟩

/-- The nodes under a name are those that were there and the new one. -/
theorem Bindings.mem_addTo {name : String} {node : ν} {entries : List (String × List ν)}
    {entry : String × List ν} {held : ν} (hentry : entry ∈ addTo name node entries)
    (hheld : held ∈ entry.2) : held = node ∨ ∃ known ∈ entries, held ∈ known.2 := by
  induction entries with
  | nil =>
    obtain rfl := List.mem_singleton.mp hentry
    exact .inl (List.mem_singleton.mp hheld)
  | cons first rest ih =>
    unfold addTo at hentry
    split at hentry
    · rcases List.mem_cons.mp hentry with rfl | hrest
      · rcases List.mem_append.mp hheld with hold | hnew
        · exact .inr ⟨first, List.mem_cons_self, hold⟩
        · exact .inl (List.mem_singleton.mp hnew)
      · exact .inr ⟨entry, List.mem_cons_of_mem _ hrest, hheld⟩
    · rcases List.mem_cons.mp hentry with rfl | hrest
      · exact .inr ⟨first, List.mem_cons_self, hheld⟩
      · rcases ih hrest with hnew | ⟨known, hknown, hold⟩
        · exact .inl hnew
        · exact .inr ⟨known, List.mem_cons_of_mem _ hknown, hold⟩

/-- A node in hand may be bound. -/
theorem supplied_bindNode {node : ν} (hnode : node ∈ inHand) (name : String) :
    Ensures (Supplied has inHand) (bindNode name node) fun _ => Supplied has inHand := by
  rintro state h result state' hrun
  obtain ⟨-, rfl⟩ := Prod.mk.inj hrun
  refine ⟨h.plain, fun entry hentry held hheld => ?_, h.inHand⟩
  rcases Bindings.mem_addTo hentry hheld with rfl | ⟨known, hknown, hold⟩
  · exact h.inHand held hnode
  · exact h.bound known hknown held hold

theorem Supplies.withVariable {body : Evaluate σ ν (List ν)} (hbody : Supplies has inHand body)
    {value : Value ν} (hvalue : Plain (fun _ => False) value) (name : String) :
    Supplies has inHand (withVariable name value body) := by
  rintro state h result state' hrun
  rw [withVariable_apply] at hrun
  obtain ⟨hresult, rfl⟩ := Prod.mk.inj hrun
  have hinside : Supplied has inHand { state with context := state.context.setVariable name value } :=
    ⟨h.plain.setVariable hvalue name, h.bound, h.inHand⟩
  have hafter := hbody _ hinside result _ (Prod.ext hresult rfl)
  exact ⟨hafter.plain.restoreVariable fun _ => h.plain.get?, hafter.bound, hafter.inHand⟩

end

/-! ## Evaluations -/

section

variable [Host ν] [TreeBuilder σ ν] {has : ν → σ → Prop} {inHand : List ν}

omit [Host ν] [TreeBuilder σ ν] in
theorem supplies_create {action : StateM σ ν}
    (hmakes : ∀ builder, has (action builder).1 (action builder).2)
    (hkeeps : ∀ node builder, has node builder → has node (action builder).2) :
    Supplies has inHand (do return [← build action]) := by
  refine Ensures.bind (Q := fun made => Supplied has (inHand ++ [made])) (ensures_build ?_)
    fun _ => ensures_pure fun _ h => h
  intro state h
  refine ⟨h.plain, fun entry hentry node hnode => hkeeps node _ (h.bound entry hentry node hnode),
    fun node hnode => ?_⟩
  rcases List.mem_append.mp hnode with hold | hnew
  · exact hkeeps node _ (h.inHand node hold)
  · obtain rfl := List.mem_singleton.mp hnew
    exact hmakes state.builder

omit [Host ν] in
theorem supplies_createElement (hhas : TreeBuilder.Makes has) (tag : String) :
    Supplies has inHand (do return [← build (TreeBuilder.createElement tag)]) :=
  supplies_create (hhas.createElement tag) fun node => (hhas.keeps node).createElement tag

omit [Host ν] in
theorem supplies_createText (hhas : TreeBuilder.Makes has) (content : String) :
    Supplies has inHand (do return [← build (TreeBuilder.createText content)]) :=
  supplies_create (hhas.createText content) fun node => (hhas.keeps node).createText content

omit [Host ν] in
theorem supplies_textNode (hhas : TreeBuilder.Makes has) {leaf : Value ν}
    (hleaf : Plain (fun _ => False) leaf) :
    Supplies has inHand (do return [← textNode leaf]) := by
  unfold textNode
  split
  · exact supplies_createText hhas _
  · exact supplies_createText hhas _
  · exact supplies_createText hhas _
  · rename_i node
    exact (hleaf.nodes node (by simp [Value.nodes])).elim
  · exact Ensures.bind (Q := fun _ _ => False) (ensures_throw _) fun _ _ h => h.elim

omit [Host ν] in
theorem supplies_baseNode (hhas : TreeBuilder.Makes has) {leaf : Value ν}
    (hleaf : Plain (fun _ => False) leaf) :
    Supplies has inHand (do return [← baseNode leaf]) := by
  unfold baseNode
  split
  · exact supplies_createElement hhas _
  · rename_i node
    exact (hleaf.nodes node (by simp [Value.nodes])).elim
  · exact Ensures.bind (Q := fun _ _ => False) (ensures_throw _) fun _ _ h => h.elim

omit [TreeBuilder σ ν] in
theorem supplies_leafNodes {nodeOf : Value ν → Evaluate σ ν ν}
    (hnode : ∀ leaf, Plain (fun _ => False) leaf → ∀ inHand,
      Supplies has inHand (do return [← nodeOf leaf]))
    {fits : Value ν → Bool} {value : Value ν} (hvalue : Plain (fun _ => False) value) :
    Supplies has inHand (leafNodes nodeOf fits value) := by
  refine Ensures.bind (Q := fun leaves state =>
    Supplied has inHand state ∧ ∀ leaf ∈ leaves, Plain (fun _ => False) leaf) ?_ fun leaves => ?_
  · exact ensures_ask fun state h => ⟨h, fun leaf hleaf => h.plain.leaves hvalue hleaf⟩
  · rintro state ⟨hsupplied, hleaves⟩
    exact supplies_collect (fun leaf hleaf => hnode leaf (hleaves leaf hleaf)) inHand state
      hsupplied

theorem supplies_baseNodes (hhas : TreeBuilder.Makes has) {base : Word (Value ν)}
    (hslots : ∀ value ∈ base.slots, Plain (fun _ => False) value) :
    Supplies has inHand (baseNodes base) := by
  cases base with
  | text tag => exact supplies_createElement hhas tag
  | slot value =>
    rw [baseNodes_slot]
    exact supplies_leafNodes (fun _ hleaf _ => supplies_baseNode hhas hleaf)
      (hslots value List.mem_cons_self)

theorem supplied_applyAttributes (hhas : TreeBuilder.Makes has) (element : ν)
    (written : List (Attribute (Value ν))) :
    Ensures (Supplied has inHand) (applyAttributes element written) fun _ =>
      Supplied has inHand := by
  refine Ensures.bind (ensures_ask (Q := fun _ => Supplied has inHand) fun _ h => h)
    fun built => ?_
  cases built with
  | error error => exact ensures_throw error
  | ok set =>
    refine Ensures.bind (ensures_each fun attr _ => ?_) fun _ => ensures_each fun binding _ => ?_
    · exact supplied_build fun node => (hhas.keeps node).setAttribute element _ _
    · exact supplied_build fun node => (hhas.keeps node).addEventListener element _ _ _

theorem supplied_applyRefName (hhas : TreeBuilder.Makes has) {element : ν}
    (helement : element ∈ inHand) (refName : Option (Word (Value ν))) :
    Ensures (Supplied has inHand) (applyRefName element refName) fun _ =>
      Supplied has inHand := by
  have hask : ∀ {β : Type} (look : Context ν → β),
      Ensures (Supplied has inHand) (ask look) fun _ => Supplied has inHand :=
    fun look => ensures_ask fun _ h => h
  cases refName with
  | none => exact ensures_pure fun _ h => h
  | some word =>
    refine (hask _).bind fun resolved => ?_
    split
    · rename_i name
      have hbinding : Ensures (Supplied has inHand)
          (do note (.bound name); bindNode name element) fun _ => Supplied has inHand :=
        (supplied_note _).bind fun _ => supplied_bindNode helement name
      refine (hask _).bind fun attr => ?_
      cases attr with
      | none => exact hbinding
      | some attr =>
        exact Ensures.bind
          (supplied_build fun node => (hhas.keeps node).setAttribute element attr name)
          fun _ => hbinding
    · exact ensures_throw _

mutual

/-- A node whose slots hold no nodes is evaluated to nodes that the builder has made. -/
theorem supplies_evaluateNode (hhas : TreeBuilder.Makes has) (node : Node (Value ν))
    (hslots : ∀ value ∈ node.slots, Plain (fun _ => False) value) (inHand : List ν) :
    Supplies has inHand (evaluateNode node) := by
  cases node with
  | element header children =>
    have hbase : ∀ value ∈ header.base.slots, Plain (fun _ => False) value :=
      fun value h => hslots value (by simp [Node.slots, Header.slots, h])
    have hchildren : ∀ value ∈ Node.slotsOfAll children, Plain (fun _ => False) value :=
      fun value h => hslots value (by simp [Node.slots, h])
    rw [evaluateNode]
    refine Ensures.bind (supplies_baseNodes hhas hbase) fun elements => ?_
    refine Ensures.bind (ensures_each fun element helement => ?_) fun _ => ensures_pure fun _ h => h
    refine (supplied_applyAttributes hhas element _).bind fun _ =>
      (supplied_applyRefName hhas (List.mem_append_right _ helement) _).bind fun _ => ?_
    split
    · exact Ensures.bind (supplied_build fun node => (hhas.keeps node).removeAllChildren element)
        fun _ => supplied_appendAll hhas element children hchildren _
    · exact ensures_pure fun _ h => h
  | text content =>
    rw [evaluateNode]
    exact supplies_createText hhas content
  | newLine =>
    rw [evaluateNode]
    exact supplies_createText hhas "\n"
  | slot value =>
    rw [evaluateNode_slot]
    exact supplies_leafNodes (fun _ hleaf _ => supplies_textNode hhas hleaf)
      (hslots value List.mem_cons_self)
  | ifBlock condition thenBranch elseBranch =>
    rw [evaluateNode]
    refine Ensures.bind (ensures_ask (Q := fun _ => Supplied has inHand) fun _ h => h)
      fun resolved => ?_
    split
    · exact supplies_evaluateAll hhas thenBranch
        (fun value h => hslots value (by simp [Node.slots, h])) inHand
    · exact supplies_evaluateAll hhas elseBranch
        (fun value h => hslots value (by simp [Node.slots, h])) inHand
  | forBlock variableName iterable body =>
    have hiterable := hslots iterable List.mem_cons_self
    have hbody := supplies_evaluateAll hhas body
      fun value h => hslots value (by simp [Node.slots, h])
    rw [evaluateNode]
    refine Ensures.bind (Q := fun items state => Supplied has inHand state ∧
      ∀ found, items = .ok found → ∀ item ∈ found, Plain (fun _ => False) item)
      (ensures_ask fun state h => ⟨h, fun found => h.plain.iterationItems hiterable⟩)
      fun items => ?_
    rintro state ⟨hsupplied, hitems⟩
    cases items with
    | error error => exact ensures_throw error state hsupplied
    | ok items =>
      refine supplies_collect (fun entry hentry inHand => ?_) inHand state hsupplied
      have hitem := hitems items rfl entry.1 (List.fst_mem_of_mem_zipIdx hentry)
      exact (supplied_note _).bind fun _ => (hbody inHand).withVariable hitem variableName

/-- Several nodes whose slots hold no nodes are evaluated to nodes that the builder has made. -/
theorem supplies_evaluateAll (hhas : TreeBuilder.Makes has) (nodes : List (Node (Value ν)))
    (hslots : ∀ value ∈ Node.slotsOfAll nodes, Plain (fun _ => False) value) (inHand : List ν) :
    Supplies has inHand (evaluateAll nodes) := by
  cases nodes with
  | nil =>
    rw [evaluateAll]
    exact supplies_nil
  | cons node rest =>
    rw [evaluateAll]
    have hnode := supplies_evaluateNode hhas node
      fun value h => hslots value (by simp [Node.slotsOfAll, h])
    have hrest := supplies_evaluateAll hhas rest
      fun value h => hslots value (by simp [Node.slotsOfAll, h])
    exact (hnode inHand).append hrest

/-- The children of an element are no longer in hand when they have been appended. -/
theorem supplied_appendAll (hhas : TreeBuilder.Makes has) (parent : ν)
    (nodes : List (Node (Value ν)))
    (hslots : ∀ value ∈ Node.slotsOfAll nodes, Plain (fun _ => False) value) (inHand : List ν) :
    Ensures (Supplied has inHand) (appendAll parent nodes) fun _ => Supplied has inHand := by
  cases nodes with
  | nil =>
    rw [appendAll]
    exact ensures_pure fun _ h => h
  | cons node rest =>
    rw [appendAll]
    have hnode := supplies_evaluateNode hhas node
      fun value h => hslots value (by simp [Node.slotsOfAll, h])
    refine Ensures.bind (hnode inHand) fun outputs => ?_
    refine Ensures.bind (ensures_each fun child _ => supplied_build fun node =>
      (hhas.keeps node).appendChild parent child) fun _ => ?_
    intro state h
    have hfewer := h.mono (List.subset_append_left inHand outputs)
    exact supplied_appendAll hhas parent rest
      (fun value h => hslots value (by simp [Node.slotsOfAll, h])) inHand state hfewer

end

/-- Where the slots of a document hold no nodes, the builder has made all nodes that an evaluation
gives and binds. -/
theorem Document.supplies (hhas : TreeBuilder.Makes has) (document : Document (Value ν))
    (options : Options)
    (hslots : ∀ value ∈ document.slots, Plain (fun _ => False) value) {builder after : σ}
    {evaluation : Evaluation ν}
    (hrun : document.evaluate options builder = (.ok evaluation, after)) :
    (∀ node ∈ evaluation.nodes, has node after) ∧
      ∀ entry ∈ evaluation.bindings.entries, ∀ node ∈ entry.2, has node after := by
  have hstart : Supplied has [] (⟨builder, { options }, []⟩ : EvaluationState σ ν) :=
    ⟨Context.allVariables_fresh _ options, by simp, by simp⟩
  obtain ⟨state, hnodes, rfl, hbindings⟩ := Document.of_evaluate_ok hrun
  have hend := supplies_evaluateAll hhas document.children hslots [] _ hstart _ state hnodes
  rw [← hbindings]
  exact ⟨hend.inHand, hend.bound⟩

end

end IndentMarkup

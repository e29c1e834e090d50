import IndentMarkup.CallLog
import IndentMarkup.Proofs.Evaluating
import IndentMarkup.Proofs.PlainValues
import IndentMarkup.Proofs.SlotsTaken
import IndentMarkup.Value.Words
import Mathlib.Logic.Relation

/-! The calls of an evaluation build trees. Where no value brings nodes of its own, each node that
the log hands out has exactly one place: it is a result, or it is appended once, to a node that is
older. The invariant counts a node that has no place yet among the pending ones: a node of the
document adds its output nodes to them, and an appended node leaves them. -/
namespace IndentMarkup

open Relation (ReflTransGen)

/-! ## What calls are about -/

namespace Call

def made? : Call → Option Nat
  | .createElement id _ | .createText id _ | .createFragment id _ => some id
  | _ => none

/-- The nodes that a call takes as given. -/
def used : Call → List Nat
  | .setAttribute id _ _ | .addEventListener id _ _ _ | .removeAllChildren id => [id]
  | .appendChild parent child => [parent, child]
  | .createFragment _ nodes => nodes
  | _ => []

def adopted? : Call → Option Nat
  | .appendChild _ child => some child
  | _ => none

end Call

def Call.made (calls : List Call) : List Nat :=
  calls.filterMap Call.made?

def Call.adopted (calls : List Call) : List Nat :=
  calls.filterMap Call.adopted?

/-- These calls build trees with these roots. -/
structure Call.BuildTrees (calls : List Call) (roots : List Nat) : Prop where
  /-- No node is made twice. -/
  nodup : (made calls).Nodup
  /-- Every node is a root or appended, and that once. -/
  placed : (roots ++ adopted calls).Perm (made calls)
  /-- A call is about nodes from earlier calls. -/
  earlier : ∀ before call later, calls = before ++ call :: later → ∀ id ∈ call.used, id ∈ made before
  /-- A parent is made before its child. -/
  ordered : ∀ parent child, .appendChild parent child ∈ calls → [parent, child].Sublist (made calls)
  /-- From every node the way up leads to a root. -/
  rooted : ∀ id ∈ made calls, ∃ root ∈ roots,
    ReflTransGen (fun child parent => .appendChild parent child ∈ calls) id root

namespace CallLog

open Call (made adopted)
open Evaluate

/-! ## Logs in order -/

/-- The nodes of a log are numbered as they are made, and a call is about nodes made before it, a
parent before its child. -/
structure Sound (log : CallLog) : Prop where
  numbered : made log.calls.toList = List.range log.nextId
  earlier : ∀ before call later, log.calls.toList = before ++ call :: later →
    ∀ id ∈ call.used, id ∈ made before
  ordered : ∀ parent child, .appendChild parent child ∈ log.calls.toList → parent < child

variable {log : CallLog}

theorem sound_empty : Sound {} := by
  refine ⟨rfl, fun before call later h => ?_, fun parent child h => by simp at h⟩
  simp at h

/-- One more call stands behind all others. -/
private theorem earlier_push (h : log.Sound) {last : Call} (hlast : ∀ id ∈ last.used, id < log.nextId)
    {before later : List Call} {call : Call}
    (hcalls : log.calls.toList ++ [last] = before ++ call :: later) :
    ∀ id ∈ call.used, id ∈ made before := by
  rcases later.eq_nil_or_concat with rfl | ⟨shorter, final, rfl⟩
  · obtain ⟨rfl, hsame⟩ := List.append_inj' hcalls rfl
    obtain rfl := List.head_eq_of_cons_eq hsame
    intro id hid
    rw [h.numbered]
    exact List.mem_range.mpr (hlast id hid)
  · rw [List.concat_eq_append, ← List.cons_append, ← List.append_assoc] at hcalls
    exact h.earlier before call shorter (List.append_inj_left' hcalls rfl)

theorem Sound.create (h : log.Sound) {call : Nat → Call} (hmade : ∀ id, (call id).made? = some id)
    (hused : ∀ id, (call id).used = []) : (create call log).2.Sound := by
  refine ⟨?_, fun before between later hcalls => ?_, fun parent child happend => ?_⟩
  · simp [CallLog.create, made, List.filterMap_append, hmade, List.range_succ, ← h.numbered]
  · have hlast : ∀ id ∈ (call log.nextId).used, id < log.nextId := by simp [hused]
    exact earlier_push h hlast (by simpa [CallLog.create] using hcalls)
  · have hcalls : .appendChild parent child ∈ log.calls.toList ∨
        .appendChild parent child = call log.nextId := by simpa [CallLog.create] using happend
    rcases hcalls with hmem | heq
    · exact h.ordered parent child hmem
    · have hnone := hused log.nextId
      rw [← heq] at hnone
      contradiction

theorem Sound.record (h : log.Sound) {call : Call} (hmade : call.made? = none)
    (hused : ∀ id ∈ call.used, id < log.nextId)
    (hordered : ∀ parent child, call = .appendChild parent child → parent < child) :
    (record call log).2.Sound := by
  refine ⟨?_, fun before between later hcalls => ?_, fun parent child happend => ?_⟩
  · simpa [CallLog.record, made, List.filterMap_append, hmade] using h.numbered
  · exact earlier_push h hused (by simpa [CallLog.record] using hcalls)
  · have hcalls : .appendChild parent child ∈ log.calls.toList ∨
        .appendChild parent child = call := by simpa [CallLog.record] using happend
    rcases hcalls with hmem | heq
    · exact h.ordered parent child hmem
    · exact hordered parent child heq.symm

/-! ## Pending nodes -/

/-- The state of an evaluation in which these nodes have no place yet, all others have one, and at
least `floor` nodes have been made. -/
structure Ready (floor : Nat) (pending : List Nat) (state : EvaluationState CallLog Nat) : Prop where
  sound : state.builder.Sound
  placed : (pending ++ adopted state.builder.calls.toList).Perm (List.range state.builder.nextId)
  plain : state.context.PlainVariables fun _ => False
  floor_le : floor ≤ state.builder.nextId

variable {floor : Nat} {pending : List Nat} {state : EvaluationState CallLog Nat}

theorem Ready.lt_nextId (h : Ready floor pending state) {id : Nat} (hid : id ∈ pending) :
    id < state.builder.nextId :=
  List.mem_range.mp (h.placed.subset (List.mem_append_left _ hid))

/-- A pending node is older than all that are made from now on. -/
theorem Ready.raise (h : Ready floor pending state) {id : Nat} (hid : id ∈ pending) :
    Ready (id + 1) pending state :=
  { h with floor_le := h.lt_nextId hid }

theorem Ready.lower (h : Ready floor pending state) {lower : Nat} (hle : lower ≤ floor) :
    Ready lower pending state :=
  { h with floor_le := Nat.le_trans hle h.floor_le }

/-- A computation adds its output nodes to the pending ones. They are new. -/
def Yields (floor : Nat) (pending : List Nat) (computation : Evaluate CallLog Nat (List Nat)) : Prop :=
  Ensures (Ready floor pending) computation fun nodes state =>
    Ready floor (pending ++ nodes) state ∧ ∀ node ∈ nodes, floor ≤ node

theorem yields_nil : Yields floor pending (pure []) :=
  ensures_pure fun state h => ⟨by rwa [List.append_nil], by simp⟩

theorem Yields.append {first second : Evaluate CallLog Nat (List Nat)}
    (hfirst : Yields floor pending first) (hsecond : ∀ pending, Yields floor pending second) :
    Yields floor pending (do
      let nodes ← first
      let others ← second
      return nodes ++ others) := by
  refine Ensures.bind hfirst fun nodes => ?_
  rintro state ⟨hready, hnew⟩
  refine Ensures.bind (hsecond (pending ++ nodes)) (fun others => ?_) state hready
  refine ensures_pure fun state hstate => ⟨?_, ?_⟩
  · rw [← List.append_assoc]
    exact hstate.1
  · exact fun node hnode => (List.mem_append.mp hnode).elim (hnew node) (hstate.2 node)

theorem yields_collect {β : Type} {step : β → Evaluate CallLog Nat (List Nat)} {items : List β}
    (hstep : ∀ item ∈ items, ∀ pending, Yields floor pending (step item)) (pending : List Nat) :
    Yields floor pending (collect step items) := by
  induction items generalizing pending with
  | nil => exact yields_nil
  | cons item rest ih =>
    obtain ⟨hitem, hrest⟩ := List.forall_mem_cons.mp hstep
    exact (hitem pending).append (ih hrest)

theorem yields_create {call : Nat → Call} (hmade : ∀ id, (call id).made? = some id)
    (hused : ∀ id, (call id).used = []) (hadopted : ∀ id, (call id).adopted? = none) :
    Yields floor pending (do return [← build (create call)]) := by
  refine Ensures.bind (Q := fun id state => Ready floor (pending ++ [id]) state ∧ floor ≤ id)
    (ensures_build fun state h => ⟨⟨h.sound.create hmade hused, ?_, h.plain, ?_⟩, h.floor_le⟩)
    fun id => ensures_pure fun state h => ⟨h.1, by simpa using h.2⟩
  · have hsame : adopted (create call state.builder).2.calls.toList =
        adopted state.builder.calls.toList := by
      simp [create, adopted, List.filterMap_append, hadopted]
    rw [hsame]
    show (pending ++ [state.builder.nextId] ++ adopted state.builder.calls.toList).Perm
      (List.range (state.builder.nextId + 1))
    rw [List.range_succ, List.append_assoc]
    refine (List.perm_append_comm.append_left pending).trans ?_
    rw [← List.append_assoc]
    exact h.placed.append_right _
  · exact Nat.le_succ_of_le h.floor_le

/-- A call about a pending node leaves everything in its place. -/
theorem ready_record {call : Call} (hmade : call.made? = none) (hadopted : call.adopted? = none)
    (hused : ∀ id ∈ call.used, id ∈ pending) :
    Ensures (Ready floor pending) (build (record call)) fun _ => Ready floor pending := by
  refine ensures_build fun state h => ⟨h.sound.record hmade ?_ ?_, ?_, h.plain, h.floor_le⟩
  · exact fun id hid => h.lt_nextId (hused id hid)
  · rintro parent child rfl
    contradiction
  · simpa [record, adopted, List.filterMap_append, hadopted] using h.placed

/-- A pending node that is appended to an older one has its place. -/
theorem ready_appendChild {parent child : Nat} {rest : List Nat} (hparent : parent ∈ pending)
    (hlt : parent < child) :
    Ensures (Ready floor (pending ++ child :: rest))
      (build (TreeBuilder.appendChild parent child : StateM CallLog Unit))
      fun _ => Ready floor (pending ++ rest) := by
  refine ensures_build fun state h => ⟨h.sound.record rfl ?_ ?_, ?_, h.plain, h.floor_le⟩
  · intro id hid
    have hid : id = parent ∨ id = child := by simpa [Call.used] using hid
    rcases hid with rfl | rfl
    · exact h.lt_nextId (List.mem_append_left _ hparent)
    · exact h.lt_nextId (by simp)
  · rintro parent child heq
    obtain ⟨rfl, rfl⟩ := Call.appendChild.inj heq
    exact hlt
  · have hadopted : adopted (record (.appendChild parent child) state.builder).2.calls.toList =
        adopted state.builder.calls.toList ++ [child] := by
      simp [record, adopted, List.filterMap_append, Call.adopted?]
    show (pending ++ rest ++ adopted (record _ _).2.calls.toList).Perm _
    rw [hadopted, ← List.append_assoc]
    refine List.Perm.trans ?_ h.placed
    exact (List.perm_append_singleton child _).trans (by
      rw [← List.cons_append]
      exact List.perm_middle.symm.append_right _)

/-- All new nodes find their place under an older one. -/
theorem ready_appendChildren {parent : Nat} (hparent : parent ∈ pending) {nodes : List Nat}
    (hnew : ∀ node ∈ nodes, parent < node) :
    Ensures (Ready floor (pending ++ nodes))
      (each (fun child => build (TreeBuilder.appendChild parent child : StateM CallLog Unit)) nodes)
      fun _ => Ready floor pending := by
  induction nodes with
  | nil =>
    rw [List.append_nil]
    exact ensures_pure fun _ h => h
  | cons child rest ih =>
    obtain ⟨hlt, hrest⟩ := List.forall_mem_cons.mp hnew
    exact (ready_appendChild hparent hlt).bind fun _ => ih hrest

/-! ## Evaluations -/

open Value (Plain)

theorem yields_textNode {leaf : Value Nat} (hleaf : Plain (fun _ => False) leaf) :
    Yields floor pending (do return [← textNode leaf]) := by
  unfold textNode
  split
  · exact yields_create (fun _ => rfl) (fun _ => rfl) (fun _ => rfl)
  · exact yields_create (fun _ => rfl) (fun _ => rfl) (fun _ => rfl)
  · exact yields_create (fun _ => rfl) (fun _ => rfl) (fun _ => rfl)
  · rename_i node
    exact (hleaf.nodes node (by simp [Value.nodes])).elim
  · exact Ensures.bind (Q := fun _ _ => False) (ensures_throw _) fun _ _ h => h.elim

theorem yields_baseNode {leaf : Value Nat} (hleaf : Plain (fun _ => False) leaf) :
    Yields floor pending (do return [← baseNode leaf]) := by
  unfold baseNode
  split
  · exact yields_create (fun _ => rfl) (fun _ => rfl) (fun _ => rfl)
  · rename_i node
    exact (hleaf.nodes node (by simp [Value.nodes])).elim
  · exact Ensures.bind (Q := fun _ _ => False) (ensures_throw _) fun _ _ h => h.elim

section

variable [Host Nat]

theorem yields_leafNodes {nodeOf : Value Nat → Evaluate CallLog Nat Nat}
    (hnode : ∀ leaf, Plain (fun _ => False) leaf → ∀ pending,
      Yields floor pending (do return [← nodeOf leaf]))
    {fits : Value Nat → Bool} {value : Value Nat} (hvalue : Plain (fun _ => False) value)
    (pending : List Nat) : Yields floor pending (leafNodes nodeOf fits value) := by
  refine Ensures.bind (Q := fun leaves state =>
    Ready floor pending state ∧ ∀ leaf ∈ leaves, Plain (fun _ => False) leaf) ?_ fun leaves => ?_
  · exact ensures_ask fun state h => ⟨h, fun leaf hleaf => h.plain.leaves hvalue hleaf⟩
  · rintro state ⟨hready, hleaves⟩
    exact yields_collect (fun leaf hleaf => hnode leaf (hleaves leaf hleaf)) pending state hready

theorem yields_baseNodes {base : Word (Value Nat)}
    (hslots : ∀ value ∈ base.slots, Plain (fun _ => False) value) (pending : List Nat) :
    Yields floor pending (baseNodes base) := by
  cases base with
  | text tag => exact yields_create (fun _ => rfl) (fun _ => rfl) (fun _ => rfl)
  | slot value =>
    rw [baseNodes_slot]
    exact yields_leafNodes (fun leaf hleaf _ => yields_baseNode hleaf)
      (hslots value List.mem_cons_self) pending

theorem ready_applyAttributes {element : Nat} (helement : element ∈ pending)
    (written : List (Attribute (Value Nat))) :
    Ensures (Ready floor pending) (applyAttributes element written) fun _ => Ready floor pending := by
  refine Ensures.bind (ensures_ask (Q := fun _ => Ready floor pending) fun _ h => h) fun built => ?_
  cases built with
  | error error => exact ensures_throw error
  | ok set =>
    refine Ensures.bind (ensures_each fun attr _ => ?_) fun _ => ensures_each fun binding _ => ?_
    · exact ready_record rfl rfl (by simpa [Call.used] using helement)
    · exact ready_record rfl rfl (by simpa [Call.used] using helement)

theorem ready_applyRefName {element : Nat} (helement : element ∈ pending)
    (refName : Option (Word (Value Nat))) :
    Ensures (Ready floor pending) (applyRefName element refName) fun _ => Ready floor pending := by
  have hask : ∀ {β : Type} (look : Context Nat → β),
      Ensures (Ready floor pending) (ask look) fun _ => Ready floor pending :=
    fun look => ensures_ask fun _ h => h
  cases refName with
  | none => exact ensures_pure fun _ h => h
  | some word =>
    refine (hask _).bind fun resolved => ?_
    split
    · rename_i name
      have hbinding : Ensures (Ready floor pending)
          (do note (.bound name); bindNode name element) fun _ => Ready floor pending := by
        rintro state h result state' hrun
        obtain ⟨-, rfl⟩ := Prod.mk.inj hrun
        exact ⟨h.sound, h.placed, h.plain, h.floor_le⟩
      refine (hask _).bind fun attr => ?_
      cases attr with
      | none => exact hbinding
      | some attr =>
        exact Ensures.bind (ready_record rfl rfl (by simpa [Call.used] using helement))
          fun _ => hbinding
    · exact ensures_throw _

omit [Host Nat] in
theorem ready_note (event : EvaluationEvent) :
    Ensures (Ready floor pending) (note event) fun _ => Ready floor pending := by
  rintro state h result state' hrun
  obtain ⟨-, rfl⟩ := Prod.mk.inj hrun
  exact ⟨h.sound, h.placed, h.plain, h.floor_le⟩

omit [Host Nat] in
/-- The variable of a loop is there while the body runs, and gone behind it. -/
theorem Yields.withVariable {body : Evaluate CallLog Nat (List Nat)}
    (hbody : Yields floor pending body) {value : Value Nat} (hvalue : Plain (fun _ => False) value)
    (name : String) : Yields floor pending (withVariable name value body) := by
  rintro state h result state' hrun
  rw [withVariable_apply] at hrun
  obtain ⟨hresult, rfl⟩ := Prod.mk.inj hrun
  have hinside : Ready floor pending { state with context := state.context.setVariable name value } :=
    ⟨h.sound, h.placed, h.plain.setVariable hvalue name, h.floor_le⟩
  obtain ⟨hready, hnew⟩ := hbody _ hinside result _ (Prod.ext hresult rfl)
  exact ⟨⟨hready.sound, hready.placed,
    hready.plain.restoreVariable fun _ => h.plain.get?, hready.floor_le⟩, hnew⟩

/-- Each of the elements that a node is evaluated to is filled with the children. -/
theorem yields_element {header : Header (Value Nat)} {children : List (Node (Value Nat))}
    (hbase : ∀ value ∈ header.base.slots, Plain (fun _ => False) value)
    (hfill : ∀ {element pending}, element ∈ pending →
      Ensures (Ready (element + 1) pending) (appendAll element children)
        fun _ => Ready (element + 1) pending) :
    Yields floor pending (evaluateNode (.element header children)) := by
  rw [evaluateNode]
  refine Ensures.bind (yields_baseNodes hbase pending) fun elements => ?_
  rintro state ⟨hready, hnew⟩
  refine Ensures.bind (ensures_each (P := Ready floor (pending ++ elements))
    fun element helement => ?_) (fun _ => ensures_pure fun _ h => ⟨h, hnew⟩) state hready
  have hpending : element ∈ pending ++ elements := List.mem_append_right _ helement
  refine (ready_applyAttributes hpending _).bind fun _ =>
    (ready_applyRefName hpending _).bind fun _ => ?_
  split
  · refine Ensures.bind (ready_record rfl rfl (by simpa [Call.used] using hpending)) fun _ => ?_
    intro state hready result state' hrun
    have hfilled := hfill hpending state (hready.raise hpending) result state' hrun
    exact hfilled.lower (Nat.le_succ_of_le (hnew element helement))
  · exact ensures_pure fun _ h => h

/-- A loop adds the output nodes of its body once for each item. -/
theorem yields_forBlock {variableName : String} {iterable : Value Nat}
    {body : List (Node (Value Nat))}
    (hiterable : Plain (fun _ => False) iterable)
    (hbody : ∀ pending, Yields floor pending (evaluateAll body)) :
    Yields floor pending (evaluateNode (.forBlock variableName iterable body)) := by
  rw [evaluateNode]
  refine Ensures.bind (Q := fun items state => Ready floor pending state ∧
    ∀ found, items = .ok found → ∀ item ∈ found, Plain (fun _ => False) item)
    (ensures_ask fun state h => ⟨h, fun found hfound => ?_⟩) fun items => ?_
  · exact h.plain.iterationItems hiterable hfound
  rintro state ⟨hready, hitems⟩
  cases items with
  | error error => exact ensures_throw error state hready
  | ok items =>
    refine yields_collect (fun entry hentry pending => ?_) pending state hready
    have hitem := hitems items rfl entry.1 (List.fst_mem_of_mem_zipIdx hentry)
    exact (ready_note _).bind fun _ => (hbody pending).withVariable hitem variableName

mutual

/-- A node whose slots hold no nodes adds new output nodes to the pending ones. -/
theorem yields_evaluateNode (node : Node (Value Nat))
    (hslots : ∀ value ∈ node.slots, Plain (fun _ => False) value) (floor : Nat) (pending : List Nat) :
    Yields floor pending (evaluateNode node) := by
  cases node with
  | element header children =>
    have hchildren : ∀ value ∈ Node.slotsOfAll children, Plain (fun _ => False) value :=
      fun value h => hslots value (by simp [Node.slots, h])
    exact yields_element (fun value h => hslots value (by simp [Node.slots, Header.slots, h]))
      (ready_appendAll children hchildren)
  | text content =>
    rw [evaluateNode]
    exact yields_create (fun _ => rfl) (fun _ => rfl) (fun _ => rfl)
  | newLine =>
    rw [evaluateNode]
    exact yields_create (fun _ => rfl) (fun _ => rfl) (fun _ => rfl)
  | slot value =>
    rw [evaluateNode_slot]
    exact yields_leafNodes (fun leaf hleaf _ => yields_textNode hleaf)
      (hslots value List.mem_cons_self) pending
  | ifBlock condition thenBranch elseBranch =>
    rw [evaluateNode]
    refine Ensures.bind (ensures_ask (Q := fun _ => Ready floor pending) fun _ h => h)
      fun resolved => ?_
    split
    · exact yields_evaluateAll thenBranch
        (fun value h => hslots value (by simp [Node.slots, h])) floor pending
    · exact yields_evaluateAll elseBranch
        (fun value h => hslots value (by simp [Node.slots, h])) floor pending
  | forBlock variableName iterable body =>
    exact yields_forBlock (hslots iterable List.mem_cons_self)
      (yields_evaluateAll body (fun value h => hslots value (by simp [Node.slots, h])) floor)

/-- Several nodes whose slots hold no nodes add new output nodes to the pending ones. -/
theorem yields_evaluateAll (nodes : List (Node (Value Nat)))
    (hslots : ∀ value ∈ Node.slotsOfAll nodes, Plain (fun _ => False) value) (floor : Nat)
    (pending : List Nat) : Yields floor pending (evaluateAll nodes) := by
  cases nodes with
  | nil =>
    rw [evaluateAll]
    exact yields_nil
  | cons node rest =>
    rw [evaluateAll]
    have hnode := yields_evaluateNode node
      (fun value h => hslots value (by simp [Node.slotsOfAll, h])) floor
    have hrest := yields_evaluateAll rest
      (fun value h => hslots value (by simp [Node.slotsOfAll, h])) floor
    exact (hnode pending).append hrest

/-- The output nodes of an element's children all find their place. -/
theorem ready_appendAll {parent : Nat} (nodes : List (Node (Value Nat)))
    (hslots : ∀ value ∈ Node.slotsOfAll nodes, Plain (fun _ => False) value)
    {pending : List Nat} (hparent : parent ∈ pending) :
    Ensures (Ready (parent + 1) pending) (appendAll parent nodes)
      fun _ => Ready (parent + 1) pending := by
  cases nodes with
  | nil =>
    rw [appendAll]
    exact ensures_pure fun _ h => h
  | cons node rest =>
    rw [appendAll]
    have hnode := yields_evaluateNode node
      (fun value h => hslots value (by simp [Node.slotsOfAll, h])) (parent + 1) pending
    refine Ensures.bind hnode fun nodes => ?_
    rintro state ⟨hready, hnew⟩
    refine Ensures.bind (ready_appendChildren hparent hnew) (fun _ => ?_) state hready
    exact ready_appendAll rest (fun value h => hslots value (by simp [Node.slotsOfAll, h])) hparent

end

end

/-! ## Documents -/

/-- In a sound log a parent is made before its child. -/
theorem Sound.made_parent_child (h : log.Sound) {parent child : Nat}
    (happend : .appendChild parent child ∈ log.calls.toList) :
    [parent, child].Sublist (made log.calls.toList) := by
  have hlt : parent < child := h.ordered parent child happend
  have hchild : child < log.nextId := by
    obtain ⟨before, later, hsplit⟩ := List.append_of_mem happend
    have hbefore := h.earlier before _ later hsplit child (by simp [Call.used])
    have hmade : child ∈ made log.calls.toList := by
      rw [hsplit, made, List.filterMap_append]
      exact List.mem_append_left _ hbefore
    rw [h.numbered] at hmade
    exact List.mem_range.mp hmade
  obtain ⟨more, hmore⟩ := Nat.exists_eq_add_of_lt hchild
  have hrange : List.range log.nextId =
      List.range child ++ (List.range (more + 1)).map (child + ·) := by
    rw [← List.range_add, hmore, Nat.add_assoc]
  rw [h.numbered, hrange]
  have hparent : [parent].Sublist (List.range child) :=
    List.singleton_sublist.mpr (List.mem_range.mpr hlt)
  have hlater : [child].Sublist ((List.range (more + 1)).map (child + ·)) :=
    List.singleton_sublist.mpr (List.mem_map.mpr ⟨0, by simp, Nat.add_zero child⟩)
  exact hparent.append hlater

/-- Where the nodes pending at the end are the results, the calls build trees with them as roots. -/
theorem Ready.buildTrees (h : Ready floor pending state) :
    Call.BuildTrees state.builder.calls.toList pending := by
  have hplaced : (pending ++ adopted state.builder.calls.toList).Perm
      (made state.builder.calls.toList) := h.sound.numbered ▸ h.placed
  refine ⟨h.sound.numbered ▸ List.nodup_range, hplaced, h.sound.earlier,
    fun parent child happend => h.sound.made_parent_child happend, fun id hid => ?_⟩
  -- A parent is older than its child, so the induction is on the number of the node.
  induction id using Nat.strongRecOn with
  | ind id ih =>
    rcases List.mem_append.mp (hplaced.symm.subset hid) with hroot | hadopted
    · exact ⟨id, hroot, .refl⟩
    · obtain ⟨call, hcall, hchild⟩ := List.mem_filterMap.mp hadopted
      obtain ⟨parent, rfl⟩ : ∃ parent, call = .appendChild parent id := by
        cases call <;> simp_all [Call.adopted?]
      have hmade := (h.sound.made_parent_child hcall).subset List.mem_cons_self
      obtain ⟨root, hroot, hway⟩ := ih parent (h.sound.ordered parent id hcall) hmade
      exact ⟨root, hroot, hway.head hcall⟩

end CallLog

open CallLog in
/-- Evaluation loses no output node and repeats none. Where the slots of a document hold no nodes,
and no references but to loop variables, the calls of a successful evaluation build trees whose
roots are the results, and the nodes of these trees are all that the log has handed out. -/
theorem evaluate_buildTrees [Host Nat] (document : Document (Value Nat)) (options : Options)
    (hslots : ∀ value ∈ document.slots, value.nodes = [] ∧
      ∀ reference ∈ value.references, Value.isLoopReference reference = true)
    {evaluation : Evaluation Nat} {log : CallLog}
    (hrun : document.evaluate options ({} : CallLog) = (.ok evaluation, log)) :
    Call.BuildTrees log.calls.toList evaluation.nodes ∧
      Call.made log.calls.toList = List.range log.nextId := by
  have hplain : ∀ value ∈ Node.slotsOfAll document.children, Value.Plain (fun _ => False) value := by
    intro value hvalue
    obtain ⟨hnodes, hreferences⟩ := hslots value hvalue
    exact ⟨by simp [hnodes], hreferences⟩
  have hready : Ready 0 [] ⟨({} : CallLog), { options }, []⟩ :=
    ⟨sound_empty, List.Perm.refl _, Context.allVariables_fresh _ options, Nat.zero_le _⟩
  obtain ⟨state, hnodes, rfl, -⟩ := Document.of_evaluate_ok hrun
  obtain ⟨hend, -⟩ := yields_evaluateAll document.children hplain 0 [] _ hready _ state hnodes
  exact ⟨hend.buildTrees, hend.sound.numbered⟩

/-- Two elements from nested lists of tag names, both with the children that a loop and a condition
give. -/
def listsOfItems : Document (Value Nat) :=
  ⟨[.element ⟨.slot (.list [.string "ul", .list [.string "ol"]]), [], some (.text "list")⟩
      [.forBlock "x" (.list [.string "a", .absent])
        [.ifBlock (Value.variableRef "x")
          [.element ⟨.text "li", [], none⟩ [.slot (Value.variableRef "x")]] [.newLine]]],
    .text "end"]⟩

def listsOfItemsCalls : CallLog :=
  ⟨9, #[.createElement 0 "ul", .createElement 1 "ol", .removeAllChildren 0, .createElement 2 "li",
    .removeAllChildren 2, .createText 3 "a", .appendChild 2 3, .createText 4 "\n", .appendChild 0 2,
    .appendChild 0 4, .removeAllChildren 1, .createElement 5 "li", .removeAllChildren 5,
    .createText 6 "a", .appendChild 5 6, .createText 7 "\n", .appendChild 1 5, .appendChild 1 7,
    .createText 8 "end"]⟩

attribute [local instance] Host.ofWords in
theorem evaluate_buildTrees_listsOfItems :
    (∀ value ∈ listsOfItems.slots, value.nodes = [] ∧
        ∀ reference ∈ value.references, Value.isLoopReference reference = true) ∧
      listsOfItems.evaluate {} ({} : CallLog) =
        (.ok ⟨[0, 1, 8], ⟨[("list", [0, 1])]⟩⟩, listsOfItemsCalls) ∧
      Call.BuildTrees listsOfItemsCalls.calls.toList [0, 1, 8] ∧
      Call.made listsOfItemsCalls.calls.toList = List.range 9 := by
  have hslots : ∀ value ∈ listsOfItems.slots, value.nodes = [] ∧
      ∀ reference ∈ value.references, Value.isLoopReference reference = true := by decide
  have hloop : Value.isLoopName "x" = true := by decide
  have htext : (Value.string "a" : Value Nat).isTruthy = true := by decide
  have habsent : (Value.absent : Value Nat).isTruthy = false := rfl
  have hrun : listsOfItems.evaluate {} ({} : CallLog) =
      (.ok ⟨[0, 1, 8], ⟨[("list", [0, 1])]⟩⟩, listsOfItemsCalls) := by
    simp only [listsOfItems, Document.evaluate, Document.run, ExceptT.run, evaluateAll, evaluateNode,
      baseNodes, applyAttributes, applyRefName, appendAll, iterationItems, Evaluate.each,
      Evaluate.collect, Evaluate.bind_apply, Evaluate.pure_apply, Evaluate.ask_apply,
      Evaluate.build_apply, Evaluate.note_apply, Evaluate.bindNode_apply, Evaluate.request_apply,
      Evaluate.withVariable_apply, Requests.bind_apply, Requests.pure_apply, Requests.ask_apply,
      elementNodes, elementNodes._go, textNodes, textNodes._go, List.mapM_cons, List.mapM_nil, List.flatten_cons, List.flatten_nil,
      List.cons_append, List.nil_append, List.zipIdx, AttributeSet.build, AttributeSet.addAll,
      Word.value, List.isEmpty, Bool.not_false, if_true, htext, habsent,
      Bool.false_eq_true, if_false, Context.resolve_list, Context.resolve_string,
      Context.resolve_absent, Context.resolve_variableRef_setVariable _ hloop]
    rfl
  exact ⟨hslots, hrun, evaluate_buildTrees listsOfItems {} hslots hrun⟩

end IndentMarkup

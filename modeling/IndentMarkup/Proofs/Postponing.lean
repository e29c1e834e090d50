import IndentMarkup.CallLog
import IndentMarkup.Proofs.SideBySide
import IndentMarkup.Proofs.Unrolling
import IndentMarkup.Value.Words
import Mathlib.Data.List.Induction
import Mathlib.Logic.Relation

/-! A document and what it unrolls to, evaluated side by side. An element appends the output nodes of
an `if` or a loop when the whole of it is evaluated, while the output nodes of its unrolled copies
are appended one after another. So a document asks for the same nodes in the same order as its
unrolled form, but some of its nodes are appended later. The relation between the two runs knows
which ones are still to be appended. -/
namespace IndentMarkup

open Relation (ReflTransGen)

/-! ## Calls that come later -/

namespace Call

/-- The calls that do more than to clear a node. -/
def kept (calls : List Call) : List Call :=
  calls.filter fun
    | .removeAllChildren _ => false
    | _ => true

/-- The calls that append these children to these parents. -/
def appends (pairs : List (Nat × Nat)) : List Call :=
  pairs.map fun (parent, child) => .appendChild parent child

theorem appends_append (front back : List (Nat × Nat)) :
    appends (front ++ back) = appends front ++ appends back :=
  List.map_append

/-- A child is appended one call later. Children of one parent keep their order, unless the parent
is shared. -/
inductive Postpone (shared : Nat → Prop) : List Call → List Call → Prop
  | step (front back : List Call) (parent child : Nat) (next : Call)
    (h : ∀ other, next = .appendChild parent other → shared parent) :
    Postpone shared (front ++ .appendChild parent child :: next :: back)
      (front ++ next :: .appendChild parent child :: back)

end Call

namespace CallLog

open Call (kept appends appends_append Postpone)
open Evaluate

/-- Children are appended any number of calls later, where that is allowed. -/
def Later (allowed : Prop) (shared : Nat → Prop) : List Call → List Call → Prop :=
  ReflTransGen fun calls later => allowed ∧ Postpone shared calls later

variable {allowed : Prop} {shared : Nat → Prop} {calls later : List Call}

theorem Later.trans {last : List Call} (h : Later allowed shared calls later)
    (hlast : Later allowed shared later last) : Later allowed shared calls last :=
  ReflTransGen.trans h hlast

theorem Later.append (h : Later allowed shared calls later) (tail : List Call) :
    Later allowed shared (calls ++ tail) (later ++ tail) := by
  refine ReflTransGen.lift (· ++ tail) ?_ _ _ h
  rintro _ _ ⟨hallowed, ⟨front, back, parent, child, next, hnext⟩⟩
  refine ⟨hallowed, ?_⟩
  simpa using Postpone.step front (back ++ tail) parent child next hnext

/-- Where nothing may come later, nothing does. -/
theorem Later.eq (h : Later allowed shared calls later) (hnever : ¬ allowed) : calls = later := by
  induction h with
  | refl => rfl
  | tail _ hstep _ => exact absurd hstep.1 hnever

/-- Everything that is still to be appended can wait for one more call. -/
theorem later_past {pending : List (Nat × Nat)} {next : Call} (hallowed : pending ≠ [] → allowed)
    (hnext : ∀ entry ∈ pending, ∀ other, next = .appendChild entry.1 other → shared entry.1)
    (front : List Call) :
    Later allowed shared (front ++ appends pending ++ [next]) (front ++ [next] ++ appends pending) := by
  induction pending using List.reverseRecOn with
  | nil =>
    rw [appends, List.map_nil, List.append_nil, List.append_nil]
    exact .refl
  | append_singleton rest last ih =>
    have hrest := ih (fun _ => hallowed (by simp))
      (fun entry hentry => hnext entry (List.mem_append_left _ hentry))
    have hswap : Postpone shared _ _ := .step (front ++ appends rest) [] last.1 last.2 next
      (hnext last (by simp))
    have hfirst : Later allowed shared (front ++ appends (rest ++ [last]) ++ [next])
        (front ++ appends rest ++ [next] ++ appends [last]) := by
      refine .single ⟨hallowed (by simp), ?_⟩
      simpa [appends] using hswap
    refine hfirst.trans ?_
    simpa [appends] using hrest.append (appends [last])

theorem later_past_all {pending : List (Nat × Nat)} {nexts : List Call}
    (hallowed : pending ≠ [] → allowed)
    (hnexts : ∀ next ∈ nexts, ∀ entry ∈ pending, ∀ other,
      next = .appendChild entry.1 other → shared entry.1)
    (front : List Call) :
    Later allowed shared (front ++ appends pending ++ nexts) (front ++ nexts ++ appends pending) := by
  induction nexts generalizing front with
  | nil =>
    rw [List.append_nil, List.append_nil]
    exact .refl
  | cons next rest ih =>
    obtain ⟨hnext, hrest⟩ := List.forall_mem_cons.mp hnexts
    have hfirst := (later_past hallowed hnext front).append rest
    have hothers := ih hrest (front ++ [next])
    simp only [List.append_assoc, List.singleton_append] at hfirst hothers ⊢
    exact hfirst.trans hothers

/-! ## The relation between the two runs -/

/-- The state of the first run has these variables in scope. It has asked for everything that the
second has asked for, but these children are still to be appended. At least `floor` nodes have been
made. -/
structure Lagging (allowed : Prop) (shared : Nat → Prop) (scope : List (String × Value Nat))
    (floor : Nat) (pending : List (Nat × Nat)) (s t : EvaluationState CallLog Nat) : Prop where
  scope : s.context.HasScope scope
  options : s.context.options = t.context.options
  bindings : s.context.bindings = t.context.bindings
  nextId : s.builder.nextId = t.builder.nextId
  floor_le : floor ≤ s.builder.nextId
  calls : Later allowed shared (kept t.builder.calls.toList)
    (kept s.builder.calls.toList ++ appends pending)

/-- What is left of the relation where both runs have failed. -/
def Stopped (allowed : Prop) (shared : Nat → Prop) (s t : EvaluationState CallLog Nat) : Prop :=
  ∃ pending, (pending ≠ [] → allowed) ∧ Later allowed shared (kept t.builder.calls.toList)
    (kept s.builder.calls.toList ++ appends pending)

/-- What is still to be appended goes to parents that are older than `floor`, or shared; and
something may wait only where that is allowed. -/
structure Waiting (allowed : Prop) (shared : Nat → Prop) (floor : Nat)
    (pending : List (Nat × Nat)) : Prop where
  allowed : pending ≠ [] → allowed
  older : ∀ entry ∈ pending, shared entry.1 ∨ entry.1 < floor

variable {scope : List (String × Value Nat)} {floor : Nat} {pending : List (Nat × Nat)}
  {s t : EvaluationState CallLog Nat}

theorem Lagging.stopped (h : Lagging allowed shared scope floor pending s t)
    (hpending : pending ≠ [] → allowed) : Stopped allowed shared s t :=
  ⟨pending, hpending, h.calls⟩

theorem Lagging.lower (h : Lagging allowed shared scope floor pending s t) {lower : Nat}
    (hle : lower ≤ floor) : Lagging allowed shared scope lower pending s t :=
  { h with floor_le := Nat.le_trans hle h.floor_le }

theorem Lagging.raise (h : Lagging allowed shared scope floor pending s t) :
    Lagging allowed shared scope s.builder.nextId pending s t :=
  { h with floor_le := Nat.le_refl _ }

theorem Waiting.raise (h : Waiting allowed shared floor pending) {higher : Nat}
    (hle : floor ≤ higher) : Waiting allowed shared higher pending :=
  ⟨h.allowed, fun entry hentry => (h.older entry hentry).imp_right (Nat.lt_of_lt_of_le · hle)⟩

/-- A call that both runs make, other than one that places nodes, comes before everything that is
still to be appended. -/
theorem Lagging.calls_push (h : Lagging allowed shared scope floor pending s t)
    (hpending : pending ≠ [] → allowed) {call : Call} (hkept : kept [call] = [call])
    (happend : ∀ parent child, call ≠ .appendChild parent child) :
    Later allowed shared (kept (t.builder.calls.push call).toList)
      (kept (s.builder.calls.push call).toList ++ appends pending) := by
  have hpush : ∀ calls : Array Call, kept (calls.push call).toList = kept calls.toList ++ [call] := by
    intro calls
    rw [Array.toList_push, kept, List.filter_append]
    exact congrArg _ hkept
  rw [hpush, hpush]
  refine (h.calls.append [call]).trans (later_past hpending ?_ _)
  exact fun entry _ other heq => absurd heq (happend entry.1 other)

theorem related_record (hpending : pending ≠ [] → allowed) {call : Call}
    (hkept : kept [call] = [call]) (happend : ∀ parent child, call ≠ .appendChild parent child) :
    Related (Stopped allowed shared) (Lagging allowed shared scope floor pending)
      (build (record call)) (build (record call))
      fun _ _ => Lagging allowed shared scope floor pending := by
  intro s t h
  exact .success ⟨h.scope, h.options, h.bindings, h.nextId, h.floor_le,
    h.calls_push hpending hkept happend⟩

/-- A node that is shared, or made since there were `floor` nodes. -/
def Recent (shared : Nat → Prop) (floor : Nat) (state : EvaluationState CallLog Nat) (node : Nat) :
    Prop :=
  shared node ∨ floor ≤ node ∧ node < state.builder.nextId

/-- Both runs give the same nodes, all of them recent. -/
def SameNodes (allowed : Prop) (shared : Nat → Prop) (scope : List (String × Value Nat))
    (floor : Nat) (pending : List (Nat × Nat)) (nodes others : List Nat)
    (s t : EvaluationState CallLog Nat) : Prop :=
  nodes = others ∧ Lagging allowed shared scope floor pending s t ∧
    ∀ node ∈ nodes, Recent shared floor s node

theorem related_create (hpending : pending ≠ [] → allowed) {call : Nat → Call}
    (hkept : ∀ id, kept [call id] = [call id])
    (happend : ∀ id parent child, call id ≠ .appendChild parent child) :
    Related (Stopped allowed shared) (Lagging allowed shared scope floor pending)
      (do return [← build (create call)]) (do return [← build (create call)])
      (SameNodes allowed shared scope floor pending) := by
  intro s t h
  have hcalls := h.calls_push hpending (hkept s.builder.nextId) (happend _)
  refine .success ⟨?_, ⟨h.scope, h.options, h.bindings, ?_, ?_, ?_⟩, ?_⟩
  · exact congrArg (fun id => [id]) h.nextId
  · exact congrArg (· + 1) h.nextId
  · exact Nat.le_succ_of_le h.floor_le
  · simpa only [create, ← h.nextId] using hcalls
  · intro node hnode
    obtain rfl := List.mem_singleton.mp hnode
    exact .inr ⟨h.floor_le, Nat.lt_succ_self _⟩

theorem kept_removal (log : CallLog) (element : Nat) :
    kept (record (.removeAllChildren element) log).2.calls.toList = kept log.calls.toList := by
  rw [record, Array.toList_push, kept, List.filter_append]
  exact List.append_nil _

theorem Lagging.clear (h : Lagging allowed shared scope floor pending s t) (element : Nat) :
    Lagging allowed shared scope floor pending
      { s with builder := (record (.removeAllChildren element) s.builder).2 } t := by
  refine ⟨h.scope, h.options, h.bindings, h.nextId, h.floor_le, ?_⟩
  rw [kept_removal]
  exact h.calls

theorem Lagging.clearOther (h : Lagging allowed shared scope floor pending s t) (element : Nat) :
    Lagging allowed shared scope floor pending s
      { t with builder := (record (.removeAllChildren element) t.builder).2 } := by
  refine ⟨h.scope, h.options, h.bindings, h.nextId, h.floor_le, ?_⟩
  rw [kept_removal]
  exact h.calls

/-! ## Appending later -/

/-- The log with these children appended to a parent. -/
def adopt (parent : Nat) (children : List Nat) (log : CallLog) : CallLog :=
  { log with calls := log.calls ++ (appends (children.map fun child => (parent, child))).toArray }

theorem each_appendChild_apply (parent : Nat) (children : List Nat)
    (state : EvaluationState CallLog Nat) :
    each (fun child => build (TreeBuilder.appendChild parent child : StateM CallLog Unit)) children
      state = (.ok (), { state with builder := adopt parent children state.builder }) := by
  induction children generalizing state with
  | nil => simp [each, adopt, appends]
  | cons child rest ih =>
    rw [each, bind_apply]
    refine (ih _).trans ?_
    simp [adopt, appends]

theorem kept_adopt (parent : Nat) (children : List Nat) (log : CallLog) :
    kept (adopt parent children log).calls.toList =
      kept log.calls.toList ++ appends (children.map fun child => (parent, child)) := by
  have happends : ∀ pairs, kept (appends pairs) = appends pairs := by
    intro pairs
    refine List.filter_eq_self.mpr fun call hcall => ?_
    obtain ⟨_, -, rfl⟩ := List.mem_map.mp hcall
    rfl
  rw [← happends]
  simp [adopt, kept, List.filter_append]

/-- What the second run appends, the first has still to append. -/
theorem Lagging.postpone (h : Lagging allowed shared scope floor pending s t) (parent : Nat)
    (children : List Nat) :
    Lagging allowed shared scope floor (pending ++ children.map fun child => (parent, child)) s
      { t with builder := adopt parent children t.builder } := by
  refine ⟨h.scope, h.options, h.bindings, h.nextId, h.floor_le, ?_⟩
  rw [kept_adopt, appends_append, ← List.append_assoc]
  exact h.calls.append _

/-- The first run appends the latest of the children it has still to append, ahead of the others. -/
theorem Lagging.catchUp {parent : Nat} {children : List Nat}
    (h : Lagging allowed shared scope floor (pending ++ children.map fun child => (parent, child)) s t)
    (hpending : pending ≠ [] → allowed) (hparent : ∀ entry ∈ pending, entry.1 = parent → shared parent) :
    Lagging allowed shared scope floor pending
      { s with builder := adopt parent children s.builder } t := by
  refine ⟨h.scope, h.options, h.bindings, h.nextId, h.floor_le, ?_⟩
  have hcalls := h.calls
  rw [appends_append, ← List.append_assoc] at hcalls
  rw [kept_adopt]
  refine hcalls.trans (later_past_all hpending (fun next hnext entry hentry other heq => ?_) _)
  obtain ⟨pair, hpair, rfl⟩ := List.mem_map.mp hnext
  obtain ⟨child, -, rfl⟩ := List.mem_map.mp hpair
  obtain ⟨hsame, -⟩ := Call.appendChild.inj heq
  exact hsame ▸ hparent entry hentry hsame.symm

/-- Nodes that are appended to a parent may wait there. -/
theorem Waiting.append (h : Waiting allowed shared floor pending) {parent : Nat} (hallowed : allowed)
    (hparent : shared parent ∨ parent < floor) (children : List Nat) :
    Waiting allowed shared floor (pending ++ children.map fun child => (parent, child)) := by
  refine ⟨fun _ => hallowed, fun entry hentry => ?_⟩
  rcases List.mem_append.mp hentry with hentry | hentry
  · exact h.older entry hentry
  · obtain ⟨child, -, rfl⟩ := List.mem_map.mp hentry
    exact hparent

/-! ## Base and attributes -/

open Value (Plain Settled Simple SettledScope)

/-- Two runs go through the same items. What was recent stays so, since the number of nodes only
grows. -/
theorem sameNodes_collect {β : Type} {step : β → Evaluate CallLog Nat (List Nat)} {items : List β}
    (hstep : ∀ item ∈ items, ∀ floor, Related (Stopped allowed shared)
      (Lagging allowed shared scope floor pending) (step item) (step item)
      (SameNodes allowed shared scope floor pending)) (floor : Nat) :
    Related (Stopped allowed shared) (Lagging allowed shared scope floor pending)
      (collect step items) (collect step items) (SameNodes allowed shared scope floor pending) := by
  induction items generalizing floor with
  | nil => exact related_pure fun s t h => ⟨rfl, h, by simp⟩
  | cons item rest ih =>
    obtain ⟨hitem, hrest⟩ := List.forall_mem_cons.mp hstep
    refine (hitem floor).bind fun first first' => ?_
    rintro s t ⟨rfl, hlag, hfirst⟩
    refine Related.bind (ih hrest s.builder.nextId) (fun others others' => ?_) s t hlag.raise
    refine related_pure ?_
    rintro s' t' ⟨rfl, hlag', hothers⟩
    refine ⟨rfl, hlag'.lower hlag.floor_le, fun node hnode => ?_⟩
    rcases List.mem_append.mp hnode with hnode | hnode
    · exact (hfirst node hnode).imp_right fun h => ⟨h.1, Nat.lt_of_lt_of_le h.2 hlag'.floor_le⟩
    · exact (hothers node hnode).imp_right fun h => ⟨Nat.le_trans hlag.floor_le h.1, h.2⟩

/-- Two runs that make the same nodes from the same leaves. -/
def SameLeafNode (nodeOf : Value Nat → Evaluate CallLog Nat Nat) : Prop :=
  ∀ (allowed : Prop) (shared : Nat → Prop) (scope : List (String × Value Nat))
    (pending : List (Nat × Nat)), (pending ≠ [] → allowed) →
    ∀ leaf, Plain shared leaf → ∀ floor, Related (Stopped allowed shared)
      (Lagging allowed shared scope floor pending)
      (do return [← nodeOf leaf]) (do return [← nodeOf leaf])
      (SameNodes allowed shared scope floor pending)

theorem sameNodes_node {node : Nat} (hleaf : Plain shared (.node node)) (floor : Nat) :
    Related (Stopped allowed shared) (Lagging allowed shared scope floor pending)
      (pure [node]) (pure [node]) (SameNodes allowed shared scope floor pending) := by
  refine related_pure fun s t h => ⟨rfl, h, fun other hother => ?_⟩
  obtain rfl := List.mem_singleton.mp hother
  exact .inl (hleaf.nodes other (by simp [Value.nodes]))

theorem sameNodes_throw (hpending : pending ≠ [] → allowed) (error : EvaluationError) (floor : Nat) :
    Related (Stopped allowed shared) (Lagging allowed shared scope floor pending)
      (do return [← (throw error : Evaluate CallLog Nat Nat)])
      (do return [← (throw error : Evaluate CallLog Nat Nat)])
      (SameNodes allowed shared scope floor pending) :=
  fun _ _ h => .failure (h.stopped hpending)

theorem sameLeafNode_textNode : SameLeafNode textNode := by
  intro allowed shared scope pending hpending leaf hleaf floor
  unfold textNode
  split
  · exact related_create hpending (fun _ => rfl) (by simp)
  · exact related_create hpending (fun _ => rfl) (by simp)
  · exact related_create hpending (fun _ => rfl) (by simp)
  · exact sameNodes_node hleaf floor
  · exact sameNodes_throw hpending _ floor

theorem sameLeafNode_baseNode : SameLeafNode baseNode := by
  intro allowed shared scope pending hpending leaf hleaf floor
  unfold baseNode
  split
  · exact related_create hpending (fun _ => rfl) (by simp)
  · exact sameNodes_node hleaf floor
  · exact sameNodes_throw hpending _ floor

variable [Host Nat]

theorem sameNodes_leafNodes {nodeOf : Value Nat → Evaluate CallLog Nat Nat}
    (hnode : SameLeafNode nodeOf) (fits : Value Nat → Bool) (hpending : pending ≠ [] → allowed)
    {value : Value Nat}
    (hvalue : Simple shared value) (hscope : SettledScope shared scope) (floor : Nat) :
    Related (Stopped allowed shared) (Lagging allowed shared scope floor pending)
      (leafNodes nodeOf fits value) (leafNodes nodeOf fits (value.inScope scope))
      (SameNodes allowed shared scope floor pending) := by
  refine related_ask fun s t h => ?_
  rw [Context.leaves_eq_inScope h.scope hvalue hscope fits t.context]
  refine sameNodes_collect (fun leaf hleaf floor => ?_) floor s t h
  have hsettled := Context.leaves_of_settled (hvalue.inScope hscope) t.context fits leaf hleaf
  exact hnode _ _ _ _ hpending leaf hsettled.plain floor

theorem sameNodes_baseNodes (hpending : pending ≠ [] → allowed) {base : Word (Value Nat)}
    (hbase : ∀ value ∈ base.slots, Simple shared value) (hscope : SettledScope shared scope)
    (floor : Nat) :
    Related (Stopped allowed shared) (Lagging allowed shared scope floor pending)
      (baseNodes base) (baseNodes (base.map (Value.inScope scope)))
      (SameNodes allowed shared scope floor pending) := by
  cases base with
  | text tag => exact related_create hpending (fun _ => rfl) (by simp)
  | slot value =>
    rw [Word.map, baseNodes_slot, baseNodes_slot]
    exact sameNodes_leafNodes sameLeafNode_baseNode _ hpending (hbase value List.mem_cons_self)
      hscope floor

theorem related_applyAttributes (hpending : pending ≠ [] → allowed) (element : Nat)
    {written : List (Attribute (Value Nat))}
    (hwritten : ∀ value ∈ written.flatMap Attribute.slots, Simple shared value)
    (hscope : SettledScope shared scope) :
    Related (Stopped allowed shared) (Lagging allowed shared scope floor pending)
      (applyAttributes element written)
      (applyAttributes element (written.map (Attribute.map (Value.inScope scope))))
      fun _ _ => Lagging allowed shared scope floor pending := by
  refine related_ask fun s t h => ?_
  rw [← AttributeSet.build_inScope h.scope hwritten hscope t.context]
  cases AttributeSet.build s.context written with
  | error error => exact .failure (h.stopped hpending)
  | ok set =>
    refine Related.bind (related_each fun attr _ => ?_) (fun _ _ => related_each fun binding _ => ?_)
      s t h
    · exact related_record hpending rfl (by simp)
    · exact related_record hpending rfl (by simp)

theorem related_applyRefName (hpending : pending ≠ [] → allowed) (element : Nat)
    {refName : Option (Word (Value Nat))}
    (hname : ∀ value ∈ refName.toList.flatMap Word.slots, Simple shared value)
    (hscope : SettledScope shared scope) :
    Related (Stopped allowed shared) (Lagging allowed shared scope floor pending)
      (applyRefName element refName)
      (applyRefName element (refName.map (Word.map (Value.inScope scope))))
      fun _ _ => Lagging allowed shared scope floor pending := by
  cases refName with
  | none => exact related_pure fun _ _ h => h
  | some word =>
    have hsimple : Simple shared word.value :=
      AttributeSet.simple_wordValue fun value h => hname value (by simpa using h)
    refine related_ask fun s t h => ?_
    rw [Word.value_inScope, Context.resolve_eq_inScope h.scope hsimple hscope,
      Context.resolve_of_settled (hsimple.inScope hscope) t.context]
    have hbinding : ∀ name, Related (Stopped allowed shared)
        (Lagging allowed shared scope floor pending)
        (do note (.bound name); bindNode name element) (do note (.bound name); bindNode name element)
        fun _ _ => Lagging allowed shared scope floor pending := by
      intro name s t h
      exact .success ⟨h.scope, h.options, congrArg (·.add name element) h.bindings, h.nextId,
        h.floor_le, h.calls⟩
    cases word.value.inScope scope with
    | string name =>
      refine related_ask (P := Lagging allowed shared scope floor pending)
        (fun s t h => ?_) s t h
      rw [← h.options]
      cases s.context.options.attrForRefName with
      | none => exact hbinding name s t h
      | some attr =>
        exact Related.bind (related_record hpending rfl (by simp)) (fun _ _ => hbinding name) s t h
    | _ => exact .failure (h.stopped hpending)

/-! ## Delivery

The output nodes of an unrolled node are either given back, or appended to a parent right away. In the
second case the first run has them still to append. -/

/-- Where the output nodes of unrolled nodes go: back to the caller, or to a parent. -/
def deliver : Option Nat → List (Node (Value Nat)) → Evaluate CallLog Nat (List Nat)
  | none, nodes => evaluateAll nodes
  | some parent, nodes => do
    appendAll parent nodes
    return []

/-- The first run has output nodes that the second gives back, too, or has appended. -/
def Delivered (allowed : Prop) (shared : Nat → Prop) (scope : List (String × Value Nat))
    (floor : Nat) (pending : List (Nat × Nat)) (outlet : Option Nat) (nodes others : List Nat)
    (s t : EvaluationState CallLog Nat) : Prop :=
  match outlet with
  | none => others = nodes ∧ Lagging allowed shared scope floor pending s t
  | some parent => others = [] ∧
    Lagging allowed shared scope floor (pending ++ nodes.map fun child => (parent, child)) s t

/-- A computation has the output nodes of these unrolled nodes. -/
def Delivers (allowed : Prop) (shared : Nat → Prop) (scope : List (String × Value Nat))
    (floor : Nat) (outlet : Option Nat) (computation : Evaluate CallLog Nat (List Nat))
    (unrolled : List (Node (Value Nat))) : Prop :=
  ∀ pending, Waiting allowed shared floor pending →
    Related (Stopped allowed shared) (Lagging allowed shared scope floor pending) computation
      (deliver outlet unrolled) (Delivered allowed shared scope floor pending outlet)

theorem evaluateAll_append (front back : List (Node (Value Nat))) :
    (evaluateAll (front ++ back) : Evaluate CallLog Nat (List Nat)) = (do
      let first ← evaluateAll front
      let others ← evaluateAll back
      return first ++ others) := by
  induction front with
  | nil => simp [evaluateAll]
  | cons node rest ih =>
    simp only [List.cons_append, evaluateAll, ih, bind_assoc, pure_bind, List.append_assoc]

theorem appendAll_append (parent : Nat) (front back : List (Node (Value Nat))) :
    (appendAll parent (front ++ back) : Evaluate CallLog Nat Unit) = (do
      appendAll parent front
      appendAll parent back) := by
  induction front with
  | nil => simp [appendAll]
  | cons node rest ih => simp [appendAll, ih]

theorem deliver_append (outlet : Option Nat) (front back : List (Node (Value Nat))) :
    deliver outlet (front ++ back) = (do
      let first ← deliver outlet front
      let others ← deliver outlet back
      return first ++ others) := by
  cases outlet with
  | none => exact evaluateAll_append front back
  | some parent => simp [deliver, appendAll_append]

section

variable {outlet : Option Nat} {computation : Evaluate CallLog Nat (List Nat)}
  {unrolled : List (Node (Value Nat))}

theorem delivers_nil : Delivers allowed shared scope floor outlet (pure []) [] := by
  intro pending _
  cases outlet with
  | none =>
    rw [deliver, evaluateAll]
    exact related_pure fun _ _ h => ⟨rfl, h⟩
  | some parent =>
    rw [deliver, appendAll]
    exact related_pure fun _ _ h => ⟨rfl, by simpa using h⟩

/-- One unrolled node gives the nodes that it is evaluated to. -/
theorem delivers_single {node : Node (Value Nat)}
    (h : ∀ pending, Waiting allowed shared floor pending →
      Related (Stopped allowed shared) (Lagging allowed shared scope floor pending) computation
        (evaluateNode node) (SameNodes allowed shared scope floor pending)) :
    Delivers allowed shared scope floor outlet computation [node] := by
  intro pending hpending
  rw [← bind_pure computation]
  cases outlet with
  | none =>
    have hone : deliver none [node] = evaluateNode node >>= pure := by simp [deliver, evaluateAll]
    rw [hone]
    refine (h pending hpending).bind fun nodes others => related_pure ?_
    rintro s t ⟨rfl, hlag, -⟩
    exact ⟨rfl, hlag⟩
  | some parent =>
    have hone : deliver (some parent) [node] = (do
        let nodes ← evaluateNode node
        each (fun child => build (TreeBuilder.appendChild parent child)) nodes
        return []) := by simp [deliver, appendAll]
    rw [hone]
    refine (h pending hpending).bind fun nodes others => ?_
    rintro s t ⟨rfl, hlag, -⟩
    rw [bind_apply, each_appendChild_apply]
    exact .success ⟨rfl, hlag.postpone parent nodes⟩

theorem Delivers.append {second : Evaluate CallLog Nat (List Nat)}
    {others : List (Node (Value Nat))}
    (houtlet : ∀ parent ∈ outlet, allowed ∧ (shared parent ∨ parent < floor))
    (hfirst : Delivers allowed shared scope floor outlet computation unrolled)
    (hsecond : Delivers allowed shared scope floor outlet second others) :
    Delivers allowed shared scope floor outlet (do
      let nodes ← computation
      let others ← second
      return nodes ++ others) (unrolled ++ others) := by
  intro pending hpending
  rw [deliver_append]
  refine (hfirst pending hpending).bind fun nodes nodes' => ?_
  cases outlet with
  | none =>
    rintro s t ⟨rfl, hlag⟩
    refine Related.bind (hsecond pending hpending) (fun _ _ => related_pure ?_) s t hlag
    rintro s t ⟨rfl, hlag⟩
    exact ⟨rfl, hlag⟩
  | some parent =>
    obtain ⟨hallowed, hparent⟩ := houtlet parent rfl
    rintro s t ⟨rfl, hlag⟩
    have hwaiting := hpending.append hallowed hparent nodes
    refine Related.bind (hsecond _ hwaiting) (fun _ _ => related_pure ?_) s t hlag
    rintro s t ⟨rfl, hlag⟩
    exact ⟨rfl, by simpa using hlag⟩

/-- A loop has the output nodes of its copies, one after another. -/
theorem delivers_collect {β : Type} {step : β × Nat → Evaluate CallLog Nat (List Nat)}
    {copy : β → Option (List (Node (Value Nat)))} {items : List β}
    (houtlet : ∀ parent ∈ outlet, allowed ∧ (shared parent ∨ parent < floor))
    (hstep : ∀ item ∈ items, ∀ nodes, copy item = some nodes → ∀ index,
      Delivers allowed shared scope floor outlet (step (item, index)) nodes)
    {copies : List (List (Node (Value Nat)))} (hcopies : items.mapM copy = some copies)
    (index : Nat) :
    Delivers allowed shared scope floor outlet (collect step (items.zipIdx index)) copies.flatten := by
  induction items generalizing copies index with
  | nil =>
    obtain rfl := Option.some.inj hcopies
    exact delivers_nil
  | cons item rest ih =>
    obtain ⟨hitem, hrest⟩ := List.forall_mem_cons.mp hstep
    simp only [List.mapM_cons, Option.bind_eq_bind, Option.bind_eq_some_iff, Option.pure_def,
      Option.some.injEq] at hcopies
    obtain ⟨first, hfirst, others, hothers, rfl⟩ := hcopies
    exact (hitem first hfirst index).append houtlet (ih hrest hothers (index + 1))

end

/-- A loop runs its body with one more variable; the copy of the body has its value in place. -/
theorem Delivers.withVariable {outlet : Option Nat} {body : Evaluate CallLog Nat (List Nat)}
    {unrolled : List (Node (Value Nat))} {name : String} {item : Value Nat}
    (h : Delivers allowed shared ((name, item) :: scope) floor outlet body unrolled) (index : Nat) :
    Delivers allowed shared scope floor outlet (do
      note (.iteration name index)
      withVariable name item body) unrolled := by
  intro pending hpending s t hlag
  have hinside : Lagging allowed shared ((name, item) :: scope) floor pending
      { s with context := s.context.setVariable name item,
               journal := .iteration name index :: s.journal } t :=
    ⟨hlag.scope.setVariable name item, hlag.options, hlag.bindings, hlag.nextId, hlag.floor_le,
      hlag.calls⟩
  have hbody := h pending hpending _ t hinside
  show Alike _ _ (Evaluate.withVariable name item body
    { s with journal := .iteration name index :: s.journal }) _
  rw [withVariable_apply]
  generalize body _ = run at hbody ⊢
  generalize deliver outlet unrolled t = run' at hbody ⊢
  cases hbody with
  | failure h => exact .failure h
  | success h =>
    have hrestored : ∀ {pending after t},
        Lagging allowed shared ((name, item) :: scope) floor pending after t →
          Lagging allowed shared scope floor pending
            { after with context :=
                after.context.restoreVariable name (s.context.scope.get? name) } t :=
      fun h => ⟨h.scope.restoreVariable hlag.scope, h.options, h.bindings, h.nextId, h.floor_le,
        h.calls⟩
    refine .success ?_
    cases outlet with
    | none => exact ⟨h.1, hrestored h.2⟩
    | some parent => exact ⟨h.1, hrestored h.2⟩

/-! ## Evaluations -/

/-- What is put in front of an element's children makes no difference: it is only cleared. -/
theorem related_fill {element : Nat} {children unrolled : List (Node (Value Nat))}
    (hnil : children = [] → unrolled = [])
    (h : Related (Stopped allowed shared) (Lagging allowed shared scope floor pending)
      (appendAll element children) (appendAll element unrolled)
      fun _ _ => Lagging allowed shared scope floor pending) :
    Related (Stopped allowed shared) (Lagging allowed shared scope floor pending)
      (if !children.isEmpty then (do
        build (TreeBuilder.removeAllChildren element)
        appendAll element children) else pure ())
      (if !unrolled.isEmpty then (do
        build (TreeBuilder.removeAllChildren element)
        appendAll element unrolled) else pure ())
      fun _ _ => Lagging allowed shared scope floor pending := by
  intro s t hlag
  cases children with
  | nil =>
    rw [hnil rfl]
    exact .success hlag
  | cons child rest =>
    have hcleared := hlag.clear element
    cases unrolled with
    | nil =>
      have hfilled := h _ t hcleared
      simp only [appendAll] at hfilled
      exact hfilled
    | cons copy copies =>
      exact h _ _ (hcleared.clearOther element)

section

variable {outlet : Option Nat} (hscope : SettledScope shared scope)

include hscope

/-- An element appends the same children, under each of the elements it is evaluated to. -/
theorem delivers_element {header : Header (Value Nat)} {children copies : List (Node (Value Nat))}
    (hheader : ∀ value ∈ header.slots, Simple shared value) (hnil : children = [] → copies = [])
    (hfill : ∀ {floor pending element}, Waiting allowed shared floor pending →
      (shared element ∨ element < floor) →
      (∀ entry ∈ pending, entry.1 = element → shared element) →
      Related (Stopped allowed shared) (Lagging allowed shared scope floor pending)
        (appendAll element children) (appendAll element copies)
        fun _ _ => Lagging allowed shared scope floor pending) :
    Delivers allowed shared scope floor outlet (evaluateNode (.element header children))
      [.element (header.map (Value.inScope scope)) copies] := by
  refine delivers_single fun pending hpending => ?_
  rw [evaluateNode, evaluateNode]
  have hbase : ∀ value ∈ header.base.slots, Simple shared value :=
    fun value h => hheader value (by simp [Header.slots, h])
  have hattributes : ∀ value ∈ header.attributes.flatMap Attribute.slots, Simple shared value :=
    fun value h => hheader value (List.mem_append_right _ (List.mem_append_left _ h))
  have hname : ∀ value ∈ header.refName.toList.flatMap Word.slots, Simple shared value :=
    fun value h => hheader value (List.mem_append_right _ (List.mem_append_right _ h))
  refine (sameNodes_baseNodes hpending.allowed hbase hscope floor).bind fun elements elements' => ?_
  rintro s t ⟨rfl, hlag, hrecent⟩
  -- The elements are older than every node to come, so the number of nodes is the new floor.
  have hwaiting := hpending.raise hlag.floor_le
  refine Related.bind (related_each (P := Lagging allowed shared scope s.builder.nextId pending)
    fun element helement => ?_) (fun _ _ => related_pure fun s' t' h => ?_) s t hlag.raise
  · have hparent := hrecent element helement
    have hapart : ∀ entry ∈ pending, entry.1 = element → shared element := by
      intro entry hentry hsame
      rcases hpending.older entry hentry with hshared | hlt
      · exact hsame ▸ hshared
      · exact hparent.resolve_right fun h => absurd h.1 (Nat.not_le_of_lt (hsame ▸ hlt))
    refine (related_applyAttributes hpending.allowed element hattributes hscope).bind fun _ _ =>
      (related_applyRefName hpending.allowed element hname hscope).bind fun _ _ => ?_
    exact related_fill hnil (hfill hwaiting (hparent.imp_right (·.2)) hapart)
  · refine ⟨rfl, h.lower hlag.floor_le, fun node hnode => ?_⟩
    exact (hrecent node hnode).imp_right fun h' => ⟨h'.1, Nat.lt_of_lt_of_le h'.2 h.floor_le⟩

/-- An `if` has the output nodes of the branch that its condition selects. -/
theorem delivers_ifBlock {condition : Value Nat} (hcondition : Simple shared condition)
    {thenBranch elseBranch unrolled : List (Node (Value Nat))}
    (hbranch : Delivers allowed shared scope floor outlet
      (evaluateAll (if (condition.inScope scope).isTruthy then thenBranch else elseBranch))
      unrolled) :
    Delivers allowed shared scope floor outlet
      (evaluateNode (.ifBlock condition thenBranch elseBranch)) unrolled := by
  rw [evaluateNode]
  intro pending hpending s t hlag
  rw [ask_bind_apply, Context.resolve_eq_inScope hlag.scope hcondition hscope]
  have hrun := hbranch pending hpending s t hlag
  split at hrun
  · rename_i htruthy
    rw [if_pos htruthy]
    exact hrun
  · rename_i htruthy
    rw [if_neg htruthy]
    exact hrun

/-- A loop has the output nodes of the copies of its body. -/
theorem delivers_forBlock {variableName : String} {iterable : Value Nat}
    {body : List (Node (Value Nat))} (hiterable : Simple shared iterable)
    (houtlet : ∀ parent ∈ outlet, allowed ∧ (shared parent ∨ parent < floor))
    {items : List (Value Nat)} (hitems : (iterable.inScope scope).items? = some items)
    {copies : List (List (Node (Value Nat)))}
    (hcopies : (items.mapM fun item => Node.unrollAll ((variableName, item) :: scope) body) =
      some copies)
    (hbody : ∀ item ∈ items, SettledScope shared ((variableName, item) :: scope) →
      ∀ nodes, Node.unrollAll ((variableName, item) :: scope) body = some nodes →
        Delivers allowed shared ((variableName, item) :: scope) floor outlet (evaluateAll body)
          nodes) :
    Delivers allowed shared scope floor outlet (evaluateNode (.forBlock variableName iterable body))
      copies.flatten := by
  have hsettled := (hiterable.inScope hscope).of_items? hitems
  rw [evaluateNode]
  intro pending hpending s t hlag
  rw [ask_bind_apply, Context.iterationItems_eq_inScope hlag.scope hiterable hscope hitems]
  refine delivers_collect houtlet (fun item hitem nodes hnodes index => ?_) hcopies 0 pending
    hpending s t hlag
  have hinner : SettledScope shared ((variableName, item) :: scope) :=
    List.forall_mem_cons.mpr ⟨hsettled item hitem, hscope⟩
  exact (hbody item hitem hinner nodes hnodes).withVariable index

end

mutual

/-- A node has the output nodes of what it unrolls to. -/
theorem delivers_evaluateNode (node : Node (Value Nat))
    (hslots : ∀ value ∈ node.slots, Simple shared value)
    (hcontrol : node.controlBelow = true → allowed) {scope : List (String × Value Nat)}
    (hscope : SettledScope shared scope) {floor : Nat} {outlet : Option Nat}
    (houtlet : ∀ parent ∈ outlet,
      (node.isControl = true → allowed) ∧ (shared parent ∨ parent < floor))
    {unrolled : List (Node (Value Nat))} (hunroll : node.unroll scope = some unrolled) :
    Delivers allowed shared scope floor outlet (evaluateNode node) unrolled := by
  cases node with
  | element header children =>
    rw [Node.unroll] at hunroll
    simp only [Option.bind_eq_bind, Option.bind_eq_some_iff, Option.pure_def,
      Option.some.injEq] at hunroll
    obtain ⟨copies, hcopies, rfl⟩ := hunroll
    refine delivers_element hscope (fun value h => hslots value (List.mem_append_left _ h))
      (fun hnil => ?_) fun hwaiting hparent hapart => ?_
    · rw [hnil] at hcopies
      exact (Option.some.inj hcopies).symm
    · exact related_appendAll children (fun value h => hslots value (List.mem_append_right _ h))
        hcontrol hscope hwaiting hparent hapart hcopies
  | text content =>
    obtain rfl := Option.some.inj hunroll
    refine delivers_single fun pending hpending => ?_
    rw [evaluateNode]
    exact related_create hpending.allowed (fun _ => rfl) (by simp)
  | newLine =>
    obtain rfl := Option.some.inj hunroll
    refine delivers_single fun pending hpending => ?_
    rw [evaluateNode]
    exact related_create hpending.allowed (fun _ => rfl) (by simp)
  | slot value =>
    obtain rfl := Option.some.inj hunroll
    refine delivers_single fun pending hpending => ?_
    rw [evaluateNode_slot, evaluateNode_slot]
    exact sameNodes_leafNodes sameLeafNode_textNode _ hpending.allowed
      (hslots value List.mem_cons_self) hscope floor
  | ifBlock condition thenBranch elseBranch =>
    have hparents : ∀ parent ∈ outlet, allowed ∧ (shared parent ∨ parent < floor) :=
      fun parent h => ⟨(houtlet parent h).1 rfl, (houtlet parent h).2⟩
    rw [Node.unroll] at hunroll
    refine delivers_ifBlock hscope (hslots condition List.mem_cons_self) ?_
    split at hunroll
    · rename_i htruthy
      rw [if_pos htruthy]
      exact delivers_evaluateAll thenBranch (fun value h => hslots value (by simp [Node.slots, h]))
        (fun h => hcontrol (by simp [Node.controlBelow, h])) hscope hparents hunroll
    · rename_i htruthy
      rw [if_neg htruthy]
      exact delivers_evaluateAll elseBranch (fun value h => hslots value (by simp [Node.slots, h]))
        (fun h => hcontrol (by simp [Node.controlBelow, h])) hscope hparents hunroll
  | forBlock variableName iterable body =>
    have hparents : ∀ parent ∈ outlet, allowed ∧ (shared parent ∨ parent < floor) :=
      fun parent h => ⟨(houtlet parent h).1 rfl, (houtlet parent h).2⟩
    rw [Node.unroll] at hunroll
    simp only [Option.bind_eq_bind, Option.bind_eq_some_iff, Option.pure_def,
      Option.some.injEq] at hunroll
    obtain ⟨items, hitems, copies, hcopies, rfl⟩ := hunroll
    refine delivers_forBlock hscope (hslots iterable List.mem_cons_self) hparents hitems hcopies ?_
    intro item _ hinner nodes hnodes
    exact delivers_evaluateAll body (fun value h => hslots value (List.mem_cons_of_mem _ h))
      hcontrol hinner hparents hnodes

/-- Several nodes have the output nodes of what they unroll to. -/
theorem delivers_evaluateAll (nodes : List (Node (Value Nat)))
    (hslots : ∀ value ∈ Node.slotsOfAll nodes, Simple shared value)
    (hcontrol : Node.controlBelowAll nodes = true → allowed) {scope : List (String × Value Nat)}
    (hscope : SettledScope shared scope) {floor : Nat} {outlet : Option Nat}
    (houtlet : ∀ parent ∈ outlet, allowed ∧ (shared parent ∨ parent < floor))
    {unrolled : List (Node (Value Nat))} (hunroll : Node.unrollAll scope nodes = some unrolled) :
    Delivers allowed shared scope floor outlet (evaluateAll nodes) unrolled := by
  cases nodes with
  | nil =>
    obtain rfl := Option.some.inj hunroll
    rw [evaluateAll]
    exact delivers_nil
  | cons node rest =>
    rw [Node.unrollAll] at hunroll
    simp only [Option.bind_eq_bind, Option.bind_eq_some_iff, Option.pure_def,
      Option.some.injEq] at hunroll
    obtain ⟨first, hfirst, others, hothers, rfl⟩ := hunroll
    rw [evaluateAll]
    have hnode := delivers_evaluateNode node
      (fun value h => hslots value (by simp [Node.slotsOfAll, h]))
      (fun h => hcontrol (by simp [Node.controlBelowAll, h])) hscope
      (fun parent h => ⟨fun _ => (houtlet parent h).1, (houtlet parent h).2⟩) hfirst
    have hrest := delivers_evaluateAll rest
      (fun value h => hslots value (by simp [Node.slotsOfAll, h]))
      (fun h => hcontrol (by simp [Node.controlBelowAll, h])) hscope houtlet hothers
    exact hnode.append houtlet hrest

/-- The children of an element have been appended in both runs, in the end. -/
theorem related_appendAll (children : List (Node (Value Nat)))
    (hslots : ∀ value ∈ Node.slotsOfAll children, Simple shared value)
    (hcontrol : (children.any Node.isControl || Node.controlBelowAll children) = true → allowed)
    {scope : List (String × Value Nat)} (hscope : SettledScope shared scope) {floor : Nat}
    {pending : List (Nat × Nat)} (hpending : Waiting allowed shared floor pending) {parent : Nat}
    (hparent : shared parent ∨ parent < floor)
    (hapart : ∀ entry ∈ pending, entry.1 = parent → shared parent)
    {unrolled : List (Node (Value Nat))} (hunroll : Node.unrollAll scope children = some unrolled) :
    Related (Stopped allowed shared) (Lagging allowed shared scope floor pending)
      (appendAll parent children) (appendAll parent unrolled)
      fun _ _ => Lagging allowed shared scope floor pending := by
  cases children with
  | nil =>
    obtain rfl := Option.some.inj hunroll
    rw [appendAll]
    exact related_pure fun _ _ h => h
  | cons node rest =>
    rw [Node.unrollAll] at hunroll
    simp only [Option.bind_eq_bind, Option.bind_eq_some_iff, Option.pure_def,
      Option.some.injEq] at hunroll
    obtain ⟨first, hfirst, others, hothers, rfl⟩ := hunroll
    have hdeliver : (appendAll parent (first ++ others) : Evaluate CallLog Nat Unit) = (do
        let _ ← deliver (some parent) first
        appendAll parent others) := by simp [deliver, appendAll_append]
    rw [appendAll, hdeliver]
    have houtlet : ∀ other ∈ some parent,
        (node.isControl = true → allowed) ∧ (shared other ∨ other < floor) :=
      fun other h => ⟨fun hnode => hcontrol (by simp [hnode]), Option.some.inj h ▸ hparent⟩
    have hnode := delivers_evaluateNode node
      (fun value h => hslots value (by simp [Node.slotsOfAll, h]))
      (fun h => hcontrol (by simp [Node.controlBelowAll, h])) hscope houtlet hfirst
    refine Related.bind (hnode pending hpending) fun nodes nodes' => ?_
    rintro s t ⟨rfl, hlag⟩
    rw [bind_apply, each_appendChild_apply]
    refine related_appendAll rest (fun value h => hslots value (by simp [Node.slotsOfAll, h]))
      (fun h => hcontrol ?_) hscope hpending hparent hapart hothers _ _
      (hlag.catchUp hpending.allowed hapart)
    rcases (Bool.or_eq_true _ _).mp h with h | h
    · rw [List.any_cons, h, Bool.or_true, Bool.true_or]
    · rw [Node.controlBelowAll, h, Bool.or_true, Bool.or_true]

end

end CallLog

/-! ## Documents -/

section

open Call (kept appends Postpone)
open CallLog
open Evaluate (Alike)

variable [Host Nat]

/-- What the evaluation of a document asks of a new log, but for clearing nodes. -/
def Document.calls (document : Document (Value Nat)) (options : Options) : List Call :=
  kept (document.evaluate options ({} : CallLog)).2.calls.toList

end

section

open Call (appends Postpone)

attribute [local instance] Host.ofWords

end

end IndentMarkup

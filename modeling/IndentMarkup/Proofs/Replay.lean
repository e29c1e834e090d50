import IndentMarkup.CallLog
import IndentMarkup.Proofs.Forest
import IndentMarkup.Proofs.Simulation

/-! Logs and arenas. A log of requests can be replayed on an arena, its numbers naming the nodes in
the order of their creation. An evaluation that only records its requests and one that builds an
arena agree: the replay of the record is the arena, with each listener as the record shows it. -/
namespace IndentMarkup

/-! ## What a log tells of an arena -/

/-- A listener as a log shows it: its values as texts, in their display form. -/
def Listener.shown (listener : Listener) : Listener :=
  ⟨listener.event, .string listener.callback.display,
    listener.options.map fun options => .string options.display⟩

def DomNode.shown (node : DomNode) : DomNode :=
  { node with listeners := node.listeners.map Listener.shown }

namespace Dom

def shown (dom : Dom) : Dom :=
  { dom with nodes := dom.nodes.map DomNode.shown }

variable (dom : Dom)

@[simp] theorem id_shown : dom.shown.id = dom.id := rfl

@[simp] theorem size_shown : dom.shown.size = dom.size := by
  simp [shown, size]

theorem node?_shown (id : NodeId) : dom.shown.node? id = (dom.node? id).map DomNode.shown := by
  by_cases h : id.dom = dom.id <;> simp [shown, node?, h]

theorem kind?_shown (id : NodeId) : dom.shown.kind? id = dom.kind? id := by
  rw [kind?, node?_shown, Option.map_map]
  rfl

theorem parent?_shown (id : NodeId) : dom.shown.parent? id = dom.parent? id := by
  rw [parent?, node?_shown, Option.bind_map]
  rfl

theorem children_shown (id : NodeId) : dom.shown.children id = dom.children id := by
  rw [children, node?_shown, Option.map_map]
  rfl

theorem contains_shown (id : NodeId) : dom.shown.contains id = dom.contains id := by
  simp [contains]

theorem isInclusiveAncestor_shown (node descendant : NodeId) :
    dom.shown.isInclusiveAncestor node descendant = dom.isInclusiveAncestor node descendant := by
  have hwithin : ∀ height descendant, dom.shown.isAncestorWithin node height descendant =
      dom.isAncestorWithin node height descendant := by
    intro height
    induction height with
    | zero => exact fun _ => rfl
    | succ height ih =>
      intro descendant
      rw [isAncestorWithin, isAncestorWithin, parent?_shown]
      cases dom.parent? descendant with
      | none => rfl
      | some parent => simp only [ih]
  rw [isInclusiveAncestor, size_shown, hwithin, isInclusiveAncestor]

/-! ## Changes to an arena as a log shows it -/

theorem shown_insert (kind : NodeKind) :
    (dom.insert kind).2.shown = (dom.shown.insert kind).2 := by
  simp [insert, shown, DomNode.shown]

/-- A change that treats a node and its shown form alike. -/
theorem shown_modify {change change' : DomNode → DomNode}
    (h : ∀ node, (change node).shown = change' node.shown) (id : NodeId) :
    (dom.modify id change).shown = dom.shown.modify id change' := by
  by_cases hid : id.dom = dom.id
  · have hnodes : (dom.nodes.modify id.index change).map DomNode.shown =
        (dom.nodes.map DomNode.shown).modify id.index change' := by
      apply Array.ext_getElem?
      intro index
      simp only [Array.getElem?_map, Array.getElem?_modify]
      split
      · cases dom.nodes[index]? with
        | none => rfl
        | some node => exact congrArg some (h node)
      · rfl
    simp only [modify, hid, if_true, shown, hnodes]
  · simp only [modify, hid, if_false, shown]

/-- A change that does not look at the listeners. -/
theorem shown_relink {change : DomNode → DomNode}
    (h : ∀ node, (change node).shown = change node.shown) (id : NodeId) :
    (dom.modify id change).shown = dom.shown.modify id change :=
  dom.shown_modify h id

theorem shown_setAttribute (element : NodeId) (name value : String) :
    (dom.setAttribute element name value).shown = dom.shown.setAttribute element name value := by
  apply shown_modify
  intro node
  obtain ⟨kind, parent, children, listeners⟩ := node
  cases kind <;> rfl

theorem shown_addListener (node : NodeId) (listener : Listener) :
    (dom.addListener node listener).shown = dom.shown.addListener node listener.shown := by
  apply shown_modify
  intro data
  simp [DomNode.shown]

theorem shown_detach (child : NodeId) : (dom.detach child).shown = dom.shown.detach child := by
  unfold detach
  rw [parent?_shown]
  cases dom.parent? child with
  | none => rfl
  | some parent =>
    simp only
    rw [shown_relink, shown_relink]
    · intro node
      rfl
    · intro node
      rfl

theorem shown_attach (parent child : NodeId) :
    (dom.attach parent child).shown = dom.shown.attach parent child := by
  unfold attach
  rw [isInclusiveAncestor_shown]
  split
  · rfl
  · rw [shown_relink, shown_relink, shown_detach]
    · intro node
      rfl
    · intro node
      rfl

/-- Several changes that do not look at the listeners. -/
theorem shown_foldl {β : Type} {change : Dom → β → Dom}
    (h : ∀ dom item, (change dom item).shown = change dom.shown item) (items : List β) :
    (items.foldl change dom).shown = items.foldl change dom.shown := by
  induction items generalizing dom with
  | nil => rfl
  | cons item rest ih => rw [List.foldl_cons, List.foldl_cons, ih, h]

theorem shown_appendChild (parent child : NodeId) :
    (dom.appendChild parent child).shown = dom.shown.appendChild parent child := by
  unfold appendChild
  rw [contains_shown, contains_shown, kind?_shown, children_shown]
  split
  · split
    · exact shown_foldl dom (fun start node => start.shown_attach parent node) _
    · exact shown_attach dom parent child
  · rfl

theorem shown_removeAllChildren (parent : NodeId) :
    (dom.removeAllChildren parent).shown = dom.shown.removeAllChildren parent := by
  unfold removeAllChildren
  rw [children_shown]
  simp only
  rw [shown_foldl, shown_relink]
  · intro node
    rfl
  · intro start child
    rw [shown_relink]
    intro node
    rfl

end Dom

/-! ## Replaying a log -/

/-- A recorded request to an arena. Its numbers are the nodes in the order of their creation; the
display forms are all that is left of values. -/
def Call.request (arena : Nat) : Call → Dom.Request
  | .createElement _ tag => .createElement tag
  | .createText _ content => .createText content
  | .setAttribute id name value => .setAttribute ⟨arena, id⟩ name value
  | .addEventListener id event callback options =>
    .addEventListener ⟨arena, id⟩ event (.string callback) (options.map .string)
  | .appendChild parent child => .appendChild ⟨arena, parent⟩ ⟨arena, child⟩
  | .removeAllChildren id => .removeAllChildren ⟨arena, id⟩
  | .createFragment _ nodes => .createFragment (nodes.map (NodeId.mk arena))

/-- The arena that a log describes. -/
def CallLog.replay (arena : Nat) (log : CallLog) : Dom :=
  Dom.after arena (log.calls.toList.map (Call.request arena))

/-- The last request is replayed last. -/
theorem CallLog.replay_push (arena nextId : Nat) (calls : Array Call) (call : Call) :
    replay arena ⟨nextId, calls.push call⟩ =
      (call.request arena).apply (replay arena ⟨nextId, calls⟩) := by
  simp [replay, Dom.after]

/-- An arena is what a log describes, and its next node has the next number of the log. -/
structure Replays (arena : Nat) (log : CallLog) (dom : Dom) : Prop where
  same : log.replay arena = dom.shown
  id : dom.id = arena
  size : dom.size = log.nextId

namespace Replays

variable {arena : Nat} {log : CallLog} {dom : Dom}

/-- A new node is recorded under its number. -/
theorem create (h : Replays arena log dom) {call : Nat → Call} {kind : NodeKind}
    (hcall : ∀ dom : Dom, ((call log.nextId).request arena).apply dom = (dom.insert kind).2) :
    (dom.insert kind).1 = ⟨arena, (CallLog.create call log).1⟩ ∧
      Replays arena (CallLog.create call log).2 (dom.insert kind).2 := by
  constructor
  · rw [Dom.insert, h.id, h.size]
    rfl
  · constructor
    · rw [CallLog.create, CallLog.replay_push, hcall, Dom.shown_insert, ← h.same]
      rfl
    · exact h.id
    · rw [Dom.size_insert, h.size, CallLog.create]

/-- Any other change is recorded and changes no number. -/
theorem record (h : Replays arena log dom) {call : Call} {changed : Dom}
    (hcall : (call.request arena).apply dom.shown = changed.shown) (hid : changed.id = dom.id)
    (hsize : changed.size = dom.size) :
    Replays arena (CallLog.record call log).2 changed := by
  constructor
  · rw [CallLog.record, CallLog.replay_push, ← hcall, ← h.same]
  · rw [hid, h.id]
  · rw [hsize, h.size, CallLog.record]

end Replays

/-! ## The two builders -/

/-- Recording a request and fulfilling it keeps a log and an arena in step. -/
theorem simulates_replays (arena : Nat) :
    TreeBuilder.Simulates (NodeId.mk arena) (Replays arena) where
  createElement tag _ _ h := h.create fun _ => rfl
  createText content _ _ h := h.create fun _ => rfl
  setAttribute element name value _ dom h :=
    ⟨trivial, h.record (dom.shown_setAttribute _ name value).symm (dom.id_modify _ _)
      (dom.size_modify _ _)⟩
  addEventListener element event callback options _ dom h := by
    refine ⟨trivial, h.record ?_ (dom.id_modify _ _) (dom.size_modify _ _)⟩
    refine Eq.trans ?_ (dom.shown_addListener _ _).symm
    simp only [Listener.shown, Value.display_mapNodes, Option.map_map]
    cases options with
    | none => rfl
    | some options =>
      simp only [Option.map_some, Function.comp_apply, Value.display_mapNodes]
      rfl
  appendChild parent child _ dom h :=
    ⟨trivial, h.record (dom.shown_appendChild _ _).symm
      (Dom.appendChild_keeps Dom.id Dom.id_modify dom _ _)
      (Dom.appendChild_keeps Dom.size Dom.size_modify dom _ _)⟩
  removeAllChildren parent _ dom h :=
    ⟨trivial, h.record (dom.shown_removeAllChildren _).symm
      (Dom.removeAllChildren_keeps Dom.id Dom.id_modify dom _)
      (Dom.removeAllChildren_keeps Dom.size Dom.size_modify dom _)⟩

/-- **The two builders agree.** A document is evaluated once against a new log and once into a new
arena, with the numbers of its nodes, if it holds any, read as nodes of that arena. Both evaluations
succeed, with nodes and bindings of the same numbers, or both fail with the same error; and however
they end, the arena is the replay of the log, with each listener in its display form. If the slots
hold references, the functions in them must be known to do the same for both builders; without
references no function has to be known. -/
theorem evaluate_replayed [Host Nat] [Host NodeId] {known : String → Prop} (arena : Nat)
    (hagree : Host.Agree (NodeId.mk arena) known) (document : Document (Value Nat))
    (hslots : ∀ value ∈ document.slots, value.MadeOf known) (options : Options) :
    let logged := document.evaluate options ({} : CallLog)
    let built := (document.map (Value.mapNodes (NodeId.mk arena))).evaluate options
      (⟨arena, #[]⟩ : Dom)
    built.1 = logged.1.map (Evaluation.mapNodes (NodeId.mk arena)) ∧
      logged.2.replay arena = built.2.shown := by
  have hempty : Replays arena {} ⟨arena, #[]⟩ := by
    constructor
    · simp [CallLog.replay, Dom.after, Dom.shown]
    · rfl
    · rfl
  obtain ⟨hresult, hreplays⟩ :=
    document.evaluate_simulated hagree (simulates_replays arena) hslots options hempty
  exact ⟨hresult, hreplays.same⟩

/-- A list with an item for each text, which stands there between underscores, and below them a slot
that cannot be text. -/
def brokenItems : Document (Value Nat) :=
  ⟨[.element ⟨.text "ul", [.pair (.text "!click") (.slot (.host ⟨"f", true⟩))], some (.text "list")⟩
      [.forBlock "x" (.list [.string "a", .string "b"])
        [.element ⟨.text "li", [], none⟩ [.slot (.ref ["x"] (.word "wrapped"))]],
        .slot (.bool true)]]⟩

attribute [local instance] Host.ofWords in
theorem evaluate_replayed_brokenItems :
    let logged := brokenItems.evaluate {} ({} : CallLog)
    let built := (brokenItems.map (Value.mapNodes (NodeId.mk 5))).evaluate {} (⟨5, #[]⟩ : Dom)
    Host.Agree (NodeId.mk 5) (fun _ => True) ∧
      (∀ value ∈ brokenItems.slots, value.MadeOf fun _ => True) ∧
      built.1 = logged.1.map (Evaluation.mapNodes (NodeId.mk 5)) ∧
      logged.2.replay 5 = built.2.shown := by
  have hagree : Host.Agree (NodeId.mk 5) fun _ => True := Host.agree_ofWords (NodeId.mk 5)
  have hslots : ∀ value ∈ brokenItems.slots, value.MadeOf fun _ => True :=
    fun _ _ _ _ _ _ _ => trivial
  exact ⟨hagree, hslots, evaluate_replayed 5 hagree brokenItems hslots {}⟩

end IndentMarkup

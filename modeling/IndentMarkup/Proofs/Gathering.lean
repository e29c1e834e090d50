import IndentMarkup.Proofs.CallTrees
import IndentMarkup.Proofs.Handover
import IndentMarkup.Proofs.Isolation
import IndentMarkup.Rendering
import IndentMarkup.Value.Words

/-! Gathering nodes in a fragment. What an evaluation gives are different nodes on the top level of
its arena: whatever it has appended is below them. So a fragment can take them all, one after
another, and nothing but their parent changes; the fragment is written as they are. That the results
are on the top level is seen beside a call log, where each node has exactly one place. -/
namespace IndentMarkup

open Relation (TransGen)

/-! ## Documents under other names -/

section

variable {ν μ : Type} (f : ν → μ)

namespace Value

mutual

theorem nodes_mapNodes (value : Value ν) : (value.mapNodes f).nodes = value.nodes.map f := by
  cases value with
  | list items => exact nodesOfItems_mapItems items
  | map entries => exact nodesOfEntries_mapEntries entries
  | ref names projection => exact nodesOfProjection_mapProjection projection
  | _ => rfl

theorem nodesOfItems_mapItems (items : List (Value ν)) :
    nodesOfItems (mapItems f items) = (nodesOfItems items).map f := by
  cases items with
  | nil => rfl
  | cons item rest =>
    rw [mapItems, nodesOfItems, nodesOfItems, nodes_mapNodes item, nodesOfItems_mapItems rest,
      List.map_append]

theorem nodesOfEntries_mapEntries (entries : List (String × Value ν)) :
    nodesOfEntries (mapEntries f entries) = (nodesOfEntries entries).map f := by
  cases entries with
  | nil => rfl
  | cons entry rest =>
    rw [mapEntries, nodesOfEntries, nodesOfEntries, nodes_mapNodes entry.2,
      nodesOfEntries_mapEntries rest, List.map_append]

theorem nodesOfProjection_mapProjection (projection : Projection (Value ν)) :
    nodesOfProjection (mapProjection f projection) = (nodesOfProjection projection).map f := by
  cases projection with
  | first => rfl
  | closure function captured => exact nodesOfItems_mapItems captured

end

/-- The reference with other names for the nodes in it. -/
def mapReference (reference : List String × Projection (Value ν)) :
    List String × Projection (Value μ) :=
  (reference.1, mapProjection f reference.2)

mutual

theorem references_mapNodes (value : Value ν) :
    (value.mapNodes f).references = value.references.map (mapReference f) := by
  cases value with
  | list items => exact referencesOfItems_mapItems items
  | map entries => exact referencesOfEntries_mapEntries entries
  | ref names projection =>
    rw [mapNodes, references, references, referencesOfProjection_mapProjection projection,
      List.map_cons]
    rfl
  | _ => rfl

theorem referencesOfItems_mapItems (items : List (Value ν)) :
    referencesOfItems (mapItems f items) = (referencesOfItems items).map (mapReference f) := by
  cases items with
  | nil => rfl
  | cons item rest =>
    rw [mapItems, referencesOfItems, referencesOfItems, references_mapNodes item,
      referencesOfItems_mapItems rest, List.map_append]

theorem referencesOfEntries_mapEntries (entries : List (String × Value ν)) :
    referencesOfEntries (mapEntries f entries) =
      (referencesOfEntries entries).map (mapReference f) := by
  cases entries with
  | nil => rfl
  | cons entry rest =>
    rw [mapEntries, referencesOfEntries, referencesOfEntries, references_mapNodes entry.2,
      referencesOfEntries_mapEntries rest, List.map_append]

theorem referencesOfProjection_mapProjection (projection : Projection (Value ν)) :
    referencesOfProjection (mapProjection f projection) =
      (referencesOfProjection projection).map (mapReference f) := by
  cases projection with
  | first => rfl
  | closure function captured => exact referencesOfItems_mapItems captured

end

theorem isLoopReference_map (reference : List String × Projection (Value ν)) :
    isLoopReference (mapReference f reference) = isLoopReference reference := by
  obtain ⟨names, projection⟩ := reference
  rcases names with _ | ⟨name, _ | ⟨other, names⟩⟩ <;> cases projection <;> rfl

/-- A plain value without nodes stays one under other names for nodes. -/
theorem Plain.mapNodes {value : Value ν} (h : Plain (fun _ => False) value) :
    Plain (fun _ => False) (value.mapNodes f) := by
  refine ⟨fun node hnode => ?_, fun reference hreference => ?_⟩
  · rw [nodes_mapNodes] at hnode
    obtain ⟨held, hheld, -⟩ := List.mem_map.mp hnode
    exact h.nodes held hheld
  · rw [references_mapNodes] at hreference
    obtain ⟨held, hheld, rfl⟩ := List.mem_map.mp hreference
    rw [isLoopReference_map]
    exact h.references held hheld

/-- No function of the host is called for a plain value. -/
theorem Plain.madeOf {allowed : ν → Prop} {value : Value ν} (h : Plain allowed value) :
    value.MadeOf fun _ => False := by
  rintro ⟨names, projection⟩ hreference function captured rfl
  have hloop := h.references _ hreference
  rcases names with _ | ⟨name, _ | ⟨other, names⟩⟩ <;> simp [isLoopReference] at hloop

end Value

end

section

variable {α β : Type} (g : α → β)

theorem Word.slots_map (word : Word α) : (word.map g).slots = word.slots.map g := by
  cases word <;> rfl

theorem Attribute.slots_map (entry : Attribute α) : (entry.map g).slots = entry.slots.map g := by
  cases entry with
  | pair name value =>
    rw [map, slots, slots, Word.slots_map, Word.slots_map, List.map_append]
  | bare name => exact name.slots_map g
  | splat value => rfl

theorem Header.slots_map (header : Header α) : (header.map g).slots = header.slots.map g := by
  have hname : (header.refName.map (Word.map g)).toList.flatMap Word.slots =
      (header.refName.toList.flatMap Word.slots).map g := by
    cases header.refName with
    | none => rfl
    | some word => simp [Word.slots_map]
  have hattributes : (header.attributes.map (Attribute.map g)).flatMap Attribute.slots =
      (header.attributes.flatMap Attribute.slots).map g := by
    simp only [List.flatMap_map, List.map_flatMap, Attribute.slots_map]
  rw [map, slots, slots, hname, hattributes, Word.slots_map, List.map_append, List.map_append]

mutual

theorem Node.slots_map (node : Node α) : (node.map g).slots = node.slots.map g := by
  cases node with
  | element header children =>
    rw [map, slots, slots, Header.slots_map, slotsOfAll_mapAll children, List.map_append]
  | ifBlock condition thenBranch elseBranch =>
    rw [map, slots, slots, slotsOfAll_mapAll thenBranch, slotsOfAll_mapAll elseBranch,
      List.map_cons, List.map_append]
  | forBlock variableName iterable body =>
    rw [map, slots, slots, slotsOfAll_mapAll body, List.map_cons]
  | _ => rfl

theorem Node.slotsOfAll_mapAll (nodes : List (Node α)) :
    slotsOfAll (mapAll g nodes) = (slotsOfAll nodes).map g := by
  cases nodes with
  | nil => rfl
  | cons node rest =>
    rw [mapAll, slotsOfAll, slotsOfAll, slots_map node, slotsOfAll_mapAll rest, List.map_append]

end

end

namespace Dom

variable {dom : Dom} {fragment : NodeId}

/-! ## Nodes on the top level -/

/-- Different nodes of an arena that are no fragments and have no parents. -/
structure OnTop (dom : Dom) (nodes : List NodeId) : Prop where
  nodup : nodes.Nodup
  contained : ∀ node ∈ nodes, dom.contains node = true
  kind : ∀ node ∈ nodes, dom.kind? node ≠ some .fragment
  top : ∀ node ∈ nodes, dom.parent? node = none

/-- A log knows of every node with a parent that it has been appended, and of fragments there are
none. -/
structure Recorded (dom : Dom) (log : CallLog) : Prop where
  size : dom.size = log.nextId
  adopted : ∀ child parent, dom.parent? child = some parent →
    child.index ∈ Call.adopted log.calls.toList
  kind : ∀ id, dom.kind? id ≠ some .fragment

namespace Recorded

variable {log : CallLog}

theorem insert (h : Recorded dom log) {call : Nat → Call} {kind : NodeKind}
    (hkind : kind ≠ .fragment) :
    (CallLog.create call log).1 = (dom.insert kind).1.index ∧
      Recorded (dom.insert kind).2 (CallLog.create call log).2 := by
  refine ⟨h.size.symm, ?_, fun child parent hchild => ?_, fun id => ?_⟩
  · rw [size_insert, h.size, CallLog.create]
  · rw [parent?_insert] at hchild
    have hold := h.adopted child parent hchild
    simp only [CallLog.create, Array.toList_push, Call.adopted, List.filterMap_append]
    exact List.mem_append_left _ hold
  · rw [kind?_insert]
    split
    · exact fun heq => hkind (Option.some.inj heq)
    · exact h.kind id

/-- A change under which no node gets a parent unless the call says so. -/
theorem record (h : Recorded dom log) {call : Call} {changed : Dom}
    (hsize : changed.size = dom.size) (hkind : ∀ id, changed.kind? id ≠ some .fragment)
    (hparent : ∀ child parent, changed.parent? child = some parent →
      dom.parent? child = some parent ∨ call.adopted? = some child.index) :
    Recorded changed (CallLog.record call log).2 := by
  refine ⟨hsize.trans h.size, fun child parent hchild => ?_, hkind⟩
  simp only [CallLog.record, Array.toList_push, Call.adopted, List.filterMap_append,
    List.mem_append]
  rcases hparent child parent hchild with hold | hnew
  · exact .inl (h.adopted child parent hold)
  · exact .inr (by simp [hnew])

/-- A change of one node that leaves its place. -/
theorem record_modify (h : Recorded dom log) {call : Call} {change : DomNode → DomNode}
    (hparent : ∀ node, (change node).parent = node.parent)
    (hkind : ∀ node, (change node).kind = .fragment → node.kind = .fragment) (id : NodeId) :
    Recorded (dom.modify id change) (CallLog.record call log).2 := by
  refine h.record (size_modify dom id change) (fun other hother => ?_) fun child parent hchild => ?_
  · rw [kind?_modify] at hother
    split at hother
    · obtain ⟨node, hnode, hfragment⟩ := Option.map_eq_some_iff.mp hother
      exact h.kind other (by rw [kind?, hnode, Option.map_some, hkind node hfragment])
    · exact h.kind other hother
  · rw [parent?_modify hparent] at hchild
    exact .inl hchild

end Recorded

/-- A node that is no fragment is appended itself. -/
theorem appendChild_eq_attach {child : NodeId} (h : dom.kind? child ≠ some .fragment)
    (parent : NodeId) :
    dom.appendChild parent child =
      if dom.contains parent && dom.contains child then dom.attach parent child else dom := by
  unfold appendChild
  congr 1
  split
  · rename_i hfragment
    exact absurd hfragment h
  · rfl

/-- A node that gets a parent when a node is appended is the appended one. -/
theorem parent?_appendChild {parent child id above : NodeId} (h : dom.kind? child ≠ some .fragment)
    (hid : (dom.appendChild parent child).parent? id = some above) :
    dom.parent? id = some above ∨ id = child := by
  rw [appendChild_eq_attach h] at hid
  split at hid
  · rename_i hcontains
    have hchild : dom.contains child = true := (Bool.and_eq_true _ _ ▸ hcontains).2
    cases hmove : dom.isInclusiveAncestor child parent with
    | true =>
      rw [attach_of_ancestor hmove] at hid
      exact .inl hid
    | false =>
      rw [parent?_attach hmove hchild] at hid
      by_cases hself : id = child
      · exact .inr hself
      · rw [if_neg hself] at hid
        exact .inl hid
  · exact .inl hid

theorem kind?_appendChild (parent child id : NodeId) (h : dom.kind? child ≠ some .fragment) :
    (dom.appendChild parent child).kind? id = dom.kind? id := by
  rw [appendChild_eq_attach h]
  split
  · exact kind?_attach dom parent child id
  · rfl

/-- The actions of an arena, and their record. -/
theorem simulates_recorded : TreeBuilder.Simulates NodeId.index Recorded where
  createElement tag _ _ h := h.insert (by simp)
  createText content _ _ h := h.insert (by simp)
  setAttribute element name value dom _ h := by
    refine ⟨trivial, h.record_modify (fun node => ?_) (fun node hkind => ?_) element⟩
    · split <;> rfl
    · split at hkind
      · contradiction
      · exact hkind
  addEventListener element event callback options dom _ h := by
    refine ⟨trivial, h.record_modify (fun node => ?_) (fun node hkind => ?_) element⟩
    · rfl
    · exact hkind
  appendChild parent child dom _ h := by
    have hchild := h.kind child
    refine ⟨trivial, h.record (appendChild_keeps size size_modify dom parent child) (fun id => ?_)
      fun id above hid => ?_⟩
    · exact (kind?_appendChild parent child id hchild).symm ▸ h.kind id
    · rcases parent?_appendChild hchild hid with hold | rfl
      · exact .inl hold
      · exact .inr rfl
  removeAllChildren parent dom _ h := by
    refine ⟨trivial, h.record (removeAllChildren_keeps size size_modify dom parent)
      (fun id => ?_) fun id above hid => .inl ?_⟩
    · exact (kind?_removeAllChildren dom parent id).symm ▸ h.kind id
    · have hid : (if id ∈ dom.children parent then none else dom.parent? id) = some above :=
        (parent?_removeAllChildren dom parent id).symm.trans hid
      split at hid
      · contradiction
      · exact hid

theorem recorded_empty (arena : Nat) : Recorded ⟨arena, #[]⟩ {} := by
  have hnode : ∀ id, (⟨arena, #[]⟩ : Dom).node? id = none := by simp [node?]
  exact ⟨rfl, by simp [parent?, hnode], by simp [kind?, hnode]⟩

end Dom

/-- What an evaluation into a new arena gives is on the top level: a result is pending in the log to
the end, and what the log has appended is not. -/
theorem Document.onTop [Host NodeId] {document : Document (Value NodeId)} {options : Options}
    {arena : Nat}
    (hslots : ∀ value ∈ document.slots, Value.Plain (fun _ => False) value)
    {evaluation : Evaluation NodeId} {dom : Dom}
    (h : document.evaluate options (⟨arena, #[]⟩ : Dom) = (.ok evaluation, dom)) :
    dom.OnTop evaluation.nodes := by
  -- Nothing calls a function of the host, so the log may have any host.
  let _ : Host Nat := ⟨fun _ _ _ => .absent⟩
  obtain ⟨hlogged, hrecorded⟩ :=
    document.evaluate_simulated (Host.agree_none NodeId.index) Dom.simulates_recorded
      (fun value hvalue => (hslots value hvalue).madeOf) options (Dom.recorded_empty arena)
  obtain ⟨hmade, -⟩ := document.supplies Dom.makes_contains options hslots h
  rw [h] at hlogged hrecorded
  have hready : CallLog.Ready 0 [] ⟨({} : CallLog), { options }, []⟩ :=
    ⟨CallLog.sound_empty, List.Perm.refl _, Context.allVariables_fresh _ options, Nat.zero_le _⟩
  obtain ⟨state, hnodes, hlog, -⟩ := Document.of_evaluate_ok (Prod.ext hlogged rfl)
  have hplain : ∀ value ∈ Node.slotsOfAll (document.map (Value.mapNodes NodeId.index)).children,
      Value.Plain (fun _ => False) value := by
    intro value hvalue
    rw [Document.map, Node.slotsOfAll_mapAll] at hvalue
    obtain ⟨written, hwritten, rfl⟩ := List.mem_map.mp hvalue
    exact (hslots written hwritten).mapNodes NodeId.index
  obtain ⟨hend, -⟩ := CallLog.yields_evaluateAll _ hplain 0 [] _ hready _ state hnodes
  have hplaced : (evaluation.nodes.map NodeId.index ++
      Call.adopted state.builder.calls.toList).Nodup :=
    hend.placed.nodup_iff.mpr List.nodup_range
  obtain ⟨hnodup, -, hapart⟩ := List.nodup_append.mp hplaced
  rw [hlog] at hapart
  refine ⟨hnodup.of_map _, hmade, fun node _ => hrecorded.kind node, fun node hnode => ?_⟩
  cases hparent : dom.parent? node with
  | none => rfl
  | some parent =>
    exact absurd rfl
      (hapart _ (List.mem_map_of_mem hnode) _ (hrecorded.adopted node parent hparent))

namespace Dom

variable {dom after : Dom} {fragment : NodeId} {nodes : List NodeId}

/-! ## Taking nodes into a fragment -/

theorem OnTop.tail {node : NodeId} (h : dom.OnTop (node :: nodes)) : dom.OnTop nodes :=
  ⟨(List.nodup_cons.mp h.nodup).2,
    fun other hother => h.contained other (List.mem_cons_of_mem _ hother),
    fun other hother => h.kind other (List.mem_cons_of_mem _ hother),
    fun other hother => h.top other (List.mem_cons_of_mem _ hother)⟩

/-- A node on the top level goes to the end of a fragment. The others stay on the top level. -/
theorem OnTop.appendChild {node : NodeId} (h : dom.Forest)
    (hfragment : dom.kind? fragment = some .fragment) (hnodes : dom.OnTop (node :: nodes)) :
    (dom.appendChild fragment node).OnTop nodes ∧
      ∀ id, (dom.appendChild fragment node).node? id = (dom.node? id).map fun data =>
        { data with
          parent := if id = node then some fragment else data.parent
          children := data.children ++ if id = fragment then [node] else [] } := by
  obtain ⟨hnew, -⟩ := List.nodup_cons.mp hnodes.nodup
  have hkind := hnodes.kind node List.mem_cons_self
  have htop := hnodes.top node List.mem_cons_self
  have hchild := hnodes.contained node List.mem_cons_self
  have hne : fragment ≠ node := fun heq => hkind (heq ▸ hfragment)
  have hmove : dom.isInclusiveAncestor node fragment = false := by
    rw [isInclusiveAncestor_eq h, h.fragments fragment hfragment]
    simpa using hne
  have happend : dom.appendChild fragment node = dom.attach fragment node := by
    rw [appendChild_eq_attach hkind, contains_of_kind? hfragment, hchild]
    rfl
  rw [happend]
  refine ⟨⟨hnodes.tail.nodup, fun other hother => ?_, fun other hother => ?_,
    fun other hother => ?_⟩, fun id => ?_⟩
  · rw [contains_attach]
    exact hnodes.tail.contained other hother
  · rw [kind?_attach]
    exact hnodes.tail.kind other hother
  · have hother' : other ≠ node := fun heq => hnew (heq ▸ hother)
    rw [parent?_attach hmove hchild, if_neg hother']
    exact hnodes.tail.top other hother
  · rw [node?_attach hmove, htop]
    rfl

/-- Nodes on the top level go to the end of a fragment one after another. -/
theorem OnTop.gather (h : dom.Forest) (hfragment : dom.kind? fragment = some .fragment)
    (hnodes : dom.OnTop nodes) (id : NodeId) :
    (nodes.foldl (fun dom node => dom.appendChild fragment node) dom).node? id =
      (dom.node? id).map fun data =>
        { data with
          parent := if id ∈ nodes then some fragment else data.parent
          children := data.children ++ if id = fragment then nodes else [] } := by
  induction nodes generalizing dom with
  | nil => cases hnode : dom.node? id <;> simp [hnode]
  | cons node nodes ih =>
    obtain ⟨hrest, hfirst⟩ := hnodes.appendChild h hfragment
    have hstill : (dom.appendChild fragment node).kind? fragment = some .fragment := by
      rw [kind?_appendChild fragment node fragment (hnodes.kind node List.mem_cons_self), hfragment]
    rw [List.foldl_cons, ih (forest_appendChild h fragment node) hstill hrest, hfirst,
      Option.map_map]
    cases dom.node? id with
    | none => rfl
    | some data =>
      have hparent : (if id ∈ nodes then some fragment
          else if id = node then some fragment else data.parent) =
          if id ∈ node :: nodes then some fragment else data.parent := by
        simp only [List.mem_cons]
        grind
      have hchildren : (data.children ++ if id = fragment then [node] else []) ++
          (if id = fragment then nodes else []) =
          data.children ++ if id = fragment then node :: nodes else [] := by
        by_cases hid : id = fragment <;> simp [hid]
      simp only [Option.map_some, Function.comp_apply, hparent, hchildren]

theorem size_createFragment (dom : Dom) (nodes : List NodeId) :
    (dom.createFragment nodes).2.size = dom.size + 1 := by
  rw [← size_insert dom .fragment]
  exact foldl_keeps size (fun dom node => appendChild_keeps size size_modify dom _ node) nodes _

/-- After these nodes have been gathered in a new fragment. -/
structure Gathered (dom after : Dom) (fragment : NodeId) (nodes : List NodeId) : Prop where
  new : dom.contains fragment = false
  kind : after.kind? fragment = some .fragment
  place : after.parent? fragment = none
  children : after.children fragment = nodes
  /-- The nodes have a parent now, and are as they were otherwise. -/
  moved : ∀ node ∈ nodes, after.node? node =
    (dom.node? node).map fun data => { data with parent := some fragment }
  /-- What stands below them is not changed. -/
  below : ∀ node ∈ nodes, ∀ id, TransGen dom.IsChild id node → after.node? id = dom.node? id
  others : ∀ id, id ≠ fragment → id ∉ nodes → after.node? id = dom.node? id

/-- A new fragment is no node on the top level of the arena before it. -/
theorem OnTop.ne_fragment (hnodes : dom.OnTop nodes) :
    ∀ node ∈ nodes, node ≠ (dom.createFragment nodes).1 := by
  rintro node hnode rfl
  have hcontains := hnodes.contained _ hnode
  have hnew : dom.node? (dom.createFragment nodes).1 = none := node?_inserted dom .fragment
  rw [contains_eq_isSome, hnew] at hcontains
  contradiction

/-- What a new fragment that takes nodes on the top level does to every node. -/
theorem OnTop.node?_createFragment (h : dom.Forest) (hnodes : dom.OnTop nodes) (id : NodeId) :
    (dom.createFragment nodes).2.node? id =
      if id = (dom.createFragment nodes).1 then some ⟨.fragment, none, nodes, []⟩
      else if id ∈ nodes then
        (dom.node? id).map fun data => { data with parent := some (dom.createFragment nodes).1 }
      else dom.node? id := by
  have hne : ∀ node ∈ nodes, node ≠ (dom.insert .fragment).1 := hnodes.ne_fragment
  have hkind : (dom.insert .fragment).2.kind? (dom.insert .fragment).1 = some .fragment := by
    rw [kind?_insert, if_pos rfl]
  have htop : (dom.insert .fragment).2.OnTop nodes := by
    refine ⟨hnodes.nodup, fun node hnode => contains_insert dom _ (hnodes.contained node hnode),
      fun node hnode => ?_, fun node hnode => ?_⟩
    · rw [kind?_insert, if_neg (hne node hnode)]
      exact hnodes.kind node hnode
    · rw [parent?_insert]
      exact hnodes.top node hnode
  refine (htop.gather (forest_insert h (by simp)) hkind id).trans ?_
  rw [node?_insert]
  show _ = if id = (dom.insert .fragment).1 then _ else _
  by_cases hid : id = (dom.insert .fragment).1
  · have hmem : id ∉ nodes := fun hmem => hne id hmem hid
    simp only [if_pos hid, if_neg hmem, Option.map_some, List.nil_append]
  · simp only [if_neg hid, List.append_nil]
    split
    · rfl
    · exact Option.map_id'

/-- Nodes on the top level are gathered by a new fragment. -/
theorem OnTop.gathered (h : dom.Forest) (hnodes : dom.OnTop nodes) :
    Gathered dom (dom.createFragment nodes).2 (dom.createFragment nodes).1 nodes := by
  have hnew : dom.node? (dom.createFragment nodes).1 = none := node?_inserted dom .fragment
  have hself : (dom.createFragment nodes).2.node? (dom.createFragment nodes).1 =
      some ⟨.fragment, none, nodes, []⟩ := by
    rw [hnodes.node?_createFragment h, if_pos rfl]
  have hothers : ∀ id, id ≠ (dom.createFragment nodes).1 → id ∉ nodes →
      (dom.createFragment nodes).2.node? id = dom.node? id := by
    intro id hid hmem
    rw [hnodes.node?_createFragment h, if_neg hid, if_neg hmem]
  -- What has a parent before is neither the fragment nor gathered by it.
  have hplaced : ∀ id parent, dom.IsChild id parent →
      id ≠ (dom.createFragment nodes).1 ∧ id ∉ nodes := by
    refine fun id parent hstep => ⟨fun heq => ?_, fun hmem => ?_⟩
    · rw [IsChild, parent?, heq, hnew] at hstep
      contradiction
    · rw [IsChild, hnodes.top id hmem] at hstep
      contradiction
  refine ⟨?_, ?_, ?_, ?_, fun node hnode => ?_, fun node hnode id hbelow => ?_, hothers⟩
  · rw [contains_eq_isSome, hnew]
    rfl
  · rw [kind?, hself]
    rfl
  · rw [parent?, hself]
    rfl
  · rw [children, hself]
    rfl
  · rw [hnodes.node?_createFragment h, if_neg (hnodes.ne_fragment node hnode), if_pos hnode]
  · obtain ⟨parent, hstep, -⟩ := Relation.TransGen.head'_iff.mp hbelow
    obtain ⟨hid, hmem⟩ := hplaced id parent hstep
    exact hothers id hid hmem

/-- The fragment is written as the nodes were that it has gathered. -/
theorem Gathered.html (h : dom.Forest) (hafter : after.Forest) (hsize : dom.size ≤ after.size)
    (hnodes : dom.OnTop nodes) (hgathered : Gathered dom after fragment nodes) :
    after.html [fragment] = dom.html nodes := by
  have hlook : ∀ id, dom.contains id = true →
      after.kind? id = dom.kind? id ∧ after.children id = dom.children id := by
    intro id hid
    have hne : id ≠ fragment := by
      rintro rfl
      rw [hgathered.new] at hid
      contradiction
    unfold kind? Dom.children
    by_cases hmem : id ∈ nodes
    · rw [hgathered.moved id hmem, Option.map_map, Option.map_map]
      exact ⟨rfl, rfl⟩
    · rw [hgathered.others id hne hmem]
      exact ⟨rfl, rfl⟩
  have hone : ∀ node ∈ nodes, after.html [node] = dom.html [node] := by
    intro node hnode
    refine html_of_view (f := fun id => id) (P := fun id => dom.contains id = true) h hsize
      (fun id _ child hchild => ?_) (fun id hid => (hlook id hid).1) (fun id hid => ?_)
      (hnodes.contained node hnode)
    · exact (h.contained child id ((h.mem_children child id).mp hchild)).1
    · rw [(hlook id hid).2, List.map_id']
  rw [html_eq hafter, hgathered.kind]
  simp only [hgathered.children]
  rw [html_eq_join after, html_eq_join dom, List.map_congr_left hone]

end Dom

/-! ## Results in a fragment -/

/-- The results of an evaluation into a new arena can be gathered, and are written alike. -/
theorem gathered_of_evaluate [Host NodeId] {source : Source (Value NodeId)} {options : Options}
    (hslots : ∀ value ∈ source.slots, value.nodes = [] ∧
      ∀ reference ∈ value.references, Value.isLoopReference reference = true)
    {arena : Nat} {document : Document (Value NodeId)} {evaluation : Evaluation NodeId} {dom : Dom}
    (hparse : parse source = .ok document)
    (hrun : document.evaluate options (⟨arena, #[]⟩ : Dom) = (.ok evaluation, dom)) :
    (dom.createFragment evaluation.nodes).2.html [(dom.createFragment evaluation.nodes).1] =
        dom.html evaluation.nodes ∧ dom.OnTop evaluation.nodes ∧
      Dom.Gathered dom (dom.createFragment evaluation.nodes).2
        (dom.createFragment evaluation.nodes).1 evaluation.nodes := by
  have hplain : ∀ value ∈ document.slots, Value.Plain (fun _ => False) value := by
    intro value hvalue
    have hordered := (Parser.accounts_document (parse_eq_ok.mp hparse)).ordered
    obtain ⟨hnodes, hreferences⟩ := hslots value (hordered.subset (List.mem_append_left _ hvalue))
    exact ⟨by simp [hnodes], hreferences⟩
  have htop := Document.onTop hplain hrun
  have hforest : dom.Forest := by
    have hkept := document.keeps_evaluate Dom.keeps_forest options (Dom.forest_empty arena)
    rwa [hrun] at hkept
  have hgathered := htop.gathered hforest
  have hsize := Dom.size_createFragment dom evaluation.nodes
  exact ⟨hgathered.html hforest (Dom.forest_createFragment hforest _) (hsize ▸ Nat.le_succ _) htop,
    htop, hgathered⟩

/-- **A fragment changes nothing.** The slots of a source hold no nodes, and no references but to
loop variables. Then its html is the same with its results gathered in a fragment or without. The
results of an evaluation into a new arena are different nodes without parents; the fragment has
exactly these as its children, in their order, and apart from the new parent of each, no node is
changed. -/
theorem fragment_keeps_html [Host NodeId] (source : Source (Value NodeId)) (options : Options)
    (hslots : ∀ value ∈ source.slots, value.nodes = [] ∧
      ∀ reference ∈ value.references, Value.isLoopReference reference = true) :
    (Rendering.ofSource source options).map Rendering.fragmentHtml = renderHtml source options ∧
      ∀ arena document evaluation dom, parse source = .ok document →
        document.evaluate options (⟨arena, #[]⟩ : Dom) = (.ok evaluation, dom) →
        let (fragment, after) := evaluation.fragment.run dom
        after.html [fragment] = dom.html evaluation.nodes ∧ dom.OnTop evaluation.nodes ∧
          Dom.Gathered dom after fragment evaluation.nodes := by
  refine ⟨?_, fun _ _ _ _ hparse hrun => gathered_of_evaluate hslots hparse hrun⟩
  unfold renderHtml Rendering.ofSource
  cases hparse : parse source with
  | error error => rfl
  | ok document =>
    simp only [Except.mapError, bind, Except.bind]
    generalize hrun : document.evaluate options ({} : Dom) = run
    obtain ⟨result, dom⟩ := run
    cases result with
    | error error => rfl
    | ok evaluation =>
      obtain ⟨hhtml, -⟩ := gathered_of_evaluate hslots hparse hrun
      exact congrArg Except.ok hhtml

/-- Two lists from a nested list of tags, filled by a loop, and a text. -/
def Source.listsSample : Source (Value NodeId) :=
  [.slot (.list [.string "ul", .list [.string "ol"]])] ++
    Source.ofText "@list\n  - for x of " ++ [.slot (.list [.string "a", .absent])] ++
    Source.ofText "\n    li " ++ [.slot (Value.variableRef "x")] ++ Source.ofText "\n| end\n"

def Document.listsSample : Document (Value NodeId) :=
  ⟨[.element ⟨.slot (.list [.string "ul", .list [.string "ol"]]), [], some (.text "list")⟩
    [.forBlock "x" (.list [.string "a", .absent])
      [.element ⟨.text "li", [], none⟩ [.slot (Value.variableRef "x")]]],
    .text "end"]⟩

attribute [local instance] Host.ofWords in
theorem fragment_keeps_html_listsSample :
    let html := "<ul><li>a</li><li></li></ul><ol><li>a</li><li></li></ol>end"
    (∀ value ∈ Source.listsSample.slots, value.nodes = [] ∧
        ∀ reference ∈ value.references, Value.isLoopReference reference = true) ∧
      renderHtml Source.listsSample {} = .ok html ∧
      (Rendering.ofSource Source.listsSample {}).map Rendering.fragmentHtml = .ok html ∧
      ∃ (evaluation : Evaluation NodeId) (dom : Dom), evaluation.nodes = [⟨0, 0⟩, ⟨0, 1⟩, ⟨0, 10⟩] ∧
        Dom.Gathered dom (evaluation.fragment.run dom).2 (evaluation.fragment.run dom).1
          evaluation.nodes := by
  intro html
  have hslots : ∀ value ∈ Source.listsSample.slots, value.nodes = [] ∧
      ∀ reference ∈ value.references, Value.isLoopReference reference = true := by decide
  have hparse : parse Source.listsSample = .ok Document.listsSample := by with_unfolding_all rfl
  have hloop : Value.isLoopName "x" = true := by decide
  have hends : let run := Document.listsSample.evaluate {} ({} : Dom)
      run.1.map (fun evaluation => (evaluation.nodes, run.2.html evaluation.nodes)) =
        .ok ([⟨0, 0⟩, ⟨0, 1⟩, ⟨0, 10⟩], html) := by
    simp only [Document.listsSample, Document.evaluate, Document.run, ExceptT.run, evaluateAll,
      evaluateNode, baseNodes, applyAttributes, applyRefName, appendAll, iterationItems,
      Evaluate.each, Evaluate.collect, Evaluate.bind_apply, Evaluate.pure_apply, Evaluate.ask_apply,
      Evaluate.build_apply, Evaluate.note_apply, Evaluate.bindNode_apply, Evaluate.request_apply,
      Evaluate.withVariable_apply, Requests.bind_apply, Requests.pure_apply, Requests.ask_apply,
      elementNodes, elementNodes._go, textNodes, textNodes._go, List.mapM_cons, List.mapM_nil, List.flatten_cons, List.flatten_nil,
      List.cons_append, List.nil_append, List.zipIdx, AttributeSet.build, AttributeSet.addAll,
      Word.value, List.isEmpty, Bool.not_false, if_true, Context.resolve_list,
      Context.resolve_string, Context.resolve_absent,
      Context.resolve_variableRef_setVariable _ hloop]
    decide +kernel
  obtain ⟨hsame, hgathered⟩ := fragment_keeps_html Source.listsSample {} hslots
  rcases hrun : Document.listsSample.evaluate {} ({} : Dom) with ⟨error | evaluation, dom⟩
  · simp [hrun, Except.map] at hends
  · obtain ⟨hnodes, hwritten⟩ : evaluation.nodes = _ ∧ dom.html evaluation.nodes = html := by
      simpa [hrun, Except.map] using hends
    have hhtml : renderHtml Source.listsSample {} = .ok html := by
      simp [renderHtml, Rendering.ofSource, Rendering.html, hparse, hrun, hwritten, Except.mapError,
        Except.map, bind, Except.bind, pure, Except.pure]
    obtain ⟨-, -, hfragment⟩ := hgathered 0 _ evaluation dom hparse hrun
    exact ⟨hslots, hhtml, hsame.trans hhtml, evaluation, dom, hnodes, hfragment⟩

end IndentMarkup

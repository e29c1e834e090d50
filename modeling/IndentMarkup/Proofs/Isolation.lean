import IndentMarkup.Proofs.Forest
import IndentMarkup.Proofs.OwnNodes
import IndentMarkup.Proofs.Simulation
import IndentMarkup.Value.Words

/-! Isolation. An evaluation into an arena that has nodes already goes as it does into an empty one:
its nodes get the numbers behind those in use, and apart from that they are the same. What was
there before is not touched, whether the evaluation succeeds or fails. -/
namespace IndentMarkup

/-! ## Documents without nodes -/

section

variable {ν : Type} (f : ν → ν)

namespace Value

mutual

/-- Where there are no nodes, other names for nodes make no difference. -/
theorem mapNodes_of_nodes (value : Value ν) (h : value.nodes = []) : value.mapNodes f = value := by
  cases value with
  | node held => contradiction
  | list items => rw [mapNodes, mapItems_of_nodes items h]
  | map entries => rw [mapNodes, mapEntries_of_nodes entries h]
  | ref names projection => rw [mapNodes, mapProjection_of_nodes projection h]
  | _ => rfl

theorem mapItems_of_nodes (items : List (Value ν)) (h : nodesOfItems items = []) :
    mapItems f items = items := by
  cases items with
  | nil => rfl
  | cons item rest =>
    obtain ⟨hitem, hrest⟩ := List.append_eq_nil_iff.mp h
    rw [mapItems, mapNodes_of_nodes item hitem, mapItems_of_nodes rest hrest]

theorem mapEntries_of_nodes (entries : List (String × Value ν)) (h : nodesOfEntries entries = []) :
    mapEntries f entries = entries := by
  cases entries with
  | nil => rfl
  | cons entry rest =>
    obtain ⟨hentry, hrest⟩ := List.append_eq_nil_iff.mp h
    rw [mapEntries, mapNodes_of_nodes entry.2 hentry, mapEntries_of_nodes rest hrest]

theorem mapProjection_of_nodes (projection : Projection (Value ν))
    (h : nodesOfProjection projection = []) : mapProjection f projection = projection := by
  cases projection with
  | first => rfl
  | closure function captured => rw [mapProjection, mapItems_of_nodes captured h]

end

end Value

end

section

variable {α : Type} {g : α → α}

theorem Word.map_of_fixed {word : Word α} (h : ∀ value ∈ word.slots, g value = value) :
    word.map g = word := by
  cases word with
  | text content => rfl
  | slot value => rw [map, h value List.mem_cons_self]

theorem Attribute.map_of_fixed {entry : Attribute α} (h : ∀ value ∈ entry.slots, g value = value) :
    entry.map g = entry := by
  cases entry with
  | pair name value =>
    rw [map, Word.map_of_fixed fun slot hslot => h slot (List.mem_append_left _ hslot),
      Word.map_of_fixed fun slot hslot => h slot (List.mem_append_right _ hslot)]
  | bare name => rw [map, Word.map_of_fixed h]
  | splat value => rw [map, h value List.mem_cons_self]

theorem Header.map_of_fixed {header : Header α} (h : ∀ value ∈ header.slots, g value = value) :
    header.map g = header := by
  obtain ⟨base, attributes, refName⟩ := header
  have hbase : base.map g = base :=
    Word.map_of_fixed fun slot hslot => h slot (by simp [slots, hslot])
  have hattributes : attributes.map (Attribute.map g) = attributes := by
    refine (List.map_congr_left fun entry hentry => ?_).trans (List.map_id attributes)
    refine Attribute.map_of_fixed fun slot hslot => h slot ?_
    have hmem := List.mem_flatMap_of_mem hentry hslot
    simp [slots, hmem]
  have hname : refName.map (Word.map g) = refName := by
    cases refName with
    | none => rfl
    | some word =>
      rw [Option.map_some, Word.map_of_fixed fun slot hslot => h slot (by simp [slots, hslot])]
  rw [map, hbase, hattributes, hname]

mutual

theorem Node.map_of_fixed (node : Node α) (h : ∀ value ∈ node.slots, g value = value) :
    node.map g = node := by
  cases node with
  | element header children =>
    rw [map, Header.map_of_fixed fun slot hslot => h slot (by simp [slots, hslot]),
      mapAll_of_fixed children fun slot hslot => h slot (by simp [slots, hslot])]
  | text content => rfl
  | newLine => rfl
  | slot value => rw [map, h value List.mem_cons_self]
  | ifBlock condition thenBranch elseBranch =>
    rw [map, h condition List.mem_cons_self,
      mapAll_of_fixed thenBranch fun slot hslot => h slot (by simp [slots, hslot]),
      mapAll_of_fixed elseBranch fun slot hslot => h slot (by simp [slots, hslot])]
  | forBlock variableName iterable body =>
    rw [map, h iterable List.mem_cons_self,
      mapAll_of_fixed body fun slot hslot => h slot (by simp [slots, hslot])]

theorem Node.mapAll_of_fixed (nodes : List (Node α))
    (h : ∀ value ∈ slotsOfAll nodes, g value = value) : mapAll g nodes = nodes := by
  cases nodes with
  | nil => rfl
  | cons node rest =>
    rw [mapAll, map_of_fixed node fun slot hslot => h slot (by simp [slotsOfAll, hslot]),
      mapAll_of_fixed rest fun slot hslot => h slot (by simp [slotsOfAll, hslot])]

end

/-- A change that spares the slots of a document spares the document. -/
theorem Document.map_of_fixed {document : Document α}
    (h : ∀ value ∈ document.slots, g value = value) : document.map g = document := by
  rw [map, Node.mapAll_of_fixed document.children h]

end

/-! ## Nodes under other names -/

def Listener.rename (f : NodeId → NodeId) (listener : Listener) : Listener :=
  ⟨listener.event, listener.callback.mapNodes f, listener.options.map (Value.mapNodes f)⟩

def DomNode.rename (f : NodeId → NodeId) (node : DomNode) : DomNode :=
  ⟨node.kind, node.parent.map f, node.children.map f, node.listeners.map (Listener.rename f)⟩

namespace Dom

/-! ## Bounds that are higher than needed -/

theorem WaysEnd.succ {step : NodeId → NodeId → Prop} {length : Nat} {node : NodeId}
    (h : WaysEnd step length node) : WaysEnd step (length + 1) node := by
  induction length generalizing node with
  | zero => exact fun next hstep => absurd hstep (h next)
  | succ length ih => exact fun next hstep => ih (h next hstep)

theorem WaysEnd.add {step : NodeId → NodeId → Prop} {length : Nat} {node : NodeId}
    (h : WaysEnd step length node) (more : Nat) : WaysEnd step (length + more) node := by
  induction more with
  | zero => exact h
  | succ more ih => exact ih.succ

/-- In a forest the walk to the ancestors finds no more with a higher bound. -/
theorem isAncestorWithin_add {dom : Dom} (h : dom.Forest) (node descendant : NodeId) (more : Nat) :
    dom.isAncestorWithin node (dom.size + more) descendant =
      dom.isInclusiveAncestor node descendant := by
  induction more with
  | zero => rfl
  | succ more ih =>
    rw [← Nat.add_assoc, isAncestorWithin_succ ((h.waysEnd_up descendant).add more), ih]

/-- In a forest the unfolding to a tree finds no more with a higher bound. -/
theorem treeWithin_add {dom : Dom} (h : dom.Forest) (id : NodeId) (more : Nat) :
    dom.treeWithin (dom.size + more) id = dom.tree id := by
  induction more with
  | zero => rfl
  | succ more ih =>
    rw [← Nat.add_assoc, treeWithin_succ h ((h.waysEnd_down id).add more), ih]

/-- Where nodes of one arena are seen in a larger one under other names, they have the same html
there. -/
theorem html_of_view {small large : Dom} {f : NodeId → NodeId} {P : NodeId → Prop}
    (hforest : small.Forest) (hsize : small.size ≤ large.size)
    (hclosed : ∀ id, P id → ∀ child ∈ small.children id, P child)
    (hkind : ∀ id, P id → large.kind? (f id) = small.kind? id)
    (hchildren : ∀ id, P id → large.children (f id) = (small.children id).map f) {id : NodeId}
    (hid : P id) : large.html [f id] = small.html [id] := by
  have hwithin : ∀ depth id, P id → large.treeWithin depth (f id) = small.treeWithin depth id := by
    intro depth
    induction depth with
    | zero =>
      intro id hid
      rw [treeWithin, treeWithin, hkind id hid]
    | succ depth ih =>
      intro id hid
      have hbelow : ((small.children id).map f).map (large.treeWithin depth) =
          (small.children id).map (small.treeWithin depth) := by
        rw [List.map_map]
        exact List.map_congr_left fun child hchild => ih child (hclosed id hid child hchild)
      rw [treeWithin, treeWithin, hkind id hid, hchildren id hid, hbelow]
  have htree : large.tree (f id) = small.tree id := by
    obtain ⟨more, hmore⟩ := Nat.exists_eq_add_of_le hsize
    rw [tree, hwithin large.size id hid, hmore, treeWithin_add hforest]
  rw [html, html, List.map_singleton, List.map_singleton, htree]

/-! ## An arena that has grown -/

/-- An arena has the nodes that it had before, as they were. -/
structure Extends (before after : Dom) : Prop where
  id : after.id = before.id
  size : before.size ≤ after.size
  kept : ∀ id, before.contains id = true → after.node? id = before.node? id

theorem Extends.refl (dom : Dom) : dom.Extends dom :=
  ⟨rfl, Nat.le_refl _, fun _ _ => rfl⟩

theorem Extends.contains {before after : Dom} (h : before.Extends after) {id : NodeId}
    (hid : before.contains id = true) : after.contains id = true := by
  rw [contains_eq_isSome] at hid ⊢
  rwa [h.kept id (contains_eq_isSome before id ▸ hid)]

theorem Extends.trans {first second third : Dom} (h : first.Extends second)
    (h' : second.Extends third) : first.Extends third :=
  ⟨h'.id.trans h.id, Nat.le_trans h.size h'.size,
    fun id hid => (h'.kept id (h.contains hid)).trans (h.kept id hid)⟩

/-- The html of the nodes that were there is what it was. -/
theorem Extends.html {before after : Dom} (h : before.Extends after) (hforest : before.Forest)
    {id : NodeId} (hid : before.contains id = true) : after.html [id] = before.html [id] := by
  refine html_of_view (f := fun id => id) (P := fun id => before.contains id = true) hforest h.size
    (fun id _ child hchild => ?_) (fun id hid => ?_) (fun id hid => ?_) hid
  · exact (hforest.contained child id ((hforest.mem_children child id).mp hchild)).1
  · rw [kind?, kind?, h.kept id hid]
  · rw [children, children, h.kept id hid, List.map_id']

/-! ## An evaluation beside other nodes -/

/-- The name that a node of the arena `lone` has in another arena, behind the nodes that are in use
there. Names of the other arena, which mean nothing in the first, are led away from it. -/
def behind (start : Dom) (lone : Nat) (id : NodeId) : NodeId :=
  if id.dom = lone then ⟨start.id, start.size + id.index⟩
  else if id.dom = start.id then ⟨lone, id.index⟩
  else id

theorem behind_injective (start : Dom) (lone : Nat) : (start.behind lone).Injective := by
  rintro ⟨arena, index⟩ ⟨arena', index'⟩ h
  unfold behind at h
  split at h <;> split at h <;> (try split at h) <;> (try split at h) <;> grind

/-- None of these names is in use. -/
theorem contains_behind (start : Dom) (lone : Nat) (id : NodeId) :
    start.contains (start.behind lone id) = false := by
  unfold behind contains
  split
  · simp
  · split
    · rename_i hlone hstart
      have hne : lone ≠ start.id := fun h => hlone (hstart.trans h.symm)
      simp [hne]
    · rename_i hstart
      simp [hstart]

/-- An arena holds what another holds, behind the nodes that it had at the start. -/
structure Beside (start : Dom) (arena : Nat) (lone dom : Dom) : Prop where
  loneId : lone.id = arena
  id : dom.id = start.id
  size : dom.size = start.size + lone.size
  own : ∀ id, dom.node? (start.behind arena id) =
    (lone.node? id).map (DomNode.rename (start.behind arena))
  kept : ∀ id, start.contains id = true → dom.node? id = start.node? id

variable {start lone dom : Dom} {arena : Nat}

theorem Beside.extends (h : start.Beside arena lone dom) : start.Extends dom :=
  ⟨h.id, h.size ▸ Nat.le_add_right _ _, h.kept⟩

theorem beside_empty (start : Dom) (arena : Nat) : start.Beside arena ⟨arena, #[]⟩ start := by
  refine ⟨rfl, rfl, rfl, fun id => ?_, fun _ _ => rfl⟩
  have hnone : start.node? (start.behind arena id) = none := by
    have hcontains := contains_behind start arena id
    rwa [contains_eq_isSome, Option.isSome_eq_false_iff, Option.isNone_iff_eq_none] at hcontains
  have hlone : (⟨arena, #[]⟩ : Dom).node? id = none := by
    simp [node?]
  rw [hnone, hlone, Option.map_none]

namespace Beside

variable (h : start.Beside arena lone dom)

include h

theorem kind? (id : NodeId) : dom.kind? (start.behind arena id) = lone.kind? id := by
  rw [Dom.kind?, Dom.kind?, h.own, Option.map_map]
  rfl

theorem parent? (id : NodeId) :
    dom.parent? (start.behind arena id) = (lone.parent? id).map (start.behind arena) := by
  rw [Dom.parent?, Dom.parent?, h.own]
  cases lone.node? id <;> rfl

theorem children (id : NodeId) :
    dom.children (start.behind arena id) = (lone.children id).map (start.behind arena) := by
  rw [Dom.children, Dom.children, h.own]
  cases lone.node? id <;> rfl

theorem contains (id : NodeId) : dom.contains (start.behind arena id) = lone.contains id := by
  rw [contains_eq_isSome, contains_eq_isSome, h.own, Option.isSome_map]

theorem isInclusiveAncestor (hforest : lone.Forest) (node descendant : NodeId) :
    dom.isInclusiveAncestor (start.behind arena node) (start.behind arena descendant) =
      lone.isInclusiveAncestor node descendant := by
  have hsame : ∀ first second, (start.behind arena first == start.behind arena second) =
      (first == second) := by
    intro first second
    rw [Bool.eq_iff_iff, beq_iff_eq, beq_iff_eq, (behind_injective start arena).eq_iff]
  have hwithin : ∀ height descendant,
      dom.isAncestorWithin (start.behind arena node) height (start.behind arena descendant) =
        lone.isAncestorWithin node height descendant := by
    intro height
    induction height with
    | zero => exact fun descendant => hsame descendant node
    | succ height ih =>
      intro descendant
      rw [isAncestorWithin, isAncestorWithin, hsame, h.parent?]
      cases lone.parent? descendant with
      | none => rfl
      | some parent => simp only [Option.map_some, ih]
  rw [Dom.isInclusiveAncestor, hwithin, h.size, Nat.add_comm, isAncestorWithin_add hforest]

/-! ### Changes on both sides -/

/-- A new node gets the next number on both sides. -/
theorem insert (kind : NodeKind) :
    (dom.insert kind).1 = start.behind arena (lone.insert kind).1 ∧
      start.Beside arena (lone.insert kind).2 (dom.insert kind).2 := by
  have hname : (dom.insert kind).1 = start.behind arena (lone.insert kind).1 := by
    simp [Dom.insert, behind, h.loneId, h.id, h.size]
  refine ⟨hname, h.loneId, h.id, ?_, fun id => ?_, fun id hid => ?_⟩
  · rw [size_insert, size_insert, h.size, Nat.add_assoc]
  · simp only [node?_insert, hname, (behind_injective start arena).eq_iff, h.own]
    split <;> rfl
  · have hne : id ≠ (dom.insert kind).1 := by
      rintro rfl
      rw [hname, contains_behind] at hid
      contradiction
    rw [node?_insert, if_neg hne, h.kept id hid]

/-- A change to a node that treats it alike under both names. -/
theorem modify {change change' : DomNode → DomNode}
    (hchange : ∀ node, (change node).rename (start.behind arena) =
      change' (node.rename (start.behind arena))) (id : NodeId) :
    start.Beside arena (lone.modify id change) (dom.modify (start.behind arena id) change') := by
  refine ⟨(id_modify ..).trans h.loneId, (id_modify ..).trans h.id, ?_, fun other => ?_,
    fun other hother => ?_⟩
  · rw [size_modify, size_modify, h.size]
  · simp only [node?_modify, (behind_injective start arena).eq_iff, h.own]
    split
    · rw [Option.map_map, Option.map_map]
      exact congrArg (Option.map · (lone.node? other)) (funext fun node => (hchange node).symm)
    · rfl
  · have hne : other ≠ start.behind arena id := by
      rintro rfl
      rw [contains_behind] at hother
      contradiction
    rw [node?_modify, if_neg hne, h.kept other hother]

theorem setAttribute (element : NodeId) (name value : String) :
    start.Beside arena (lone.setAttribute element name value)
      (dom.setAttribute (start.behind arena element) name value) := by
  refine h.modify (fun node => ?_) element
  obtain ⟨kind, parent, children, listeners⟩ := node
  cases kind <;> rfl

theorem addListener (node : NodeId) (listener : Listener) :
    start.Beside arena (lone.addListener node listener)
      (dom.addListener (start.behind arena node) (listener.rename (start.behind arena))) := by
  refine h.modify (fun data => ?_) node
  simp [DomNode.rename]

theorem detach (child : NodeId) :
    start.Beside arena (lone.detach child) (dom.detach (start.behind arena child)) := by
  unfold Dom.detach
  rw [h.parent?]
  cases lone.parent? child with
  | none => exact h
  | some parent =>
    refine (h.modify (fun node => ?_) child).modify (fun node => ?_) parent
    · rfl
    · have hfilter : (node.children.filter (· != child)).map (start.behind arena) =
          (node.children.map (start.behind arena)).filter (· != start.behind arena child) := by
        rw [List.filter_map]
        congr 1
        refine List.filter_congr fun other _ => ?_
        simp [bne, (behind_injective start arena).eq_iff]
      simp only [DomNode.rename, hfilter]

theorem attach (hforest : lone.Forest) (parent child : NodeId) :
    start.Beside arena (lone.attach parent child)
      (dom.attach (start.behind arena parent) (start.behind arena child)) := by
  unfold Dom.attach
  rw [h.isInclusiveAncestor hforest]
  split
  · exact h
  · refine ((h.detach child).modify (fun node => ?_) child).modify (fun node => ?_) parent
    · rfl
    · simp [DomNode.rename]

theorem removeAllChildren (parent : NodeId) :
    start.Beside arena (lone.removeAllChildren parent)
      (dom.removeAllChildren (start.behind arena parent)) := by
  unfold Dom.removeAllChildren
  rw [h.children]
  have hfold : ∀ (removed : List NodeId) {lone dom : Dom}, start.Beside arena lone dom →
      start.Beside arena
        (removed.foldl (fun dom child => dom.modify child fun node => { node with parent := none })
          lone)
        ((removed.map (start.behind arena)).foldl
          (fun dom child => dom.modify child fun node => { node with parent := none }) dom) := by
    intro removed
    induction removed with
    | nil => exact fun h => h
    | cons first rest ih =>
      intro lone dom h
      refine ih (h.modify (fun node => ?_) first)
      rfl
  refine hfold _ (h.modify (fun node => ?_) parent)
  rfl

theorem appendChild (hforest : lone.Forest) (parent child : NodeId) :
    start.Beside arena (lone.appendChild parent child)
      (dom.appendChild (start.behind arena parent) (start.behind arena child)) := by
  -- the nodes that a fragment holds are moved one by one, each in a forest
  have hmoves : ∀ (moved : List NodeId) {lone dom : Dom}, lone.Forest →
      lone.contains parent = true →
      (∀ node ∈ moved, lone.contains node = true ∧ lone.kind? node ≠ some .fragment) →
        start.Beside arena lone dom →
          start.Beside arena (moved.foldl (fun dom node => dom.attach parent node) lone)
            ((moved.map (start.behind arena)).foldl
              (fun dom node => dom.attach (start.behind arena parent) node) dom) := by
    intro moved
    induction moved with
    | nil => exact fun _ _ _ h => h
    | cons first rest ih =>
      intro lone dom hforest hparent hmoved h
      obtain ⟨hfirst, hkind⟩ := hmoved first List.mem_cons_self
      refine ih (forest_attach hforest hparent hfirst hkind) (by rwa [contains_attach]) ?_
        (h.attach hforest parent first)
      intro node hnode
      rw [contains_attach, kind?_attach]
      exact hmoved node (List.mem_cons_of_mem _ hnode)
  unfold Dom.appendChild
  rw [h.contains, h.contains, h.kind?, h.children]
  split
  · rename_i hboth
    obtain ⟨hparent, hchild⟩ := Bool.and_eq_true_iff.mp hboth
    split
    · refine hmoves _ hforest hparent (fun node hnode => ?_) h
      have hheld := (hforest.mem_children node child).mp hnode
      refine ⟨(hforest.contained node child hheld).1, fun hfragment => ?_⟩
      rw [hforest.fragments node hfragment] at hheld
      contradiction
    · exact h.attach hforest parent child
  · exact h

end Beside

/-- Whatever is asked of an empty arena and, under the other names, of one that has nodes already:
both do the same. -/
theorem simulates_beside (start : Dom) (arena : Nat) :
    TreeBuilder.Simulates (start.behind arena)
      (fun lone dom => lone.Forest ∧ start.Beside arena lone dom) where
  createElement tag _ _ := fun ⟨hforest, h⟩ =>
    ⟨(h.insert _).1, forest_insert hforest (by simp), (h.insert _).2⟩
  createText content _ _ := fun ⟨hforest, h⟩ =>
    ⟨(h.insert _).1, forest_insert hforest (by simp), (h.insert _).2⟩
  setAttribute element name value _ _ := fun ⟨hforest, h⟩ =>
    ⟨trivial, forest_setAttribute hforest element name value, h.setAttribute element name value⟩
  addEventListener element event callback options _ _ := fun ⟨hforest, h⟩ =>
    ⟨trivial, forest_addListener hforest element _,
      h.addListener element ⟨event, callback, options⟩⟩
  appendChild parent child _ _ := fun ⟨hforest, h⟩ =>
    ⟨trivial, forest_appendChild hforest parent child, h.appendChild hforest parent child⟩
  removeAllChildren parent _ _ := fun ⟨hforest, h⟩ =>
    ⟨trivial, forest_removeAllChildren hforest parent, h.removeAllChildren parent⟩

theorem contains_inserted (dom : Dom) (kind : NodeKind) :
    (dom.insert kind).2.contains (dom.insert kind).1 = true := by
  rw [contains_eq_isSome, node?_insert, if_pos rfl]
  rfl

/-- An arena has the nodes that it makes, and never loses one. -/
theorem makes_contains :
    TreeBuilder.Makes fun (node : NodeId) (dom : Dom) => dom.contains node = true where
  createElement tag dom := contains_inserted dom (.element tag [])
  createText content dom := contains_inserted dom (.text content)
  keeps node :=
    have hmodify : ∀ (dom : Dom) (id : NodeId) (change : DomNode → DomNode),
        (dom.modify id change).contains node = dom.contains node :=
      fun dom id change => contains_modify dom id node change
    { createElement := fun tag dom h => contains_insert dom (.element tag []) h
      createText := fun content dom h => contains_insert dom (.text content) h
      setAttribute := fun element _ _ dom h => (hmodify dom element _).trans h
      addEventListener := fun element _ _ _ dom h => (hmodify dom element _).trans h
      appendChild := fun parent child dom h =>
        (appendChild_keeps (·.contains node) hmodify dom parent child).trans h
      removeAllChildren := fun parent dom h =>
        (removeAllChildren_keeps (·.contains node) hmodify dom parent).trans h }

end Dom

/-! ## What can be seen of an evaluation -/

/-- The html of each node that an evaluation gives, and the names that it binds, each with the html
of its nodes. -/
structure Appearance where
  nodes : List String
  bindings : List (String × List String)
  deriving DecidableEq, Repr

def Evaluation.appearance (dom : Dom) (evaluation : Evaluation NodeId) : Appearance :=
  ⟨evaluation.nodes.map fun node => dom.html [node],
    evaluation.bindings.entries.map fun entry => (entry.1, entry.2.map fun node => dom.html [node])⟩

/-- Evaluations with corresponding nodes look the same where these have the same html. -/
theorem Evaluation.appearance_mapNodes {dom dom' : Dom} {f : NodeId → NodeId}
    {evaluation : Evaluation NodeId}
    (hnodes : ∀ node ∈ evaluation.nodes, dom'.html [f node] = dom.html [node])
    (hbindings : ∀ entry ∈ evaluation.bindings.entries, ∀ node ∈ entry.2,
      dom'.html [f node] = dom.html [node]) :
    (evaluation.mapNodes f).appearance dom' = evaluation.appearance dom := by
  unfold appearance mapNodes Bindings.mapNodes
  simp only [List.map_map, Appearance.mk.injEq]
  refine ⟨List.map_congr_left hnodes, List.map_congr_left fun entry hentry => ?_⟩
  simp only [Function.comp_apply, List.map_map, Prod.mk.injEq, true_and]
  exact List.map_congr_left (hbindings entry hentry)

theorem Evaluation.mapNodes_id (evaluation : Evaluation NodeId) :
    evaluation.mapNodes id = evaluation := by
  simp [mapNodes, Bindings.mapNodes]

section

open Dom (Extends)

variable [Host NodeId] (document : Document (Value NodeId)) (options : Options)

/-- The slots of a document hold no nodes, and no references, at any depth. -/
def Document.Selfcontained (document : Document (Value NodeId)) : Prop :=
  ∀ value ∈ document.slots, value.nodes = [] ∧ value.references = []

/-- Evaluates a document a number of times into one arena: what each evaluation comes to, in their
order, and the arena behind the last. -/
def Document.evaluateTimes (document : Document (Value NodeId)) (options : Options) :
    Nat → Dom → List (Except EvaluationError (Evaluation NodeId)) × Dom
  | 0, dom => ([], dom)
  | count + 1, dom =>
    let first := document.evaluate options dom
    let more := evaluateTimes document options count first.2
    (first.1 :: more.1, more.2)

variable {document}

/-- An evaluation goes beside other nodes as it does alone. -/
theorem Document.evaluate_beside (hslots : document.Selfcontained) (start : Dom) (lone : Nat) :
    let alone := document.evaluate options (⟨lone, #[]⟩ : Dom)
    let beside := document.evaluate options start
    beside.1 = alone.1.map (Evaluation.mapNodes (start.behind lone)) ∧
      alone.2.Forest ∧ start.Beside lone alone.2 beside.2 := by
  have hfixed : document.map (Value.mapNodes (start.behind lone)) = document :=
    Document.map_of_fixed fun value hvalue =>
      Value.mapNodes_of_nodes _ value (hslots value hvalue).1
  have hsimulated := document.evaluate_simulated (Host.agree_none (start.behind lone))
    (Dom.simulates_beside start lone)
    (fun value hvalue => Value.madeOf_of_references (hslots value hvalue).2) options
    ⟨Dom.forest_empty lone, Dom.beside_empty start lone⟩
  rwa [hfixed] at hsimulated

/-- The arena keeps what it had, and the evaluation looks in it as it does alone. -/
theorem Document.evaluate_appearance (hslots : document.Selfcontained) (start : Dom) (lone : Nat) :
    let alone := document.evaluate options (⟨lone, #[]⟩ : Dom)
    let beside := document.evaluate options start
    start.Extends beside.2 ∧
      beside.1.map (Evaluation.appearance beside.2) =
        alone.1.map (Evaluation.appearance alone.2) := by
  intro alone beside
  obtain ⟨hresult, hforest, hbeside⟩ := document.evaluate_beside options hslots start lone
  have hhtml : ∀ node, beside.2.html [start.behind lone node] = alone.2.html [node] := by
    intro node
    refine Dom.html_of_view (P := fun _ => True) hforest (hbeside.size ▸ Nat.le_add_left _ _)
      (fun _ _ _ _ => trivial) (fun id _ => hbeside.kind? id) (fun id _ => hbeside.children id)
      trivial
  refine ⟨hbeside.extends, ?_⟩
  rw [hresult]
  cases alone.1 with
  | error error => rfl
  | ok evaluation =>
    exact congrArg Except.ok
      (Evaluation.appearance_mapNodes (fun node _ => hhtml node) fun _ _ node _ => hhtml node)

/-- What an evaluation gives looks the same as long as its arena only grows. -/
theorem Document.appearance_extends (hslots : document.Selfcontained) {dom later : Dom}
    (hforest : dom.Forest) (hlater : (document.evaluate options dom).2.Extends later) :
    (document.evaluate options dom).1.map (Evaluation.appearance later) =
      (document.evaluate options dom).1.map
        (Evaluation.appearance (document.evaluate options dom).2) := by
  have hplain : ∀ value ∈ document.slots, Value.Plain (fun _ => False) value := by
    intro value hvalue
    obtain ⟨hnodes, hreferences⟩ := hslots value hvalue
    exact ⟨by simp [hnodes], by simp [hreferences]⟩
  have hafter := document.keeps_evaluate Dom.keeps_forest options hforest
  have hmade := @Document.supplies _ _ _ _ _ Dom.makes_contains document options hplain dom
  generalize document.evaluate options dom = run at hlater hafter hmade ⊢
  obtain ⟨result, after⟩ := run
  cases result with
  | error error => rfl
  | ok evaluation =>
    obtain ⟨hnodes, hbindings⟩ := hmade rfl
    have hsame : (evaluation.mapNodes id).appearance later = evaluation.appearance after :=
      Evaluation.appearance_mapNodes (fun node hnode => hlater.html hafter (hnodes node hnode))
        fun entry hentry node hnode => hlater.html hafter (hbindings entry hentry node hnode)
    rw [Evaluation.mapNodes_id] at hsame
    exact congrArg Except.ok hsame

/-- Each of several evaluations into one arena looks at the end as a single one does alone. -/
theorem Document.evaluateTimes_appearance (hslots : document.Selfcontained) (lone count : Nat)
    {dom : Dom} (hforest : dom.Forest) :
    let alone := document.evaluate options (⟨lone, #[]⟩ : Dom)
    let repeated := document.evaluateTimes options count dom
    dom.Extends repeated.2 ∧
      repeated.1.map (Except.map (Evaluation.appearance repeated.2)) =
        List.replicate count (alone.1.map (Evaluation.appearance alone.2)) := by
  induction count generalizing dom with
  | zero => exact ⟨Extends.refl dom, rfl⟩
  | succ count ih =>
    obtain ⟨hfirst, hlook⟩ := document.evaluate_appearance options hslots dom lone
    obtain ⟨hmore, hothers⟩ := ih (document.keeps_evaluate Dom.keeps_forest options hforest)
    have hkept := document.appearance_extends options hslots hforest hmore
    refine ⟨hfirst.trans hmore, ?_⟩
    rw [evaluateTimes, List.map_cons, List.replicate_succ, hothers, hkept, hlook]

end

/-- **Evaluation is isolated.** Whatever has been asked of an arena, an evaluation into it leaves
every node that was there as it was, also if it fails. It comes to the same error as in an empty
arena, or its nodes have the same html there and the same names are bound to nodes of the same html.
So one document can be evaluated any number of times into one arena: in the end each evaluation
still looks the same. -/
theorem evaluate_isolated [Host NodeId] (arena lone count : Nat) (requests : List Dom.Request)
    (document : Document (Value NodeId)) (options : Options) (hslots : document.Selfcontained) :
    let dom := Dom.after arena requests
    let alone := document.evaluate options (⟨lone, #[]⟩ : Dom)
    let beside := document.evaluate options dom
    let repeated := document.evaluateTimes options count dom
    (∀ id, dom.contains id = true → beside.2.node? id = dom.node? id) ∧
      beside.1.map (Evaluation.appearance beside.2) =
        alone.1.map (Evaluation.appearance alone.2) ∧
      (∀ id, dom.contains id = true → repeated.2.node? id = dom.node? id) ∧
      repeated.1.map (Except.map (Evaluation.appearance repeated.2)) =
        List.replicate count (alone.1.map (Evaluation.appearance alone.2)) := by
  have hforest := Dom.forest_requests (Dom.forest_empty arena) requests
  obtain ⟨hbeside, hlook⟩ :=
    document.evaluate_appearance options hslots (Dom.after arena requests) lone
  obtain ⟨hrepeated, hlooks⟩ := document.evaluateTimes_appearance options hslots lone count hforest
  exact ⟨hbeside.kept, hlook, hrepeated.kept, hlooks⟩

/-- A named element with an attribute and a loop in it. -/
def Document.listSample : Document (Value NodeId) :=
  ⟨[.element ⟨.text "ul", [.pair (.text "id") (.slot (.string "a"))], some (.text "list")⟩
    [.forBlock "x" (.list [.string "b", .bool true])
      [.element ⟨.text "li", [], none⟩ [.text "c"]]]]⟩

attribute [local instance] Host.ofWords in
theorem evaluate_isolated_listSample :
    let dom := Dom.after 3 [.createElement "div", .createText "d", .appendChild ⟨3, 0⟩ ⟨3, 1⟩]
    let repeated := Document.listSample.evaluateTimes {} 2 dom
    let html := "<ul id=\"a\"><li>c</li><li>c</li></ul>"
    Document.listSample.Selfcontained ∧
      (∀ id, dom.contains id = true → repeated.2.node? id = dom.node? id) ∧
      repeated.1.map (Except.map (Evaluation.appearance repeated.2)) =
        List.replicate 2 (.ok ⟨[html], [("list", [html])]⟩) := by
  intro dom repeated html
  have hslots : Document.listSample.Selfcontained := by
    unfold Document.Selfcontained
    decide
  obtain ⟨-, -, hkept, hlooks⟩ := evaluate_isolated 3 0 2
    [.createElement "div", .createText "d", .appendChild ⟨3, 0⟩ ⟨3, 1⟩] Document.listSample {}
    hslots
  have halone : let alone := Document.listSample.evaluate {} (⟨0, #[]⟩ : Dom)
      alone.1.map (Evaluation.appearance alone.2) = .ok ⟨[html], [("list", [html])]⟩ := by
    simp only [Document.listSample, Document.evaluate, Document.run, ExceptT.run, evaluateAll,
      evaluateNode, baseNodes, applyAttributes, applyRefName, appendAll, iterationItems,
      Evaluate.each, Evaluate.bind_apply, Evaluate.pure_apply, Evaluate.ask_apply,
      Evaluate.build_apply, AttributeSet.build, AttributeSet.addAll, AttributeSet.addWritten,
      Attribute.nameValue?, Attribute.assigned, Word.value, List.isEmpty, Bool.not_false, if_true,
      Context.resolve_list, Context.resolve_string]
    decide +kernel
  rw [halone] at hlooks
  exact ⟨hslots, hkept, hlooks⟩

end IndentMarkup

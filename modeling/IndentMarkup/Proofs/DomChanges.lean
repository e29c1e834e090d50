import IndentMarkup.Dom.Basic

/-! What a change does to an arena. Each change is told by what it does to every node, and from that
by what it does to parents, children and kinds; nothing behind this module looks into a change. -/
namespace IndentMarkup.Dom

variable {dom : Dom} {child parent id : NodeId}

/-! ## Looking at changed nodes -/

theorem contains_eq_isSome (dom : Dom) (id : NodeId) : dom.contains id = (dom.node? id).isSome :=
  (isSome_node? dom id).symm

theorem exists_node (h : dom.contains id = true) : ∃ node, dom.node? id = some node :=
  Option.isSome_iff_exists.mp (isSome_node? dom id ▸ h)

/-! ## New nodes -/

/-- The name of a new node is not in use. -/
theorem node?_inserted (dom : Dom) (kind : NodeKind) : dom.node? (dom.insert kind).1 = none := by
  simp [insert, node?, size]

/-- A new node has neither parent nor children. -/
theorem parent?_insert (dom : Dom) (kind : NodeKind) (id : NodeId) :
    (dom.insert kind).2.parent? id = dom.parent? id := by
  unfold parent?
  rw [node?_insert]
  split
  · rename_i h
    rw [h, node?_inserted]
    rfl
  · rfl

theorem children_insert (dom : Dom) (kind : NodeKind) (id : NodeId) :
    (dom.insert kind).2.children id = dom.children id := by
  unfold children
  rw [node?_insert]
  split
  · rename_i h
    rw [h, node?_inserted]
    rfl
  · rfl

theorem kind?_insert (dom : Dom) (kind : NodeKind) (id : NodeId) :
    (dom.insert kind).2.kind? id = if id = (dom.insert kind).1 then some kind else dom.kind? id := by
  by_cases h : id = (dom.insert kind).1 <;> simp [kind?, node?_insert, h]

theorem contains_insert (dom : Dom) (kind : NodeKind) (h : dom.contains id = true) :
    (dom.insert kind).2.contains id = true := by
  rw [contains_eq_isSome] at h ⊢
  rw [node?_insert]
  split <;> simp_all

/-! ## Attributes and listeners -/

/-- A change to one node that leaves its place in the tree. -/
theorem parent?_modify {change : DomNode → DomNode} (h : ∀ node, (change node).parent = node.parent)
    (dom : Dom) (changed id : NodeId) : (dom.modify changed change).parent? id = dom.parent? id := by
  unfold parent?
  rw [node?_modify]
  split <;> cases dom.node? id <;> simp [h]

theorem children_modify {change : DomNode → DomNode}
    (h : ∀ node, (change node).children = node.children) (dom : Dom) (changed id : NodeId) :
    (dom.modify changed change).children id = dom.children id := by
  unfold children
  rw [node?_modify]
  split <;> cases dom.node? id <;> simp [h]

theorem kind?_modify (dom : Dom) (changed id : NodeId) (change : DomNode → DomNode) :
    (dom.modify changed change).kind? id =
      if id = changed then (dom.node? id).map fun node => (change node).kind else dom.kind? id := by
  unfold kind?
  rw [node?_modify]
  split <;> simp [Function.comp_def]

theorem contains_modify (dom : Dom) (changed id : NodeId) (change : DomNode → DomNode) :
    (dom.modify changed change).contains id = dom.contains id := by
  simp [contains]

/-! ## Moving a node -/

/-- A node is taken out of its own place and out of the children of its parent. -/
theorem node?_detach (dom : Dom) (child id : NodeId) :
    (dom.detach child).node? id = (dom.node? id).map fun node =>
      { node with
        parent := if id = child then none else node.parent
        children := if dom.parent? child = some id then node.children.filter (· != child)
          else node.children } := by
  unfold detach
  cases hparent : dom.parent? child with
  | none =>
    cases hnode : dom.node? id with
    | none => rfl
    | some node =>
      have hroot : id = child → none = node.parent := by
        rintro rfl
        simpa [parent?, hnode] using hparent.symm
      rw [Option.map_some, if_neg (Option.some_ne_none id).symm, ite_eq_right_iff.mpr hroot]
  | some parent =>
    simp only [node?_modify, Option.some.injEq]
    cases dom.node? id with
    | none => simp
    | some node =>
      by_cases hp : parent = id
      · subst hp
        by_cases hc : parent = child <;> simp [hc]
      · have hp' : ¬ id = parent := fun e => hp e.symm
        by_cases hc : id = child
        · subst hc
          simp [hp, hp']
        · simp [hp, hp', hc]

/-- A node that may be moved is found below its new parent, behind what was there. -/
theorem node?_attach (h : dom.isInclusiveAncestor child parent = false) (id : NodeId) :
    (dom.attach parent child).node? id = (dom.node? id).map fun node =>
      { node with
        parent := if id = child then some parent else node.parent
        children := (if dom.parent? child = some id then node.children.filter (· != child)
          else node.children) ++ if id = parent then [child] else [] } := by
  unfold attach
  rw [h]
  simp only [Bool.false_eq_true, if_false, node?_modify, node?_detach]
  cases dom.node? id with
  | none => simp
  | some node =>
    by_cases hc : id = child
    · subst hc
      by_cases hp : id = parent <;> simp [hp]
    · by_cases hp : id = parent
      · subst hp
        simp [hc]
      · simp [hc, hp]

/-- A node is not put below itself. -/
theorem attach_of_ancestor (h : dom.isInclusiveAncestor child parent = true) :
    dom.attach parent child = dom := by
  rw [attach, if_pos h]

theorem parent?_attach (h : dom.isInclusiveAncestor child parent = false)
    (hchild : dom.contains child = true) (id : NodeId) :
    (dom.attach parent child).parent? id = if id = child then some parent else dom.parent? id := by
  obtain ⟨node, hnode⟩ := exists_node hchild
  by_cases hc : id = child
  · simp [parent?, node?_attach h, hc, hnode]
  · cases hother : dom.node? id <;> simp [parent?, node?_attach h, hc, hother]

theorem children_attach (h : dom.isInclusiveAncestor child parent = false)
    (hparent : dom.contains parent = true) (id : NodeId) :
    (dom.attach parent child).children id =
      (if dom.parent? child = some id then (dom.children id).filter (· != child)
        else dom.children id) ++ if id = parent then [child] else [] := by
  cases hnode : dom.node? id with
  | none =>
    have hne : id ≠ parent := by
      rintro rfl
      rw [contains_eq_isSome, hnode] at hparent
      contradiction
    simp [children, node?_attach h, hnode, hne]
  | some node => simp [children, node?_attach h, hnode]

theorem contains_attach (dom : Dom) (parent child id : NodeId) :
    (dom.attach parent child).contains id = dom.contains id := by
  cases h : dom.isInclusiveAncestor child parent with
  | true => rw [attach_of_ancestor h]
  | false => rw [contains_eq_isSome, contains_eq_isSome, node?_attach h, Option.isSome_map]

theorem kind?_attach (dom : Dom) (parent child id : NodeId) :
    (dom.attach parent child).kind? id = dom.kind? id := by
  cases h : dom.isInclusiveAncestor child parent with
  | true => rw [attach_of_ancestor h]
  | false => rw [kind?, kind?, node?_attach h, Option.map_map]; rfl

/-! ## Taking all children away -/

/-- The children lose their parent, and the parent loses them. -/
theorem node?_removeAllChildren (dom : Dom) (parent id : NodeId) :
    (dom.removeAllChildren parent).node? id = (dom.node? id).map fun node =>
      { node with
        parent := if id ∈ dom.children parent then none else node.parent
        children := if id = parent then [] else node.children } := by
  have hfold : ∀ (removed : List NodeId) (start : Dom),
      (removed.foldl (fun dom child => dom.modify child fun node => { node with parent := none })
        start).node? id = (start.node? id).map fun node =>
          { node with parent := if id ∈ removed then none else node.parent } := by
    intro removed
    induction removed with
    | nil => simp
    | cons first rest ih =>
      intro start
      rw [List.foldl_cons, ih, node?_modify]
      cases start.node? id with
      | none => simp
      | some node =>
        by_cases hfirst : id = first <;> by_cases hrest : id ∈ rest <;> simp_all
  unfold removeAllChildren
  rw [hfold, node?_modify]
  cases dom.node? id with
  | none => simp
  | some node => by_cases hp : id = parent <;> simp [hp]

theorem parent?_removeAllChildren (dom : Dom) (parent id : NodeId) :
    (dom.removeAllChildren parent).parent? id =
      if id ∈ dom.children parent then none else dom.parent? id := by
  by_cases h : id ∈ dom.children parent <;> cases hnode : dom.node? id <;>
    simp [parent?, node?_removeAllChildren, h, hnode]

theorem children_removeAllChildren (dom : Dom) (parent id : NodeId) :
    (dom.removeAllChildren parent).children id = if id = parent then [] else dom.children id := by
  unfold children
  rw [node?_removeAllChildren]
  cases dom.node? id <;> by_cases h : id = parent <;> simp [h]

theorem kind?_removeAllChildren (dom : Dom) (parent id : NodeId) :
    (dom.removeAllChildren parent).kind? id = dom.kind? id := by
  rw [kind?, kind?, node?_removeAllChildren, Option.map_map]
  rfl

theorem contains_removeAllChildren (dom : Dom) (parent id : NodeId) :
    (dom.removeAllChildren parent).contains id = dom.contains id := by
  rw [contains_eq_isSome, contains_eq_isSome, node?_removeAllChildren, Option.isSome_map]

/-! ## Changes without a new place -/

/-- Setting an attribute keeps the names in their order and adds at most this one. -/
theorem map_fst_setIn (name value : String) (attributes : List (String × String)) :
    (setIn name value attributes).map Prod.fst =
      if name ∈ attributes.map Prod.fst then attributes.map Prod.fst
      else attributes.map Prod.fst ++ [name] := by
  induction attributes with
  | nil => rfl
  | cons entry rest ih =>
    obtain ⟨known, old⟩ := entry
    by_cases hk : known = name
    · simp [setIn, hk]
    · have hk' : ¬ name = known := fun e => hk e.symm
      simp only [setIn, hk, if_false, List.map_cons, ih, List.mem_cons, hk', false_or]
      split <;> simp

/-! ## What a change of single nodes keeps -/

section

variable {γ : Type} (look : Dom → γ)

/-- What each of several changes keeps, all of them keep. -/
theorem foldl_keeps {β : Type} {change : Dom → β → Dom}
    (h : ∀ dom item, look (change dom item) = look dom) (items : List β) (dom : Dom) :
    look (items.foldl change dom) = look dom := by
  induction items generalizing dom with
  | nil => rfl
  | cons item rest ih => rw [List.foldl_cons, ih, h]

variable (h : ∀ (dom : Dom) (id : NodeId) (change : DomNode → DomNode),
  look (dom.modify id change) = look dom)

include h

theorem attach_keeps (dom : Dom) (parent child : NodeId) :
    look (dom.attach parent child) = look dom := by
  unfold attach detach
  split
  · rfl
  · cases dom.parent? child with
    | none => simp only [h]
    | some old => simp only [h]

theorem appendChild_keeps (dom : Dom) (parent child : NodeId) :
    look (dom.appendChild parent child) = look dom := by
  unfold appendChild
  split
  · split
    · exact foldl_keeps look (fun dom node => attach_keeps look h dom parent node) _ dom
    · exact attach_keeps look h dom parent child
  · rfl

theorem removeAllChildren_keeps (dom : Dom) (parent : NodeId) :
    look (dom.removeAllChildren parent) = look dom := by
  unfold removeAllChildren
  simp only
  rw [foldl_keeps look fun dom child => h dom child _]
  exact h dom parent _

end

end IndentMarkup.Dom

import IndentMarkup.Proofs.Handover

/-! Appending a node. A node that is no fragment takes all that is below it along and is the last
child of its new parent then. The parent that it had before loses it and nothing else; every node
apart from these three is as it was, and so is the tree of the moved node. A node is not appended to
itself, to a node below it, or across arenas. -/
namespace IndentMarkup.Dom

open Relation (TransGen ReflTransGen)

variable {dom : Dom} {child parent id : NodeId}

/-- After a node has been moved to the end of a parent's children. -/
structure Moved (dom after : Dom) (child parent : NodeId) : Prop where
  place : after.parent? child = some parent
  gained : after.children parent = (dom.children parent).filter (· != child) ++ [child]
  /-- The old parent keeps its other children in their order. -/
  lost : ∀ old, dom.parent? child = some old → old ≠ parent →
    ∃ before behind, dom.children old = before ++ child :: behind ∧
      after.children old = before ++ behind
  otherParents : ∀ id, id ≠ child → after.parent? id = dom.parent? id
  otherChildren : ∀ id, id ≠ parent → dom.parent? child ≠ some id →
    after.children id = dom.children id
  others : ∀ id, id ≠ child → id ≠ parent → dom.parent? child ≠ some id →
    after.node? id = dom.node? id
  ids : after.ids = dom.ids
  kinds : ∀ id, after.kind? id = dom.kind? id
  attributes : ∀ id, after.attributes id = dom.attributes id
  listeners : ∀ id, after.listeners id = dom.listeners id
  below : ∀ id, TransGen dom.IsChild id child → after.node? id = dom.node? id
  subtree : after.tree child = dom.tree child

/-! ## The tree of a node -/

/-- A tree does not change if no node in it changes its kind or its children. -/
theorem treeWithin_congr {after : Dom} (h : dom.Forest) (depth : Nat)
    (hsame : ∀ below, ReflTransGen dom.IsChild below id →
      after.kind? below = dom.kind? below ∧ after.children below = dom.children below) :
    after.treeWithin depth id = dom.treeWithin depth id := by
  obtain ⟨hkind, hchildren⟩ := hsame id .refl
  induction depth generalizing id with
  | zero => rw [treeWithin, treeWithin, hkind]
  | succ depth ih =>
    have hbelow : (dom.children id).map (after.treeWithin depth) =
        (dom.children id).map (dom.treeWithin depth) := by
      refine List.map_congr_left fun node hnode => ?_
      have hstep : dom.IsChild node id := (h.mem_children node id).mp hnode
      obtain ⟨hkind, hchildren⟩ := hsame node (.single hstep)
      exact ih (fun below hway => hsame below (hway.tail hstep)) hkind hchildren
    rw [treeWithin, treeWithin, hkind, hchildren, hbelow]

/-! ## Moving -/

/-- The new parent has its other children in their order, and the node behind them. -/
theorem children_attach_self (h : dom.Forest) (hparent : dom.contains parent = true)
    (hmove : dom.isInclusiveAncestor child parent = false) :
    (dom.attach parent child).children parent =
      (dom.children parent).filter (· != child) ++ [child] := by
  rw [children_attach hmove hparent, if_pos rfl]
  split
  · rfl
  · rename_i hold
    have hothers : ∀ node ∈ dom.children parent, (node != child) = true := fun node hmem =>
      bne_iff_ne.mpr fun heq => hold ((h.mem_children child parent).mp (heq ▸ hmem))
    rw [List.filter_eq_self.mpr hothers]

/-- The old parent loses the node and nothing else. -/
theorem children_attach_old (h : dom.Forest) (hparent : dom.contains parent = true)
    (hmove : dom.isInclusiveAncestor child parent = false) {old : NodeId}
    (hold : dom.parent? child = some old) (hne : old ≠ parent) :
    ∃ before behind, dom.children old = before ++ child :: behind ∧
      (dom.attach parent child).children old = before ++ behind := by
  obtain ⟨before, behind, hchildren⟩ := List.append_of_mem ((h.mem_children child old).mpr hold)
  refine ⟨before, behind, hchildren, ?_⟩
  rw [children_attach hmove hparent, if_pos hold, if_neg hne, List.append_nil, hchildren]
  exact filter_bne_middle (hchildren ▸ h.nodup_children old)

theorem node?_attach_other (hmove : dom.isInclusiveAncestor child parent = false)
    (hself : id ≠ child) (hne : id ≠ parent) (hold : dom.parent? child ≠ some id) :
    (dom.attach parent child).node? id = dom.node? id := by
  rw [node?_attach hmove]
  simp only [if_neg hself, if_neg hne, if_neg hold, List.append_nil]
  exact Option.map_id'

/-- A node that may be moved is moved, and nothing else happens. -/
theorem moved_attach (h : dom.Forest) (hparent : dom.contains parent = true)
    (hchild : dom.contains child = true) (hmove : dom.isInclusiveAncestor child parent = false) :
    Moved dom (dom.attach parent child) child parent := by
  have hapart : ¬ ReflTransGen dom.IsChild parent child := by
    rw [← isInclusiveAncestor_iff h, hmove]
    exact Bool.false_ne_true
  have hother : ∀ id, id ≠ parent → dom.parent? child ≠ some id →
      (dom.attach parent child).children id = dom.children id := by
    intro id hne hold
    rw [children_attach hmove hparent, if_neg hold, if_neg hne, List.append_nil]
  -- neither of the two parents stands in the tree of the moved node
  have hinside : ∀ id, ReflTransGen dom.IsChild id child →
      id ≠ parent ∧ dom.parent? child ≠ some id := by
    intro id hway
    refine ⟨fun heq => hapart (heq ▸ hway), fun hold => ?_⟩
    exact h.acyclic child (TransGen.head' hold hway)
  refine ⟨?_, children_attach_self h hparent hmove,
    fun old hold hne => children_attach_old h hparent hmove hold hne, fun id hself => ?_, hother,
    fun id hself hne hold => node?_attach_other hmove hself hne hold, ids_attach dom parent child,
    kind?_attach dom parent child, fun id => ?_, listeners_attach dom parent child,
    fun id hway => ?_, ?_⟩
  · rw [parent?_attach hmove hchild, if_pos rfl]
  · rw [parent?_attach hmove hchild, if_neg hself]
  · rw [Dom.attributes, Dom.attributes, kind?_attach]
  · have hself : id ≠ child := by
      rintro rfl
      exact h.acyclic id hway
    obtain ⟨hne, hold⟩ := hinside id hway.to_reflTransGen
    exact node?_attach_other hmove hself hne hold
  · have hsize : (dom.attach parent child).size = dom.size :=
      attach_keeps size (fun dom id change => size_modify dom id change) dom parent child
    rw [tree, tree, hsize]
    refine treeWithin_congr h dom.size fun below hway => ⟨kind?_attach dom parent child below, ?_⟩
    obtain ⟨hne, hold⟩ := hinside below hway
    exact hother below hne hold

/-- **Appending a node.** In every arena that can be reached a node that is no fragment is moved, with
all that is below it. Nothing happens if it or its new parent is not in the arena, or if the parent is
the node itself or stands below it. -/
theorem appendChild_moves (arena : Nat) (requests : List Request) (parent : NodeId) {child : NodeId}
    (hkind : (after arena requests).kind? child ≠ some .fragment) :
    let dom := after arena requests
    let appended := dom.appendChild parent child
    (dom.contains parent = false ∨ dom.contains child = false ∨
        ReflTransGen dom.IsChild parent child → appended = dom) ∧
      (dom.contains parent = true → dom.contains child = true →
        ¬ ReflTransGen dom.IsChild parent child → Moved dom appended child parent) := by
  intro dom appended
  have h : dom.Forest := (forest_after arena requests).1
  have happended : appended =
      if dom.contains parent && dom.contains child then dom.attach parent child else dom := by
    show dom.appendChild parent child = _
    unfold appendChild
    congr 1
    split
    · rename_i hfragment
      exact absurd hfragment hkind
    · rfl
  refine ⟨?_, fun hparent hchild hapart => ?_⟩
  · rintro (hparent | hchild | habove)
    · rw [happended, hparent]
      rfl
    · rw [happended, hchild, Bool.and_false]
      rfl
    · rw [happended, attach_of_ancestor ((isInclusiveAncestor_iff h).mpr habove), ite_self]
  · have hmove : dom.isInclusiveAncestor child parent = false := by
      rw [Bool.eq_false_iff]
      exact fun hfound => hapart ((isInclusiveAncestor_iff h).mp hfound)
    rw [happended, hparent, hchild]
    exact moved_attach h hparent hchild hmove

/-- A list with two items, the first of them with a text, and a paragraph. -/
def listSample : List Request :=
  [.createElement "ul", .createElement "li", .createText "x", .createElement "li",
    .createElement "p", .appendChild ⟨0, 0⟩ ⟨0, 1⟩, .appendChild ⟨0, 1⟩ ⟨0, 2⟩,
    .appendChild ⟨0, 0⟩ ⟨0, 3⟩]

/-- The first item goes to the paragraph with its text, and the list keeps the second. -/
theorem appendChild_moves_item :
    (after 0 listSample).kind? ⟨0, 1⟩ ≠ some .fragment ∧
      Moved (after 0 listSample) ((after 0 listSample).appendChild ⟨0, 4⟩ ⟨0, 1⟩) ⟨0, 1⟩ ⟨0, 4⟩ ∧
      ((after 0 listSample).appendChild ⟨0, 4⟩ ⟨0, 1⟩).children ⟨0, 0⟩ = [⟨0, 3⟩] := by
  have hkind : (after 0 listSample).kind? ⟨0, 1⟩ ≠ some .fragment := by decide
  have hapart : ¬ ReflTransGen (after 0 listSample).IsChild ⟨0, 4⟩ ⟨0, 1⟩ := by
    rw [← isInclusiveAncestor_iff (forest_after 0 listSample).1]
    decide
  exact ⟨hkind, (appendChild_moves 0 listSample ⟨0, 4⟩ hkind).2 (by decide) (by decide) hapart,
    by decide⟩

end IndentMarkup.Dom

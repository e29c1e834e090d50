import IndentMarkup.Dom.Tree
import IndentMarkup.Proofs.DomChanges
import IndentMarkup.Proofs.Evaluating
import Mathlib.Data.List.Nodup
import Mathlib.Data.List.Perm.Subperm
import Mathlib.Logic.Relation

/-! The arena is a forest. Parents and children say the same, nobody is below itself, and nothing
leads out of the arena; every change keeps this, and so does every evaluation. The walk to the
ancestors and the unfolding to a tree are bounded in the arena by the number of its nodes; in a
forest the bound is never met, so both are the recursions that have none. -/
namespace IndentMarkup.Dom

open Relation (TransGen ReflTransGen)

variable {dom : Dom} {child parent id : NodeId}

/-! ## Forests -/

def IsChild (dom : Dom) (child parent : NodeId) : Prop :=
  dom.parent? child = some parent

/-- The nodes of an arena form trees. -/
structure Forest (dom : Dom) : Prop where
  mem_children : ∀ child parent, child ∈ dom.children parent ↔ dom.parent? child = some parent
  nodup_children : ∀ parent, (dom.children parent).Nodup
  contained : ∀ child parent, dom.parent? child = some parent →
    dom.contains child = true ∧ dom.contains parent = true
  acyclic : ∀ node, ¬ TransGen dom.IsChild node node
  fragments : ∀ node, dom.kind? node = some .fragment → dom.parent? node = none
  nodup_attributes : ∀ node, ((dom.attributes node).map Prod.fst).Nodup

/-! ## Walks come to an end -/

/-- Every way of steps from a node ends after at most this many of them. -/
def WaysEnd (step : NodeId → NodeId → Prop) : Nat → NodeId → Prop
  | 0, node => ∀ next, ¬ step node next
  | length + 1, node => ∀ next, step node next → WaysEnd step length next

theorem WaysEnd.acc {step : NodeId → NodeId → Prop} {length : Nat} {node : NodeId}
    (h : WaysEnd step length node) : Acc (fun next node => step node next) node := by
  induction length generalizing node with
  | zero => exact ⟨_, fun next hstep => absurd hstep (h next)⟩
  | succ length ih => exact ⟨_, fun next hstep => ih (h next hstep)⟩

/-- Different nodes of an arena are no more than it has. -/
theorem length_le_size {nodes : List NodeId} (hnodup : nodes.Nodup)
    (h : ∀ node ∈ nodes, dom.contains node = true) : nodes.length ≤ dom.size := by
  have hids : nodes ⊆ dom.ids := by
    intro node hnode
    have hcontains := h node hnode
    simp only [contains, Bool.and_eq_true, beq_iff_eq, decide_eq_true_eq] at hcontains
    obtain ⟨arena, index⟩ := node
    obtain ⟨rfl, hindex⟩ := hcontains
    simpa [ids] using hindex
  simpa [ids] using (List.subperm_of_subset hnodup hids).length_le

/-- Steps within an arena that never lead back end after as many steps as there are nodes. The nodes
behind are all different, so there is always room for one more step than there are nodes left. -/
private theorem waysEnd_of_room {step : NodeId → NodeId → Prop}
    (hacyclic : ∀ node, ¬ TransGen step node node)
    (hcontained : ∀ node next, step node next → dom.contains node = true) {length : Nat}
    {behind : List NodeId} (hnodup : behind.Nodup)
    (hbehind : ∀ node ∈ behind, dom.contains node = true ∧ TransGen step node id)
    (hroom : dom.size ≤ behind.length + length) : WaysEnd step length id := by
  induction length generalizing behind id with
  | zero =>
    intro next hstep
    have hnew : id ∉ behind := fun h => hacyclic id (hbehind id h).2
    have hmore := length_le_size (List.nodup_cons.mpr ⟨hnew, hnodup⟩)
      (List.forall_mem_cons.mpr ⟨hcontained id next hstep, fun node h => (hbehind node h).1⟩)
    rw [List.length_cons] at hmore
    omega
  | succ length ih =>
    intro next hstep
    have hnew : id ∉ behind := fun h => hacyclic id (hbehind id h).2
    refine ih (List.nodup_cons.mpr ⟨hnew, hnodup⟩) (List.forall_mem_cons.mpr ⟨?_, ?_⟩) ?_
    · exact ⟨hcontained id next hstep, .single hstep⟩
    · exact fun node h => ⟨(hbehind node h).1, (hbehind node h).2.tail hstep⟩
    · rw [List.length_cons]
      omega

namespace Forest

/-- The way up ends. -/
theorem waysEnd_up (h : dom.Forest) (node : NodeId) : WaysEnd dom.IsChild dom.size node :=
  waysEnd_of_room h.acyclic (fun child parent hchild => (h.contained child parent hchild).1)
    List.nodup_nil (fun _ hmem => absurd hmem List.not_mem_nil) (by simp)

/-- Every way down ends. -/
theorem waysEnd_down (h : dom.Forest) (node : NodeId) :
    WaysEnd (fun parent child => dom.IsChild child parent) dom.size node := by
  refine waysEnd_of_room (fun node hback => ?_)
    (fun parent child hchild => (h.contained child parent hchild).2)
    List.nodup_nil (fun _ hmem => absurd hmem List.not_mem_nil) (by simp)
  exact h.acyclic node (Relation.transGen_swap.mp hback)

end Forest

/-! ## The walk to the ancestors -/

/-- Where the way up ends before the bound, a higher bound does not matter. -/
theorem isAncestorWithin_succ {height : Nat} {node descendant : NodeId}
    (h : WaysEnd dom.IsChild height descendant) :
    dom.isAncestorWithin node (height + 1) descendant =
      dom.isAncestorWithin node height descendant := by
  induction height generalizing descendant with
  | zero =>
    have hroot : dom.parent? descendant = none := by
      cases hparent : dom.parent? descendant with
      | none => rfl
      | some parent => exact absurd hparent (h parent)
    cases hself : descendant == node <;> simp [isAncestorWithin, hroot, hself]
  | succ height ih =>
    rw [isAncestorWithin]
    cases hparent : dom.parent? descendant with
    | none => simp [isAncestorWithin, hparent]
    | some parent =>
      simp only [ih (h parent hparent)]
      simp [isAncestorWithin, hparent]

/-- The walk to the ancestors without its bound: a node is looked for among the node itself and the
ancestors of its parent. -/
theorem isInclusiveAncestor_eq (h : dom.Forest) (node descendant : NodeId) :
    dom.isInclusiveAncestor node descendant =
      (descendant == node || match dom.parent? descendant with
        | some parent => dom.isInclusiveAncestor node parent
        | none => false) := by
  rw [isInclusiveAncestor, ← isAncestorWithin_succ (h.waysEnd_up descendant)]
  unfold isInclusiveAncestor
  rw [isAncestorWithin]
  cases hself : descendant == node with
  | true => simp
  | false => cases dom.parent? descendant <;> simp

/-- The walk finds exactly the node itself and what is above it. -/
theorem isInclusiveAncestor_iff (h : dom.Forest) {node descendant : NodeId} :
    dom.isInclusiveAncestor node descendant = true ↔
      ReflTransGen dom.IsChild descendant node := by
  constructor
  · suffices hwithin : ∀ height descendant, dom.isAncestorWithin node height descendant = true →
        ReflTransGen dom.IsChild descendant node from hwithin dom.size descendant
    intro height
    induction height with
    | zero =>
      intro descendant hfound
      obtain rfl := beq_iff_eq.mp hfound
      exact .refl
    | succ height ih =>
      intro descendant hfound
      rw [isAncestorWithin] at hfound
      split at hfound
      · rename_i hself
        obtain rfl := beq_iff_eq.mp hself
        exact .refl
      · split at hfound
        · rename_i parent hparent
          exact .head hparent (ih parent hfound)
        · contradiction
  · intro hway
    induction hway using Relation.ReflTransGen.head_induction_on with
    | refl =>
      rw [isInclusiveAncestor_eq h]
      simp
    | head hchild _ ih =>
      rw [isInclusiveAncestor_eq h, hchild]
      simp [ih]

/-! ## The unfolding to a tree -/

/-- Where every way down ends before the bound, a higher bound does not matter. -/
theorem treeWithin_succ (h : dom.Forest) {depth : Nat}
    (hends : WaysEnd (fun parent child => dom.IsChild child parent) depth id) :
    dom.treeWithin (depth + 1) id = dom.treeWithin depth id := by
  induction depth generalizing id with
  | zero =>
    have hleaf : dom.children id = [] := by
      rw [List.eq_nil_iff_forall_not_mem]
      intro child hchild
      exact hends child ((h.mem_children child id).mp hchild)
    simp only [treeWithin, hleaf, List.map_nil]
  | succ depth ih =>
    have hbelow : (dom.children id).map (dom.treeWithin (depth + 1)) =
        (dom.children id).map (dom.treeWithin depth) :=
      List.map_congr_left fun child hchild => ih (hends child ((h.mem_children child id).mp hchild))
    rw [treeWithin, hbelow, treeWithin]

/-- The unfolding without its bound. -/
theorem tree_eq (h : dom.Forest) (id : NodeId) :
    dom.tree id =
      match dom.kind? id with
      | some (.element tag attributes) =>
        .element tag attributes ((dom.children id).map dom.tree)
      | some (.text content) => .text content
      | _ => .fragment ((dom.children id).map dom.tree) := by
  have hsucc := treeWithin_succ h (h.waysEnd_down id)
  rw [treeWithin] at hsucc
  exact hsucc.symm

/-- The text of a node without a bound: its own, or the texts of its children. -/
theorem textContent_eq (h : dom.Forest) (id : NodeId) :
    dom.textContent id =
      match dom.kind? id with
      | some (.text content) => content
      | _ => String.join ((dom.children id).map dom.textContent) := by
  have hall : ∀ nodes : List NodeId, Tree.textContentAll (nodes.map dom.tree) =
      String.join (nodes.map dom.textContent) := by
    intro nodes
    induction nodes with
    | nil => rfl
    | cons node rest ih =>
      rw [List.map_cons, Tree.textContentAll, ih, List.map_cons, String.join_cons]
      rfl
  rw [textContent, tree_eq h]
  rcases dom.kind? id with _ | (_ | _ | _) <;> simp only [Tree.textContent, hall]

/-- Several nodes are written one after another. -/
theorem html_eq_join (dom : Dom) (nodes : List NodeId) :
    dom.html nodes = String.join (nodes.map fun node => dom.html [node]) := by
  induction nodes with
  | nil => rfl
  | cons node rest ih =>
    rw [List.map_cons, String.join_cons, ← ih]
    simp [html, Tree.htmlAll]

/-- The html of a node without a bound. What is no node of the arena has none. -/
theorem html_eq (h : dom.Forest) (id : NodeId) :
    dom.html [id] =
      match dom.kind? id with
      | none => ""
      | some (.text content) => Tree.escapeText content
      | some .fragment => dom.html (dom.children id)
      | some (.element tag attributes) =>
        let opening := "<" ++ tag ++ String.join (attributes.map Tree.attributeHtml) ++ ">"
        if Tree.isVoid tag then opening
        else opening ++ dom.html (dom.children id) ++ "</" ++ tag ++ ">" := by
  have hone : dom.html [id] = (dom.tree id).html := by
    simp [html, Tree.htmlAll]
  rw [hone, tree_eq h]
  cases hkind : dom.kind? id with
  | none =>
    have hnode : dom.node? id = none := by
      simpa [kind?] using hkind
    simp [children, hnode, Tree.html, Tree.htmlAll]
  | some kind => cases kind <;> rfl

/-- The walks over the arena come to an end, upwards and downwards, and what the arena answers with
its bounds is what the recursions answer that have none. -/
structure WalksEnd (dom : Dom) : Prop where
  upwards : WellFounded fun parent child => dom.IsChild child parent
  downwards : WellFounded fun child parent => dom.IsChild child parent
  ancestors : ∀ node descendant, dom.isInclusiveAncestor node descendant =
    (descendant == node || match dom.parent? descendant with
      | some parent => dom.isInclusiveAncestor node parent
      | none => false)
  texts : ∀ id, dom.textContent id =
    match dom.kind? id with
    | some (.text content) => content
    | _ => String.join ((dom.children id).map dom.textContent)
  htmls : ∀ id, dom.html [id] =
    match dom.kind? id with
    | none => ""
    | some (.text content) => Tree.escapeText content
    | some .fragment => String.join ((dom.children id).map fun child => dom.html [child])
    | some (.element tag attributes) =>
      let opening := "<" ++ tag ++ String.join (attributes.map Tree.attributeHtml) ++ ">"
      if Tree.isVoid tag then opening
      else opening ++ String.join ((dom.children id).map fun child => dom.html [child]) ++
        "</" ++ tag ++ ">"

theorem Forest.walksEnd (h : dom.Forest) : dom.WalksEnd where
  upwards := ⟨fun node => (h.waysEnd_up node).acc⟩
  downwards := ⟨fun node => (h.waysEnd_down node).acc⟩
  ancestors := isInclusiveAncestor_eq h
  texts := textContent_eq h
  htmls id := by
    rw [html_eq h, html_eq_join dom (dom.children id)]

/-! ## Changes keep the forest -/

/-- An arena without nodes. -/
theorem forest_empty (arena : Nat) : (⟨arena, #[]⟩ : Dom).Forest := by
  have hnode : ∀ id, (⟨arena, #[]⟩ : Dom).node? id = none := by
    intro id
    simp [node?]
  have hroot : ∀ id, (⟨arena, #[]⟩ : Dom).parent? id = none := by
    intro id
    simp [parent?, hnode]
  refine ⟨fun child parent => ?_, fun parent => ?_, fun child parent h => ?_, fun node h => ?_,
    fun node _ => hroot node, fun node => ?_⟩
  · simp [children, hnode, hroot]
  · simp [children, hnode]
  · simp [hroot] at h
  · obtain ⟨next, hstep, -⟩ := Relation.TransGen.head'_iff.mp h
    simp [IsChild, hroot] at hstep
  · simp [attributes, kind?, hnode]

/-- A change that moves no node keeps the forest, if it makes no fragments of other nodes and keeps
the names of attributes apart. -/
theorem Forest.of_same_places {dom' : Dom} (h : dom.Forest)
    (hcontains : ∀ id, dom.contains id = true → dom'.contains id = true)
    (hparent : ∀ id, dom'.parent? id = dom.parent? id)
    (hchildren : ∀ id, dom'.children id = dom.children id)
    (hfragment : ∀ id, dom'.kind? id = some .fragment →
      dom.kind? id = some .fragment ∨ dom.parent? id = none)
    (hattributes : ∀ id, ((dom'.attributes id).map Prod.fst).Nodup) : dom'.Forest := by
  have hsame : dom'.IsChild = dom.IsChild := by
    funext child parent
    rw [IsChild, IsChild, hparent]
  refine ⟨fun child parent => ?_, fun parent => ?_, fun child parent hchild => ?_, fun node => ?_,
    fun node hnode => ?_, hattributes⟩
  · rw [hchildren, hparent, h.mem_children]
  · rw [hchildren]
    exact h.nodup_children parent
  · rw [hparent] at hchild
    obtain ⟨hin, hout⟩ := h.contained child parent hchild
    exact ⟨hcontains child hin, hcontains parent hout⟩
  · rw [hsame]
    exact h.acyclic node
  · rw [hparent]
    rcases hfragment node hnode with hold | hroot
    · exact h.fragments node hold
    · exact hroot

theorem forest_insert (h : dom.Forest) {kind : NodeKind}
    (hkind : ∀ tag attributes, kind = .element tag attributes → attributes = []) :
    (dom.insert kind).2.Forest := by
  refine h.of_same_places (fun id => contains_insert dom kind) (parent?_insert dom kind)
    (children_insert dom kind) (fun id hid => ?_) fun id => ?_
  · rw [kind?_insert] at hid
    split at hid
    · rename_i hnew
      right
      rw [hnew, parent?, node?_inserted]
      rfl
    · exact .inl hid
  · unfold attributes
    rw [kind?_insert]
    split
    · rename_i tag written hwritten
      split at hwritten
      · rw [hkind tag written (Option.some.inj hwritten)]
        exact List.nodup_nil
      · have hold := h.nodup_attributes id
        rwa [attributes, hwritten] at hold
    · exact List.nodup_nil

theorem forest_setAttribute (h : dom.Forest) (element : NodeId) (name value : String) :
    (dom.setAttribute element name value).Forest := by
  refine h.of_same_places (fun id hid => ?_) (parent?_modify (fun node => ?_) dom element)
    (children_modify (fun node => ?_) dom element) (fun id hid => ?_) fun id => ?_
  · rwa [setAttribute, contains_modify]
  · cases node.kind <;> rfl
  · cases node.kind <;> rfl
  · left
    rw [setAttribute, kind?_modify] at hid
    split at hid
    · unfold kind?
      cases hnode : dom.node? id with
      | none => simp [hnode] at hid
      | some node =>
        rw [hnode] at hid
        cases hkind : node.kind <;> simp_all
    · exact hid
  · have hold := h.nodup_attributes id
    unfold attributes at hold ⊢
    rw [setAttribute, kind?_modify]
    by_cases hid : id = element
    · rw [if_pos hid]
      unfold kind? at hold
      cases hnode : dom.node? id with
      | none => exact List.nodup_nil
      | some node =>
        rw [hnode] at hold
        cases hkind : node.kind with
        | element tag written =>
          simp only [hkind, Option.map_some] at hold ⊢
          rw [map_fst_setIn]
          split
          · exact hold
          · rename_i hnew
            exact List.nodup_append.mpr ⟨hold, List.nodup_singleton name, fun old hmem other hother =>
              fun heq => hnew (List.mem_singleton.mp hother ▸ heq ▸ hmem)⟩
        | text content => simp [hkind]
        | fragment => simp [hkind]
    · rw [if_neg hid]
      exact hold

theorem forest_addListener (h : dom.Forest) (node : NodeId) (listener : Listener) :
    (dom.addListener node listener).Forest := by
  have hkind : ∀ id, (dom.addListener node listener).kind? id = dom.kind? id := by
    intro id
    rw [addListener, kind?_modify]
    split <;> rfl
  refine h.of_same_places (fun id hid => ?_) (fun id => ?_) (fun id => ?_) (fun id hid => ?_)
    fun id => ?_
  · rwa [addListener, contains_modify]
  · exact parent?_modify (fun _ => by rfl) dom node id
  · exact children_modify (fun _ => by rfl) dom node id
  · exact .inl (hkind id ▸ hid)
  · rw [attributes, hkind]
    exact h.nodup_attributes id

/-- A step in the moved arena is an old one or the new one. -/
private theorem isChild_attach (hmove : dom.isInclusiveAncestor child parent = false)
    (hchild : dom.contains child = true) {lower upper : NodeId}
    (hstep : (dom.attach parent child).IsChild lower upper) :
    (lower = child ∧ upper = parent) ∨ (lower ≠ child ∧ dom.IsChild lower upper) := by
  rw [IsChild, parent?_attach hmove hchild] at hstep
  split at hstep
  · rename_i hlower
    exact .inl ⟨hlower, (Option.some.inj hstep).symm⟩
  · rename_i hlower
    exact .inr ⟨hlower, hstep⟩

/-- The new parent of a moved node stands below the same nodes as before: the moved node is none of
them. -/
theorem ancestors_attach (h : dom.Forest) (hmove : dom.isInclusiveAncestor child parent = false)
    (hchild : dom.contains child = true) (upper : NodeId) :
    ReflTransGen (dom.attach parent child).IsChild parent upper ↔
      ReflTransGen dom.IsChild parent upper := by
  have hapart : ¬ ReflTransGen dom.IsChild parent child := by
    rw [← isInclusiveAncestor_iff h, hmove]
    exact Bool.false_ne_true
  constructor
  · intro hway
    induction hway with
    | refl => exact .refl
    | tail _ hstep ih =>
      rcases isChild_attach hmove hchild hstep with ⟨rfl, -⟩ | ⟨-, hstep⟩
      · exact absurd ih hapart
      · exact ih.tail hstep
  · intro hway
    induction hway with
    | refl => exact .refl
    | @tail lower upper hway hstep ih =>
      have hlower : lower ≠ child := fun e => hapart (e ▸ hway)
      refine ih.tail ?_
      rw [IsChild, parent?_attach hmove hchild, if_neg hlower]
      exact hstep

/-- Nothing comes to stand below itself when a node is moved: a way back would lead from the new
parent up to the moved node, and by old steps alone. -/
private theorem acyclic_attach (h : dom.Forest)
    (hmove : dom.isInclusiveAncestor child parent = false) (hchild : dom.contains child = true)
    (node : NodeId) : ¬ TransGen (dom.attach parent child).IsChild node node := by
  have hapart : ¬ ReflTransGen dom.IsChild parent child := by
    rw [← isInclusiveAncestor_iff h, hmove]
    exact Bool.false_ne_true
  have hsplit : ∀ lower upper, TransGen (dom.attach parent child).IsChild lower upper →
      TransGen dom.IsChild lower upper ∨
        (ReflTransGen (dom.attach parent child).IsChild lower child ∧
          ReflTransGen (dom.attach parent child).IsChild parent upper) := by
    intro lower upper hway
    induction hway with
    | single hstep =>
      rcases isChild_attach hmove hchild hstep with ⟨rfl, rfl⟩ | ⟨-, hstep⟩
      · exact .inr ⟨.refl, .refl⟩
      · exact .inl (.single hstep)
    | tail hway hstep ih =>
      rcases ih with hway' | ⟨hdown, hup⟩
      · rcases isChild_attach hmove hchild hstep with ⟨rfl, rfl⟩ | ⟨-, hold⟩
        · exact .inr ⟨hway.to_reflTransGen, .refl⟩
        · exact .inl (hway'.tail hold)
      · exact .inr ⟨hdown, hup.tail hstep⟩
  intro hback
  rcases hsplit node node hback with hback | ⟨hdown, hup⟩
  · exact h.acyclic node hback
  · exact hapart ((ancestors_attach h hmove hchild child).mp (hup.trans hdown))

/-- The moved node is among the children of its new parent, and of no other. -/
theorem mem_children_attach (h : dom.Forest) (hmove : dom.isInclusiveAncestor child parent = false)
    (hparent : dom.contains parent = true) (hchild : dom.contains child = true)
    (lower upper : NodeId) :
    lower ∈ (dom.attach parent child).children upper ↔
      (dom.attach parent child).parent? lower = some upper := by
  rw [children_attach hmove hparent, parent?_attach hmove hchild, List.mem_append]
  by_cases hlower : lower = child
  · subst hlower
    have hgone : lower ∉ (if dom.parent? lower = some upper
        then (dom.children upper).filter (· != lower) else dom.children upper) := by
      split
      · simp
      · rename_i hother
        exact fun hmem => hother ((h.mem_children lower upper).mp hmem)
    rw [or_iff_right hgone, if_pos rfl]
    by_cases hupper : upper = parent
    · simp [hupper]
    · simp [hupper, Ne.symm hupper]
  · have hother : lower ∉ (if upper = parent then [child] else []) := by
      split <;> simp [hlower]
    rw [if_neg hlower, ← h.mem_children lower upper, or_iff_left hother]
    split <;> simp [hlower]

theorem nodup_children_attach (h : dom.Forest)
    (hmove : dom.isInclusiveAncestor child parent = false) (hparent : dom.contains parent = true)
    (upper : NodeId) : ((dom.attach parent child).children upper).Nodup := by
  rw [children_attach hmove hparent]
  refine List.nodup_append.mpr ⟨?_, ?_, fun lower hlower other hother => ?_⟩
  · split
    · exact (h.nodup_children upper).filter _
    · exact h.nodup_children upper
  · split
    · exact List.nodup_singleton child
    · exact List.nodup_nil
  · have hother : other = child := by
      split at hother
      · exact List.mem_singleton.mp hother
      · contradiction
    rintro rfl
    subst hother
    split at hlower
    · simp at hlower
    · rename_i hnot
      exact hnot ((h.mem_children lower upper).mp hlower)

/-- Moving a node that is no fragment keeps the forest. -/
theorem forest_attach (h : dom.Forest) (hparent : dom.contains parent = true)
    (hchild : dom.contains child = true) (hkind : dom.kind? child ≠ some .fragment) :
    (dom.attach parent child).Forest := by
  cases hmove : dom.isInclusiveAncestor child parent with
  | true =>
    rw [attach_of_ancestor hmove]
    exact h
  | false =>
    refine ⟨mem_children_attach h hmove hparent hchild, nodup_children_attach h hmove hparent,
      fun lower upper hstep => ?_, acyclic_attach h hmove hchild, fun node hnode => ?_,
      fun node => ?_⟩
    · rw [contains_attach, contains_attach]
      rcases isChild_attach hmove hchild hstep with ⟨rfl, rfl⟩ | ⟨-, hstep⟩
      · exact ⟨hchild, hparent⟩
      · exact h.contained lower upper hstep
    · rw [kind?_attach] at hnode
      have hne : node ≠ child := fun e => hkind (e ▸ hnode)
      rw [parent?_attach hmove hchild, if_neg hne]
      exact h.fragments node hnode
    · rw [attributes, kind?_attach]
      exact h.nodup_attributes node

/-- Appending keeps the forest: what a fragment holds are no fragments. -/
theorem forest_appendChild (h : dom.Forest) (parent child : NodeId) :
    (dom.appendChild parent child).Forest := by
  -- the nodes that a fragment held when the first of them was moved
  have hmoves : ∀ (moved : List NodeId) (start : Dom), start.Forest →
      start.contains parent = true →
      (∀ node ∈ moved, start.contains node = true ∧ start.kind? node ≠ some .fragment) →
        (moved.foldl (fun dom node => dom.attach parent node) start).Forest := by
    intro moved
    induction moved with
    | nil => exact fun start hstart _ _ => hstart
    | cons first rest ih =>
      intro start hstart hparent hmoved
      obtain ⟨hfirst, hkind⟩ := hmoved first List.mem_cons_self
      refine ih _ (forest_attach hstart hparent hfirst hkind) (by rwa [contains_attach]) ?_
      intro node hnode
      rw [contains_attach, kind?_attach]
      exact hmoved node (List.mem_cons_of_mem _ hnode)
  unfold appendChild
  split
  · rename_i hboth
    obtain ⟨hparent, hchild⟩ := Bool.and_eq_true_iff.mp hboth
    split
    · refine hmoves _ dom h hparent fun node hnode => ?_
      have hheld := (h.mem_children node child).mp hnode
      refine ⟨(h.contained node child hheld).1, fun hfragment => ?_⟩
      rw [h.fragments node hfragment] at hheld
      contradiction
    · rename_i hkind
      exact forest_attach h hparent hchild fun hfragment => hkind hfragment
  · exact h

theorem forest_removeAllChildren (h : dom.Forest) (parent : NodeId) :
    (dom.removeAllChildren parent).Forest := by
  have hfewer : ∀ lower upper, (dom.removeAllChildren parent).IsChild lower upper →
      dom.IsChild lower upper := by
    intro lower upper hstep
    rw [IsChild, parent?_removeAllChildren] at hstep
    split at hstep
    · contradiction
    · exact hstep
  refine ⟨fun lower upper => ?_, fun upper => ?_, fun lower upper hstep => ?_, fun node hback => ?_,
    fun node hnode => ?_, fun node => ?_⟩
  · rw [children_removeAllChildren, parent?_removeAllChildren]
    by_cases hupper : upper = parent
    · subst hupper
      simp [h.mem_children]
    · rw [if_neg hupper, h.mem_children]
      by_cases hlower : lower ∈ dom.children parent
      · have hother : dom.parent? lower = some parent := (h.mem_children lower parent).mp hlower
        simp [hlower, hother, Ne.symm hupper]
      · rw [if_neg hlower]
  · rw [children_removeAllChildren]
    split
    · exact List.nodup_nil
    · exact h.nodup_children upper
  · rw [contains_removeAllChildren, contains_removeAllChildren]
    exact h.contained lower upper (hfewer lower upper hstep)
  · exact h.acyclic node (TransGen.mono hfewer node node hback)
  · rw [kind?_removeAllChildren] at hnode
    rw [parent?_removeAllChildren, h.fragments node hnode]
    split <;> rfl
  · rw [attributes, kind?_removeAllChildren]
    exact h.nodup_attributes node

theorem forest_createFragment (h : dom.Forest) (nodes : List NodeId) :
    (dom.createFragment nodes).2.Forest := by
  have hfold : ∀ (nodes : List NodeId) (fragment : NodeId) (start : Dom), start.Forest →
      (nodes.foldl (fun dom node => dom.appendChild fragment node) start).Forest := by
    intro nodes fragment
    induction nodes with
    | nil => exact fun start hstart => hstart
    | cons first rest ih => exact fun start hstart => ih _ (forest_appendChild hstart fragment first)
  exact hfold nodes _ _ (forest_insert h (by simp))

/-! ## Every arena that can be reached -/

/-- What can be asked of an arena: an action of its own, or the evaluation of a document by a
host. -/
inductive Request where
  | createElement (tag : String)
  | createText (content : String)
  | createFragment (nodes : List NodeId)
  | setAttribute (element : NodeId) (name value : String)
  | addEventListener (element : NodeId) (event : String) (callback : Value NodeId)
      (options : Option (Value NodeId))
  | appendChild (parent child : NodeId)
  | removeAllChildren (parent : NodeId)
  | evaluate (host : Host NodeId) (document : Document (Value NodeId)) (options : Options)

def Request.apply (dom : Dom) : Request → Dom
  | .createElement tag => ((TreeBuilder.createElement tag : StateM Dom NodeId) dom).2
  | .createText content => ((TreeBuilder.createText content : StateM Dom NodeId) dom).2
  | .createFragment nodes => ((TreeBuilder.createFragment nodes : StateM Dom NodeId) dom).2
  | .setAttribute element name value =>
    ((TreeBuilder.setAttribute element name value : StateM Dom Unit) dom).2
  | .addEventListener element event callback options =>
    ((TreeBuilder.addEventListener element event callback options : StateM Dom Unit) dom).2
  | .appendChild parent child => ((TreeBuilder.appendChild parent child : StateM Dom Unit) dom).2
  | .removeAllChildren parent =>
    ((TreeBuilder.removeAllChildren parent : StateM Dom Unit) dom).2
  | .evaluate _ document options => (document.evaluate options dom).2

def after (arena : Nat) (requests : List Request) : Dom :=
  requests.foldl Request.apply ⟨arena, #[]⟩

/-- Every action of the arena keeps the forest. -/
theorem keeps_forest : TreeBuilder.Keeps Forest where
  createElement tag dom h := forest_insert h (by simp)
  createText content dom h := forest_insert h (by simp)
  setAttribute element name value dom h := forest_setAttribute h element name value
  addEventListener element event callback options dom h := forest_addListener h element _
  appendChild parent child dom h := forest_appendChild h parent child
  removeAllChildren parent dom h := forest_removeAllChildren h parent

theorem forest_apply (h : dom.Forest) (request : Request) : (request.apply dom).Forest := by
  cases request with
  | createElement tag => exact keeps_forest.createElement tag dom h
  | createText content => exact keeps_forest.createText content dom h
  | createFragment nodes => exact forest_createFragment h nodes
  | setAttribute element name value => exact keeps_forest.setAttribute element name value dom h
  | addEventListener element event callback options =>
    exact keeps_forest.addEventListener element event callback options dom h
  | appendChild parent child => exact keeps_forest.appendChild parent child dom h
  | removeAllChildren parent => exact keeps_forest.removeAllChildren parent dom h
  | evaluate host document options => exact document.keeps_evaluate keeps_forest options h

theorem forest_requests (h : dom.Forest) (requests : List Request) :
    (requests.foldl Request.apply dom).Forest := by
  induction requests generalizing dom with
  | nil => exact h
  | cons request rest ih => exact ih (forest_apply h request)

/-- Whatever is asked of a new arena, with names of its own nodes or any others, it is a forest
afterwards, and every walk over it comes to an end. -/
theorem forest_after (arena : Nat) (requests : List Request) :
    (after arena requests).Forest ∧ (after arena requests).WalksEnd := by
  have hforest : (after arena requests).Forest := forest_requests (forest_empty arena) requests
  exact ⟨hforest, hforest.walksEnd⟩

/-- An element is asked to hold itself, and a fragment to go below its own child. -/
example :
    let requests : List Request := [.createElement "ul", .createText "x", .createFragment [⟨0, 1⟩],
      .appendChild ⟨0, 0⟩ ⟨0, 0⟩, .appendChild ⟨0, 1⟩ ⟨0, 2⟩, .appendChild ⟨0, 0⟩ ⟨0, 2⟩]
    (after 0 requests).children ⟨0, 0⟩ = [⟨0, 1⟩] ∧ (after 0 requests).children ⟨0, 2⟩ = [] := by
  decide

end IndentMarkup.Dom

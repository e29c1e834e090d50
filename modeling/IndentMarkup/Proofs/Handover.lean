import IndentMarkup.Proofs.Forest

/-! Appending a fragment. What a fragment holds is moved one node after another, and each node is
refused by itself where the new parent stands below it. So a parent that stands outside gets all of
it, and the fragment itself as the parent changes nothing; but a parent further down gets all nodes
except the one that it stands below. -/
namespace IndentMarkup.Dom

open Relation (TransGen ReflTransGen)

variable {dom : Dom} {child parent fragment : NodeId}

/-- After a fragment has given `moved` to a parent and has kept `kept`. Nothing else is different. -/
structure HandedOver (dom after : Dom) (fragment parent : NodeId) (moved kept : List NodeId) :
    Prop where
  left : after.children fragment = kept
  taken : after.children parent = dom.children parent ++ moved
  otherChildren : ∀ id, id ≠ fragment → id ≠ parent → after.children id = dom.children id
  parents : ∀ id, after.parent? id = if id ∈ moved then some parent else dom.parent? id
  ids : after.ids = dom.ids
  kinds : ∀ id, after.kind? id = dom.kind? id
  listeners : ∀ id, after.listeners id = dom.listeners id

theorem HandedOver.refl (dom : Dom) (fragment parent : NodeId) :
    HandedOver dom dom fragment parent [] (dom.children fragment) where
  left := rfl
  taken := (List.append_nil _).symm
  otherChildren _ _ _ := rfl
  parents _ := by simp
  ids := rfl
  kinds _ := rfl
  listeners _ := rfl

/-- Two moves to the same parent, one after the other. -/
theorem HandedOver.trans {middle after : Dom} {first moved held kept : List NodeId}
    (h : HandedOver dom middle fragment parent first held)
    (hmore : HandedOver middle after fragment parent moved kept) :
    HandedOver dom after fragment parent (first ++ moved) kept where
  left := hmore.left
  taken := by rw [hmore.taken, h.taken, List.append_assoc]
  otherChildren id hfragment hparent := by
    rw [hmore.otherChildren id hfragment hparent, h.otherChildren id hfragment hparent]
  parents id := by
    rw [hmore.parents, h.parents]
    by_cases hfirst : id ∈ first <;> by_cases hmoved : id ∈ moved <;> simp [hfirst, hmoved]
  ids := hmore.ids.trans h.ids
  kinds id := (hmore.kinds id).trans (h.kinds id)
  listeners id := (hmore.listeners id).trans (h.listeners id)

/-- Where no node stands twice, taking one out leaves those before it and those behind it. -/
theorem filter_bne_middle {before behind : List NodeId} {node : NodeId}
    (h : (before ++ node :: behind).Nodup) :
    (before ++ node :: behind).filter (· != node) = before ++ behind := by
  rw [List.nodup_middle, List.nodup_cons] at h
  have hothers : ∀ other ∈ before ++ behind, (other != node) = true :=
    fun other hother => bne_iff_ne.mpr fun heq => h.1 (heq ▸ hother)
  rw [List.filter_append, List.filter_cons_of_neg (by simp), ← List.filter_append,
    List.filter_eq_self.mpr hothers]

/-! ## One node -/

theorem ids_attach (dom : Dom) (parent child : NodeId) :
    (dom.attach parent child).ids = dom.ids :=
  attach_keeps ids (fun dom id change => by simp [ids]) dom parent child

theorem listeners_attach (dom : Dom) (parent child id : NodeId) :
    (dom.attach parent child).listeners id = dom.listeners id := by
  cases h : dom.isInclusiveAncestor child parent with
  | true => rw [attach_of_ancestor h]
  | false => rw [listeners, listeners, node?_attach h, Option.map_map]; rfl

/-- What a fragment holds is in the arena, and is no fragment. -/
theorem Forest.held (h : dom.Forest) (hchild : dom.IsChild child fragment) :
    dom.contains child = true ∧ dom.kind? child ≠ some .fragment := by
  refine ⟨(h.contained child fragment hchild).1, fun hkind => ?_⟩
  rw [IsChild, h.fragments child hkind] at hchild
  contradiction

/-- A node that is not above the new parent is given away. -/
theorem handedOver_attach (hne : parent ≠ fragment) (hparent : dom.contains parent = true)
    (h : dom.Forest) (hchild : dom.IsChild child fragment)
    (hmove : dom.isInclusiveAncestor child parent = false) :
    HandedOver dom (dom.attach parent child) fragment parent [child]
      ((dom.children fragment).filter (· != child)) where
  left := by
    have hplace : dom.parent? child = some fragment := hchild
    rw [children_attach hmove hparent, if_pos hplace, if_neg hne.symm, List.append_nil]
  taken := by
    have hother : dom.parent? child ≠ some parent := by
      rw [hchild]
      exact fun e => hne (Option.some.inj e).symm
    rw [children_attach hmove hparent, if_neg hother, if_pos rfl]
  otherChildren id hfragment hother := by
    have hplace : dom.parent? child ≠ some id := by
      rw [hchild]
      exact fun e => hfragment (Option.some.inj e).symm
    rw [children_attach hmove hparent, if_neg hplace, if_neg hother, List.append_nil]
  parents id := by
    simp only [parent?_attach hmove (h.held hchild).1, List.mem_singleton]
  ids := ids_attach dom parent child
  kinds := kind?_attach dom parent child
  listeners := listeners_attach dom parent child

/-- Which nodes stand above the new parent does not change. -/
theorem isInclusiveAncestor_attach (h : dom.Forest) (hparent : dom.contains parent = true)
    (hchild : dom.contains child = true) (hkind : dom.kind? child ≠ some .fragment)
    (hmove : dom.isInclusiveAncestor child parent = false) (node : NodeId) :
    (dom.attach parent child).isInclusiveAncestor node parent =
      dom.isInclusiveAncestor node parent := by
  rw [Bool.eq_iff_iff, isInclusiveAncestor_iff (forest_attach h hparent hchild hkind),
    isInclusiveAncestor_iff h, ancestors_attach h hmove hchild]

/-! ## All nodes of a fragment -/

/-- The nodes of a fragment, from one of them on: those above the parent are kept behind the ones
already passed over, the others are given away. -/
theorem handedOver_foldl (h : dom.Forest) (hne : parent ≠ fragment)
    (hparent : dom.contains parent = true) {kept rest : List NodeId}
    (hheld : dom.children fragment = kept ++ rest) :
    HandedOver dom (rest.foldl (fun dom node => dom.attach parent node) dom) fragment parent
      (rest.filter fun node => !dom.isInclusiveAncestor node parent)
      (kept ++ rest.filter fun node => dom.isInclusiveAncestor node parent) := by
  induction rest generalizing dom kept with
  | nil => simpa [hheld] using HandedOver.refl dom fragment parent
  | cons first rest ih =>
    have hfirst : dom.IsChild first fragment :=
      (h.mem_children first fragment).mp (by simp [hheld])
    rw [List.foldl_cons]
    cases hmove : dom.isInclusiveAncestor first parent with
    | true =>
      have hheld' : dom.children fragment = (kept ++ [first]) ++ rest := by simp [hheld]
      have hmore := ih h hparent hheld'
      rw [attach_of_ancestor hmove]
      simpa [hmove] using hmore
    | false =>
      obtain ⟨hchild, hkind⟩ := h.held hfirst
      have hgiven := handedOver_attach hne hparent h hfirst hmove
      -- no node is held twice, so taking the first one leaves the nodes before and behind it
      have hleft : (dom.children fragment).filter (· != first) = kept ++ rest := by
        rw [hheld]
        exact filter_bne_middle (hheld ▸ h.nodup_children fragment)
      have hmore := ih (forest_attach h hparent hchild hkind) (by rwa [contains_attach])
        (hgiven.left.trans hleft)
      simp only [isInclusiveAncestor_attach h hparent hchild hkind hmove] at hmore
      simpa [hmove] using hgiven.trans hmore

/-! ## A fragment as its own parent -/

/-- An arena is known by its nodes. -/
theorem eq_of_nodes {dom' : Dom} (hid : dom'.id = dom.id)
    (h : ∀ id, dom'.node? id = dom.node? id) : dom' = dom := by
  obtain ⟨arena, nodes⟩ := dom
  obtain ⟨arena', nodes'⟩ := dom'
  obtain rfl : arena' = arena := hid
  have hnodes : nodes' = nodes := by
    refine Array.ext_getElem? fun index => ?_
    simpa [node?] using h ⟨arena', index⟩
  rw [hnodes]

/-- No node stands below what it holds. -/
theorem Forest.not_ancestor_of_child (h : dom.Forest) (hchild : dom.IsChild child parent) :
    dom.isInclusiveAncestor child parent = false := by
  rw [Bool.eq_false_iff]
  intro hfound
  exact h.acyclic child (.head' hchild ((isInclusiveAncestor_iff h).mp hfound))

/-- A fragment that gets its own nodes puts each behind the others; when all have been moved, they
are in their old order again. -/
theorem node?_foldl_attach_self (h : dom.Forest) {rest done : List NodeId}
    (hheld : dom.children fragment = rest ++ done) (id : NodeId) :
    (rest.foldl (fun dom node => dom.attach fragment node) dom).node? id =
      (dom.node? id).map fun node =>
        { node with children := if id = fragment then done ++ rest else node.children } := by
  induction rest generalizing dom done with
  | nil =>
    cases hnode : dom.node? id with
    | none => simp [hnode]
    | some node =>
      by_cases hid : id = fragment
      · subst hid
        have hdone : node.children = done := by
          simpa [children, hnode] using hheld
        simp [hnode, ← hdone]
      · simp [hnode, hid]
  | cons first rest ih =>
    have hfirst : dom.IsChild first fragment :=
      (h.mem_children first fragment).mp (by simp [hheld])
    obtain ⟨hchild, hkind⟩ := h.held hfirst
    have hmove := h.not_ancestor_of_child hfirst
    have hparent := (h.contained first fragment hfirst).2
    have hothers : (dom.children fragment).filter (· != first) = rest ++ done := by
      rw [hheld]
      exact @filter_bne_middle [] _ _ (hheld ▸ h.nodup_children fragment)
    have hplace : dom.parent? first = some fragment := hfirst
    have hheld' : (dom.attach fragment first).children fragment = rest ++ (done ++ [first]) := by
      rw [children_attach hmove hparent, if_pos hplace, if_pos rfl, hothers, List.append_assoc]
    rw [List.foldl_cons, ih (forest_attach h hparent hchild hkind) hheld', node?_attach hmove,
      Option.map_map]
    cases hnode : dom.node? id with
    | none => rfl
    | some node =>
      have hsame : (if id = first then some fragment else node.parent) = node.parent := by
        split
        · rename_i hid
          rw [← hplace, ← hid, parent?, hnode, Option.bind_some]
        · rfl
      by_cases hid : id = fragment
      · subst hid
        simp [hsame]
      · have hother : dom.parent? first ≠ some id := by
          rw [hplace]
          exact fun e => hid (Option.some.inj e).symm
        simp [hsame, hid, hother]

/-! ## Appending -/

/-- A parent outside of the arena gets nothing. -/
theorem appendChild_of_not_contains (h : dom.contains parent = false) (child : NodeId) :
    dom.appendChild parent child = dom := by
  simp [appendChild, h]

theorem contains_of_kind? {kind : NodeKind} (h : dom.kind? child = some kind) :
    dom.contains child = true := by
  rw [contains_eq_isSome]
  unfold kind? at h
  cases hnode : dom.node? child with
  | none => simp [hnode] at h
  | some node => rfl

theorem appendChild_fragment_eq (hkind : dom.kind? fragment = some .fragment)
    (hparent : dom.contains parent = true) :
    dom.appendChild parent fragment =
      (dom.children fragment).foldl (fun dom node => dom.attach parent node) dom := by
  simp [appendChild, hkind, hparent, contains_of_kind? hkind]

/-- A fragment is not changed by being appended to itself. -/
theorem appendChild_self (h : dom.Forest) (hkind : dom.kind? fragment = some .fragment) :
    dom.appendChild fragment fragment = dom := by
  rw [appendChild_fragment_eq hkind (contains_of_kind? hkind)]
  refine eq_of_nodes ?_ fun id => ?_
  · exact foldl_keeps Dom.id (fun dom node => attach_keeps Dom.id (fun _ _ _ => id_modify _ _ _)
      dom fragment node) _ dom
  · rw [node?_foldl_attach_self h (List.append_nil _).symm]
    cases hnode : dom.node? id with
    | none => rfl
    | some node =>
      by_cases hid : id = fragment
      · simp [← hid, children, hnode]
      · simp [hid]

/-- A parent elsewhere gets what is not above it. -/
theorem handedOver_appendChild (h : dom.Forest) (hkind : dom.kind? fragment = some .fragment)
    (hparent : dom.contains parent = true) (hne : parent ≠ fragment) :
    HandedOver dom (dom.appendChild parent fragment) fragment parent
      ((dom.children fragment).filter fun node => !dom.isInclusiveAncestor node parent)
      ((dom.children fragment).filter fun node => dom.isInclusiveAncestor node parent) := by
  rw [appendChild_fragment_eq hkind hparent]
  exact handedOver_foldl h hne hparent (List.nil_append (dom.children fragment)).symm

/-- A node that stands below another one stands below exactly one of its children, or is it. -/
theorem Forest.exists_child_above (h : dom.Forest) (hbelow : TransGen dom.IsChild parent fragment) :
    ∃ child, dom.IsChild child fragment ∧ ReflTransGen dom.IsChild parent child ∧
      ∀ other, dom.IsChild other fragment → ReflTransGen dom.IsChild parent other →
        other = child := by
  obtain ⟨child, hway, hchild⟩ := Relation.TransGen.tail'_iff.mp hbelow
  -- a way from one child of the fragment to another would lead through the fragment and back to it
  have hsame : ∀ {first second : NodeId}, dom.IsChild first fragment →
      dom.IsChild second fragment → ReflTransGen dom.IsChild first second → first = second := by
    intro first second hfirst hsecond hway
    rcases Relation.ReflTransGen.cases_head hway with heq | ⟨next, hstep, hway⟩
    · exact heq
    · obtain rfl : next = fragment := Option.some.inj (hstep.symm.trans hfirst)
      exact absurd (TransGen.tail' hway hsecond) (h.acyclic next)
  have hunique : Relator.RightUnique dom.IsChild :=
    fun _ _ _ hfirst hsecond => Option.some.inj (hfirst.symm.trans hsecond)
  refine ⟨child, hchild, hway, fun other hother hways => ?_⟩
  rcases Relation.ReflTransGen.total_of_right_unique hunique hways hway with hup | hup
  · exact hsame hother hchild hup
  · exact (hsame hchild hother hup).symm

/-- **Appending a fragment.** In every arena that can be reached, nothing happens if the parent is
not in it or is the fragment itself. A parent that stands outside of the fragment gets all nodes of
it in their order, and the fragment is left empty. A parent below the fragment gets all of them but
the one it stands below, which the fragment keeps. In either case nothing else is different. -/
theorem appendChild_fragment (arena : Nat) (requests : List Request) (parent : NodeId)
    {fragment : NodeId} (hkind : (after arena requests).kind? fragment = some .fragment) :
    let dom := after arena requests
    let appended := dom.appendChild parent fragment
    (dom.contains parent = false ∨ parent = fragment → appended = dom) ∧
      (dom.contains parent = true → ¬ ReflTransGen dom.IsChild parent fragment →
        HandedOver dom appended fragment parent (dom.children fragment) []) ∧
      (TransGen dom.IsChild parent fragment →
        ∃ before child behind, dom.children fragment = before ++ child :: behind ∧
          ReflTransGen dom.IsChild parent child ∧
          HandedOver dom appended fragment parent (before ++ behind) [child]) := by
  intro dom appended
  have h : dom.Forest := (forest_after arena requests).1
  refine ⟨?_, fun hparent houtside => ?_, fun hbelow => ?_⟩
  · rintro (hparent | rfl)
    · exact appendChild_of_not_contains hparent fragment
    · exact appendChild_self h hkind
  · have hne : parent ≠ fragment := fun e => houtside (e ▸ .refl)
    have hnone : ∀ node ∈ dom.children fragment, dom.isInclusiveAncestor node parent = false := by
      intro node hnode
      rw [Bool.eq_false_iff]
      intro hfound
      exact houtside (((isInclusiveAncestor_iff h).mp hfound).tail
        ((h.mem_children node fragment).mp hnode))
    have hmoved := handedOver_appendChild h hkind hparent hne
    rwa [List.filter_eq_self.mpr fun node hnode => by rw [hnone node hnode]; rfl,
      List.filter_eq_nil_iff.mpr fun node hnode => by simp [hnone node hnode]] at hmoved
  · have hne : parent ≠ fragment := by
      rintro rfl
      exact h.acyclic parent hbelow
    obtain ⟨first, hstep, -⟩ := Relation.TransGen.head'_iff.mp hbelow
    have hparent := (h.contained parent first hstep).1
    obtain ⟨child, hchild, hway, hunique⟩ := h.exists_child_above hbelow
    obtain ⟨before, behind, hheld⟩ :=
      List.append_of_mem ((h.mem_children child fragment).mpr hchild)
    have hothers : ∀ node ∈ before ++ behind, dom.isInclusiveAncestor node parent = false := by
      intro node hnode
      have hnodup := h.nodup_children fragment
      rw [hheld, List.nodup_middle, List.nodup_cons] at hnodup
      have hmem : node ∈ dom.children fragment := by
        rw [hheld]
        exact List.perm_middle.symm.subset (List.mem_cons_of_mem _ hnode)
      rw [Bool.eq_false_iff]
      intro hfound
      have heq := hunique node ((h.mem_children node fragment).mp hmem)
        ((isInclusiveAncestor_iff h).mp hfound)
      exact hnodup.1 (heq ▸ hnode)
    have habove : dom.isInclusiveAncestor child parent = true := (isInclusiveAncestor_iff h).mpr hway
    have hmoved := handedOver_appendChild h hkind hparent hne
    have hgiven : ((before ++ child :: behind).filter
        fun node => !dom.isInclusiveAncestor node parent) = before ++ behind := by
      rw [List.filter_append, List.filter_cons_of_neg (by simp [habove]), ← List.filter_append]
      exact List.filter_eq_self.mpr fun node hnode => by rw [hothers node hnode]; rfl
    have hkept : ((before ++ child :: behind).filter
        fun node => dom.isInclusiveAncestor node parent) = [child] := by
      have hnone : ((before ++ behind).filter fun node => dom.isInclusiveAncestor node parent) = [] :=
        List.filter_eq_nil_iff.mpr fun node hnode => by simp [hothers node hnode]
      rw [List.filter_append, List.append_eq_nil_iff] at hnone
      rw [List.filter_append, List.filter_cons_of_pos (by exact habove), hnone.1, hnone.2,
        List.nil_append]
    rw [hheld, hgiven, hkept] at hmoved
    exact ⟨before, child, behind, hheld, hway, hmoved⟩

/-- A fragment with an element and a text in it. -/
def fragmentSample : List Request :=
  [.createElement "p", .createText "x", .createFragment [⟨0, 0⟩, ⟨0, 1⟩], .createElement "ul"]

/-- The list gets what the fragment holds. -/
theorem appendChild_fragment_list :
    (after 0 fragmentSample).kind? ⟨0, 2⟩ = some .fragment ∧
      HandedOver (after 0 fragmentSample) ((after 0 fragmentSample).appendChild ⟨0, 3⟩ ⟨0, 2⟩)
        ⟨0, 2⟩ ⟨0, 3⟩ [⟨0, 0⟩, ⟨0, 1⟩] [] := by
  have hkind : (after 0 fragmentSample).kind? ⟨0, 2⟩ = some .fragment := by decide
  have houtside : ¬ ReflTransGen (after 0 fragmentSample).IsChild ⟨0, 3⟩ ⟨0, 2⟩ := by
    rw [← isInclusiveAncestor_iff (forest_after 0 fragmentSample).1]
    decide
  exact ⟨hkind, (appendChild_fragment 0 fragmentSample ⟨0, 3⟩ hkind).2.1 (by decide) houtside⟩

/-- The paragraph stands below the fragment and gets the text all the same: half of what the
fragment holds has been moved. -/
theorem appendChild_fragment_moves_half :
    (after 0 fragmentSample).kind? ⟨0, 2⟩ = some .fragment ∧
      (after 0 fragmentSample).IsChild ⟨0, 0⟩ ⟨0, 2⟩ ∧
      (after 0 fragmentSample).appendChild ⟨0, 0⟩ ⟨0, 2⟩ ≠ after 0 fragmentSample ∧
      ((after 0 fragmentSample).appendChild ⟨0, 0⟩ ⟨0, 2⟩).children ⟨0, 2⟩ = [⟨0, 0⟩] ∧
      ((after 0 fragmentSample).appendChild ⟨0, 0⟩ ⟨0, 2⟩).children ⟨0, 0⟩ = [⟨0, 1⟩] := by
  have hchildren : ((after 0 fragmentSample).appendChild ⟨0, 0⟩ ⟨0, 2⟩).children ⟨0, 0⟩ =
      [⟨0, 1⟩] := by decide
  refine ⟨by decide, by unfold IsChild; decide, fun hsame => ?_, by decide, hchildren⟩
  rw [hsame] at hchildren
  exact absurd hchildren (by decide)

end IndentMarkup.Dom

import IndentMarkup.CallLog
import IndentMarkup.Proofs.Evaluating
import IndentMarkup.Value.Words

/-! Values in the place of nodes. The leaves of a value become nodes one by one, in their order: as
text, or as the elements of a base. The first leaf that cannot stand there ends the evaluation, and
by then the builder has been asked for the nodes of the leaves before it and for nothing else. -/
namespace IndentMarkup

open Evaluate
open Requests (isWalk_textNodes isWalk_elementNodes asks_textNode asks_baseNode)

variable {σ ν : Type}

/-! ## What a leaf gives -/

/-- What a leaf gives where nodes are wanted. -/
inductive Piece (ν : Type) where
  /-- A new node, made of a text. -/
  | made (content : String)
  /-- A node that exists already. -/
  | given (node : ν)
  deriving DecidableEq, Repr

/-- What a leaf gives in text position, if it can stand there. -/
def Value.textPiece? : Value ν → Option (Piece ν)
  | .string content => some (.made content)
  | .number value => some (.made (Number.format value))
  | .absent => some (.made "")
  | .node held => some (.given held)
  | _ => none

/-- What a leaf gives in the place of an element's base, if it can stand there. -/
def Value.basePiece? : Value ν → Option (Piece ν)
  | .string tag => some (.made tag)
  | .node held => some (.given held)
  | _ => none

/-- The nodes of some pieces, in order. The builder is asked for new ones only. -/
def Piece.nodes (make : String → StateM σ ν) : List (Piece ν) → StateM σ (List ν)
  | [], builder => ([], builder)
  | .made content :: rest, builder =>
    let (node, builder) := make content builder
    let (others, builder) := nodes make rest builder
    (node :: others, builder)
  | .given node :: rest, builder =>
    let (others, builder) := nodes make rest builder
    (node :: others, builder)

/-- A leaf cannot be text exactly if it is a boolean, a map or a host object. -/
theorem Value.textPiece?_eq_none_iff {leaf : Value ν} (hreference : leaf.isReference = false)
    (hlist : ∀ items, leaf ≠ .list items) :
    leaf.textPiece? = none ↔ (∃ value, leaf = .bool value) ∨ (∃ entries, leaf = .map entries) ∨
      ∃ handle, leaf = .host handle := by
  cases leaf with
  | list items => exact absurd rfl (hlist items)
  | ref => contradiction
  | _ => simp [textPiece?]

/-- A leaf can be the base of an element only as a text or a node. -/
theorem Value.basePiece?_eq_none_iff {leaf : Value ν} :
    leaf.basePiece? = none ↔ (∀ tag, leaf ≠ .string tag) ∧ ∀ node, leaf ≠ .node node := by
  cases leaf <;> simp [basePiece?]

/-! ## Leaves one by one -/

/-- The outcome of a computation for a leaf that gives this piece, or none. -/
def pieceOutcome (make : String → StateM σ ν) (refusal : String → EvaluationError) (leaf : Value ν)
    (state : EvaluationState σ ν) : Option (Piece ν) → Except EvaluationError ν × EvaluationState σ ν
  | some (.made content) =>
    let (node, builder) := make content state.builder
    (.ok node, { state with builder })
  | some (.given node) => (.ok node, state)
  | none => (.error (refusal leaf.display), state)

/-- How a computation deals with all leaves of a value. -/
structure TakesLeaves (computation : Evaluate σ ν (List ν)) (piece? : Value ν → Option (Piece ν))
    (make : String → StateM σ ν) (refusal : String → EvaluationError) (state : EvaluationState σ ν)
    (leaves : List (Value ν)) : Prop where
  /-- If every leaf gives a piece, it comes to the nodes of the pieces, one for each leaf. -/
  accepted : ∀ pieces, leaves.map piece? = List.map some pieces →
    let (nodes, builder) := Piece.nodes make pieces state.builder
    computation state = (.ok nodes, { state with builder }) ∧ nodes.length = leaves.length
  /-- It fails at the first leaf that gives none, with the nodes of the leaves before it made. -/
  refused : ∀ before pieces leaf behind, leaves = before ++ leaf :: behind →
    before.map piece? = List.map some pieces → piece? leaf = none →
      computation state = (.error (refusal leaf.display),
        { state with builder := (Piece.nodes make pieces state.builder).2 })
  /-- There is no other reason to fail. -/
  fails_iff : (∃ error after, computation state = (.error error, after)) ↔
    ∃ leaf ∈ leaves, piece? leaf = none

section

variable {nodeOf : Value ν → Evaluate σ ν ν} {piece? : Value ν → Option (Piece ν)}
  {make : String → StateM σ ν} {refusal : String → EvaluationError}

theorem length_nodes (pieces : List (Piece ν)) (builder : σ) :
    (Piece.nodes make pieces builder).1.length = pieces.length := by
  induction pieces generalizing builder with
  | nil => rfl
  | cons piece rest ih => cases piece <;> exact congrArg (· + 1) (ih _)

/-- Either all leaves give pieces, or there is a first one that gives none. -/
theorem pieces_or_refused (piece? : Value ν → Option (Piece ν)) (leaves : List (Value ν)) :
    (∃ pieces, leaves.map piece? = List.map some pieces) ∨
      ∃ before pieces leaf behind, leaves = before ++ leaf :: behind ∧
        before.map piece? = List.map some pieces ∧ piece? leaf = none := by
  induction leaves with
  | nil => exact .inl ⟨[], rfl⟩
  | cons first rest ih =>
    cases hfirst : piece? first with
    | none => exact .inr ⟨[], [], first, rest, rfl, rfl, hfirst⟩
    | some piece =>
      rcases ih with ⟨pieces, hpieces⟩ | ⟨before, pieces, leaf, behind, rfl, hpieces, hleaf⟩
      · exact .inl ⟨piece :: pieces, by simp [hfirst, hpieces]⟩
      · exact .inr ⟨first :: before, piece :: pieces, leaf, behind, rfl, by simp [hfirst, hpieces],
          hleaf⟩

/-- A first leaf gives one node, and the nodes of the other leaves stand behind it. -/
theorem collect_leaf (leaf : Value ν) (rest : List (Value ν)) (state : EvaluationState σ ν) :
    collect (fun leaf => do return [← nodeOf leaf]) (leaf :: rest) state =
      match (nodeOf leaf state : Except EvaluationError ν × EvaluationState σ ν) with
      | (.ok node, after) =>
        Prod.map (Except.map (node :: ·)) id
          (collect (fun leaf => do return [← nodeOf leaf]) rest after)
      | (.error error, after) => (.error error, after) := by
  rw [collect, bind_apply, bind_apply]
  rcases nodeOf leaf state with ⟨_ | node, after⟩
  · rfl
  · simp only [pure_apply]
    rw [bind_apply]
    rcases collect (fun leaf => do return [← nodeOf leaf]) rest after with ⟨_ | _, _⟩ <;> rfl

variable (hnode : ∀ leaf state, nodeOf leaf state = pieceOutcome make refusal leaf state (piece? leaf))

include hnode

/-- Leaves that all give pieces become the nodes of these, in front of what comes of the rest. -/
theorem collect_pieces {before : List (Value ν)} {pieces : List (Piece ν)}
    (hpieces : before.map piece? = List.map some pieces) (rest : List (Value ν))
    (state : EvaluationState σ ν) :
    collect (fun leaf => do return [← nodeOf leaf]) (before ++ rest) state =
      let (nodes, builder) := Piece.nodes make pieces state.builder
      Prod.map (Except.map (nodes ++ ·)) id
        (collect (fun leaf => do return [← nodeOf leaf]) rest { state with builder }) := by
  induction before generalizing pieces state with
  | nil =>
    obtain rfl : pieces = [] := by simpa using hpieces.symm
    show collect _ rest state = Prod.map _ id (collect _ rest state)
    rcases collect (fun leaf => do return [← nodeOf leaf]) rest state with ⟨_ | _, _⟩ <;> rfl
  | cons leaf before ih =>
    cases pieces with
    | nil => simp at hpieces
    | cons piece pieces =>
      obtain ⟨hleaf, hbefore⟩ := List.cons.inj hpieces
      have hjoin : ∀ (node : ν) (nodes : List ν)
          (outcome : Except EvaluationError (List ν) × EvaluationState σ ν),
          Prod.map (Except.map (node :: ·)) id (Prod.map (Except.map (nodes ++ ·)) id outcome) =
            Prod.map (Except.map (node :: nodes ++ ·)) id outcome := by
        rintro node nodes ⟨_ | _, _⟩ <;> rfl
      rw [List.cons_append, collect_leaf, hnode, hleaf]
      cases piece with
      | made content =>
        simp only [pieceOutcome, ih hbefore]
        exact hjoin _ _ _
      | given node =>
        simp only [pieceOutcome, ih hbefore]
        exact hjoin _ _ _

/-- A computation that makes nodes of leaves one by one deals with them in this way. -/
theorem takesLeaves_collect {computation : Evaluate σ ν (List ν)} {state : EvaluationState σ ν}
    {leaves : List (Value ν)} (hrun : computation state =
      collect (fun leaf => do return [← nodeOf leaf]) leaves state) :
    TakesLeaves computation piece? make refusal state leaves := by
  have haccepted : ∀ pieces, leaves.map piece? = List.map some pieces →
      computation state = (.ok (Piece.nodes make pieces state.builder).1,
        { state with builder := (Piece.nodes make pieces state.builder).2 }) := by
    intro pieces hpieces
    have hall := collect_pieces hnode hpieces [] state
    simp only [collect, pure_apply, Prod.map, Except.map, List.append_nil, id] at hall
    exact hrun.trans hall
  have hrefused : ∀ before pieces leaf behind, leaves = before ++ leaf :: behind →
      before.map piece? = List.map some pieces → piece? leaf = none →
        computation state = (.error (refusal leaf.display),
          { state with builder := (Piece.nodes make pieces state.builder).2 }) := by
    intro before pieces leaf behind hleaves hpieces hleaf
    have hfirst := collect_pieces hnode hpieces (leaf :: behind) state
    simp only [collect_leaf, hnode, hleaf, pieceOutcome, Prod.map, Except.map, id] at hfirst
    rw [hrun, hleaves]
    exact hfirst
  refine ⟨fun pieces hpieces => ⟨haccepted pieces hpieces, ?_⟩, hrefused, ?_, ?_⟩
  · have hlength := congrArg List.length hpieces
    rw [List.length_map, List.length_map] at hlength
    exact (length_nodes pieces state.builder).trans hlength.symm
  · rintro ⟨error, after, hfailed⟩
    rcases pieces_or_refused piece? leaves with
      ⟨pieces, hpieces⟩ | ⟨before, pieces, leaf, behind, hleaves, -, hleaf⟩
    · obtain ⟨hresult, -⟩ := Prod.mk.inj ((haccepted pieces hpieces).symm.trans hfailed)
      contradiction
    · exact ⟨leaf, by simp [hleaves], hleaf⟩
  · rintro ⟨leaf, hleaf, hnone⟩
    rcases pieces_or_refused piece? leaves with
      ⟨pieces, hpieces⟩ | ⟨before, pieces, first, behind, hleaves, hbefore, hfirst⟩
    · have hmem : piece? leaf ∈ List.map some pieces := hpieces ▸ List.mem_map_of_mem hleaf
      simp [hnone] at hmem
    · exact ⟨_, _, hrefused before pieces first behind hleaves hbefore hfirst⟩

end

/-! ## Text and bases -/

section

variable [Host ν] [TreeBuilder σ ν]

omit [Host ν] in
theorem textNode_apply (leaf : Value ν) (state : EvaluationState σ ν) :
    textNode leaf state =
      pieceOutcome TreeBuilder.createText .invalidTextValue leaf state leaf.textPiece? := by
  cases leaf <;> rfl

omit [Host ν] in
theorem baseNode_apply (leaf : Value ν) (state : EvaluationState σ ν) :
    baseNode leaf state =
      pieceOutcome TreeBuilder.createElement .invalidElementBase leaf state leaf.basePiece? := by
  cases leaf <;> rfl

/-- An element with a base that fails does nothing more, and one that succeeds has the nodes of its
base as its output. -/
theorem evaluateNode_element_base (header : Header (Value ν)) (children : List (Node (Value ν)))
    (state : EvaluationState σ ν) :
    (∀ error after, baseNodes header.base state = (.error error, after) →
      evaluateNode (.element header children) state = (.error error, after)) ∧
    ∀ nodes after, evaluateNode (.element header children) state = (.ok nodes, after) →
      (baseNodes header.base state : Except EvaluationError (List ν) × _).1 = .ok nodes := by
  refine ⟨fun error after hbase => ?_, fun nodes after hrun => ?_⟩
  · rw [evaluateNode, bind_apply, hbase]
  · rw [evaluateNode] at hrun
    obtain ⟨elements, between, hbase, hrun⟩ := Evaluate.of_bind_ok hrun
    obtain ⟨-, last, -, hrun⟩ := Evaluate.of_bind_ok hrun
    obtain ⟨hnodes, -⟩ := Prod.mk.inj hrun
    rw [hbase, Except.ok.inj hnodes]

/-- **Values flatten to their leaves.** Wherever the references on the way to the leaves of a value
come to an end, each leaf becomes one node, in order. As text it may be a text, a number, no value or
a node; as a base it may be the tag of an element or a node. Anything else is an error that shows the
first such leaf, and by then the builder has made the nodes of the leaves before it and no more. -/
theorem leaves_become_nodes (state : EvaluationState σ ν) {value : Value ν}
    {leaves : List (Value ν)} (h : state.context.HasLeaves value leaves) :
    TakesLeaves (evaluateNode (.slot value)) Value.textPiece? TreeBuilder.createText
        .invalidTextValue state leaves ∧
      TakesLeaves (baseNodes (.slot value)) Value.basePiece? TreeBuilder.createElement
        .invalidElementBase state leaves ∧
      (∀ leaf ∈ leaves,
        (leaf.textPiece? = none ↔ (∃ value, leaf = .bool value) ∨ (∃ entries, leaf = .map entries) ∨
          ∃ handle, leaf = .host handle) ∧
        (leaf.basePiece? = none ↔ (∀ tag, leaf ≠ .string tag) ∧ ∀ node, leaf ≠ .node node)) ∧
      ∀ (header : Header (Value ν)) (children : List (Node (Value ν))), header.base = .slot value →
        (∀ error after, baseNodes (.slot value) state = (.error error, after) →
          evaluateNode (.element header children) state = (.error error, after)) ∧
        ∀ nodes after, evaluateNode (.element header children) state = (.ok nodes, after) →
          (baseNodes (.slot value) state).1 = .ok nodes := by
  refine ⟨takesLeaves_collect textNode_apply ?_, takesLeaves_collect baseNode_apply ?_,
    fun leaf hleaf => ?_, ?_⟩
  · rw [evaluateNode]
    exact request_of_hasLeaves isWalk_textNodes asks_textNode h
  · exact request_of_hasLeaves isWalk_elementNodes asks_baseNode h
  · obtain ⟨hreference, hlist⟩ := h.leaf_settled leaf hleaf
    exact ⟨Value.textPiece?_eq_none_iff hreference hlist, Value.basePiece?_eq_none_iff⟩
  · intro header children hbase
    rw [← hbase]
    exact evaluateNode_element_base header children state

end

/-- A loop variable that holds a list, and a value with a reference to it in a list of its own. -/
def nestedLeaves : Context Nat × Value Nat :=
  (({} : Context Nat).setVariable "x" (.list [.absent, .map []]),
    .list [.string "b", .list [Value.variableRef "x"], .node 7])

attribute [local instance] Host.ofWords in
/-- As text this value makes two nodes and fails at the map. -/
theorem leaves_become_nodes_nested :
    nestedLeaves.1.HasLeaves nestedLeaves.2 [.string "b", .absent, .map [], .node 7] ∧
      evaluateNode (.slot nestedLeaves.2) ⟨({} : CallLog), nestedLeaves.1, []⟩ =
        (.error (.invalidTextValue "\x7b\x7d"),
          ⟨⟨2, #[.createText 0 "b", .createText 1 ""]⟩, nestedLeaves.1, []⟩) := by
  have hend : nestedLeaves.1.ComesTo (Value.variableRef "x") (.list [.absent, .map []]) :=
    .follow (.here rfl)
  have hvariable : nestedLeaves.1.HaveLeaves [.absent, .map []] [.absent, .map []] :=
    .leaf (.here rfl) (by simp) (.leaf (.here rfl) (by simp) .nil)
  have hinner : nestedLeaves.1.HaveLeaves [.list [Value.variableRef "x"], .node 7]
      [.absent, .map [], .node 7] :=
    .list (.here rfl) (.list hend hvariable .nil) (.leaf (.here rfl) (by simp) .nil)
  have hleaves : nestedLeaves.1.HasLeaves nestedLeaves.2 [.string "b", .absent, .map [], .node 7] :=
    .list (.here rfl) (.leaf (.here rfl) (by simp) hinner) .nil
  refine ⟨hleaves, ?_⟩
  have hrefused := (leaves_become_nodes ⟨({} : CallLog), nestedLeaves.1, []⟩ hleaves).1.refused
    [.string "b", .absent] [.made "b", .made ""] (.map []) [.node 7] rfl rfl rfl
  exact hrefused

end IndentMarkup

import IndentMarkup.Evaluation
import IndentMarkup.Proofs.Resolution

/-! Walks over the leaves of a value. Values in text position and in the place of a base are walked
through by two recursions, which resolve items, take lists apart and ask the builder all at once.
Each of them comes to the same as two steps one behind the other: the leaves are found first, up to
the first that cannot stand there, and then become nodes one by one. A walk that goes on forever
finds no leaves. -/
namespace IndentMarkup

variable {σ ν : Type}

/-! ## Leaves up to the first that does not fit -/

namespace Context

variable [Host ν] {context : Context ν} {fits : Value ν → Bool}

/-- Whoever walks through these values meets these leaves, the last of which does not fit, or all
leaves if all of them fit. -/
inductive Meets (context : Context ν) (fits : Value ν → Bool) :
    List (Value ν) → List (Value ν) → Prop
  | nil : Meets context fits [] []
  | fit {leaf : Value ν} {rest leaves : List (Value ν)} : (∀ items, leaf ≠ .list items) →
      fits leaf = true → Meets context fits rest leaves →
        Meets context fits (leaf :: rest) (leaf :: leaves)
  | unfit {leaf : Value ν} {rest : List (Value ν)} : (∀ items, leaf ≠ .list items) →
      fits leaf = false → Meets context fits (leaf :: rest) [leaf]
  | list {items rest leaves : List (Value ν)} :
      Meets context fits (items.map context.resolve ++ rest) leaves →
        Meets context fits (.list items :: rest) leaves

theorem Meets.unique {values leaves others : List (Value ν)}
    (h : Meets context fits values leaves) (hothers : Meets context fits values others) :
    leaves = others := by
  induction h generalizing others with
  | nil => cases hothers with | nil => rfl
  | fit hleaf hfits _ ih =>
    cases hothers with
    | fit _ _ hrest => rw [ih hrest]
    | unfit _ hunfit => simp [hfits] at hunfit
    | list => exact absurd rfl (hleaf _)
  | unfit hleaf hunfit =>
    cases hothers with
    | fit _ hfits => simp [hfits] at hunfit
    | unfit => rfl
    | list => exact absurd rfl (hleaf _)
  | list _ ih =>
    cases hothers with
    | fit hleaf | unfit hleaf => exact absurd rfl (hleaf _)
    | list hothers => exact ih hothers

open Classical in
/-- The leaves that are met on the way through a value, none if the way goes on forever. -/
noncomputable def leaves (context : Context ν) (fits : Value ν → Bool) (value : Value ν) :
    List (Value ν) :=
  if h : ∃ leaves, Meets context fits [context.resolve value] leaves then h.choose else []

theorem leaves_of_meets {value : Value ν} {leaves : List (Value ν)}
    (h : Meets context fits [context.resolve value] leaves) :
    context.leaves fits value = leaves := by
  have hmeets : ∃ leaves, Meets context fits [context.resolve value] leaves := ⟨leaves, h⟩
  rw [Context.leaves, dif_pos hmeets]
  exact hmeets.choose_spec.unique h

theorem leaves_of_not_meets {value : Value ν}
    (h : ∀ leaves, ¬ Meets context fits [context.resolve value] leaves) :
    context.leaves fits value = [] :=
  dif_neg fun ⟨leaves, hmeets⟩ => h leaves hmeets

/-- What holds of a value, of its items if it is a list, and of what items come to, holds of the
leaves. -/
theorem forall_leaves {P : Value ν → Prop} {value : Value ν} (h : P (context.resolve value))
    (hitems : ∀ items, P (.list items) → ∀ item ∈ items, P (context.resolve item)) :
    ∀ leaf ∈ context.leaves fits value, P leaf := by
  have hall : ∀ {values leaves : List (Value ν)}, Meets context fits values leaves →
      (∀ value ∈ values, P value) → ∀ leaf ∈ leaves, P leaf := by
    intro values leaves hmeets
    induction hmeets with
    | nil => exact fun _ _ hleaf => nomatch hleaf
    | fit _ _ _ ih =>
      intro hvalues
      obtain ⟨hleaf, hrest⟩ := List.forall_mem_cons.mp hvalues
      exact List.forall_mem_cons.mpr ⟨hleaf, ih hrest⟩
    | unfit =>
      intro hvalues leaf hleaf
      obtain rfl := List.mem_singleton.mp hleaf
      exact hvalues leaf List.mem_cons_self
    | list _ ih =>
      intro hvalues
      obtain ⟨hlist, hrest⟩ := List.forall_mem_cons.mp hvalues
      refine ih (List.forall_mem_append.mpr ⟨?_, hrest⟩)
      exact List.forall_mem_map.mpr (hitems _ hlist)
  by_cases hmeets : ∃ leaves, Meets context fits [context.resolve value] leaves
  · obtain ⟨leaves, hmeets⟩ := hmeets
    rw [leaves_of_meets hmeets]
    exact hall hmeets (by simpa using h)
  · rw [leaves_of_not_meets fun leaves hleaves => hmeets ⟨leaves, hleaves⟩]
    exact fun _ hleaf => nomatch hleaf

/-- Contexts in which values resolve alike have the same leaves. -/
theorem leaves_congr {other : Context ν} (h : context.resolve = other.resolve)
    (fits : Value ν → Bool) (value : Value ν) :
    context.leaves fits value = other.leaves fits value := by
  have hmeets : ∀ {first second : Context ν}, first.resolve = second.resolve →
      ∀ {values leaves}, Meets first fits values leaves → Meets second fits values leaves := by
    intro first second hresolve values leaves hmeets
    induction hmeets with
    | nil => exact .nil
    | fit hleaf hfits _ ih => exact .fit hleaf hfits ih
    | unfit hleaf hunfit => exact .unfit hleaf hunfit
    | list _ ih => exact .list (hresolve ▸ ih)
  by_cases hends : ∃ leaves, Meets context fits [context.resolve value] leaves
  · obtain ⟨leaves, hends⟩ := hends
    rw [leaves_of_meets hends, leaves_of_meets (h ▸ hmeets h hends)]
  · rw [leaves_of_not_meets fun leaves hleaves => hends ⟨leaves, hleaves⟩,
      leaves_of_not_meets fun leaves hleaves => hends ⟨leaves, h ▸ hmeets h.symm hleaves⟩]

end Context

open Context (Meets HaveLeaves HasLeaves)

/-! ## Walks -/

namespace Requests

section

variable {β γ : Type}

theorem pure_apply (value : β) (builder : σ) :
    (pure value : Requests σ β) builder = some (.ok value, builder) := rfl

theorem ask_apply (action : StateM σ β) (builder : σ) :
    Requests.ask action builder = some (.ok (action builder).1, (action builder).2) := rfl

/-- The second requests are made where the first have ended without an error. -/
theorem bind_apply (first : Requests σ β) (next : β → Requests σ γ) (builder : σ) :
    (first >>= next) builder =
      match first builder with
      | some (.ok value, between) => next value between
      | some (.error error, between) => some (.error error, between)
      | none => none := by
  show (first builder).bind _ = _
  rcases first builder with _ | ⟨_ | _, _⟩ <;> rfl

end

section

variable [Host ν] {context : Context ν} {fits : Value ν → Bool} {nodeOf : Value ν → Requests σ ν}
  {walk : Value ν → Requests σ (List ν)}

/-- One step of a walk: a list is taken apart, and any other value becomes a node. -/
def walkStep (context : Context ν) (nodeOf : Value ν → Requests σ ν)
    (walk : Value ν → Requests σ (List ν)) : Value ν → Requests σ (List ν)
  | .list items => do
    let nodes ← items.mapM fun item => walk (context.resolve item)
    return nodes.flatten
  | leaf => do return [← nodeOf leaf]

/-- A walk does what its steps do, and it ends only where they lead to an end. -/
structure IsWalk (context : Context ν) (nodeOf : Value ν → Requests σ ν)
    (walk : Value ν → Requests σ (List ν)) : Prop where
  step (value : Value ν) : walk value = walkStep context nodeOf walk value
  least (motive : Value ν → σ → Except EvaluationError (List ν) × σ → Prop) :
    (∀ part : Value ν → Requests σ (List ν),
      (∀ value builder outcome, part value builder = some outcome →
        motive value builder outcome) →
      ∀ value builder outcome, walkStep context nodeOf part value builder = some outcome →
        motive value builder outcome) →
    ∀ value builder outcome, walk value builder = some outcome → motive value builder outcome

def walkAll (walk : Value ν → Requests σ (List ν)) (values : List (Value ν)) :
    Requests σ (List ν) := do
  let nodes ← values.mapM walk
  return nodes.flatten

omit [Host ν] in
theorem walkAll_cons (value : Value ν) (rest : List (Value ν)) :
    walkAll walk (value :: rest) = do return (← walk value) ++ (← walkAll walk rest) := by
  simp [walkAll]

omit [Host ν] in
theorem walkAll_singleton (value : Value ν) : walkAll walk [value] = walk value := by
  simp [walkAll]

omit [Host ν] in
theorem walkAll_append (values rest : List (Value ν)) :
    walkAll walk (values ++ rest) = do return (← walkAll walk values) ++ (← walkAll walk rest) := by
  simp [walkAll]

theorem IsWalk.list (h : IsWalk context nodeOf walk) (items : List (Value ν)) :
    walk (.list items) = walkAll walk (items.map context.resolve) := by
  rw [h.step, walkStep, walkAll, List.mapM_map]
  rfl

theorem IsWalk.leaf (h : IsWalk context nodeOf walk) {leaf : Value ν}
    (hleaf : ∀ items, leaf ≠ .list items) : walk leaf = do return [← nodeOf leaf] := by
  rw [h.step]
  cases leaf <;> first | rfl | exact absurd rfl (hleaf _)

/-- Which leaves become nodes is known beforehand: one that fits does, and one that does not fit is an
error. -/
structure Sorts (fits : Value ν → Bool) (nodeOf : Value ν → Requests σ ν) : Prop where
  fit {leaf : Value ν} : fits leaf = true →
    ∀ builder, ∃ node after, nodeOf leaf builder = some (.ok node, after)
  unfit {leaf : Value ν} : fits leaf = false → ∃ error, nodeOf leaf = throw error

/-- Where leaves are met, a walk makes nodes of them one by one. -/
theorem IsWalk.of_meets (h : IsWalk context nodeOf walk) (hsorts : Sorts fits nodeOf)
    {values leaves : List (Value ν)} (hmeets : Meets context fits values leaves) :
    walkAll walk values = leaves.mapM nodeOf := by
  induction hmeets with
  | nil => rfl
  | fit hleaf _ _ ih => simp [walkAll_cons, h.leaf hleaf, ih]
  | unfit hleaf hunfit =>
    obtain ⟨error, herror⟩ := hsorts.unfit hunfit
    simp [walkAll_cons, h.leaf hleaf, herror]
  | list _ ih => rw [walkAll_cons, h.list, ← walkAll_append, ih]

/-- A walk through values that have leaves makes nodes of these one by one. -/
theorem IsWalk.of_haveLeaves (h : IsWalk context nodeOf walk) {values leaves : List (Value ν)}
    (hleaves : HaveLeaves context values leaves) :
    walkAll walk (values.map context.resolve) = leaves.mapM nodeOf := by
  induction hleaves with
  | nil => rfl
  | leaf hend hleaf _ ih =>
    simp [walkAll_cons, Context.resolve_of_comesTo hend, h.leaf hleaf, ih]
  | list hend _ _ ihitems ihrest =>
    rw [List.map_cons, walkAll_cons, Context.resolve_of_comesTo hend, h.list, ihitems, ihrest]
    simp

/-! ## Walks that end -/

omit [Host ν] in
/-- Requests in two steps end with the error of the first, or as the second do. -/
theorem of_bind {β γ : Type} {first : Requests σ β} {next : β → Requests σ γ} {builder : σ}
    {outcome : Except EvaluationError γ × σ} (h : (first >>= next) builder = some outcome) :
    (∃ error, outcome.1 = .error error ∧ first builder = some (.error error, outcome.2)) ∨
      ∃ value between, first builder = some (.ok value, between) ∧
        next value between = some outcome := by
  rw [bind_apply] at h
  split at h
  · rename_i value between hfirst
    exact .inr ⟨value, between, hfirst, h⟩
  · rename_i error between hfirst
    obtain rfl := Option.some.inj h
    exact .inl ⟨error, rfl, hfirst⟩
  · contradiction

/-- What a walk through these values has met when it has come to this result. Behind a success it may
go on, and an error is the end of any walk. -/
def HasMet (context : Context ν) (fits : Value ν → Bool) (values : List (Value ν)) :
    Except EvaluationError (List ν) → Prop
  | .ok _ => ∃ leaves, ∀ rest others, Meets context fits rest others →
      Meets context fits (values ++ rest) (leaves ++ others)
  | .error _ => ∃ leaves, ∀ rest, Meets context fits (values ++ rest) leaves

theorem HasMet.meets {values : List (Value ν)} {result : Except EvaluationError (List ν)}
    (h : HasMet context fits values result) : ∃ leaves, Meets context fits values leaves := by
  cases result with
  | ok nodes =>
    obtain ⟨leaves, hleaves⟩ := h
    exact ⟨leaves ++ [], values.append_nil ▸ hleaves [] [] .nil⟩
  | error error =>
    obtain ⟨leaves, hleaves⟩ := h
    exact ⟨leaves, values.append_nil ▸ hleaves []⟩

/-- If a walk through a single value has met leaves wherever it ends, so has one through several. -/
theorem hasMet_walkAll {part : Value ν → Requests σ (List ν)}
    (hpart : ∀ value builder outcome, part value builder = some outcome →
      HasMet context fits [value] outcome.1) {values : List (Value ν)} {builder : σ}
    {outcome : Except EvaluationError (List ν) × σ}
    (h : walkAll part values builder = some outcome) : HasMet context fits values outcome.1 := by
  induction values generalizing builder outcome with
  | nil =>
    obtain rfl : (.ok [], builder) = outcome := Option.some.inj h
    exact ⟨[], fun rest others hrest => hrest⟩
  | cons value rest ih =>
    rw [walkAll_cons] at h
    rcases of_bind h with ⟨error, herror, hfirst⟩ | ⟨nodes, between, hfirst, hnext⟩
    · obtain ⟨leaves, hleaves⟩ := hpart _ _ _ hfirst
      rw [herror]
      exact ⟨leaves, fun others => hleaves (rest ++ others)⟩
    · obtain ⟨leaves, hleaves⟩ := hpart _ _ _ hfirst
      rcases of_bind hnext with ⟨error, herror, hrest⟩ | ⟨more, after, hrest, hpure⟩
      · obtain ⟨others, hothers⟩ := ih hrest
        rw [herror]
        exact ⟨leaves ++ others, fun behind => hleaves _ _ (hothers behind)⟩
      · obtain ⟨others, hothers⟩ := ih hrest
        obtain rfl : (.ok (nodes ++ more), after) = outcome := Option.some.inj hpure
        refine ⟨leaves ++ others, fun behind last hlast => ?_⟩
        rw [List.append_assoc]
        exact hleaves _ _ (hothers behind last hlast)

/-- Where a walk ends, it has met leaves. -/
theorem IsWalk.meets (h : IsWalk context nodeOf walk) (hsorts : Sorts fits nodeOf)
    {value : Value ν} {builder : σ} {outcome : Except EvaluationError (List ν) × σ}
    (hwalk : walk value builder = some outcome) :
    ∃ leaves, Meets context fits [value] leaves := by
  refine HasMet.meets (h.least (fun value _ outcome => HasMet context fits [value] outcome.1)
    (fun part hpart value builder outcome hstep => ?_) value builder outcome hwalk)
  by_cases hlist : ∃ items, value = .list items
  · obtain ⟨items, rfl⟩ := hlist
    have hitems : walkAll part (items.map context.resolve) builder = some outcome := by
      rw [walkAll, List.mapM_map]
      exact hstep
    have hmet := hasMet_walkAll hpart hitems
    obtain ⟨result, after⟩ := outcome
    cases result with
    | ok nodes =>
      obtain ⟨leaves, hleaves⟩ := hmet
      exact ⟨leaves, fun rest others hrest => .list (hleaves rest others hrest)⟩
    | error error =>
      obtain ⟨leaves, hleaves⟩ := hmet
      exact ⟨leaves, fun rest => .list (hleaves rest)⟩
  · have hleaf : ∀ items, value ≠ .list items := fun items heq => hlist ⟨items, heq⟩
    have hnode : (do return [← nodeOf value] : Requests σ (List ν)) builder = some outcome := by
      cases value <;> first | exact hstep | exact absurd rfl (hleaf _)
    cases hfits : fits value with
    | true =>
      obtain ⟨node, after, hgiven⟩ := hsorts.fit hfits builder
      rcases of_bind hnode with ⟨error, -, hfailed⟩ | ⟨found, between, -, hpure⟩
      · rw [hgiven] at hfailed
        cases hfailed
      · obtain rfl : (.ok [found], between) = outcome := Option.some.inj hpure
        exact ⟨[value], fun rest others hrest => .fit hleaf hfits hrest⟩
    | false =>
      obtain ⟨error, hthrown⟩ := hsorts.unfit hfits
      rw [hthrown] at hnode
      obtain rfl : (.error error, builder) = outcome := Option.some.inj hnode
      exact ⟨[value], fun rest => .unfit hleaf hfits⟩

end

end Requests

/-! ## Leaves as nodes -/

open Evaluate

/-- A computation that does nothing but ask the builder for this. -/
def Evaluate.Asks {β : Type} (computation : Evaluate σ ν β) (requests : Requests σ β) : Prop :=
  ∀ state, ∃ result builder, requests state.builder = some (result, builder) ∧
    computation state = (result, { state with builder })

section

variable {β γ : Type}

theorem asks_pure (value : β) : Asks (pure value : Evaluate σ ν β) (pure value) :=
  fun state => ⟨.ok value, state.builder, rfl, rfl⟩

theorem asks_throw (error : EvaluationError) : Asks (throw error : Evaluate σ ν β) (throw error) :=
  fun state => ⟨.error error, state.builder, rfl, rfl⟩

theorem asks_build (action : StateM σ β) : Asks (build action : Evaluate σ ν β) (.ask action) :=
  fun state => ⟨.ok (action state.builder).1, (action state.builder).2, rfl, rfl⟩

theorem Evaluate.Asks.bind {first : Evaluate σ ν β} {next : β → Evaluate σ ν γ}
    {requests : Requests σ β} {more : β → Requests σ γ} (hfirst : Asks first requests)
    (hnext : ∀ value, Asks (next value) (more value)) : Asks (first >>= next) (requests >>= more) := by
  intro state
  obtain ⟨result, builder, hrequests, hrun⟩ := hfirst state
  cases result with
  | error error =>
    refine ⟨.error error, builder, ?_, ?_⟩
    · show (requests state.builder).bind _ = _
      rw [hrequests]
      rfl
    · show StateT.bind first (ExceptT.bindCont next) state = _
      unfold StateT.bind
      rw [hrun]
      rfl
  | ok value =>
    obtain ⟨last, after, hmore, hafter⟩ := hnext value { state with builder }
    refine ⟨last, after, ?_, ?_⟩
    · show (requests state.builder).bind _ = _
      rw [hrequests]
      exact hmore
    · show StateT.bind first (ExceptT.bindCont next) state = _
      unfold StateT.bind
      rw [hrun]
      exact hafter

/-- Leaf by leaf a computation asks for the nodes. -/
theorem asks_collect {nodeOf : Value ν → Evaluate σ ν ν} {requestOf : Value ν → Requests σ ν}
    (hnode : ∀ leaf, Asks (nodeOf leaf) (requestOf leaf)) (leaves : List (Value ν)) :
    Asks (collect (fun leaf => do return [← nodeOf leaf]) leaves) (leaves.mapM requestOf) := by
  induction leaves with
  | nil => exact asks_pure []
  | cons leaf rest ih =>
    have hsingle : (leaf :: rest).mapM requestOf = do
        let first ← (do return [← requestOf leaf])
        let others ← rest.mapM requestOf
        return first ++ others := by
      simp
    rw [hsingle]
    exact ((hnode leaf).bind fun _ => asks_pure _).bind fun _ => ih.bind fun _ => asks_pure _

end

/-- The nodes of the leaves that are met on the way through a value. -/
noncomputable def leafNodes [Host ν] (nodeOf : Value ν → Evaluate σ ν ν) (fits : Value ν → Bool)
    (value : Value ν) : Evaluate σ ν (List ν) := do
  collect (fun leaf => do return [← nodeOf leaf]) (← ask fun context => context.leaves fits value)

section

open Requests (IsWalk Sorts walkAll_singleton)

variable [Host ν] {walk : Context ν → Value ν → Requests σ (List ν)}
  {nodeOf : Value ν → Evaluate σ ν ν} {requestOf : Value ν → Requests σ ν} {fits : Value ν → Bool}

omit [Host ν] in
theorem Evaluate.request_apply {β : Type} (requests : Context ν → Requests σ (List β))
    (state : EvaluationState σ ν) :
    request requests state =
      match requests state.context state.builder with
      | some (result, builder) => (result, { state with builder })
      | none => (.ok [], state) := rfl

/-- A walk comes to the same as finding the leaves first and making nodes of them then. -/
theorem request_eq_leafNodes (hwalk : ∀ context, IsWalk context requestOf (walk context))
    (hsorts : Sorts fits requestOf) (hnode : ∀ leaf, Asks (nodeOf leaf) (requestOf leaf))
    (value : Value ν) :
    request (fun context => walk context (context.resolve value)) = leafNodes nodeOf fits value := by
  funext state
  show _ = collect _ (state.context.leaves fits value) state
  by_cases hmeets : ∃ leaves, Context.Meets state.context fits [state.context.resolve value] leaves
  · obtain ⟨leaves, hmeets⟩ := hmeets
    obtain ⟨result, after, hrequests, hrun⟩ := asks_collect hnode leaves state
    rw [← (hwalk state.context).of_meets hsorts hmeets, walkAll_singleton] at hrequests
    rw [Context.leaves_of_meets hmeets, hrun, request_apply, hrequests]
  · have hforever : walk state.context (state.context.resolve value) state.builder = none := by
      rw [Option.eq_none_iff_forall_ne_some]
      exact fun outcome hends => hmeets ((hwalk state.context).meets hsorts hends)
    rw [Context.leaves_of_not_meets fun leaves hleaves => hmeets ⟨leaves, hleaves⟩,
      request_apply, hforever]
    rfl

/-- A walk through a value that has leaves makes nodes of them. -/
theorem request_of_hasLeaves (hwalk : ∀ context, IsWalk context requestOf (walk context))
    (hnode : ∀ leaf, Asks (nodeOf leaf) (requestOf leaf)) {state : EvaluationState σ ν}
    {value : Value ν} {leaves : List (Value ν)} (h : HasLeaves state.context value leaves) :
    request (fun context => walk context (context.resolve value)) state =
      collect (fun leaf => do return [← nodeOf leaf]) leaves state := by
  obtain ⟨result, after, hrequests, hrun⟩ := asks_collect hnode leaves state
  have hall := (hwalk state.context).of_haveLeaves h
  rw [List.map_singleton, walkAll_singleton] at hall
  rw [hrun, request_apply, hall, hrequests]

end

/-! ## The two walks of an evaluation -/

def Value.fitsText : Value ν → Bool
  | .string _ | .number _ | .absent | .node _ => true
  | _ => false

def Value.fitsBase : Value ν → Bool
  | .string _ | .node _ => true
  | _ => false

section

variable [TreeBuilder σ ν]

def textNode : Value ν → Evaluate σ ν ν
  | .string content => build (TreeBuilder.createText content)
  | .number value => build (TreeBuilder.createText (Number.format value))
  | .absent => build (TreeBuilder.createText "")
  | .node node => return node
  | other => throw (.invalidTextValue other.display)

def baseNode : Value ν → Evaluate σ ν ν
  | .string tag => build (TreeBuilder.createElement tag)
  | .node node => return node
  | other => throw (.invalidElementBase other.display)

namespace Requests

/-- What a leaf in text position asks for. -/
def textLeaf : Value ν → Requests σ ν
  | .string content => .ask (TreeBuilder.createText content)
  | .number value => .ask (TreeBuilder.createText (Number.format value))
  | .absent => .ask (TreeBuilder.createText "")
  | .node node => return node
  | other => throw (.invalidTextValue other.display)

/-- What a leaf in the place of an element's base asks for. -/
def baseLeaf : Value ν → Requests σ ν
  | .string tag => .ask (TreeBuilder.createElement tag)
  | .node node => return node
  | other => throw (.invalidElementBase other.display)

theorem sorts_textLeaf : Sorts Value.fitsText (textLeaf : Value ν → Requests σ ν) where
  fit := by
    rintro (_ | _ | _ | _ | _ | _ | _ | _ | _) hfits <;>
      first | contradiction | exact fun builder => ⟨_, _, rfl⟩
  unfit := by
    rintro (_ | _ | _ | _ | _ | _ | _ | _ | _) hunfit <;>
      first | contradiction | exact ⟨_, rfl⟩

theorem sorts_baseLeaf : Sorts Value.fitsBase (baseLeaf : Value ν → Requests σ ν) where
  fit := by
    rintro (_ | _ | _ | _ | _ | _ | _ | _ | _) hfits <;>
      first | contradiction | exact fun builder => ⟨_, _, rfl⟩
  unfit := by
    rintro (_ | _ | _ | _ | _ | _ | _ | _ | _) hunfit <;>
      first | contradiction | exact ⟨_, rfl⟩

theorem isWalk_textNodes [Host ν] (context : Context ν) :
    IsWalk context (textLeaf : Value ν → Requests σ ν) (textNodes context) where
  step value := by
    rw [textNodes]
    cases value <;> rw [textNodes._go] <;> first | rfl | simp
  least motive hstep := by
    refine textNodes._go.partial_correctness context motive
      fun part hpart value builder outcome hrun => ?_
    refine hstep part hpart value builder outcome ?_
    cases value <;> exact hrun

theorem isWalk_elementNodes [Host ν] (context : Context ν) :
    IsWalk context (baseLeaf : Value ν → Requests σ ν) (elementNodes context) where
  step value := by
    rw [elementNodes]
    cases value <;> rw [elementNodes._go] <;> first | rfl | simp
  least motive hstep := by
    refine elementNodes._go.partial_correctness context motive
      fun part hpart value builder outcome hrun => ?_
    refine hstep part hpart value builder outcome ?_
    cases value <;> exact hrun

theorem asks_textNode (leaf : Value ν) : Asks (textNode leaf : Evaluate σ ν ν) (textLeaf leaf) := by
  cases leaf <;> first | exact asks_build _ | exact asks_pure _ | exact asks_throw _

theorem asks_baseNode (leaf : Value ν) : Asks (baseNode leaf : Evaluate σ ν ν) (baseLeaf leaf) := by
  cases leaf <;> first | exact asks_build _ | exact asks_pure _ | exact asks_throw _

end Requests

open Requests

/-- A value in text position becomes the nodes of its leaves. -/
theorem evaluateNode_slot [Host ν] (value : Value ν) :
    (evaluateNode (.slot value) : Evaluate σ ν (List ν)) = leafNodes textNode Value.fitsText value := by
  rw [evaluateNode]
  exact request_eq_leafNodes isWalk_textNodes sorts_textLeaf asks_textNode value

/-- A value in the place of a base becomes the nodes of its leaves. -/
theorem baseNodes_slot [Host ν] (value : Value ν) :
    (baseNodes (.slot value) : Evaluate σ ν (List ν)) = leafNodes baseNode Value.fitsBase value :=
  request_eq_leafNodes isWalk_elementNodes sorts_baseLeaf asks_baseNode value

end

end IndentMarkup

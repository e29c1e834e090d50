import IndentMarkup.Proofs.LeafWalks

/-! Values whose references name loop variables only. What such values come to, where the loop
variables hold such values again, are such values once more: nodes come from nowhere else than the
values that a document and its loops hold. -/
namespace IndentMarkup

variable {ν : Type}

namespace Value

/-! ## What stands in a value -/

mutual

/-- The nodes in a value, at any depth. -/
def nodes : Value ν → List ν
  | .node held => [held]
  | .list items => nodesOfItems items
  | .map entries => nodesOfEntries entries
  | .ref _ projection => nodesOfProjection projection
  | _ => []

def nodesOfItems : List (Value ν) → List ν
  | [] => []
  | item :: rest => nodes item ++ nodesOfItems rest

def nodesOfEntries : List (String × Value ν) → List ν
  | [] => []
  | (_, value) :: rest => nodes value ++ nodesOfEntries rest

def nodesOfProjection : Projection (Value ν) → List ν
  | .first => []
  | .closure _ captured => nodesOfItems captured

end

mutual

/-- The references in a value, at any depth: their names with their projections. -/
def references : Value ν → List (List String × Projection (Value ν))
  | .list items => referencesOfItems items
  | .map entries => referencesOfEntries entries
  | .ref names projection => (names, projection) :: referencesOfProjection projection
  | _ => []

def referencesOfItems : List (Value ν) → List (List String × Projection (Value ν))
  | [] => []
  | item :: rest => references item ++ referencesOfItems rest

def referencesOfEntries : List (String × Value ν) → List (List String × Projection (Value ν))
  | [] => []
  | (_, value) :: rest => references value ++ referencesOfEntries rest

def referencesOfProjection : Projection (Value ν) → List (List String × Projection (Value ν))
  | .first => []
  | .closure _ captured => referencesOfItems captured

end

/-- Whether a name is that of a loop variable, and not of something bound. -/
def isLoopName (name : String) : Bool :=
  name.toList.head? != some '@'

def isLoopReference : List String × Projection (Value ν) → Bool
  | ([name], .first) => isLoopName name
  | _ => false

theorem nodesOfItems_eq (items : List (Value ν)) : nodesOfItems items = items.flatMap nodes := by
  induction items with
  | nil => rfl
  | cons item rest ih => rw [nodesOfItems, ih, List.flatMap_cons]

theorem referencesOfItems_eq (items : List (Value ν)) :
    referencesOfItems items = items.flatMap references := by
  induction items with
  | nil => rfl
  | cons item rest ih => rw [referencesOfItems, ih, List.flatMap_cons]

theorem nodesOfEntries_eq (entries : List (String × Value ν)) :
    nodesOfEntries entries = entries.flatMap fun entry => nodes entry.2 := by
  induction entries with
  | nil => rfl
  | cons entry rest ih => rw [nodesOfEntries, ih, List.flatMap_cons]

theorem referencesOfEntries_eq (entries : List (String × Value ν)) :
    referencesOfEntries entries = entries.flatMap fun entry => references entry.2 := by
  induction entries with
  | nil => rfl
  | cons entry rest ih => rw [referencesOfEntries, ih, List.flatMap_cons]

/-! ## Plain values -/

/-- The references in a value name loop variables, and its nodes are among those allowed. -/
structure Plain (allowed : ν → Prop) (value : Value ν) : Prop where
  nodes : ∀ node ∈ value.nodes, allowed node
  references : ∀ reference ∈ value.references, isLoopReference reference = true

variable {allowed : ν → Prop}

theorem plain_absent : Plain allowed (.absent : Value ν) :=
  ⟨by simp [nodes], by simp [references]⟩

theorem plain_string (text : String) : Plain allowed (.string text : Value ν) :=
  ⟨by simp [nodes], by simp [references]⟩

/-- A list is plain if its items are. -/
theorem plain_list_iff {items : List (Value ν)} :
    Plain allowed (.list items) ↔ ∀ item ∈ items, Plain allowed item := by
  constructor
  · intro h item hitem
    constructor
    · intro node hnode
      exact h.nodes node (by
        rw [nodes, nodesOfItems_eq]
        exact List.mem_flatMap_of_mem hitem hnode)
    · intro reference hreference
      exact h.references reference (by
        rw [references, referencesOfItems_eq]
        exact List.mem_flatMap_of_mem hitem hreference)
  · intro h
    constructor
    · intro node hnode
      rw [nodes, nodesOfItems_eq] at hnode
      obtain ⟨item, hitem, hnode⟩ := List.mem_flatMap.mp hnode
      exact (h item hitem).nodes node hnode
    · intro reference hreference
      rw [references, referencesOfItems_eq] at hreference
      obtain ⟨item, hitem, hreference⟩ := List.mem_flatMap.mp hreference
      exact (h item hitem).references reference hreference

/-- A plain reference is the value of a loop variable. -/
theorem Plain.of_ref {names : List String} {projection : Projection (Value ν)}
    (h : Plain allowed (.ref names projection)) :
    ∃ name, isLoopName name = true ∧ names = [name] ∧ projection = .first := by
  have hloop := h.references (names, projection) (by simp [Value.references])
  unfold isLoopReference at hloop
  split at hloop
  · rename_i name heq
    obtain ⟨rfl, rfl⟩ := Prod.mk.inj heq
    exact ⟨name, hloop, rfl, rfl⟩
  · contradiction

end Value

/-! ## Plain variables -/

namespace Context

open Value (Plain isLoopName)

variable {allowed : ν → Prop} {context : Context ν}

/-- A name that does not begin with an at sign stands for a loop variable. -/
theorem lookup_of_isLoopName {name : String} (h : isLoopName name = true) :
    context.lookup name = context.loopVariable name := by
  unfold lookup
  split
  · rename_i heq
    simp [isLoopName, heq] at h
  · rfl

/-- All variables hold values with this property. -/
def AllVariables (P : Value ν → Prop) (context : Context ν) : Prop :=
  ∀ entry ∈ context.scope.entries, P entry.2

section

variable {P : Value ν → Prop} {name : String}

theorem allVariables_fresh (P : Value ν → Prop) (options : Options) :
    ({ options } : Context ν).AllVariables P := by
  simp [AllVariables]

theorem AllVariables.get? (h : context.AllVariables P) {value : Value ν}
    (hvalue : context.scope.get? name = some value) : P value := by
  obtain ⟨entry, hfound, rfl⟩ := Option.map_eq_some_iff.mp hvalue
  exact h entry (List.mem_of_find?_eq_some hfound)

theorem AllVariables.setVariable (h : context.AllVariables P) {value : Value ν} (hvalue : P value)
    (name : String) : (context.setVariable name value).AllVariables P :=
  Variables.forall_insert (P := fun entry => P entry.2) hvalue h

theorem AllVariables.restoreVariable (h : context.AllVariables P) {before : Option (Value ν)}
    (hbefore : ∀ value, before = some value → P value) :
    (context.restoreVariable name before).AllVariables P := by
  cases before with
  | some value => exact h.setVariable (hbefore value rfl) name
  | none => exact fun entry hentry => h entry (List.mem_filter.mp hentry).1

theorem AllVariables.loopVariable (h : context.AllVariables P) (habsent : P .absent)
    (name : String) : P (context.loopVariable name) := by
  unfold Context.loopVariable
  cases hfound : context.scope.get? name with
  | none => exact habsent
  | some value => exact h.get? hfound

end

def PlainVariables (allowed : ν → Prop) (context : Context ν) : Prop :=
  context.AllVariables (Plain allowed)

section

variable [Host ν]

/-- Inside a loop its variable comes to what the value of the variable comes to. -/
theorem resolve_variableRef_setVariable (context : Context ν) {name : String}
    (hname : isLoopName name = true) (value : Value ν) :
    (context.setVariable name value).resolve (Value.variableRef name) =
      (context.setVariable name value).resolve value := by
  rw [resolve_variableRef, lookup_of_isLoopName hname, loopVariable_setVariable, if_pos rfl]

/-- A plain value comes to plain values only. -/
theorem PlainVariables.comesTo (h : context.PlainVariables allowed) {value result : Value ν}
    (hway : ComesTo context value result) (hvalue : Plain allowed value) : Plain allowed result := by
  induction hway with
  | here => exact hvalue
  | follow _ ih =>
    obtain ⟨name, hname, rfl, rfl⟩ := hvalue.of_ref
    refine ih ?_
    show Plain allowed (context.lookup name)
    rw [lookup_of_isLoopName hname]
    exact AllVariables.loopVariable h Value.plain_absent name

theorem PlainVariables.resolve (h : context.PlainVariables allowed) {value : Value ν}
    (hvalue : Plain allowed value) : Plain allowed (context.resolve value) := by
  rcases comesTo_resolve_or context value with hway | ⟨-, habsent⟩
  · exact h.comesTo hway hvalue
  · exact habsent ▸ Value.plain_absent

/-- The leaves of a plain value are plain. -/
theorem PlainVariables.leaves (h : context.PlainVariables allowed) {value leaf : Value ν}
    (hvalue : Plain allowed value) {fits : Value ν → Bool}
    (hleaf : leaf ∈ context.leaves fits value) : Plain allowed leaf :=
  forall_leaves (P := Plain allowed) (h.resolve hvalue)
    (fun _ hitems item hitem => h.resolve (Value.plain_list_iff.mp hitems item hitem)) leaf hleaf

/-- A loop over a plain value has plain items. -/
theorem PlainVariables.iterationItems (h : context.PlainVariables allowed) {iterable : Value ν}
    {items : List (Value ν)} (hiterable : Plain allowed iterable)
    (hitems : iterationItems context iterable = .ok items) :
    ∀ item ∈ items, Plain allowed item := by
  unfold IndentMarkup.iterationItems at hitems
  split at hitems
  · rename_i found heq
    obtain rfl := Except.ok.inj hitems
    exact Value.plain_list_iff.mp (heq ▸ h.resolve hiterable)
  · obtain rfl := Except.ok.inj hitems
    intro item hitem
    obtain ⟨c, -, rfl⟩ := List.mem_map.mp hitem
    exact Value.plain_string _
  · contradiction

end

end Context

end IndentMarkup

import IndentMarkup.Proofs.PlainValues
import IndentMarkup.Proofs.SlotsTaken
import Mathlib.Data.List.Basic

/-! Documents without control flow. Unrolling a document puts the values of loop variables in their
place, keeps of each `if` the branch that is taken, and copies the body of each loop for every item.
It is a substitution, made before anything is evaluated: no name is looked up later on. -/
namespace IndentMarkup

variable {ν α : Type}

/-! ## Unrolling -/

namespace Value

/-- A value with its place in a scope of loop variables, the innermost first. The reference to a
variable is replaced by what the variable holds, and by nothing if there is no such variable. -/
def inScope (scope : List (String × Value ν)) : Value ν → Value ν
  | .ref [name] .first => ((scope.find? (·.1 == name)).map (·.2)).getD .absent
  | value => value

/-- The items of a list, or the characters of a text. -/
def items? : Value ν → Option (List (Value ν))
  | .list items => some items
  | .string text => some (text.toList.map fun c => .string (String.singleton c))
  | _ => none

end Value

mutual

/-- What a node is in a scope without control flow, if all of its loops are over lists or texts. -/
def Node.unroll (scope : List (String × Value ν)) : Node (Value ν) → Option (List (Node (Value ν)))
  | .element header children => do
    let children ← Node.unrollAll scope children
    return [.element (header.map (Value.inScope scope)) children]
  | .text content => some [.text content]
  | .newLine => some [.newLine]
  | .slot value => some [.slot (value.inScope scope)]
  | .ifBlock condition thenBranch elseBranch =>
    if (condition.inScope scope).isTruthy then Node.unrollAll scope thenBranch
    else Node.unrollAll scope elseBranch
  | .forBlock variableName iterable body => do
    let items ← (iterable.inScope scope).items?
    let copies ← items.mapM fun item => Node.unrollAll ((variableName, item) :: scope) body
    return copies.flatten

def Node.unrollAll (scope : List (String × Value ν)) :
    List (Node (Value ν)) → Option (List (Node (Value ν)))
  | [] => some []
  | node :: rest => do
    let first ← Node.unroll scope node
    let others ← Node.unrollAll scope rest
    return first ++ others

end

/-- A document without control flow. -/
def Document.unrolled (document : Document (Value ν)) : Option (Document (Value ν)) :=
  (Node.unrollAll [] document.children).map Document.mk

/-! ## Control flow below elements -/

def Node.isControl : Node α → Bool
  | .ifBlock _ _ _ | .forBlock _ _ _ => true
  | _ => false

mutual

/-- Whether an `if` or a loop stands directly below an element, anywhere in a node. -/
def Node.controlBelow : Node α → Bool
  | .element _ children => children.any Node.isControl || Node.controlBelowAll children
  | .ifBlock _ thenBranch elseBranch =>
    Node.controlBelowAll thenBranch || Node.controlBelowAll elseBranch
  | .forBlock _ _ body => Node.controlBelowAll body
  | _ => false

def Node.controlBelowAll : List (Node α) → Bool
  | [] => false
  | node :: rest => Node.controlBelow node || Node.controlBelowAll rest

end

def Document.controlBelow (document : Document α) : Bool :=
  Node.controlBelowAll document.children

/-! ## Values in scope -/

namespace Value

/-- A value without references, whose nodes are among those allowed. -/
structure Settled (allowed : ν → Prop) (value : Value ν) : Prop where
  nodes : ∀ node ∈ value.nodes, allowed node
  references : value.references = []

/-- A settled value, or the value of a loop variable. -/
def Simple (allowed : ν → Prop) (value : Value ν) : Prop :=
  Settled allowed value ∨ ∃ name, isLoopName name = true ∧ value = variableRef name

def SettledScope (allowed : ν → Prop) (scope : List (String × Value ν)) : Prop :=
  ∀ entry ∈ scope, Settled allowed entry.2

variable {allowed : ν → Prop} {value : Value ν} {scope : List (String × Value ν)}

theorem Settled.plain (h : Settled allowed value) : Plain allowed value :=
  ⟨h.nodes, by simp [h.references]⟩

theorem settled_absent : Settled allowed (.absent : Value ν) :=
  ⟨by simp [Value.nodes], rfl⟩

theorem Settled.items {items : List (Value ν)} (h : Settled allowed (.list items)) :
    ∀ item ∈ items, Settled allowed item := by
  intro item hitem
  refine ⟨(plain_list_iff.mp h.plain item hitem).nodes, ?_⟩
  have hnone := h.references
  rw [Value.references, referencesOfItems_eq] at hnone
  exact List.flatMap_eq_nil_iff.mp hnone item hitem

theorem Settled.entries {entries : List (String × Value ν)} (h : Settled allowed (.map entries)) :
    ∀ entry ∈ entries, Settled allowed entry.2 := by
  intro entry hentry
  obtain ⟨hnodes, hnone⟩ := h
  rw [Value.nodes, nodesOfEntries_eq] at hnodes
  rw [Value.references, referencesOfEntries_eq] at hnone
  exact ⟨fun node hnode => hnodes node (List.mem_flatMap_of_mem hentry hnode),
    List.flatMap_eq_nil_iff.mp hnone entry hentry⟩

theorem Settled.of_items? (h : Settled allowed value) {items : List (Value ν)}
    (hitems : value.items? = some items) : ∀ item ∈ items, Settled allowed item := by
  unfold items? at hitems
  split at hitems
  · obtain rfl := Option.some.inj hitems
    exact h.items
  · obtain rfl := Option.some.inj hitems
    intro item hitem
    obtain ⟨c, -, rfl⟩ := List.mem_map.mp hitem
    exact ⟨by simp [Value.nodes], rfl⟩
  · contradiction

theorem inScope_of_settled (h : Settled allowed value) (scope : List (String × Value ν)) :
    value.inScope scope = value := by
  have hnone := h.references
  cases value with
  | ref names projection => simp [Value.references] at hnone
  | _ => simp only [inScope]

theorem Simple.inScope (h : Simple allowed value) (hscope : SettledScope allowed scope) :
    Settled allowed (value.inScope scope) := by
  rcases h with hsettled | ⟨name, -, rfl⟩
  · rwa [inScope_of_settled hsettled]
  · show Settled allowed (((scope.find? (·.1 == name)).map (·.2)).getD .absent)
    cases hfound : scope.find? (·.1 == name) with
    | none => exact settled_absent
    | some entry => exact hscope entry (List.mem_of_find?_eq_some hfound)

end Value

/-! ## Substitution and look-up agree -/

namespace Context

open Value (Settled Simple SettledScope)

variable {allowed : ν → Prop} {context : Context ν} {value : Value ν}
  {scope : List (String × Value ν)}

/-- The variables are those of a scope. -/
def HasScope (context : Context ν) (scope : List (String × Value ν)) : Prop :=
  ∀ name, context.scope.get? name = (scope.find? (·.1 == name)).map (·.2)

/-- Inside a loop its variable is the innermost one. -/
theorem HasScope.setVariable (h : context.HasScope scope) (name : String) (value : Value ν) :
    (context.setVariable name value).HasScope ((name, value) :: scope) := by
  intro other
  rw [Context.setVariable, Variables.get?_insert, h other, List.find?_cons]
  by_cases hname : name = other
  · subst hname
    simp
  · have hother : (name == other) = false := by simpa using hname
    rw [if_neg fun heq => hname heq.symm, hother]

/-- Behind a loop there are the variables that were there before. -/
theorem HasScope.restoreVariable {after : Context ν} {name : String}
    (hafter : after.HasScope ((name, value) :: scope)) (h : context.HasScope scope) :
    (after.restoreVariable name (context.scope.get? name)).HasScope scope := by
  intro other
  rw [Context.restoreVariable, Variables.get?_restore]
  by_cases hname : other = name
  · rw [if_pos hname, hname]
    exact h name
  · have hother : (name == other) = false := by simpa using fun heq => hname heq.symm
    rw [if_neg hname, hafter other, List.find?_cons, hother]

variable [Host ν]

/-- A settled value comes to itself in any context. -/
theorem resolve_of_settled (h : Settled allowed value) (context : Context ν) :
    context.resolve value = value := by
  have hnone := h.references
  refine resolve_of_not_reference ?_
  cases value with
  | ref names projection => simp [Value.references] at hnone
  | _ => rfl

theorem map_resolve_of_settled {items : List (Value ν)} (h : ∀ item ∈ items, Settled allowed item)
    (context : Context ν) : items.map context.resolve = items :=
  (List.map_congr_left fun item hitem => resolve_of_settled (h item hitem) context).trans
    items.map_id

/-- What is looked up later is what substitution puts in place. -/
theorem resolve_eq_inScope (h : context.HasScope scope) (hvalue : Simple allowed value)
    (hscope : SettledScope allowed scope) : context.resolve value = value.inScope scope := by
  have hsettled := hvalue.inScope hscope
  rcases hvalue with hvalue | ⟨name, hname, rfl⟩
  · rw [resolve_of_settled hvalue, Value.inScope_of_settled hvalue]
  · rw [resolve_variableRef, lookup_of_isLoopName hname, loopVariable, h name]
    exact resolve_of_settled hsettled context

/-- Whoever walks through settled values meets the same leaves in any context. -/
theorem Meets.of_settled {other : Context ν} {fits : Value ν → Bool}
    {values leaves : List (Value ν)} (h : Meets context fits values leaves)
    (hvalues : ∀ value ∈ values, Settled allowed value) : Meets other fits values leaves := by
  induction h with
  | nil => exact .nil
  | fit hleaf hfits _ ih => exact .fit hleaf hfits (ih (List.forall_mem_cons.mp hvalues).2)
  | unfit hleaf hunfit => exact .unfit hleaf hunfit
  | list _ ih =>
    obtain ⟨hlist, hrest⟩ := List.forall_mem_cons.mp hvalues
    rw [map_resolve_of_settled hlist.items] at ih
    refine .list ?_
    rw [map_resolve_of_settled hlist.items]
    exact ih (List.forall_mem_append.mpr ⟨hlist.items, hrest⟩)

/-- The leaves of a value are those of what substitution puts in its place. -/
theorem leaves_eq_inScope (h : context.HasScope scope) (hvalue : Simple allowed value)
    (hscope : SettledScope allowed scope) (fits : Value ν → Bool) (other : Context ν) :
    context.leaves fits value = other.leaves fits (value.inScope scope) := by
  have hsettled := hvalue.inScope hscope
  have hall : ∀ item ∈ [value.inScope scope], Settled allowed item := by simpa using hsettled
  have hmeets : ∀ leaves, Meets context fits [context.resolve value] leaves ↔
      Meets other fits [other.resolve (value.inScope scope)] leaves := by
    intro leaves
    rw [resolve_eq_inScope h hvalue hscope, resolve_of_settled hsettled]
    exact ⟨fun hleaves => hleaves.of_settled hall, fun hleaves => hleaves.of_settled hall⟩
  by_cases hends : ∃ leaves, Meets context fits [context.resolve value] leaves
  · obtain ⟨leaves, hends⟩ := hends
    rw [leaves_of_meets hends, leaves_of_meets ((hmeets leaves).mp hends)]
  · rw [leaves_of_not_meets fun leaves hleaves => hends ⟨leaves, hleaves⟩,
      leaves_of_not_meets fun leaves hleaves => hends ⟨leaves, (hmeets leaves).mpr hleaves⟩]

theorem leaves_of_settled (h : Settled allowed value) (context : Context ν)
    (fits : Value ν → Bool) : ∀ leaf ∈ context.leaves fits value, Settled allowed leaf := by
  refine forall_leaves (P := Settled allowed) ((resolve_of_settled h context).symm ▸ h) ?_
  intro items hitems item hitem
  rw [resolve_of_settled (hitems.items item hitem)]
  exact hitems.items item hitem

/-- A loop runs over the items of what substitution puts in place. -/
theorem iterationItems_eq_inScope (h : context.HasScope scope) (hvalue : Simple allowed value)
    (hscope : SettledScope allowed scope) {items : List (Value ν)}
    (hitems : (value.inScope scope).items? = some items) :
    iterationItems context value = .ok items := by
  rw [iterationItems, resolve_eq_inScope h hvalue hscope]
  generalize value.inScope scope = found at hitems
  unfold Value.items? at hitems
  split at hitems
  · exact congrArg Except.ok (Option.some.inj hitems)
  · exact congrArg Except.ok (Option.some.inj hitems)
  · contradiction

end Context

/-! ## Attributes in scope -/

namespace AttributeSet

open Value (Settled Simple SettledScope)

variable [Host ν] {allowed : ν → Prop} {value : Value ν}

theorem eventBinding_of_settled (h : Settled allowed value) (context other : Context ν)
    (event : String) : eventBinding context event value = eventBinding other event value := by
  cases value with
  | list items =>
    simp only [eventBinding, Context.map_resolve_of_settled h.items]
  | _ => rfl

theorem add_of_settled (h : Settled allowed value) (context other : Context ν)
    (set : AttributeSet ν) (name : Value ν) :
    set.add context name value = set.add other name value := by
  cases name with
  | string name => simp only [add, eventBinding_of_settled h context other]
  | _ => rfl

theorem addEntries_of_settled {entries : List (String × Value ν)}
    (h : ∀ entry ∈ entries, Settled allowed entry.2) (context other : Context ν)
    (set : AttributeSet ν) : set.addEntries context entries = set.addEntries other entries := by
  induction entries generalizing set with
  | nil => rfl
  | cons entry rest ih =>
    obtain ⟨hentry, hrest⟩ := List.forall_mem_cons.mp h
    rw [addEntries, addEntries, Context.resolve_of_settled hentry, Context.resolve_of_settled hentry,
      add_of_settled hentry context other]
    exact bind_congr fun set => ih hrest set

end AttributeSet

/-- Words in scope have their values in scope. -/
theorem Word.value_inScope (scope : List (String × Value ν)) (word : Word (Value ν)) :
    (word.map (Value.inScope scope)).value = word.value.inScope scope := by
  cases word <;> rfl

namespace AttributeSet

open Value (Settled Simple SettledScope)

variable {allowed : ν → Prop} {context : Context ν} {scope : List (String × Value ν)}

theorem simple_wordValue {word : Word (Value ν)} (h : ∀ value ∈ word.slots, Simple allowed value) :
    Simple allowed word.value := by
  cases word with
  | text content => exact .inl ⟨by simp [Word.value, Value.nodes], rfl⟩
  | slot value => exact h value List.mem_cons_self

variable [Host ν]

/-- One written attribute adds the same, looked up or substituted. -/
theorem addWritten_inScope (h : context.HasScope scope) {entry : Attribute (Value ν)}
    (hentry : ∀ value ∈ entry.slots, Simple allowed value) (hscope : SettledScope allowed scope)
    (other : Context ν) (set : AttributeSet ν) :
    set.addWritten context entry = set.addWritten other (entry.map (Value.inScope scope)) := by
  have hresolve : ∀ {value : Value ν}, Simple allowed value →
      context.resolve value = other.resolve (value.inScope scope) ∧
        Settled allowed (other.resolve (value.inScope scope)) := by
    intro value hvalue
    have hsettled := hvalue.inScope hscope
    rw [Context.resolve_eq_inScope h hvalue hscope, Context.resolve_of_settled hsettled]
    exact ⟨rfl, hsettled⟩
  cases entry with
  | pair name value =>
    have hname := simple_wordValue fun slot h => hentry slot (List.mem_append_left _ h)
    have hvalue := simple_wordValue fun slot h => hentry slot (List.mem_append_right _ h)
    simp only [addWritten, Attribute.map, Attribute.nameValue?, Attribute.assigned,
      Word.value_inScope, hresolve hname, hresolve hvalue]
    exact add_of_settled (hresolve hvalue).2 context other set _
  | bare name =>
    have hname := simple_wordValue fun slot h => hentry slot h
    have hvalue : Simple allowed (.bool true : Value ν) := .inl ⟨by simp [Value.nodes], rfl⟩
    simp only [addWritten, Attribute.map, Attribute.nameValue?, Attribute.assigned,
      Word.value_inScope, hresolve hname, hresolve hvalue]
    exact add_of_settled (hresolve hvalue).2 context other set _
  | splat value =>
    obtain ⟨hsame, hsettled⟩ := hresolve (hentry value List.mem_cons_self)
    simp only [addWritten, Attribute.map, Attribute.nameValue?, Attribute.assigned, hsame]
    split
    · rename_i entries heq
      exact addEntries_of_settled (heq ▸ hsettled).entries context other set
    · rfl

/-- The final attributes of an element are the same, looked up or substituted. -/
theorem build_inScope (h : context.HasScope scope) {written : List (Attribute (Value ν))}
    (hwritten : ∀ value ∈ written.flatMap Attribute.slots, Simple allowed value)
    (hscope : SettledScope allowed scope) (other : Context ν) :
    build context written = build other (written.map (Attribute.map (Value.inScope scope))) := by
  have hall : ∀ set : AttributeSet ν, addAll context set written =
      addAll other set (written.map (Attribute.map (Value.inScope scope))) := by
    induction written with
    | nil => exact fun _ => rfl
    | cons entry rest ih =>
      intro set
      have hentry := fun value hmem => hwritten value (List.mem_append_left _ hmem)
      have hrest := ih fun value hmem => hwritten value (List.mem_append_right _ hmem)
      rw [List.map_cons, addAll, addAll, addWritten_inScope h hentry hscope other]
      exact bind_congr hrest
  exact hall {}

end AttributeSet

end IndentMarkup

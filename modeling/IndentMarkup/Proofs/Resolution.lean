import IndentMarkup.Evaluation.Context

/-! What references come to, and the leaves of values, told as ways that end. A way leads from
reference to reference until it comes to a value of another kind; it may go on forever, and then it
comes to nothing. -/
namespace IndentMarkup

variable {ν : Type}

def Value.isReference : Value ν → Bool
  | .ref _ _ => true
  | _ => false

namespace Context

variable [Host ν] {context : Context ν} {value result : Value ν}

/-! ## Following references -/

/-- Following references, a value comes to another one, which is no reference. -/
inductive ComesTo (context : Context ν) : Value ν → Value ν → Prop
  | here {value : Value ν} : value.isReference = false → ComesTo context value value
  | follow {names : List String} {projection : Projection (Value ν)} {result : Value ν} :
      ComesTo context (Value.project projection (names.map context.lookup)) result →
        ComesTo context (.ref names projection) result

theorem ComesTo.not_reference (h : ComesTo context value result) : result.isReference = false := by
  induction h with
  | here h => exact h
  | follow _ ih => exact ih

theorem resolve?_of_comesTo (h : ComesTo context value result) :
    value.resolve? context.lookup = some result := by
  induction h with
  | @here value h =>
    rw [Value.resolve?]
    cases value <;> first | contradiction | rw [Value.resolve?._go]; simp
  | follow _ ih => rwa [Value.resolve?, Value.resolve?._go]

theorem comesTo_of_resolve? (h : value.resolve? context.lookup = some result) :
    ComesTo context value result := by
  refine Value.resolve?._go.partial_correctness context.lookup (ComesTo context)
    (fun next hnext value result hstep => ?_) value result h
  split at hstep
  · exact .follow (hnext _ _ hstep)
  · rename_i hreference
    obtain rfl := Option.some.inj hstep
    refine .here ?_
    cases value <;> first | rfl | exact absurd rfl (hreference _ _)

/-- Where the references on the way from a value come to an end, the context finds the end. -/
theorem resolve_of_comesTo (h : ComesTo context value result) : context.resolve value = result := by
  rw [resolve, resolve?_of_comesTo h, Option.getD_some]

theorem resolve_of_not_reference (h : value.isReference = false) : context.resolve value = value :=
  resolve_of_comesTo (.here h)

section

variable (context : Context ν)

@[simp] theorem resolve_absent : context.resolve .absent = .absent := resolve_of_not_reference rfl

@[simp] theorem resolve_bool (value : Bool) : context.resolve (.bool value) = .bool value :=
  resolve_of_not_reference rfl

@[simp] theorem resolve_number (value : Float) : context.resolve (.number value) = .number value :=
  resolve_of_not_reference rfl

@[simp] theorem resolve_string (text : String) : context.resolve (.string text) = .string text :=
  resolve_of_not_reference rfl

@[simp] theorem resolve_node (node : ν) : context.resolve (.node node) = .node node :=
  resolve_of_not_reference rfl

@[simp] theorem resolve_list (items : List (Value ν)) : context.resolve (.list items) = .list items :=
  resolve_of_not_reference rfl

@[simp] theorem resolve_map (entries : List (String × Value ν)) :
    context.resolve (.map entries) = .map entries :=
  resolve_of_not_reference rfl

@[simp] theorem resolve_host (handle : Handle) : context.resolve (.host handle) = .host handle :=
  resolve_of_not_reference rfl

/-- A reference comes to what its projection comes to. -/
theorem resolve_ref (names : List String) (projection : Projection (Value ν)) :
    context.resolve (.ref names projection) =
      context.resolve (Value.project projection (names.map context.lookup)) := by
  rw [resolve, Value.resolve?, Value.resolve?._go, resolve, Value.resolve?]

theorem resolve_variableRef (name : String) :
    context.resolve (Value.variableRef name) = context.resolve (context.lookup name) :=
  context.resolve_ref [name] .first

end

/-- A value comes to what the context finds, or its references go on forever. -/
theorem comesTo_resolve_or (context : Context ν) (value : Value ν) :
    ComesTo context value (context.resolve value) ∨
      (∀ result, ¬ ComesTo context value result) ∧ context.resolve value = .absent := by
  cases hfound : value.resolve? context.lookup with
  | some result =>
    have hway := comesTo_of_resolve? hfound
    exact .inl (resolve_of_comesTo hway ▸ hway)
  | none =>
    refine .inr ⟨fun result hway => ?_, by rw [resolve, hfound, Option.getD_none]⟩
    rw [resolve?_of_comesTo hway] at hfound
    contradiction

/-- Contexts in which every name stands for the same value resolve alike. -/
theorem resolve_congr {other : Context ν} (h : context.lookup = other.lookup) :
    context.resolve = other.resolve := by
  funext value
  rw [resolve, resolve, h]

/-! ## Leaves -/

/-- These values come to these leaves, one behind another: a list to those of its items, to any
depth, and any other value to itself. -/
inductive HaveLeaves (context : Context ν) : List (Value ν) → List (Value ν) → Prop
  | nil : HaveLeaves context [] []
  | leaf {value leaf : Value ν} {rest leaves : List (Value ν)} :
      ComesTo context value leaf → (∀ items, leaf ≠ .list items) → HaveLeaves context rest leaves →
        HaveLeaves context (value :: rest) (leaf :: leaves)
  | list {value : Value ν} {items rest first leaves : List (Value ν)} :
      ComesTo context value (.list items) → HaveLeaves context items first →
        HaveLeaves context rest leaves → HaveLeaves context (value :: rest) (first ++ leaves)

/-- A value has these leaves: it comes to one, or to a list whose items have them. -/
def HasLeaves (context : Context ν) (value : Value ν) (leaves : List (Value ν)) : Prop :=
  HaveLeaves context [value] leaves

/-- No leaf is a reference or a list. -/
theorem HaveLeaves.leaf_settled {values leaves : List (Value ν)}
    (h : HaveLeaves context values leaves) :
    ∀ leaf ∈ leaves, leaf.isReference = false ∧ ∀ items, leaf ≠ .list items := by
  induction h with
  | nil => simp
  | leaf hend hleaf _ ih => exact List.forall_mem_cons.mpr ⟨⟨hend.not_reference, hleaf⟩, ih⟩
  | list _ _ _ ihitems ihrest =>
    intro leaf hleaf
    exact (List.mem_append.mp hleaf).elim (ihitems leaf) (ihrest leaf)

end Context

end IndentMarkup

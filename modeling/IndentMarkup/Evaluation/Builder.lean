import IndentMarkup.Value.Basic

/-! Builders. Evaluation makes no output nodes itself; it asks a builder for them. The builder keeps
its nodes in a state of its own and hands out names for them. -/
namespace IndentMarkup

/-- A builder with the state `σ` whose nodes are named by `ν`. -/
class TreeBuilder (σ : Type) (ν : outParam Type) where
  createElement (tag : String) : StateM σ ν
  createText (content : String) : StateM σ ν
  setAttribute (element : ν) (name value : String) : StateM σ Unit
  /-- Registers a callback for an event; both values come from the document unchanged. -/
  addEventListener (element : ν) (event : String) (callback : Value ν)
    (options : Option (Value ν)) : StateM σ Unit
  appendChild (parent child : ν) : StateM σ Unit
  removeAllChildren (parent : ν) : StateM σ Unit
  /-- One node that holds a sequence of nodes. -/
  createFragment (nodes : List ν) : StateM σ ν

end IndentMarkup

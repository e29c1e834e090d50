import IndentMarkup.Evaluation.Builder

/-! An arena of nodes. Each node knows its parent and its children, in order. Appending a node that
has a parent moves it; appending a fragment moves what it holds; no node is ever put below itself.
Names of nodes belong to one arena: those of another read as empty and are ignored by every
change. -/
namespace IndentMarkup

/-- The name of a node: its arena and its number there. -/
structure NodeId where
  dom : Nat
  index : Nat
  deriving DecidableEq, Repr

inductive NodeKind where
  | element (tag : String) (attributes : List (String × String))
  | text (content : String)
  | fragment
  deriving DecidableEq, Repr

/-- A callback for an event, as it was given. -/
structure Listener where
  event : String
  callback : Value NodeId
  options : Option (Value NodeId)
  deriving Repr

structure DomNode where
  kind : NodeKind
  parent : Option NodeId := none
  children : List NodeId := []
  listeners : List Listener := []
  deriving Repr

/-- An arena of nodes, in the order of their creation. -/
structure Dom where
  id : Nat := 0
  nodes : Array DomNode := #[]
  deriving Repr

namespace Dom

/-! ## Looking -/

/-- How many nodes have been created. -/
def size (dom : Dom) : Nat := dom.nodes.size

def contains (dom : Dom) (id : NodeId) : Bool :=
  id.dom == dom.id && id.index < dom.size

def node? (dom : Dom) (id : NodeId) : Option DomNode :=
  if id.dom = dom.id then dom.nodes[id.index]? else none

def ids (dom : Dom) : List NodeId :=
  (List.range dom.size).map fun index => ⟨dom.id, index⟩

def kind? (dom : Dom) (id : NodeId) : Option NodeKind :=
  (dom.node? id).map DomNode.kind

def tagName? (dom : Dom) (id : NodeId) : Option String :=
  match dom.kind? id with
  | some (.element tag _) => some tag
  | _ => none

def attributes (dom : Dom) (id : NodeId) : List (String × String) :=
  match dom.kind? id with
  | some (.element _ attributes) => attributes
  | _ => []

def attribute? (dom : Dom) (id : NodeId) (name : String) : Option String :=
  ((dom.attributes id).find? (·.1 == name)).map (·.2)

def children (dom : Dom) (id : NodeId) : List NodeId :=
  ((dom.node? id).map DomNode.children).getD []

def parent? (dom : Dom) (id : NodeId) : Option NodeId :=
  (dom.node? id).bind DomNode.parent

def listeners (dom : Dom) (id : NodeId) : List Listener :=
  ((dom.node? id).map DomNode.listeners).getD []

/-- The nodes without a parent. -/
def roots (dom : Dom) : List NodeId :=
  dom.ids.filter fun id => (dom.parent? id).isNone

/-- The labels of the callbacks that an event on a node calls, in the order of the calls. Listeners
whose callback cannot be called are passed over. -/
def dispatch (dom : Dom) (id : NodeId) (event : String) : List String :=
  (dom.listeners id).filterMap fun listener =>
    match listener.callback with
    | .host handle =>
      if listener.event == event && handle.callable then some handle.label else none
    | _ => none

/-- Whether `node` is `descendant` or one of this many ancestors of it. -/
def isAncestorWithin (dom : Dom) (node : NodeId) : Nat → NodeId → Bool
  | 0, descendant => descendant == node
  | height + 1, descendant =>
    if descendant == node then true
    else
      match dom.parent? descendant with
      | some parent => isAncestorWithin dom node height parent
      | none => false

/-- Whether `node` is `descendant` or one of its ancestors, of which there are no more than there
are nodes. -/
def isInclusiveAncestor (dom : Dom) (node descendant : NodeId) : Bool :=
  dom.isAncestorWithin node dom.size descendant

/-! ## Changing -/

def insert (dom : Dom) (kind : NodeKind) : NodeId × Dom :=
  (⟨dom.id, dom.size⟩, { dom with nodes := dom.nodes.push { kind } })

def modify (dom : Dom) (id : NodeId) (change : DomNode → DomNode) : Dom :=
  if id.dom = dom.id then { dom with nodes := dom.nodes.modify id.index change } else dom

/-! ## Nodes after a change -/

/-- A node is there exactly where its name belongs to the arena. -/
theorem isSome_node? (dom : Dom) (id : NodeId) : (dom.node? id).isSome = dom.contains id := by
  unfold node? contains size
  by_cases h : id.dom = dom.id
  · by_cases hi : id.index < dom.nodes.size <;> simp [h, hi]
  · simp [h]

@[simp] theorem size_insert (dom : Dom) (kind : NodeKind) :
    (dom.insert kind).2.size = dom.size + 1 := by
  simp [insert, size]

@[simp] theorem id_insert (dom : Dom) (kind : NodeKind) : (dom.insert kind).2.id = dom.id := rfl

theorem node?_insert (dom : Dom) (kind : NodeKind) (id : NodeId) :
    (dom.insert kind).2.node? id =
      if id = (dom.insert kind).1 then some { kind } else dom.node? id := by
  obtain ⟨arena, index⟩ := id
  by_cases h : arena = dom.id
  · by_cases hi : index = dom.nodes.size <;>
      simp [insert, node?, size, h, hi, Array.getElem?_push]
  · simp [insert, node?, h]

@[simp] theorem size_modify (dom : Dom) (id : NodeId) (change : DomNode → DomNode) :
    (dom.modify id change).size = dom.size := by
  by_cases h : id.dom = dom.id <;> simp [modify, size, h]

@[simp] theorem id_modify (dom : Dom) (id : NodeId) (change : DomNode → DomNode) :
    (dom.modify id change).id = dom.id := by
  by_cases h : id.dom = dom.id <;> simp [modify, h]

theorem node?_modify (dom : Dom) (id other : NodeId) (change : DomNode → DomNode) :
    (dom.modify id change).node? other =
      if other = id then (dom.node? other).map change else dom.node? other := by
  obtain ⟨arena, index⟩ := id
  obtain ⟨arena', index'⟩ := other
  by_cases h : arena = dom.id
  · by_cases h' : arena' = dom.id
    · by_cases hi : index' = index <;>
        simp [modify, node?, h, h', hi, Array.getElem?_modify, eq_comm]
    · simp [modify, node?, h, h']
  · by_cases h' : arena' = arena
    · simp [modify, node?, h, h']
    · simp [modify, h, h']

/-! ## Attributes, listeners and places -/

/-- Sets an attribute: in its place if the name is there, at the end otherwise. -/
def setIn (name value : String) : List (String × String) → List (String × String)
  | [] => [(name, value)]
  | (known, old) :: rest =>
    if known = name then (known, value) :: rest else (known, old) :: setIn name value rest

/-- Sets an attribute of an element; other nodes have none. -/
def setAttribute (dom : Dom) (element : NodeId) (name value : String) : Dom :=
  dom.modify element fun node =>
    match node.kind with
    | .element tag attributes => { node with kind := .element tag (setIn name value attributes) }
    | _ => node

def addListener (dom : Dom) (node : NodeId) (listener : Listener) : Dom :=
  dom.modify node fun data => { data with listeners := data.listeners ++ [listener] }

def detach (dom : Dom) (child : NodeId) : Dom :=
  match dom.parent? child with
  | none => dom
  | some parent =>
    (dom.modify child fun node => { node with parent := none }).modify parent fun node =>
      { node with children := node.children.filter (· != child) }

/-- Puts a node at the end of the children of a parent, away from where it was. A node is not put
below itself. -/
def attach (dom : Dom) (parent child : NodeId) : Dom :=
  if dom.isInclusiveAncestor child parent then dom
  else
    ((dom.detach child).modify child fun node => { node with parent := some parent }).modify parent
      fun node => { node with children := node.children ++ [child] }

/-- Appends a node, or what a fragment holds, to the children of a parent. -/
def appendChild (dom : Dom) (parent child : NodeId) : Dom :=
  if dom.contains parent && dom.contains child then
    match dom.kind? child with
    | some .fragment => (dom.children child).foldl (fun dom node => dom.attach parent node) dom
    | _ => dom.attach parent child
  else dom

def removeAllChildren (dom : Dom) (parent : NodeId) : Dom :=
  let removed := dom.children parent
  let emptied := dom.modify parent fun node => { node with children := [] }
  removed.foldl (fun dom child => dom.modify child fun node => { node with parent := none }) emptied

/-- A new fragment that holds these nodes. -/
def createFragment (dom : Dom) (nodes : List NodeId) : NodeId × Dom :=
  let (fragment, dom) := dom.insert .fragment
  (fragment, nodes.foldl (fun dom node => dom.appendChild fragment node) dom)

instance : TreeBuilder Dom NodeId where
  createElement tag := fun dom => dom.insert (.element tag [])
  createText content := fun dom => dom.insert (.text content)
  setAttribute element name value := fun dom => ((), dom.setAttribute element name value)
  addEventListener element event callback options :=
    fun dom => ((), dom.addListener element ⟨event, callback, options⟩)
  appendChild parent child := fun dom => ((), dom.appendChild parent child)
  removeAllChildren parent := fun dom => ((), dom.removeAllChildren parent)
  createFragment nodes := fun dom => dom.createFragment nodes

end Dom

end IndentMarkup

import IndentMarkup.Evaluation.Builder
import IndentMarkup.Value.Display

/-! Call logs: a builder that makes nothing and records what it is asked for. Its nodes are numbers,
given out in order. -/
namespace IndentMarkup

/-- A request to a builder. Callbacks and their options are recorded in their display form. -/
inductive Call where
  | createElement (id : Nat) (tag : String)
  | createText (id : Nat) (content : String)
  | setAttribute (id : Nat) (name value : String)
  | addEventListener (id : Nat) (event callback : String) (options : Option String)
  | appendChild (parent child : Nat)
  | removeAllChildren (id : Nat)
  | createFragment (id : Nat) (nodes : List Nat)
  deriving DecidableEq, Repr

/-- The requests so far, and the number of the next node. -/
structure CallLog where
  nextId : Nat := 0
  calls : Array Call := #[]
  deriving DecidableEq, Repr

namespace CallLog

def record (call : Call) : StateM CallLog Unit :=
  fun log => ((), { log with calls := log.calls.push call })

/-- Records a request for a new node. -/
def create (call : Nat → Call) : StateM CallLog Nat :=
  fun log => (log.nextId, ⟨log.nextId + 1, log.calls.push (call log.nextId)⟩)

instance : TreeBuilder CallLog Nat where
  createElement tag := create fun id => .createElement id tag
  createText content := create fun id => .createText id content
  setAttribute element name value := record (.setAttribute element name value)
  addEventListener element event callback options :=
    record (.addEventListener element event callback.display (options.map Value.display))
  appendChild parent child := record (.appendChild parent child)
  removeAllChildren parent := record (.removeAllChildren parent)
  createFragment nodes := create fun id => .createFragment id nodes

end CallLog

end IndentMarkup

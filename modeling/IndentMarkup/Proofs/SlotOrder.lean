import IndentMarkup.Document.Worded
import IndentMarkup.Proofs.SlotsTaken

/-! Slots in order. The values that are met when a document is read are those of the slots of its
source, in their order; none is met twice, and without comments none is missing. -/
namespace IndentMarkup

variable {α ν : Type}

/-! ## The values of a document -/

/-- The output node that a value is. -/
def Value.node? : Value ν → Option ν
  | .node found => some found
  | _ => none

/-- The values of an attribute, its name before what it is given. -/
def Attribute.values (entry : Attribute (Value ν)) : List (Value ν) :=
  entry.nameValue?.toList ++ [entry.assigned]

/-- The values of a header: base, attributes, name. -/
def Header.values (header : Header (Value ν)) : List (Value ν) :=
  header.base.value :: (header.attributes.flatMap Attribute.values ++
    header.refName.toList.map Word.value)

mutual

/-- The values of a node, in the order in which a document is read. -/
def Node.values : Node (Value ν) → List (Value ν)
  | .element header children => header.values ++ Node.valuesOfAll children
  | .text _ => []
  | .newLine => []
  | .slot value => [value]
  | .ifBlock condition thenBranch elseBranch =>
    condition :: (Node.valuesOfAll thenBranch ++ Node.valuesOfAll elseBranch)
  | .forBlock _ iterable body => iterable :: Node.valuesOfAll body

def Node.valuesOfAll : List (Node (Value ν)) → List (Value ν)
  | [] => []
  | node :: rest => Node.values node ++ Node.valuesOfAll rest

end

/-- The output nodes that are met when a document is read in order: base, attribute names and
values, and name of an element before its children, the value of a control flow line before its
branches. -/
def Document.outputNodes (document : Document (Value ν)) : List ν :=
  (Node.valuesOfAll document.children).filterMap Value.node?

/-- Literal text is no output node. -/
theorem Word.outputNodes_value (word : Word (Value ν)) :
    [word.value].filterMap Value.node? = word.slots.filterMap Value.node? := by
  cases word <;> rfl

theorem Attribute.outputNodes_values (entry : Attribute (Value ν)) :
    entry.values.filterMap Value.node? = entry.slots.filterMap Value.node? := by
  cases entry with
  | pair name value =>
    show ([name.value] ++ [value.value]).filterMap Value.node? = _
    rw [Attribute.slots, List.filterMap_append, List.filterMap_append, Word.outputNodes_value,
      Word.outputNodes_value]
  | bare name =>
    show ([name.value] ++ [Value.bool true]).filterMap Value.node? = _
    rw [Attribute.slots, List.filterMap_append, Word.outputNodes_value]
    exact List.append_nil _
  | splat value => rfl

theorem Header.outputNodes_values (header : Header (Value ν)) :
    header.values.filterMap Value.node? = header.slots.filterMap Value.node? := by
  have hname : (header.refName.toList.map Word.value).filterMap Value.node? =
      (header.refName.toList.flatMap Word.slots).filterMap Value.node? := by
    cases header.refName with
    | none => rfl
    | some name => simpa using name.outputNodes_value
  have hvalues : header.values = [header.base.value] ++
      (header.attributes.flatMap Attribute.values ++ header.refName.toList.map Word.value) := rfl
  rw [hvalues, Header.slots, List.filterMap_append, List.filterMap_append, List.filterMap_append,
    List.filterMap_append, Word.outputNodes_value, hname]
  simp only [List.filterMap_flatMap, Attribute.outputNodes_values]

mutual

theorem Node.outputNodes_values (node : Node (Value ν)) :
    node.values.filterMap Value.node? = node.slots.filterMap Value.node? := by
  cases node with
  | element header children =>
    simp [Node.values, Node.slots, Header.outputNodes_values,
      Node.outputNodes_valuesOfAll children]
  | text content => rfl
  | newLine => rfl
  | slot value => rfl
  | ifBlock condition thenBranch elseBranch =>
    simp [Node.values, Node.slots, List.filterMap_cons, Node.outputNodes_valuesOfAll thenBranch,
      Node.outputNodes_valuesOfAll elseBranch]
  | forBlock variableName iterable body =>
    simp [Node.values, Node.slots, List.filterMap_cons, Node.outputNodes_valuesOfAll body]

theorem Node.outputNodes_valuesOfAll (nodes : List (Node (Value ν))) :
    (Node.valuesOfAll nodes).filterMap Value.node? =
      (Node.slotsOfAll nodes).filterMap Value.node? := by
  cases nodes with
  | nil => rfl
  | cons node rest =>
    simp [Node.valuesOfAll, Node.slotsOfAll, Node.outputNodes_values node,
      Node.outputNodes_valuesOfAll rest]

end

/-! ## Whole sources -/

/-- The slots of a document are slots of its source, in order; without slashes in the text they are
all of them. -/
theorem slots_of_parse {source : Source α} {document : Document α} (h : parse source = .ok document) :
    document.slots.Sublist source.slots ∧
      ((∀ text ∈ source.segments, '/' ∉ text.toList) → document.slots = source.slots) := by
  have haccounts := Parser.accounts_document (parse_eq_ok.mp h)
  refine ⟨by simpa [Source.slots] using haccounts.ordered, fun hsegments => ?_⟩
  have hslash : .char '/' ∉ source := by
    intro hmem
    obtain ⟨text, htext, hc⟩ := Source.mem_segments_of_mem hmem
    exact hsegments text htext hc
  simpa [Source.slots] using haccounts.complete hslash

/-- No slot is lost, doubled or moved. Where all slots of a source are different output nodes, its
document shows them in the same order, each once, and none is missing unless there is a slash. -/
theorem outputNodes_of_parse {source : Source (Value ν)} {nodes : List ν}
    {document : Document (Value ν)} (hslots : source.slots = nodes.map .node)
    (hdistinct : nodes.Nodup) (h : parse source = .ok document) :
    document.outputNodes.Sublist nodes ∧ document.outputNodes.Nodup ∧
      ((∀ text ∈ source.segments, '/' ∉ text.toList) → document.outputNodes = nodes) := by
  obtain ⟨hordered, hcomplete⟩ := slots_of_parse h
  have hfilter : source.slots.filterMap Value.node? = nodes := by
    rw [hslots, List.filterMap_map]
    exact List.filterMap_some
  have hnodes : document.outputNodes = document.slots.filterMap Value.node? :=
    Node.outputNodes_valuesOfAll document.children
  have hsublist : document.outputNodes.Sublist nodes := by
    rw [hnodes, ← hfilter]
    exact hordered.filterMap _
  refine ⟨hsublist, hsublist.nodup hdistinct, fun hslash => ?_⟩
  rw [hnodes, hcomplete hslash, hfilter]

/-- An element with two slots in its header and one below it. -/
def Source.sample : Source (Value Nat) :=
  interleave ["p a=", " @", "\n  | ", ""] [.node 0, .node 1, .node 2]

theorem outputNodes_of_parse_sample :
    Source.sample.slots = [0, 1, 2].map .node ∧ [0, 1, 2].Nodup ∧
      ∃ document, parse Source.sample = .ok document ∧ document.outputNodes = [0, 1, 2] := by
  have hslots : Source.sample.slots = [0, 1, 2].map .node := rfl
  have hdistinct : [0, 1, 2].Nodup := by decide
  have hslash : ∀ text ∈ Source.sample.segments, '/' ∉ text.toList := by decide
  have hok : (parse Source.sample).isOk = true := by decide +kernel
  cases hparsed : parse Source.sample with
  | error failure =>
    rw [hparsed] at hok
    contradiction
  | ok document =>
    obtain ⟨-, -, hall⟩ := outputNodes_of_parse hslots hdistinct hparsed
    exact ⟨hslots, hdistinct, document, rfl, hall hslash⟩

end IndentMarkup

import IndentMarkup.Document.Outline

/-! The lines of outlines. Whatever has been written of an outline, and at whatever level, a node is
written as its lines behind it: the output is only ever added to, except for the line break behind
the label of a tag that turns out to hold nothing. -/
namespace IndentMarkup.Outline

variable {ν : Type}

/-! ## Lines -/

def line (level : Nat) (text : String) : String :=
  String.ofList (List.replicate (2 * level) ' ') ++ text

def leafLine (level : Nat) (tag text : String) : String :=
  line level s!"<{tag}>{escape text}</{tag}>"

/-- The lines of a tag with a label that holds other tags; one line if it holds none. -/
def containerLines (level : Nat) (tag label : String) (content : List String) : List String :=
  if content.isEmpty then [leafLine level tag label]
  else line level s!"<{tag}>{escape label}" :: content ++ [line level s!"</{tag}>"]

def attributeLine (level : Nat) (entry : Attribute (Value ν)) : String :=
  match entry.nameValue? with
  | some name => leafLine level "attr" (nameLabel name ++ "=" ++ entry.assigned.display)
  | none => leafLine level "splat" entry.assigned.display

def headerLines (level : Nat) (header : Header (Value ν)) : List String :=
  header.attributes.map (attributeLine level) ++
    (header.refName.map fun name => leafLine level "ref" name.value.display).toList

/-- The lines of a branch, if there are any in it. -/
def branchLines (level : Nat) (tag : String) (content : List String) : List String :=
  if content.isEmpty then [] else containerLines level tag "" content

mutual

def nodeLines (level : Nat) : Node (Value ν) → List String
  | .element header children =>
    containerLines level "element" (baseLabel header.base)
      (headerLines (level + 1) header ++ allLines (level + 1) children)
  | .text content => [leafLine level "text" content]
  | .newLine => [line level "<newline/>"]
  | .slot value => [leafLine level "slot" value.display]
  | .ifBlock condition thenBranch elseBranch =>
    containerLines level "if" condition.display
      (branchLines (level + 1) "then" (allLines (level + 2) thenBranch) ++
        branchLines (level + 1) "else" (allLines (level + 2) elseBranch))
  | .forBlock variableName iterable body =>
    containerLines level "for" (variableName ++ " of " ++ iterable.display)
      (allLines (level + 1) body)

def allLines (level : Nat) : List (Node (Value ν)) → List String
  | [] => []
  | node :: rest => nodeLines level node ++ allLines level rest

end

/-! ## Writing lines -/

def ended : List String → String
  | [] => ""
  | line :: rest => line ++ "\n" ++ ended rest

theorem ended_append (first second : List String) :
    ended (first ++ second) = ended first ++ ended second := by
  induction first with
  | nil => exact String.empty_append.symm
  | cons line first ih =>
    simp only [List.cons_append, ended, ih, String.append_assoc]

/-- Lines have at least their line breaks. -/
theorem utf8ByteSize_ended_pos {lines : List String} (h : lines ≠ []) :
    0 < (ended lines).utf8ByteSize := by
  cases lines with
  | nil => contradiction
  | cons line rest =>
    rw [ended, String.utf8ByteSize_append, String.utf8ByteSize_append]
    exact Nat.lt_of_lt_of_le (Nat.lt_add_left _ Nat.one_pos) (Nat.le_add_right _ _)

/-- Whatever has been written, and at whatever level, these lines are written behind it. -/
def Writes (write : Outline → Outline) (lines : Nat → List String) : Prop :=
  ∀ outline, write outline = outline.push (ended (lines outline.level))

theorem writes_nothing : Writes id fun _ => [] :=
  fun outline => by rw [ended, push, String.append_empty, id]

theorem Writes.comp {first second : Outline → Outline} {lines more : Nat → List String}
    (h : Writes first lines) (hmore : Writes second more) :
    Writes (fun outline => second (first outline)) fun level => lines level ++ more level := by
  intro outline
  show second (first outline) = _
  rw [h, hmore, ended_append, push, push, push, String.append_assoc]

theorem writes_line (text : String) :
    Writes (pushIndented (text ++ "\n")) fun level => [line level text] := by
  intro outline
  simp only [pushIndented, push, indent, ended, line, String.append_assoc, String.append_empty]

theorem writes_leaf (tag text : String) :
    Writes (leaf tag text) fun level => [leafLine level tag text] := by
  intro outline
  have htext : s!"<{tag}>{escape text}</{tag}>\n" = s!"<{tag}>{escape text}</{tag}>" ++ "\n" := by
    simp only [String.append_assoc, toString]
    rfl
  rw [leaf, htext]
  exact writes_line _ outline

theorem Writes.nested {body : Outline → Outline} {content : Nat → List String}
    (h : Writes body content) : Writes (nested body) fun level => content (level + 1) := by
  intro outline
  rw [Outline.nested, h]
  rfl

/-- To take back what has been written last leaves what was there before. -/
theorem truncate_push (outline : Outline) (text : String) :
    (outline.push text).truncate outline.output.utf8ByteSize = outline := by
  have hsize : outline.output.utf8ByteSize = Source.byteCount outline.output.toList := by
    rw [Source.byteCount_eq, String.ofList_toList]
  rw [truncate, push, hsize, String.toList_append, Source.takeBytes_append, String.ofList_toList]

/-- What a tag holds is written between its label and its end; if that is nothing, the tag is closed
on the line of its label. -/
theorem Writes.container {body : Outline → Outline} {content : Nat → List String}
    (h : Writes body content) (tag label : String) :
    Writes (container tag label body) fun level =>
      containerLines level tag label (content (level + 1)) := by
  intro outline
  generalize hopened : outline.pushIndented s!"<{tag}>{escape label}" = opened
  have hlevel : outline.level = opened.level := hopened ▸ rfl
  have hfilled : (opened.push "\n").nested body =
      opened.push ("\n" ++ ended (content (opened.level + 1))) := by
    rw [h.nested]
    simp only [push, String.append_assoc]
  simp only [Outline.container, containerLines, hopened, hfilled, hlevel]
  generalize content (opened.level + 1) = lines
  have hsize : (opened.push ("\n" ++ ended lines)).output.utf8ByteSize =
      opened.output.utf8ByteSize + 1 + (ended lines).utf8ByteSize := by
    have hbreak : "\n".utf8ByteSize = 1 := rfl
    rw [push, String.utf8ByteSize_append, String.utf8ByteSize_append, hbreak, Nat.add_assoc]
  rw [hsize]
  cases lines with
  | nil =>
    have hnone : (ended []).utf8ByteSize = 0 := rfl
    rw [hnone, if_pos (Nat.add_zero _), truncate_push, if_pos List.isEmpty_nil, ← hlevel, ← hopened]
    simp [push, pushIndented, indent, ended, leafLine, line, toString, String.append_assoc]
  | cons first rest =>
    have hpos := utf8ByteSize_ended_pos (List.cons_ne_nil first rest)
    rw [if_neg (by omega), List.isEmpty_cons, if_neg Bool.false_ne_true, ← hlevel, ← hopened]
    simp [push, pushIndented, indent, ended, ended_append, line, toString, String.append_assoc]

theorem Writes.branch {body : Outline → Outline} {content : Nat → List String}
    (h : Writes body content) (tag : String) (nodes : List (Node (Value ν)))
    (hnodes : ∀ level, content level = [] ↔ nodes = []) :
    Writes (branch tag nodes body) fun level => branchLines level tag (content (level + 1)) := by
  intro outline
  have hsame : (content (outline.level + 1)).isEmpty = nodes.isEmpty := by
    rw [Bool.eq_iff_iff, List.isEmpty_iff, List.isEmpty_iff, hnodes]
  simp only [Outline.branch, branchLines, hsame]
  split
  · exact writes_nothing outline
  · exact h.container tag "" outline

/-! ## The lines of a document -/

theorem writes_attribute (entry : Attribute (Value ν)) :
    Writes (attributeTag entry) fun level => [attributeLine level entry] := by
  unfold attributeTag attributeLine
  cases entry.nameValue? with
  | none => exact writes_leaf _ _
  | some name => exact writes_leaf _ _

theorem writes_attributes (entries : List (Attribute (Value ν))) :
    Writes (fun outline => entries.foldl (fun outline entry => outline.attributeTag entry) outline)
      fun level => entries.map (attributeLine level) := by
  induction entries with
  | nil => exact writes_nothing
  | cons entry rest ih => exact (writes_attribute entry).comp ih

theorem writes_ref (refName : Option (Word (Value ν))) :
    Writes (refTag refName) fun level =>
      (refName.map fun name => leafLine level "ref" name.value.display).toList := by
  cases refName with
  | none => exact writes_nothing
  | some name => exact writes_leaf _ _

theorem writes_header (header : Header (Value ν)) :
    Writes (headerTags header) fun level => headerLines level header :=
  (writes_attributes header.attributes).comp (writes_ref header.refName)

theorem nodeLines_ne_nil (level : Nat) (node : Node (Value ν)) : nodeLines level node ≠ [] := by
  have hcontainer : ∀ (level : Nat) (tag label : String) (content : List String),
      containerLines level tag label content ≠ [] := by
    intro level tag label content
    unfold containerLines
    split <;> simp
  cases node <;> simp [nodeLines, hcontainer]

theorem allLines_eq_nil {level : Nat} {nodes : List (Node (Value ν))} :
    allLines level nodes = [] ↔ nodes = [] := by
  cases nodes with
  | nil => simp [allLines]
  | cons node rest => simp [allLines, nodeLines_ne_nil]

mutual

/-- A node is written as its lines. -/
theorem writes_node (target : Node (Value ν)) :
    Writes (node target) fun level => nodeLines level target := by
  cases target with
  | element header children =>
    exact ((writes_header header).comp (writes_nodes children)).container _ _
  | text content => exact writes_leaf _ _
  | newLine => exact writes_line "<newline/>"
  | slot value => exact writes_leaf _ _
  | ifBlock condition thenBranch elseBranch =>
    have hthen := (writes_nodes thenBranch).branch "then" thenBranch fun _ => allLines_eq_nil
    have helse := (writes_nodes elseBranch).branch "else" elseBranch fun _ => allLines_eq_nil
    exact (hthen.comp helse).container _ _
  | forBlock variableName iterable body => exact (writes_nodes body).container _ _

theorem writes_nodes (targets : List (Node (Value ν))) :
    Writes (nodes targets) fun level => allLines level targets := by
  cases targets with
  | nil => exact writes_nothing
  | cons first rest => exact (writes_node first).comp (writes_nodes rest)

end

/-- An outline is the lines of its nodes between those of the document. -/
theorem outline_eq (document : Document (Value ν)) :
    document.outline =
      "<document>\n" ++ ended (allLines 1 document.children) ++ "</document>" := by
  rw [Document.outline, writes_nodes document.children ⟨"", 1⟩]
  simp [push]

end IndentMarkup.Outline

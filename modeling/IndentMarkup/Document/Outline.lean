import IndentMarkup.Document.Worded
import IndentMarkup.Source.Basic
import IndentMarkup.Text.Replace
import IndentMarkup.Value.Display

/-! Outlines: a document as nested tags, one to a line. The tag tells the kind of the node; slot
values appear in their display form, and every text is escaped, so that no text can be taken for a
tag. An outline is written from front to back; only the line break behind a label is taken back,
where nothing has been written behind it. -/
namespace IndentMarkup

variable {ν : Type}

/-- What has been written of an outline. -/
structure Outline where
  output : String
  level : Nat

namespace Outline

def escape (text : String) : String :=
  text |> Text.replace '&' "&amp;" |> Text.replace '<' "&lt;" |> Text.replace '>' "&gt;"
    |> Text.replace '"' "&quot;" |> Text.replace '\'' "&apos;"

def push (text : String) (outline : Outline) : Outline :=
  { outline with output := outline.output ++ text }

def indent (outline : Outline) : String :=
  String.ofList (List.replicate (2 * outline.level) ' ')

def pushIndented (text : String) (outline : Outline) : Outline :=
  (outline.push outline.indent).push text

/-- Takes back what has been written behind this many bytes. -/
def truncate (size : Nat) (outline : Outline) : Outline :=
  { outline with output := String.ofList (Source.takeBytes size outline.output.toList) }

/-- A tag that holds a text. -/
def leaf (tag text : String) : Outline → Outline :=
  pushIndented s!"<{tag}>{escape text}</{tag}>\n"

/-- What `body` writes, one level deeper. -/
def nested (body : Outline → Outline) (outline : Outline) : Outline :=
  let filled := body { outline with level := outline.level + 1 }
  { filled with level := filled.level - 1 }

/-- A tag with a label that holds what `body` writes; on one line if that is nothing. -/
def container (tag label : String) (body : Outline → Outline) (outline : Outline) : Outline :=
  let opened := outline.pushIndented s!"<{tag}>{escape label}"
  let start := opened.output.utf8ByteSize
  let filled := (opened.push "\n").nested body
  let closing :=
    if filled.output.utf8ByteSize = start + 1 then filled.truncate start
    else filled.pushIndented ""
  closing.push s!"</{tag}>\n"

/-- How the value of a slot is marked where literal text could stand. -/
def slotMark (value : Value ν) : String :=
  "$\x7b" ++ value.display ++ "\x7d"

def baseLabel : Word (Value ν) → String
  | .text content => content
  | .slot value => slotMark value

def nameLabel : Value ν → String
  | .string name => name
  | value => slotMark value

def attributeTag (entry : Attribute (Value ν)) : Outline → Outline :=
  match entry.nameValue? with
  | some name => leaf "attr" (nameLabel name ++ "=" ++ entry.assigned.display)
  | none => leaf "splat" entry.assigned.display

/-- The tag of the name under which an element is bound, if there is one. -/
def refTag (refName : Option (Word (Value ν))) (outline : Outline) : Outline :=
  match refName with
  | some name => outline.leaf "ref" name.value.display
  | none => outline

/-- The tags of what a header holds besides the base. -/
def headerTags (header : Header (Value ν)) (outline : Outline) : Outline :=
  (header.attributes.foldl (fun outline entry => outline.attributeTag entry) outline).refTag
    header.refName

/-- The tag of a branch, if there is anything in it. -/
def branch (tag : String) (nodes : List (Node (Value ν))) (body : Outline → Outline)
    (outline : Outline) : Outline :=
  if nodes.isEmpty then outline else outline.container tag "" body

mutual

def node : Node (Value ν) → Outline → Outline
  | .element header children, outline =>
    outline.container "element" (baseLabel header.base) fun inside =>
      nodes children (inside.headerTags header)
  | .text content, outline => outline.leaf "text" content
  | .newLine, outline => outline.pushIndented "<newline/>\n"
  | .slot value, outline => outline.leaf "slot" value.display
  | .ifBlock condition thenBranch elseBranch, outline =>
    outline.container "if" condition.display fun inside =>
      (inside.branch "then" thenBranch (nodes thenBranch)).branch "else" elseBranch
        (nodes elseBranch)
  | .forBlock variableName iterable body, outline =>
    outline.container "for" (variableName ++ " of " ++ iterable.display) (nodes body)

def nodes : List (Node (Value ν)) → Outline → Outline
  | [], outline => outline
  | first :: rest, outline => nodes rest (node first outline)

end

end Outline

def Document.outline (document : Document (Value ν)) : String :=
  "<document>\n" ++ (Outline.nodes document.children ⟨"", 1⟩).output ++ "</document>"

end IndentMarkup

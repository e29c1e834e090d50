import IndentMarkup.Dom.Basic
import IndentMarkup.Text.Replace

/-! Trees of an arena and their html. A node of an arena unfolds to a tree, which is written with
its attributes in order and its text escaped. Void elements have no closing tag and nothing inside;
a fragment is what it holds. -/
namespace IndentMarkup

/-- A node with all that is below it. -/
inductive Tree where
  | element (tag : String) (attributes : List (String × String)) (children : List Tree)
  | text (content : String)
  | fragment (children : List Tree)
  deriving Repr

namespace Tree

def voidTags : List String :=
  ["area", "base", "br", "col", "embed", "hr", "img", "input", "link", "meta", "param", "source",
   "track", "wbr"]

/-- Whether elements of a tag have no content; the case of letters does not matter. -/
def isVoid (tag : String) : Bool :=
  voidTags.contains (tag.map Char.toLower)

def escapeText (text : String) : String :=
  text |> Text.replace '&' "&amp;" |> Text.replace '<' "&lt;" |> Text.replace '>' "&gt;"

def escapeValue (value : String) : String :=
  value |> Text.replace '&' "&amp;" |> Text.replace '"' "&quot;"

def attributeHtml (attr : String × String) : String :=
  " " ++ attr.1 ++ "=\"" ++ escapeValue attr.2 ++ "\""

mutual

def html : Tree → String
  | .element tag attributes children =>
    let opening := "<" ++ tag ++ String.join (attributes.map attributeHtml) ++ ">"
    if isVoid tag then opening else opening ++ htmlAll children ++ "</" ++ tag ++ ">"
  | .text content => escapeText content
  | .fragment children => htmlAll children

def htmlAll : List Tree → String
  | [] => ""
  | tree :: rest => html tree ++ htmlAll rest

end

mutual

def textContent : Tree → String
  | .element _ _ children | .fragment children => textContentAll children
  | .text content => content

def textContentAll : List Tree → String
  | [] => ""
  | tree :: rest => textContent tree ++ textContentAll rest

end

end Tree

namespace Dom

/-- The tree of a node, down to a depth. A node of another arena is an empty fragment. -/
def treeWithin (dom : Dom) : Nat → NodeId → Tree
  | 0, id =>
    match dom.kind? id with
    | some (.element tag attributes) => .element tag attributes []
    | some (.text content) => .text content
    | _ => .fragment []
  | depth + 1, id =>
    match dom.kind? id with
    | some (.element tag attributes) =>
      .element tag attributes ((dom.children id).map (treeWithin dom depth))
    | some (.text content) => .text content
    | _ => .fragment ((dom.children id).map (treeWithin dom depth))

/-- The tree of a node. It cannot be deeper than there are nodes. -/
def tree (dom : Dom) (id : NodeId) : Tree :=
  dom.treeWithin dom.size id

def html (dom : Dom) (nodes : List NodeId) : String :=
  Tree.htmlAll (nodes.map dom.tree)

def textContent (dom : Dom) (id : NodeId) : String :=
  (dom.tree id).textContent

end Dom

end IndentMarkup

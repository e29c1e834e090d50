import IndentMarkup.Dom.Tree
import IndentMarkup.Evaluation
import IndentMarkup.Parser

/-! From a source to html in one step: parse, evaluate into an empty arena, and write the nodes. -/
namespace IndentMarkup

inductive Error where
  | build (error : Source.BuildError)
  | parsing (error : SyntaxError)
  | evaluation (error : EvaluationError)
  deriving DecidableEq, Repr

def Error.message : Error → String
  | .build error => "Source error: " ++ error.message
  | .parsing error => "Syntax error: " ++ error.message
  | .evaluation error => "Evaluation error: " ++ error.message

/-- An evaluation and the arena that holds its nodes. -/
structure Rendering where
  dom : Dom
  evaluation : Evaluation NodeId

namespace Rendering

def ofSource [Host NodeId] (source : Source (Value NodeId)) (options : Options) :
    Except Error Rendering := do
  let document ← (parse source).mapError .parsing
  match document.evaluate options ({} : Dom) with
  | (.ok evaluation, dom) => return ⟨dom, evaluation⟩
  | (.error error, _) => throw (.evaluation error)

/-- All nodes on the top level as html. -/
def html (rendering : Rendering) : String :=
  rendering.dom.html rendering.evaluation.nodes

/-- The first node on the top level as html. -/
def firstHtml (rendering : Rendering) : String :=
  rendering.dom.html (rendering.evaluation.nodes.take 1)

/-- The nodes on the top level as html, by way of one fragment that holds them. -/
def fragmentHtml (rendering : Rendering) : String :=
  let (fragment, dom) := rendering.evaluation.fragment.run rendering.dom
  dom.html [fragment]

/-- The attribute that shows bound names in a preview. -/
def previewAttr : String := "data-refname"

/-- Options with which bound names can be seen in the html. -/
def previewOptions : Options := Options.withAttrForRefName {} previewAttr

end Rendering

def renderHtml [Host NodeId] (source : Source (Value NodeId)) (options : Options) :
    Except Error String :=
  (Rendering.ofSource source options).map Rendering.html

end IndentMarkup

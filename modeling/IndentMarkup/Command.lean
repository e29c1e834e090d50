import IndentMarkup.Document.Outline
import IndentMarkup.Rendering
import IndentMarkup.Source.Placeholder
import IndentMarkup.Value.OfJson

/-! Commands: rendering a template file with values, and checking the structure of a template. A
command is a function of the files it reads; it gives a log and either an output or a message. -/
namespace IndentMarkup.Command

/-! ## The log -/

/-- How much a line of the log matters. -/
inductive Level where
  | debug
  | trace
  deriving DecidableEq, Repr

def Level.mark : Level → String
  | .debug => "DEBUG"
  | .trace => "TRACE"

/-- How often a command has to be asked for its log before it shows a level. -/
def Level.verbosity : Level → Nat
  | .debug => 1
  | .trace => 2

structure LogLine where
  level : Level
  text : String
  deriving DecidableEq, Repr

def LogLine.shown (line : LogLine) : String :=
  line.level.mark ++ ": " ++ line.text ++ "\n"

def eventLine {α : Type} (source : Source α) (event : Parser.Event α) : LogLine :=
  let position := Position.ofRest source event.rest
  let atLine := s!"at line {position.line}"
  let text :=
    match event.kind with
    | .item => s!"block item at segment {position.segment} line {position.line}"
    | .comment => s!"comment {atLine}"
    | .textItem =>
      let marker := String.ofList (event.rest.firstSegment.take 1)
      s!"text block {Text.quoted marker} {atLine}"
    | .element => s!"element {atLine}"
    | .instruction word => s!"instruction {Text.quoted word} {atLine}"
  ⟨.trace, text⟩

/-! ## Results -/

structure Result (β : Type) where
  log : List LogLine
  outcome : Except String β

namespace Result

variable {β γ : Type}

/-- One part of a command and the next, which is not reached if the first fails. -/
protected def bind (first : Result β) (next : β → Result γ) : Result γ :=
  match first.outcome with
  | .error message => ⟨first.log, .error message⟩
  | .ok value =>
    let second := next value
    ⟨first.log ++ second.log, second.outcome⟩

instance : Monad Result where
  pure value := ⟨[], .ok value⟩
  bind := Result.bind

/-- A part of a command that adds nothing to the log. -/
def silent (outcome : Except String β) : Result β := ⟨[], outcome⟩

def debug (text : String) : Result Unit := ⟨[⟨.debug, text⟩], .ok ()⟩

/-- What is shown of the log when it has been asked for this often, and the message of a failure
behind it. -/
def errorOutput (result : Result β) (verbosity : Nat) : String :=
  let shown := result.log.filter fun line => line.level.verbosity ≤ verbosity
  let failure :=
    match result.outcome with
    | .ok _ => ""
    | .error message => "Error: " ++ message ++ "\n"
  String.join (shown.map LogLine.shown) ++ failure

def output (result : Result String) : String :=
  match result.outcome with
  | .ok text => text
  | .error _ => ""

def exitCode (result : Result β) : UInt8 :=
  match result.outcome with
  | .ok _ => 0
  | .error _ => 1

end Result

/-! ## Requests -/

/-- What rendering prints. -/
inductive Format where
  | html
  | outline
  | bindings
  deriving DecidableEq, Repr

def Format.ofName? : String → Option Format
  | "html" => some .html
  | "ast-tag" => some .outline
  | "bindings" => some .bindings
  | _ => none

structure RenderRequest where
  path : String
  /-- The file that holds the values of the placeholders. -/
  values : Option String := none
  /-- The file that holds the options. -/
  options : Option String := none
  /-- The attribute for bound names; it goes before the one in the options. -/
  refAttr : Option String := none
  format : Format := .html
  deriving DecidableEq, Repr

/-- The files that a command can read: their content, or why they cannot be read. -/
abbrev Files := String → Except String String

/-- Why a file that is not there cannot be read. -/
def missingFile : String := "No such file or directory (os error 2)"

variable (files : Files)

def readFile (path : String) : Except String String :=
  (files path).mapError fun reason => s!"Error reading {path}: {reason}"

/-- The values of the placeholders, which have to be the members of an object. -/
def readValues (path : String) : Except String (List (String × Json)) := do
  match Json.parse? (← readFile files path) with
  | some (.object members) => return members
  | some _ => throw s!"{path}: values must be a JSON object"
  | none => throw s!"{path}: not a JSON document"

def readOptions (path : String) : Except String Options := do
  match Options.ofJson? (← readFile files path) with
  | some options => return options
  | none => throw s!"{path}: not a JSON document of options"

def requestOptions (request : RenderRequest) : Except String Options := do
  let options ←
    match request.options with
    | some path => readOptions files path
    | none => pure {}
  match request.refAttr with
  | some name => return options.withAttrForRefName name
  | none => return options

/-! ## Steps -/

def templateSource (lookup : String → Option (Value NodeId)) (text : String) :
    Except String (Source (Value NodeId)) :=
  (Source.ofTemplate lookup text).mapError fun error => (Error.build error).message

def parseLogged (source : Source (Value NodeId)) : Result (Document (Value NodeId)) := do
  let indent := String.ofList (Parser.baseIndent source)
  Result.debug s!"parsing document, base indent {Text.quoted indent}"
  let events := (Parser.Traced.document source).events
  let parsed := parse source
  let ending :=
    match parsed with
    | .ok document => s!"parsed document with {document.children.length} top-level nodes"
    | .error error => s!"syntax error: {error.message}"
  ⟨events.map (eventLine source) ++ [⟨.debug, ending⟩],
    parsed.mapError fun error => (Error.parsing error).message⟩

def evaluateLogged [Host NodeId] (document : Document (Value NodeId)) (options : Options) :
    Result Rendering :=
  let (nodes, state) := document.run options ({} : Dom)
  let bindings := state.context.bindings
  let steps := state.journal.reverse.map fun event => ⟨.trace, event.message⟩
  match nodes with
  | .ok nodes =>
    let ending := s!"evaluated {nodes.length} top-level nodes, {bindings.size} bindings"
    ⟨steps ++ [⟨.debug, ending⟩], .ok ⟨state.builder, ⟨nodes, bindings⟩⟩⟩
  | .error error => ⟨steps, .error (Error.evaluation error).message⟩

def bindingLines (rendering : Rendering) : String :=
  String.join (rendering.evaluation.bindings.firsts.map fun (name, node) =>
    name ++ "\t" ++ rendering.dom.html [node] ++ "\n")

/-! ## Commands -/

def render [Host NodeId] (request : RenderRequest) : Result String := do
  let text ← Result.silent (readFile files request.path)
  let values ← Result.silent <|
    match request.values with
    | some path => readValues files path
    | none => pure []
  let options ← Result.silent (requestOptions files request)
  let lookup name := (Json.find? values name).map Value.ofJson
  let source ← Result.silent (templateSource lookup text)
  Result.debug s!"{source.segments.length} segments, {source.slots.length} slots"
  let document ← parseLogged source
  match request.format with
  | .outline => return document.outline ++ "\n"
  | .bindings => return bindingLines (← evaluateLogged document options)
  | .html => return (← evaluateLogged document options).html ++ "\n"

/-- Checks the structure of a template; what its placeholders stand for does not matter. -/
def check (path : String) : Result String := do
  let text ← Result.silent (readFile files path)
  let source ← Result.silent (templateSource (fun _ => some .absent) text)
  let document ← parseLogged source
  return s!"{path}: ok ({document.children.length} top-level nodes)\n"

/-- A command with its arguments. -/
inductive Request where
  | render (request : RenderRequest)
  | check (path : String)
  deriving DecidableEq, Repr

def run [Host NodeId] : Request → Result String
  | .render request => render files request
  | .check path => check files path

def Request.paths : Request → List String
  | .render request => request.path :: request.values.toList ++ request.options.toList
  | .check path => [path]

end IndentMarkup.Command

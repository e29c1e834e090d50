import IndentMarkup.Proofs.Evaluating
import IndentMarkup.Proofs.SlotsTaken
import IndentMarkup.Rendering
import IndentMarkup.Value.Words

/-! Documents without slots. Everything in such a document is literal: the tags, the names and the
values are texts, nothing is spread, and there is no control flow. None of the errors of evaluation
can arise from it, so a source without slots can only fail to parse. -/
namespace IndentMarkup

variable {σ ν : Type}

/-! ## Computations that succeed -/

namespace Evaluate

variable {β γ : Type}

/-- A computation succeeds in every state. -/
def Succeeds (computation : Evaluate σ ν β) : Prop :=
  ∀ state, ∃ result after, computation state = (.ok result, after)

theorem succeeds_pure (value : β) : Succeeds (pure value : Evaluate σ ν β) :=
  fun state => ⟨value, state, rfl⟩

theorem succeeds_note (event : EvaluationEvent) : Succeeds (note event : Evaluate σ ν Unit) :=
  fun _ => ⟨(), _, rfl⟩

theorem succeeds_bindNode (name : String) (node : ν) :
    Succeeds (bindNode name node : Evaluate σ ν Unit) := fun _ => ⟨(), _, rfl⟩

theorem succeeds_build (action : StateM σ β) : Succeeds (build action : Evaluate σ ν β) :=
  fun state => ⟨(action state.builder).1, _, rfl⟩

theorem Succeeds.bind {first : Evaluate σ ν β} {next : β → Evaluate σ ν γ}
    (hfirst : Succeeds first) (hnext : ∀ value, Succeeds (next value)) :
    Succeeds (first >>= next) := by
  intro state
  obtain ⟨value, between, heq⟩ := hfirst state
  rw [bind_apply, heq]
  exact hnext value between

/-- What the context holds is of interest only as far as it bears on the rest. -/
theorem succeeds_ask_bind {look : Context ν → β} {next : β → Evaluate σ ν γ}
    (h : ∀ context, Succeeds (next (look context))) : Succeeds (ask look >>= next) :=
  fun state => h state.context state

theorem succeeds_each {step : β → Evaluate σ ν Unit} (hstep : ∀ item, Succeeds (step item))
    (items : List β) : Succeeds (each step items) := by
  induction items with
  | nil => exact succeeds_pure ()
  | cons item rest ih => exact (hstep item).bind fun _ => ih

end Evaluate

/-! ## Literal words and attributes -/

/-- Without slots, a word is literal text. -/
theorem Word.eq_text_of_slots {α : Type} {word : Word α} (h : word.slots = []) :
    ∃ content, word = .text content := by
  cases word with
  | text content => exact ⟨content, rfl⟩
  | slot value => contradiction

theorem Word.value_of_slots {word : Word (Value ν)} (h : word.slots = []) :
    ∃ text, word.value = .string text := by
  obtain ⟨content, rfl⟩ := word.eq_text_of_slots h
  exact ⟨content, rfl⟩

namespace AttributeSet

/-- The values that can be written without a slot: a text, and true for a name alone. -/
inductive Literal : Value ν → Prop where
  | text (text : String) : Literal (.string text)
  | present : Literal (.bool true)

section

variable [Host ν]

theorem Literal.resolve {value : Value ν} (h : Literal value) (context : Context ν) :
    context.resolve value = value := by
  cases h with
  | text text => exact context.resolve_string text
  | present => exact context.resolve_bool true

/-- A text can be a name, of an attribute or of an event, and a literal value can be its value. -/
theorem add_literal {value : Value ν} (h : Literal value) (context : Context ν)
    (set : AttributeSet ν) (name : String) :
    ∃ after, set.add context (.string name) value = .ok after := by
  unfold add
  simp only
  split
  · exact ⟨_, rfl⟩
  · cases h with
    | text text => exact ⟨_, rfl⟩
    | present => exact ⟨_, rfl⟩

/-- Without slots there is no splat, every name is a text and every value literal. -/
theorem addWritten_of_slots {entry : Attribute (Value ν)} (h : entry.slots = [])
    (context : Context ν) (set : AttributeSet ν) :
    ∃ after, set.addWritten context entry = .ok after := by
  have written {name : Word (Value ν)} {value : Value ν} (hname : name.slots = [])
      (hvalue : Literal value) :
      ∃ after, set.add context (context.resolve name.value) (context.resolve value) =
        .ok after := by
    obtain ⟨text, heq⟩ := name.value_of_slots hname
    rw [heq, context.resolve_string, hvalue.resolve]
    exact add_literal hvalue context set text
  cases entry with
  | pair name value =>
    obtain ⟨hname, hvalue⟩ := List.append_eq_nil_iff.mp h
    obtain ⟨text, heq⟩ := value.value_of_slots hvalue
    have hliteral : Literal value.value := heq ▸ .text text
    exact written hname hliteral
  | bare name => exact written h .present
  | splat value => contradiction

theorem addAll_of_slots {entries : List (Attribute (Value ν))}
    (h : entries.flatMap Attribute.slots = []) (context : Context ν) (set : AttributeSet ν) :
    ∃ after, set.addAll context entries = .ok after := by
  induction entries generalizing set with
  | nil => exact ⟨set, rfl⟩
  | cons entry rest ih =>
    obtain ⟨hentry, hrest⟩ := List.append_eq_nil_iff.mp h
    obtain ⟨between, hadded⟩ := addWritten_of_slots hentry context set
    obtain ⟨after, hafter⟩ := ih hrest between
    refine ⟨after, ?_⟩
    rw [addAll, hadded]
    exact hafter

end

end AttributeSet

/-! ## Nodes -/

open Evaluate

section

variable [Host ν] [TreeBuilder σ ν]

theorem succeeds_baseNodes {base : Word (Value ν)} (h : base.slots = []) :
    Succeeds (baseNodes base : Evaluate σ ν (List ν)) := by
  obtain ⟨tag, rfl⟩ := base.eq_text_of_slots h
  exact (succeeds_build _).bind fun _ => succeeds_pure _

theorem succeeds_applyAttributes (element : ν) {written : List (Attribute (Value ν))}
    (h : written.flatMap Attribute.slots = []) :
    Succeeds (applyAttributes element written : Evaluate σ ν Unit) := by
  refine succeeds_ask_bind fun context => ?_
  obtain ⟨set, hset⟩ := AttributeSet.addAll_of_slots h context {}
  rw [AttributeSet.build, hset]
  exact (succeeds_each (fun _ => succeeds_build _) _).bind fun _ =>
    succeeds_each (fun _ => succeeds_build _) _

theorem succeeds_applyRefName (element : ν) {refName : Option (Word (Value ν))}
    (h : refName.toList.flatMap Word.slots = []) :
    Succeeds (applyRefName element refName : Evaluate σ ν Unit) := by
  cases refName with
  | none => exact succeeds_pure ()
  | some word =>
    have hword : word.slots = [] := by simpa using h
    obtain ⟨name, hvalue⟩ := word.value_of_slots hword
    have hbinding : Succeeds (do note (.bound name); bindNode name element : Evaluate σ ν Unit) :=
      (succeeds_note _).bind fun _ => succeeds_bindNode name element
    refine succeeds_ask_bind fun context => ?_
    rw [hvalue, context.resolve_string]
    refine succeeds_ask_bind fun context => ?_
    cases context.options.attrForRefName with
    | none => exact (succeeds_pure ()).bind fun _ => hbinding
    | some attr => exact (succeeds_build _).bind fun _ => hbinding

mutual

theorem succeeds_evaluateNode {node : Node (Value ν)} (h : node.slots = []) :
    Succeeds (evaluateNode node : Evaluate σ ν (List ν)) := by
  cases node with
  | element header children =>
    obtain ⟨hheader, hchildren⟩ := List.append_eq_nil_iff.mp h
    obtain ⟨hbase, hlist⟩ := List.append_eq_nil_iff.mp hheader
    obtain ⟨hattributes, hname⟩ := List.append_eq_nil_iff.mp hlist
    rw [evaluateNode]
    refine (succeeds_baseNodes hbase).bind fun elements =>
      (succeeds_each (fun element => ?_) elements).bind fun _ => succeeds_pure _
    refine (succeeds_applyAttributes element hattributes).bind fun _ =>
      (succeeds_applyRefName element hname).bind fun _ => ?_
    split
    · exact (succeeds_build _).bind fun _ => succeeds_appendAll element hchildren
    · exact succeeds_pure ()
  | text content =>
    rw [evaluateNode]
    exact (succeeds_build _).bind fun _ => succeeds_pure _
  | newLine =>
    rw [evaluateNode]
    exact (succeeds_build _).bind fun _ => succeeds_pure _
  | slot value => contradiction
  | ifBlock condition thenBranch elseBranch => contradiction
  | forBlock variableName iterable body => contradiction

theorem succeeds_evaluateAll {nodes : List (Node (Value ν))} (h : Node.slotsOfAll nodes = []) :
    Succeeds (evaluateAll nodes : Evaluate σ ν (List ν)) := by
  cases nodes with
  | nil =>
    rw [evaluateAll]
    exact succeeds_pure []
  | cons node rest =>
    obtain ⟨hnode, hrest⟩ := List.append_eq_nil_iff.mp h
    rw [evaluateAll]
    exact (succeeds_evaluateNode hnode).bind fun _ =>
      (succeeds_evaluateAll hrest).bind fun _ => succeeds_pure _

theorem succeeds_appendAll (parent : ν) {nodes : List (Node (Value ν))}
    (h : Node.slotsOfAll nodes = []) :
    Succeeds (appendAll parent nodes : Evaluate σ ν Unit) := by
  cases nodes with
  | nil =>
    rw [appendAll]
    exact succeeds_pure ()
  | cons node rest =>
    obtain ⟨hnode, hrest⟩ := List.append_eq_nil_iff.mp h
    rw [appendAll]
    refine (succeeds_evaluateNode hnode).bind fun outputs => ?_
    exact (succeeds_each (fun _ => succeeds_build _) outputs).bind fun _ =>
      succeeds_appendAll parent hrest

end

/-! ## Documents and sources -/

/-- A document without slots can be evaluated with every builder in every state. -/
theorem Document.evaluate_of_slots {document : Document (Value ν)} (h : document.slots = [])
    (options : Options) (builder : σ) :
    ∃ evaluation after, document.evaluate options builder = (.ok evaluation, after) := by
  obtain ⟨nodes, state, hrun⟩ :=
    succeeds_evaluateAll (σ := σ) h ⟨builder, { options }, []⟩
  refine ⟨⟨nodes, state.context.bindings⟩, state.builder, ?_⟩
  unfold evaluate
  rw [show document.run options builder = (.ok nodes, state) from hrun]
  rfl

end

/-- The document of a source without slots has none either. -/
theorem slots_of_slotFree {α : Type} {source : Source α} {document : Document α}
    (hslots : source.slots = []) (h : parse source = .ok document) : document.slots = [] := by
  have hordered := (Parser.accounts_document (parse_eq_ok.mp h)).ordered
  rw [hslots, List.sublist_nil, List.append_eq_nil_iff] at hordered
  exact hordered.1

/-- A source without slots can only fail to parse. What its document is, every builder can
evaluate in every state and with all options; and the html of such a source is there, unless the
source is no document. -/
theorem slotFree_only_fails_to_parse :
    (∀ {σ ν : Type} [Host ν] [TreeBuilder σ ν] (source : Source (Value ν))
      (document : Document (Value ν)),
      source.slots = [] → parse source = .ok document →
        ∀ (options : Options) (builder : σ),
          ∃ evaluation after, document.evaluate options builder = (.ok evaluation, after)) ∧
    ∀ [Host NodeId] (source : Source (Value NodeId)) (options : Options), source.slots = [] →
      (∃ html, renderHtml source options = .ok html) ∨
        ∃ failure, parse source = .error failure ∧
          renderHtml source options = .error (.parsing failure) := by
  refine ⟨fun source document hslots h options builder =>
    document.evaluate_of_slots (slots_of_slotFree hslots h) options builder, ?_⟩
  intro _ source options hslots
  cases h : parse source with
  | error failure =>
    refine .inr ⟨failure, rfl, ?_⟩
    rw [renderHtml, Rendering.ofSource, h]
    rfl
  | ok document =>
    obtain ⟨evaluation, dom, heval⟩ :=
      document.evaluate_of_slots (slots_of_slotFree hslots h) options ({} : Dom)
    refine .inl ⟨dom.html evaluation.nodes, ?_⟩
    have hparsed : (parse source).mapError Error.parsing = .ok document := by
      rw [h]
      rfl
    simp only [renderHtml, Rendering.ofSource, hparsed, bind, Except.bind, heval]
    rfl

/-- An element with a shorthand, an attribute, an event and a name, and a text below it. -/
def Source.literalSample : Source (Value NodeId) :=
  ofText "p.note a=1 !click @it\n  | hi"

attribute [local instance] Host.ofWords in
theorem slotFree_only_fails_to_parse_sample :
    Source.literalSample.slots = [] ∧
      (∃ document, parse Source.literalSample = .ok document ∧
        ∃ evaluation after, document.evaluate {} ({} : Dom) = (.ok evaluation, after)) ∧
      ∃ html, renderHtml Source.literalSample {} = .ok html := by
  have hslots : Source.literalSample.slots = [] := rfl
  have hok : (parse Source.literalSample).isOk = true := by decide +kernel
  obtain ⟨hevaluates, hrenders⟩ := slotFree_only_fails_to_parse
  cases hparsed : parse Source.literalSample with
  | error failure =>
    rw [hparsed] at hok
    contradiction
  | ok document =>
    refine ⟨hslots, ⟨document, rfl, hevaluates _ document hslots hparsed {} ({} : Dom)⟩, ?_⟩
    rcases hrenders Source.literalSample {} hslots with hhtml | ⟨failure, herror, -⟩
    · exact hhtml
    · rw [hparsed] at herror
      contradiction

end IndentMarkup

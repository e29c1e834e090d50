import IndentMarkup.Proofs.MapNodes
import IndentMarkup.Proofs.SideBySide

/-! One evaluation by two builders. Where every action of one builder is matched by the same action
of the other, on nodes that correspond, the evaluations of a document by the two are matched from
beginning to end: they make corresponding nodes and bindings, or fail with the same error. -/
namespace IndentMarkup

variable {σ ν σ' ν' : Type}

/-! ## Matching actions and states -/

/-- From builders in the relation `S` two actions give results in the relation `R`, and leave
builders in the relation `S`. -/
def Matched {β γ : Type} (S : σ → σ' → Prop) (R : β → γ → Prop) (first : StateM σ β)
    (second : StateM σ' γ) : Prop :=
  ∀ s t, S s t → R (first s).1 (second t).1 ∧ S (first s).2 (second t).2

/-- The same requests, with the nodes renamed by `f`, keep two builders in a relation. Evaluation
makes no fragments. -/
structure TreeBuilder.Simulates [TreeBuilder σ ν] [TreeBuilder σ' ν'] (f : ν → ν')
    (S : σ → σ' → Prop) : Prop where
  createElement (tag : String) :
    Matched S (fun node node' => node' = f node) (createElement tag) (createElement tag)
  createText (content : String) :
    Matched S (fun node node' => node' = f node) (createText content) (createText content)
  setAttribute (element : ν) (name value : String) :
    Matched S (fun _ _ => True) (setAttribute element name value)
      (setAttribute (f element) name value)
  addEventListener (element : ν) (event : String) (callback : Value ν)
    (options : Option (Value ν)) :
    Matched S (fun _ _ => True) (addEventListener element event callback options)
      (addEventListener (f element) event (callback.mapNodes f) (options.map (Value.mapNodes f)))
  appendChild (parent child : ν) :
    Matched S (fun _ _ => True) (appendChild parent child) (appendChild (f parent) (f child))
  removeAllChildren (parent : ν) :
    Matched S (fun _ _ => True) (removeAllChildren parent) (removeAllChildren (f parent))

/-- Two evaluations have come equally far. -/
structure Abreast (f : ν → ν') (known : String → Prop) (S : σ → σ' → Prop)
    (s : EvaluationState σ ν) (t : EvaluationState σ' ν') : Prop where
  builder : S s.builder t.builder
  context : t.context = s.context.mapNodes f
  journal : t.journal = s.journal
  /-- What the variables hold is made of known functions. -/
  made : s.context.MadeOf known

open Evaluate

section

variable {f : ν → ν'} {known : String → Prop} {S : σ → σ' → Prop} {β γ δ ε : Type}

/-- Two computations go abreast, and what they give is in the relation `R`. -/
def GoAbreast (f : ν → ν') (known : String → Prop) (S : σ → σ' → Prop) (R : β → γ → Prop)
    (first : Evaluate σ ν β) (second : Evaluate σ' ν' γ) : Prop :=
  Related (Abreast f known S) (Abreast f known S) first second
    fun x y s t => R x y ∧ Abreast f known S s t

variable {R : β → γ → Prop}

theorem abreast_pure {x : β} {y : γ} (h : R x y) :
    GoAbreast f known S R (pure x : Evaluate σ ν β) (pure y) :=
  related_pure fun _ _ habreast => ⟨h, habreast⟩

theorem abreast_throw {error error' : EvaluationError} (h : error' = error) :
    GoAbreast f known S R (throw error : Evaluate σ ν β) (throw error' : Evaluate σ' ν' γ) := by
  subst h
  intro s t habreast
  exact .failure habreast

theorem abreast_build {first : StateM σ β} {second : StateM σ' γ} (h : Matched S R first second) :
    GoAbreast f known S R (build first : Evaluate σ ν β) (build second) := by
  intro s t habreast
  obtain ⟨hresult, hbuilder⟩ := h s.builder t.builder habreast.builder
  exact .success ⟨hresult, hbuilder, habreast.context, habreast.journal, habreast.made⟩

theorem abreast_note (event : EvaluationEvent) :
    GoAbreast f known S (fun _ _ => True) (note event : Evaluate σ ν Unit) (note event) := by
  intro s t habreast
  exact .success
    ⟨trivial, habreast.builder, habreast.context, congrArg _ habreast.journal, habreast.made⟩

theorem abreast_bindNode (name : String) (node : ν) :
    GoAbreast f known S (fun _ _ => True) (bindNode name node : Evaluate σ ν Unit)
      (bindNode name (f node)) := by
  intro s t habreast
  refine .success ⟨trivial, habreast.builder, ?_, habreast.journal, habreast.made⟩
  rw [Context.mapNodes_bind, ← habreast.context]

theorem GoAbreast.bind {R' : δ → ε → Prop} {first : Evaluate σ ν β} {second : Evaluate σ' ν' γ}
    {next : β → Evaluate σ ν δ} {other : γ → Evaluate σ' ν' ε}
    (hfirst : GoAbreast f known S R first second)
    (hnext : ∀ x y, R x y → GoAbreast f known S R' (next x) (other y)) :
    GoAbreast f known S R' (first >>= next) (second >>= other) := by
  refine Related.bind hfirst fun x y s t h => ?_
  obtain ⟨hresult, habreast⟩ := h
  exact hnext x y hresult s t habreast

/-- Both look at their contexts, which differ only in the names of nodes. -/
theorem abreast_ask {look : Context ν → β} {look' : Context ν' → γ} (g : β → γ) (P : β → Prop)
    (hlook : ∀ context, context.MadeOf known →
      look' (context.mapNodes f) = g (look context) ∧ P (look context)) {R' : δ → ε → Prop}
    {next : β → Evaluate σ ν δ} {other : γ → Evaluate σ' ν' ε}
    (hnext : ∀ x, P x → GoAbreast f known S R' (next x) (other (g x))) :
    GoAbreast f known S R' (ask look >>= next) (ask look' >>= other) := by
  refine related_ask fun s t habreast => ?_
  obtain ⟨hsame, hfound⟩ := hlook s.context habreast.made
  rw [habreast.context, hsame]
  exact hnext (look s.context) hfound s t habreast

theorem GoAbreast.withVariable {first : Evaluate σ ν β} {second : Evaluate σ' ν' γ}
    (h : GoAbreast f known S R first second) (name : String) {value : Value ν}
    (hvalue : value.MadeOf known) :
    GoAbreast f known S R (withVariable name value first)
      (withVariable name (value.mapNodes f) second) := by
  intro s t habreast
  have hset : Abreast f known S { s with context := s.context.setVariable name value }
      { t with context := t.context.setVariable name (value.mapNodes f) } := by
    refine ⟨habreast.builder, ?_, habreast.journal, habreast.made.setVariable hvalue name⟩
    rw [Context.mapNodes_setVariable, ← habreast.context]
  have hrestore : ∀ {s' : EvaluationState σ ν} {t' : EvaluationState σ' ν'},
      Abreast f known S s' t' → Abreast f known S
        { s' with context := s'.context.restoreVariable name (s.context.scope.get? name) }
        { t' with context := t'.context.restoreVariable name (t.context.scope.get? name) } := by
    intro s' t' h'
    refine ⟨h'.builder, ?_, h'.journal, h'.made.restoreVariable fun _ => habreast.made.get?⟩
    rw [Context.mapNodes_restoreVariable, ← h'.context, ← Context.get?_mapNodes, ← habreast.context]
  have halike := h _ _ hset
  rw [withVariable_apply, withVariable_apply]
  generalize first { s with context := s.context.setVariable name value } = run at halike ⊢
  generalize second { t with context := t.context.setVariable name (value.mapNodes f) } = run'
    at halike ⊢
  cases halike with
  | success hend => exact .success ⟨hend.1, hrestore hend.2⟩
  | failure hend => exact .failure (hrestore hend)

/-- What one computation gives corresponds node by node to what the other gives. -/
def SameNames (f : ν → ν') (nodes : List ν) (nodes' : List ν') : Prop :=
  nodes' = nodes.map f

theorem abreast_append {first : Evaluate σ ν (List ν)} {second : Evaluate σ' ν' (List ν')}
    {more : Evaluate σ ν (List ν)} {more' : Evaluate σ' ν' (List ν')}
    (hfirst : GoAbreast f known S (SameNames f) first second)
    (hmore : GoAbreast f known S (SameNames f) more more') :
    GoAbreast f known S (SameNames f) (do return (← first) ++ (← more))
      (do return (← second) ++ (← more')) := by
  refine hfirst.bind fun front front' hfront => hmore.bind fun back back' hback => ?_
  apply abreast_pure
  rw [SameNames, List.map_append, ← hfront, ← hback]

/-- Two loops over corresponding items. -/
theorem abreast_collect {step : β → Evaluate σ ν (List ν)} {step' : γ → Evaluate σ' ν' (List ν')}
    (g : β → γ) {items : List β}
    (hstep : ∀ item ∈ items, GoAbreast f known S (SameNames f) (step item) (step' (g item))) :
    GoAbreast f known S (SameNames f) (collect step items) (collect step' (items.map g)) := by
  induction items with
  | nil => exact abreast_pure rfl
  | cons item rest ih =>
    obtain ⟨hitem, hrest⟩ := List.forall_mem_cons.mp hstep
    exact abreast_append hitem (ih hrest)

theorem abreast_each {step : β → Evaluate σ ν Unit} {step' : γ → Evaluate σ' ν' Unit} (g : β → γ)
    {items : List β}
    (hstep : ∀ item ∈ items, GoAbreast f known S (fun _ _ => True) (step item) (step' (g item))) :
    GoAbreast f known S (fun _ _ => True) (each step items) (each step' (items.map g)) := by
  induction items with
  | nil => exact abreast_pure trivial
  | cons item rest ih =>
    obtain ⟨hitem, hrest⟩ := List.forall_mem_cons.mp hstep
    exact hitem.bind fun _ _ _ => ih hrest

end

/-! ## Evaluations -/

section

variable [TreeBuilder σ ν] [TreeBuilder σ' ν'] {f : ν → ν'} {known : String → Prop}
  {S : σ → σ' → Prop}

theorem fitsText_mapNodes (leaf : Value ν) : (leaf.mapNodes f).fitsText = leaf.fitsText := by
  cases leaf <;> rfl

theorem fitsBase_mapNodes (leaf : Value ν) : (leaf.mapNodes f).fitsBase = leaf.fitsBase := by
  cases leaf <;> rfl

theorem abreast_textNode (h : TreeBuilder.Simulates f S) (leaf : Value ν) :
    GoAbreast f known S (fun node node' => node' = f node) (textNode leaf : Evaluate σ ν ν)
      (textNode (leaf.mapNodes f) : Evaluate σ' ν' ν') := by
  cases leaf with
  | string content => exact abreast_build (h.createText content)
  | number value => exact abreast_build (h.createText (Number.format value))
  | absent => exact abreast_build (h.createText "")
  | node node => exact abreast_pure rfl
  | _ => exact abreast_throw (congrArg _ (Value.display_mapNodes f _))

theorem abreast_baseNode (h : TreeBuilder.Simulates f S) (leaf : Value ν) :
    GoAbreast f known S (fun node node' => node' = f node) (baseNode leaf : Evaluate σ ν ν)
      (baseNode (leaf.mapNodes f) : Evaluate σ' ν' ν') := by
  cases leaf with
  | string tag => exact abreast_build (h.createElement tag)
  | node node => exact abreast_pure rfl
  | _ => exact abreast_throw (congrArg _ (Value.display_mapNodes f _))

omit [TreeBuilder σ ν] [TreeBuilder σ' ν'] in
/-- A single node corresponds to a single node. -/
theorem abreast_singleton {first : Evaluate σ ν ν} {second : Evaluate σ' ν' ν'}
    (h : GoAbreast f known S (fun node node' => node' = f node) first second) :
    GoAbreast f known S (SameNames f) (do return [← first]) (do return [← second]) := by
  refine h.bind fun node node' hnode => abreast_pure ?_
  rw [SameNames, hnode]
  rfl

variable [Host ν] [Host ν']

section

variable (hagree : Host.Agree f known) (h : TreeBuilder.Simulates f S)

include hagree

omit [TreeBuilder σ ν] [TreeBuilder σ' ν'] in
theorem abreast_leafNodes {nodeOf : Value ν → Evaluate σ ν ν} {nodeOf' : Value ν' → Evaluate σ' ν' ν'}
    {fits : Value ν → Bool} {fits' : Value ν' → Bool}
    (hfits : ∀ leaf : Value ν, fits' (leaf.mapNodes f) = fits leaf)
    (hnode : ∀ leaf, GoAbreast f known S (fun node node' => node' = f node) (nodeOf leaf)
      (nodeOf' (leaf.mapNodes f))) {value : Value ν} (hvalue : value.MadeOf known) :
    GoAbreast f known S (SameNames f) (leafNodes nodeOf fits value)
      (leafNodes nodeOf' fits' (value.mapNodes f)) := by
  refine abreast_ask (List.map (Value.mapNodes f)) (fun _ => True)
    (fun context hmade => ⟨hmade.leaves_mapNodes hagree hfits hvalue, trivial⟩) fun leaves _ => ?_
  exact abreast_collect (Value.mapNodes f) fun leaf _ => abreast_singleton (hnode leaf)

include h

theorem abreast_baseNodes {base : Word (Value ν)} (hbase : ∀ value ∈ base.slots, value.MadeOf known) :
    GoAbreast f known S (SameNames f) (baseNodes base : Evaluate σ ν (List ν))
      (baseNodes (base.map (Value.mapNodes f)) : Evaluate σ' ν' (List ν')) := by
  cases base with
  | text tag => exact abreast_singleton (abreast_build (h.createElement tag))
  | slot value =>
    rw [Word.map, baseNodes_slot, baseNodes_slot]
    exact abreast_leafNodes hagree fitsBase_mapNodes (abreast_baseNode h)
      (hbase value List.mem_cons_self)

theorem abreast_applyAttributes (element : ν) {written : List (Attribute (Value ν))}
    (hwritten : ∀ entry ∈ written, ∀ value ∈ entry.slots, value.MadeOf known) :
    GoAbreast f known S (fun _ _ => True) (applyAttributes element written : Evaluate σ ν Unit)
      (applyAttributes (f element) (written.map (Attribute.map (Value.mapNodes f))) :
        Evaluate σ' ν' Unit) := by
  refine abreast_ask (Except.map (AttributeSet.mapNodes f)) (fun _ => True)
    (fun context hmade => ⟨AttributeSet.build_mapNodes hmade hagree hwritten, trivial⟩)
    fun built _ => ?_
  cases built with
  | error error => exact abreast_throw rfl
  | ok set =>
    have hattributes : GoAbreast f known S (fun _ _ => True)
        (each (fun attr => build (TreeBuilder.setAttribute element attr.1 attr.2))
          set.attributes)
        (each (fun attr => build (TreeBuilder.setAttribute (f element) attr.1 attr.2))
          (set.attributes.map id)) :=
      abreast_each id fun attr _ => abreast_build (h.setAttribute element attr.1 attr.2)
    have hevents : GoAbreast f known S (fun _ _ => True)
        (each (fun binding => build (TreeBuilder.addEventListener element binding.event
          binding.callback binding.options)) set.events)
        (each (fun binding => build (TreeBuilder.addEventListener (f element) binding.event
          binding.callback binding.options)) (set.events.map (EventBinding.mapNodes f))) :=
      abreast_each (EventBinding.mapNodes f) fun binding _ => abreast_build
        (h.addEventListener element binding.event binding.callback binding.options)
    rw [List.map_id] at hattributes
    exact hattributes.bind fun _ _ _ => hevents

theorem abreast_applyRefName (element : ν) {refName : Option (Word (Value ν))}
    (hname : ∀ word ∈ refName, ∀ value ∈ word.slots, value.MadeOf known) :
    GoAbreast f known S (fun _ _ => True) (applyRefName element refName : Evaluate σ ν Unit)
      (applyRefName (f element) (refName.map (Word.map (Value.mapNodes f))) :
        Evaluate σ' ν' Unit) := by
  cases refName with
  | none => exact abreast_pure trivial
  | some word =>
    have hlook : ∀ context : Context ν, context.MadeOf known →
        (context.mapNodes f).resolve (word.map (Value.mapNodes f)).value =
          (context.resolve word.value).mapNodes f ∧ True := by
      intro context hmade
      rw [word.value_mapNodes]
      exact ⟨hmade.resolve_mapNodes hagree (Word.madeOf_value (hname word rfl)), trivial⟩
    refine abreast_ask (Value.mapNodes f) (fun _ => True) hlook fun resolved _ => ?_
    cases resolved with
    | string name =>
      have hbinding : GoAbreast f known S (fun _ _ => True)
          (do note (.bound name); bindNode name element : Evaluate σ ν Unit)
          (do note (.bound name); bindNode name (f element) : Evaluate σ' ν' Unit) :=
        (abreast_note _).bind fun _ _ _ => abreast_bindNode name element
      have hattr : ∀ context : Context ν, context.MadeOf known →
          (context.mapNodes f).options.attrForRefName = id context.options.attrForRefName ∧ True :=
        fun _ _ => ⟨rfl, trivial⟩
      refine abreast_ask id (fun _ => True) hattr fun attr _ => ?_
      cases attr with
      | none => exact hbinding
      | some attr =>
        exact (abreast_build (h.setAttribute element attr name)).bind fun _ _ _ => hbinding
    | _ => exact abreast_throw (congrArg _ (Value.display_mapNodes f _))

end

mutual

/-- The evaluations of a node by two builders go abreast. -/
theorem abreast_evaluateNode (hagree : Host.Agree f known) (h : TreeBuilder.Simulates f S)
    (node : Node (Value ν)) (hslots : ∀ value ∈ node.slots, value.MadeOf known) :
    GoAbreast f known S (SameNames f) (evaluateNode node : Evaluate σ ν (List ν))
      (evaluateNode (node.map (Value.mapNodes f)) : Evaluate σ' ν' (List ν')) := by
  cases node with
  | element header children =>
    obtain ⟨hheader, hchildren⟩ := List.forall_mem_append.mp hslots
    obtain ⟨hbase, hrest⟩ := List.forall_mem_append.mp hheader
    obtain ⟨hwritten, hname⟩ := List.forall_mem_append.mp hrest
    rw [Node.map, evaluateNode, evaluateNode]
    refine (abreast_baseNodes hagree h hbase).bind fun elements elements' helements => ?_
    have hempty : (Node.mapAll (Value.mapNodes f) children).isEmpty = children.isEmpty := by
      cases children <;> rfl
    subst helements
    rw [hempty]
    refine GoAbreast.bind (abreast_each f fun element _ => ?_) fun _ _ _ => abreast_pure rfl
    refine (abreast_applyAttributes hagree h element fun entry hentry value hvalue =>
      hwritten value (List.mem_flatMap_of_mem hentry hvalue)).bind fun _ _ _ =>
        (abreast_applyRefName hagree h element fun word hword value hvalue =>
          hname value (List.mem_flatMap_of_mem (Option.mem_toList.mpr hword) hvalue)).bind
            fun _ _ _ => ?_
    split
    · exact (abreast_build (h.removeAllChildren element)).bind fun _ _ _ =>
        abreast_appendAll hagree h element children hchildren
    · exact abreast_pure trivial
  | text content =>
    rw [Node.map, evaluateNode, evaluateNode]
    exact abreast_singleton (abreast_build (h.createText content))
  | newLine =>
    rw [Node.map, evaluateNode, evaluateNode]
    exact abreast_singleton (abreast_build (h.createText "\n"))
  | slot value =>
    rw [Node.map, evaluateNode_slot, evaluateNode_slot]
    exact abreast_leafNodes hagree fitsText_mapNodes (abreast_textNode h)
      (hslots value List.mem_cons_self)
  | ifBlock condition thenBranch elseBranch =>
    obtain ⟨hcondition, hbranches⟩ := List.forall_mem_cons.mp hslots
    obtain ⟨hthen, helse⟩ := List.forall_mem_append.mp hbranches
    rw [Node.map, evaluateNode, evaluateNode]
    refine abreast_ask (Value.mapNodes f) (fun _ => True)
      (fun context hmade => ⟨hmade.resolve_mapNodes hagree hcondition, trivial⟩) fun resolved _ => ?_
    rw [Value.isTruthy_mapNodes]
    split
    · exact abreast_evaluateAll hagree h thenBranch hthen
    · exact abreast_evaluateAll hagree h elseBranch helse
  | forBlock variableName iterable body =>
    obtain ⟨hiterable, hbody⟩ := List.forall_mem_cons.mp hslots
    rw [Node.map, evaluateNode, evaluateNode]
    refine abreast_ask (Except.map (List.map (Value.mapNodes f)))
      (fun found => ∀ items, found = .ok items → ∀ item ∈ items, item.MadeOf known)
      (fun context hmade => ⟨hmade.iterationItems_mapNodes hagree hiterable,
        fun items => hmade.iterationItems hagree hiterable⟩) fun found hfound => ?_
    cases found with
    | error error => exact abreast_throw rfl
    | ok items =>
      have hitems : (items.map (Value.mapNodes f)).zipIdx =
          items.zipIdx.map (Prod.map (Value.mapNodes f) id) := List.zipIdx_map
      simp only [Except.map]
      rw [hitems]
      refine abreast_collect (Prod.map (Value.mapNodes f) id) fun item hitem => ?_
      have hmade := hfound items rfl item.1 (List.fst_mem_of_mem_zipIdx hitem)
      exact (abreast_note _).bind fun _ _ _ =>
        (abreast_evaluateAll hagree h body hbody).withVariable variableName hmade

theorem abreast_evaluateAll (hagree : Host.Agree f known) (h : TreeBuilder.Simulates f S)
    (nodes : List (Node (Value ν))) (hslots : ∀ value ∈ Node.slotsOfAll nodes, value.MadeOf known) :
    GoAbreast f known S (SameNames f) (evaluateAll nodes : Evaluate σ ν (List ν))
      (evaluateAll (Node.mapAll (Value.mapNodes f) nodes) : Evaluate σ' ν' (List ν')) := by
  cases nodes with
  | nil =>
    rw [Node.mapAll, evaluateAll, evaluateAll]
    exact abreast_pure rfl
  | cons node rest =>
    obtain ⟨hnode, hrest⟩ := List.forall_mem_append.mp hslots
    rw [Node.mapAll, evaluateAll, evaluateAll]
    exact abreast_append (abreast_evaluateNode hagree h node hnode)
      (abreast_evaluateAll hagree h rest hrest)

theorem abreast_appendAll (hagree : Host.Agree f known) (h : TreeBuilder.Simulates f S)
    (parent : ν) (nodes : List (Node (Value ν)))
    (hslots : ∀ value ∈ Node.slotsOfAll nodes, value.MadeOf known) :
    GoAbreast f known S (fun _ _ => True) (appendAll parent nodes : Evaluate σ ν Unit)
      (appendAll (f parent) (Node.mapAll (Value.mapNodes f) nodes) : Evaluate σ' ν' Unit) := by
  cases nodes with
  | nil =>
    rw [Node.mapAll, appendAll, appendAll]
    exact abreast_pure trivial
  | cons node rest =>
    obtain ⟨hnode, hrest⟩ := List.forall_mem_append.mp hslots
    rw [Node.mapAll, appendAll, appendAll]
    refine (abreast_evaluateNode hagree h node hnode).bind fun outputs outputs' houtputs => ?_
    subst houtputs
    refine GoAbreast.bind (abreast_each f fun child _ => ?_) fun _ _ _ =>
      abreast_appendAll hagree h parent rest hrest
    exact abreast_build (h.appendChild parent child)

end

/-- The evaluation with other names for the nodes. -/
def Evaluation.mapNodes (f : ν → ν') (evaluation : Evaluation ν) : Evaluation ν' :=
  ⟨evaluation.nodes.map f, evaluation.bindings.mapNodes f⟩

/-- From builders in a relation that requests keep, a document is evaluated to corresponding nodes
and bindings, or to the same error, and the builders are in this relation afterwards. -/
theorem Document.evaluate_simulated (hagree : Host.Agree f known)
    (h : TreeBuilder.Simulates f S) (document : Document (Value ν))
    (hslots : ∀ value ∈ document.slots, value.MadeOf known) (options : Options) {builder : σ}
    {builder' : σ'}
    (hbuilder : S builder builder') :
    ((document.map (Value.mapNodes f)).evaluate options builder').1 =
        (document.evaluate options builder).1.map (Evaluation.mapNodes f) ∧
      S (document.evaluate options builder).2
        ((document.map (Value.mapNodes f)).evaluate options builder').2 := by
  have habreast : Abreast f known S ⟨builder, { options }, []⟩ ⟨builder', { options }, []⟩ :=
    ⟨hbuilder, rfl, rfl, Context.allVariables_fresh _ options⟩
  have halike := abreast_evaluateAll hagree h document.children hslots _ _ habreast
  unfold Document.evaluate Document.run ExceptT.run Document.map
  generalize evaluateAll document.children
    (⟨builder, { options }, []⟩ : EvaluationState σ ν) = run at halike ⊢
  generalize evaluateAll (Node.mapAll (Value.mapNodes f) document.children)
    (⟨builder', { options }, []⟩ : EvaluationState σ' ν') = run' at halike ⊢
  cases halike with
  | success hend =>
    obtain ⟨hnodes, hend⟩ := hend
    refine ⟨?_, hend.builder⟩
    simp only [Except.map, Evaluation.mapNodes]
    rw [hnodes, hend.context]
    rfl
  | failure hend => exact ⟨rfl, hend.builder⟩

end

end IndentMarkup

import IndentMarkup.Proofs.Evaluating
import IndentMarkup.Proofs.Resolution
import IndentMarkup.Proofs.ShownNames
import IndentMarkup.Value.Words

/-! The final attributes of an element. A written list expands to places, one for each pair that is
written and one for each entry of a map that is spread, with all references followed. The places are
gone through in order: the first faulty one is the error, and nothing has been asked of the builder
then. If there is none, the texts of each name are joined under its first mention, and the events
stand apart in their order. -/
namespace IndentMarkup

open Evaluate

variable {σ ν : Type}

namespace AttributeSet

/-! ## Places -/

/-- A pair of an attribute list, its references followed, or what stands there instead of pairs. -/
inductive Place (ν : Type) where
  /-- A pair whose name is a text and no event. -/
  | plain (name : String) (value : Value ν)
  | event (binding : EventBinding ν)
  /-- A pair whose name is no text. -/
  | nameless (name : Value ν)
  /-- Something to be spread that is no map. -/
  | unspread (value : Value ν)

namespace Place

/-- The error of a place that is faulty. -/
def fault? : Place ν → Option EvaluationError
  | .plain name value =>
    match value with
    | .node _ | .list _ | .map _ | .host _ => some (.invalidAttributeValue name value.display)
    | _ => none
  | .event _ => none
  | .nameless name => some (.invalidAttributeName name.display)
  | .unspread value => some (.invalidSplat value.display)

/-- The text that a place adds under a name, if it adds one: `false` and no value add none. -/
def text? : Place ν → Option (String × String)
  | .plain name (.bool true) => some (name, "")
  | .plain name (.string text) => some (name, text)
  | .plain name (.number value) => some (name, Number.format value)
  | _ => none

def event? : Place ν → Option (EventBinding ν)
  | .event binding => some binding
  | _ => none

end Place

section

variable [Host ν]

/-- The place of a pair of a name and a value, both without references. The callback of an event and
its options are the first two items of a list, or the value itself is the callback. -/
inductive PairPlace (context : Context ν) : Value ν → Value ν → Place ν → Prop
  | plain {name : String} {value : Value ν} : name.toList.head? ≠ some '!' →
      PairPlace context (.string name) value (.plain name value)
  | event {event : String} {value : Value ν} : (∀ items, value ≠ .list items) →
      PairPlace context (.string ("!" ++ event)) value (.event ⟨event, value, none⟩)
  | eventList {event : String} {items found : List (Value ν)} :
      List.Forall₂ context.ComesTo (items.take 2) found →
        PairPlace context (.string ("!" ++ event)) (.list items)
          (.event ⟨event, found.headD .absent, found[1]?⟩)
  | nameless {name value : Value ν} : (∀ text, name ≠ .string text) →
      PairPlace context name value (.nameless name)

/-- A written list expands to these places. -/
inductive Expands (context : Context ν) : List (Attribute (Value ν)) → List (Place ν) → Prop
  | nil : Expands context [] []
  | pair {entry : Attribute (Value ν)} {written name value : Value ν} {place : Place ν}
      {rest : List (Attribute (Value ν))} {places : List (Place ν)} :
      entry.nameValue? = some written → context.ComesTo written name →
        context.ComesTo entry.assigned value → PairPlace context name value place →
          Expands context rest places → Expands context (entry :: rest) (place :: places)
  | spread {spread : Value ν} {entries : List (String × Value ν)} {found : List (Place ν)}
      {rest : List (Attribute (Value ν))} {places : List (Place ν)} :
      context.ComesTo spread (.map entries) →
        List.Forall₂ (fun entry place => ∃ value, context.ComesTo entry.2 value ∧
          PairPlace context (.string entry.1) value place) entries found →
          Expands context rest places → Expands context (.splat spread :: rest) (found ++ places)
  | unspread {spread value : Value ν} {rest : List (Attribute (Value ν))} {places : List (Place ν)} :
      context.ComesTo spread value → (∀ entries, value ≠ .map entries) →
        Expands context rest places → Expands context (.splat spread :: rest) (.unspread value :: places)

end

/-! ## Joined texts -/

/-- One entry for each name, in the order in which the names are first mentioned, with all texts of
the name, a space between any two. -/
def joined (texts : List (String × String)) : List (String × String) :=
  (texts.map (·.1)).eraseDups.map fun name =>
    (name, " ".intercalate ((texts.filter (·.1 == name)).map (·.2)))

/-- A text that comes behind others of its name is joined to them. -/
theorem merge_map (name text : String) {groups : List (String × List String)}
    (hgroups : ∀ group ∈ groups, group.2 ≠ []) :
    merge name text (groups.map (Prod.map id " ".intercalate)) =
      (Bindings.addTo name text groups).map (Prod.map id " ".intercalate) := by
  induction groups with
  | nil => rfl
  | cons group rest ih =>
    obtain ⟨known, texts⟩ := group
    obtain ⟨htexts, hrest⟩ := List.forall_mem_cons.mp hgroups
    by_cases hname : known = name
    · have hjoin := String.intercalate_append_of_ne_nil (s := " ") htexts (List.cons_ne_nil text [])
      simp [merge, Bindings.addTo, hname, hjoin]
    · simp [merge, Bindings.addTo, hname, ← ih hrest]

theorem joined_eq (texts : List (String × String)) :
    joined texts = (Bindings.grouped texts).entries.map (Prod.map id " ".intercalate) := by
  simp [joined, Bindings.grouped, Function.comp_def]

/-- One more text. -/
theorem merge_joined (texts : List (String × String)) (name text : String) :
    merge name text (joined texts) = joined (texts ++ [(name, text)]) := by
  have hgroups : ∀ group ∈ (Bindings.grouped texts).entries, group.2 ≠ [] := by
    intro group hgroup
    obtain ⟨known, hknown, rfl⟩ := List.mem_map.mp hgroup
    obtain ⟨entry, hentry, rfl⟩ := List.mem_map.mp (List.mem_eraseDups.mp hknown)
    exact List.ne_nil_of_mem (List.mem_map_of_mem (List.mem_filter.mpr ⟨hentry, beq_self_eq_true _⟩))
  rw [joined_eq, merge_map name text hgroups, joined_eq, ← Bindings.add_grouped]
  rfl

/-! ## Going through the places -/

/-- What a set of attributes becomes at one more place. -/
def put (set : AttributeSet ν) (place : Place ν) : Except EvaluationError (AttributeSet ν) :=
  match place.fault? with
  | some error => .error error
  | none =>
    let attributes :=
      match place.text? with
      | some (name, text) => merge name text set.attributes
      | none => set.attributes
    .ok ⟨attributes, set.events ++ place.event?.toList⟩

section

variable [Host ν] {context : Context ν}

theorem eventBinding_single {event : String} {value : Value ν} (h : ∀ items, value ≠ .list items) :
    eventBinding context event value = ⟨event, value, none⟩ := by
  cases value with
  | list items => exact absurd rfl (h items)
  | _ => rfl

theorem map_resolve_of_comesTo {values found : List (Value ν)}
    (h : List.Forall₂ context.ComesTo values found) : found = values.map context.resolve := by
  induction h with
  | nil => rfl
  | cons hend _ ih => rw [List.map_cons, Context.resolve_of_comesTo hend, ih]

/-- Of a list the first two items matter. -/
theorem eventBinding_list {event : String} {items found : List (Value ν)}
    (h : List.Forall₂ context.ComesTo (items.take 2) found) :
    eventBinding context event (.list items) = ⟨event, found.headD .absent, found[1]?⟩ := by
  obtain rfl := map_resolve_of_comesTo h
  rcases items with _ | ⟨first, _ | ⟨second, rest⟩⟩ <;> rfl

/-- A pair is added to a set as its place says. -/
theorem add_of_pairPlace {name value : Value ν} {place : Place ν}
    (h : PairPlace context name value place) (hvalue : value.isReference = false)
    (set : AttributeSet ν) : set.add context name value = set.put place := by
  cases h with
  | @plain name _ hname =>
    have hplain : ∀ event, name.toList ≠ '!' :: event := by
      intro event heq
      simp [heq] at hname
    have hadd : set.add context (.string name) value =
        (valueText name value).bind fun text? =>
          .ok (text?.elim set fun text => { set with attributes := merge name text set.attributes }) := by
      simp only [add]
      rcases valueText name value with _ | (_ | _) <;> rfl
    rw [hadd]
    cases value with
    | bool value => cases value <;> simp [valueText, put, Place.fault?, Place.text?, Place.event?, Except.bind]
    | ref => contradiction
    | _ => simp [valueText, put, Place.fault?, Place.text?, Place.event?, Except.bind]
  | @event event value hlist =>
    have hadd : set.add context (.string ("!" ++ event)) value =
        .ok { set with events := set.events ++ [eventBinding context event value] } := by
      simp [add]
    rw [hadd, eventBinding_single hlist]
    simp [put, Place.fault?, Place.text?, Place.event?]
  | @eventList event items found hfound =>
    have hadd : set.add context (.string ("!" ++ event)) (.list items) =
        .ok { set with events := set.events ++ [eventBinding context event (.list items)] } := by
      simp [add]
    rw [hadd, eventBinding_list hfound]
    simp [put, Place.fault?, Place.text?, Place.event?]
  | nameless hname =>
    cases name with
    | string text => exact absurd rfl (hname text)
    | _ => rfl

/-- A written list is added as its places say. -/
theorem addAll_of_expands {written : List (Attribute (Value ν))} {places : List (Place ν)}
    (h : Expands context written places) (set : AttributeSet ν) :
    addAll context set written = places.foldlM put set := by
  induction h generalizing set with
  | nil => rfl
  | @pair entry written name value place rest places hname hwritten hvalue hplace _ ih =>
    have hadd : set.addWritten context entry = set.put place := by
      simp only [addWritten, hname, Context.resolve_of_comesTo hwritten,
        Context.resolve_of_comesTo hvalue]
      exact add_of_pairPlace hplace hvalue.not_reference set
    rw [addAll, hadd, List.foldlM_cons]
    exact bind_congr ih
  | @spread spread entries found rest places hspread hfound _ ih =>
    have hentries : ∀ set : AttributeSet ν, set.addEntries context entries = found.foldlM put set := by
      clear hspread ih
      induction hfound with
      | nil => exact fun set => rfl
      | @cons entry place entries found hentry _ ih =>
        intro set
        obtain ⟨value, hvalue, hplace⟩ := hentry
        rw [addEntries, Context.resolve_of_comesTo hvalue,
          add_of_pairPlace hplace hvalue.not_reference, List.foldlM_cons]
        exact bind_congr ih
    have hadd : set.addWritten context (.splat spread) = found.foldlM put set := by
      simp only [addWritten, Attribute.nameValue?, Attribute.assigned,
        Context.resolve_of_comesTo hspread]
      exact hentries set
    rw [addAll, hadd, List.foldlM_append]
    exact bind_congr ih
  | @unspread spread value rest places hspread hvalue _ ih =>
    have hadd : set.addWritten context (.splat spread) = set.put (.unspread value) := by
      simp only [addWritten, Attribute.nameValue?, Attribute.assigned,
        Context.resolve_of_comesTo hspread]
      cases value with
      | map entries => exact absurd rfl (hvalue entries)
      | _ => rfl
    rw [addAll, hadd, List.foldlM_cons]
    exact bind_congr ih

end

/-- From a set of joined texts on, the places end in the first error, or in the set of all texts and
events. -/
theorem foldlM_put (places : List (Place ν)) (texts : List (String × String))
    (events : List (EventBinding ν)) :
    places.foldlM put (⟨joined texts, events⟩ : AttributeSet ν) =
      match places.findSome? Place.fault? with
      | some error => .error error
      | none => .ok ⟨joined (texts ++ places.filterMap Place.text?),
          events ++ places.filterMap Place.event?⟩ := by
  induction places generalizing texts events with
  | nil => simp [pure, Except.pure]
  | cons place rest ih =>
    rw [List.foldlM_cons, List.findSome?_cons]
    cases hfault : place.fault? with
    | some error =>
      have hput : put (⟨joined texts, events⟩ : AttributeSet ν) place = .error error := by
        simp [put, hfault]
      rw [hput]
      rfl
    | none =>
      have hput : put (⟨joined texts, events⟩ : AttributeSet ν) place =
          .ok ⟨joined (texts ++ place.text?.toList), events ++ place.event?.toList⟩ := by
        simp only [put, hfault]
        cases place.text? with
        | none => simp
        | some text => simp [merge_joined]
      rw [hput]
      show rest.foldlM put _ = _
      rw [ih]
      cases htext : place.text? <;> cases hevent : place.event? <;>
        simp [htext, hevent]

end AttributeSet

/-! ## What reaches the builder -/

section

variable [TreeBuilder σ ν]

/-- The builder behind the requests for attributes, and for listeners behind them. -/
def AttributeSet.request (set : AttributeSet ν) (element : ν) (builder : σ) : σ :=
  let decorated := set.attributes.foldl (fun builder (entry : String × String) =>
    ((TreeBuilder.setAttribute element entry.1 entry.2 : StateM σ Unit) builder).2) builder
  set.events.foldl (fun builder binding =>
    ((TreeBuilder.addEventListener element binding.event binding.callback binding.options :
      StateM σ Unit) builder).2) decorated

omit [TreeBuilder σ ν] in
/-- Actions of the builder, one after another. -/
theorem each_build_apply {β : Type} (action : β → StateM σ Unit) (items : List β)
    (state : EvaluationState σ ν) :
    each (fun item => build (action item)) items state =
      (.ok (), { state with
        builder := items.foldl (fun builder item => (action item builder).2) state.builder }) := by
  induction items generalizing state with
  | nil => rfl
  | cons item rest ih =>
    rw [each, bind_apply]
    exact ih _

theorem applyAttributes_apply [Host ν] (element : ν) (written : List (Attribute (Value ν)))
    (state : EvaluationState σ ν) :
    applyAttributes element written state =
      match AttributeSet.build state.context written with
      | .error error => (.error error, state)
      | .ok set => (.ok (), { state with builder := set.request element state.builder }) := by
  rw [applyAttributes, ask_bind_apply]
  cases AttributeSet.build state.context written with
  | error error => rfl
  | ok set =>
    dsimp only
    rw [bind_apply, each_build_apply]
    exact each_build_apply _ _ _

open AttributeSet

/-- **Final attributes.** Wherever the references in a written list come to an end, the element gets
one attribute for each name with a text, in the order of the first mentions, that holds all texts of
the name, and behind the attributes its listeners in their order. It fails exactly if one of the
places is faulty, with the error of the first of them, and then nothing has reached the builder. -/
theorem attributes_grouped [Host ν] (element : ν) (state : EvaluationState σ ν)
    {written : List (Attribute (Value ν))} {places : List (Place ν)}
    (h : Expands state.context written places) :
    (places.findSome? Place.fault? = none →
      let set : AttributeSet ν :=
        ⟨joined (places.filterMap Place.text?), places.filterMap Place.event?⟩
      AttributeSet.build state.context written = .ok set ∧
        applyAttributes element written state =
          (.ok (), { state with builder := set.request element state.builder })) ∧
      (∀ error, places.findSome? Place.fault? = some error →
        AttributeSet.build state.context written = .error error ∧
          applyAttributes element written state = (.error error, state)) ∧
      ((∃ error, AttributeSet.build state.context written = .error error) ↔
        ∃ place ∈ places, place.fault?.isSome) := by
  have hbuild : AttributeSet.build state.context written =
      match places.findSome? Place.fault? with
      | some error => .error error
      | none => .ok ⟨joined (places.filterMap Place.text?), places.filterMap Place.event?⟩ :=
    (addAll_of_expands h {}).trans (foldlM_put places [] [])
  refine ⟨fun hnone => ?_, fun error hsome => ?_, ?_⟩
  · rw [hnone] at hbuild
    exact ⟨hbuild, by rw [applyAttributes_apply, hbuild]⟩
  · rw [hsome] at hbuild
    exact ⟨hbuild, by rw [applyAttributes_apply, hbuild]⟩
  · rw [hbuild]
    cases hfound : places.findSome? Place.fault? with
    | none =>
      have hsound := List.findSome?_eq_none_iff.mp hfound
      simp only [reduceCtorEq, exists_false, false_iff]
      rintro ⟨place, hplace, hfault⟩
      simp [hsound place hplace] at hfault
    | some error =>
      obtain ⟨place, hplace, hfault⟩ := List.exists_of_findSome?_eq_some hfound
      simp only [Except.error.injEq, exists_eq', true_iff]
      exact ⟨place, hplace, by simp [hfault]⟩

/-- A map with a class and a listener, spread in front of two more texts for the class. -/
def spreadSample : Context Nat × List (Attribute (Value Nat)) :=
  (({} : Context Nat).setVariable "m" (.map [("class", .string "a"), ("hidden", .bool false),
      ("!click", .list [.host ⟨"f", true⟩, .bool true])]),
    [.splat (Value.variableRef "m"), .pair (.text "class") (.slot (.bool true)), .bare (.text "open"),
      .pair (.text "class") (.text "b")])

def spreadPlaces : List (Place Nat) :=
  [.plain "class" (.string "a"), .plain "hidden" (.bool false),
    .event ⟨"click", .host ⟨"f", true⟩, some (.bool true)⟩] ++
  [.plain "class" (.bool true), .plain "open" (.bool true), .plain "class" (.string "b")]

attribute [local instance] Host.ofWords in
/-- The text in the middle of the class is empty, and the attribute that is `false` is not set. -/
theorem attributes_grouped_spread :
    Expands spreadSample.1 spreadSample.2 spreadPlaces ∧
      applyAttributes 0 spreadSample.2 ⟨(⟨1, #[.createElement 0 "p"]⟩ : CallLog), spreadSample.1, []⟩ =
        (.ok (), ⟨⟨1, #[.createElement 0 "p", .setAttribute 0 "class" "a  b",
          .setAttribute 0 "open" "", .addEventListener 0 "click" "<opaque>" (some "true")]⟩,
          spreadSample.1, []⟩) := by
  have hevent : PairPlace spreadSample.1 (.string ("!" ++ "click"))
      (.list [.host ⟨"f", true⟩, .bool true])
      (.event ⟨"click", .host ⟨"f", true⟩, some (.bool true)⟩) :=
    @PairPlace.eventList _ _ _ "click" _ [.host ⟨"f", true⟩, .bool true]
      (.cons (.here rfl) (.cons (.here rfl) .nil))
  have hexpands : Expands spreadSample.1 spreadSample.2 spreadPlaces := by
    refine .spread (.follow (.here rfl)) (.cons ⟨_, .here rfl, .plain (by decide)⟩
      (.cons ⟨_, .here rfl, .plain (by decide)⟩ (.cons ⟨_, .here rfl, hevent⟩ .nil))) ?_
    refine .pair rfl (.here rfl) (.here rfl) (.plain (by decide)) ?_
    refine .pair rfl (.here rfl) (.here rfl) (.plain (by decide)) ?_
    exact .pair rfl (.here rfl) (.here rfl) (.plain (by decide)) .nil
  refine ⟨hexpands, ?_⟩
  exact ((attributes_grouped (0 : Nat) ⟨(⟨1, #[.createElement 0 "p"]⟩ : CallLog), spreadSample.1, []⟩
    hexpands).1 rfl).2

end

end IndentMarkup

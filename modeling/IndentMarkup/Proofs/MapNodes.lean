import IndentMarkup.Proofs.PlainValues
import IndentMarkup.Proofs.SlotsTaken
import IndentMarkup.Value.Words

/-! Other names for nodes. Each builder has names of its own for the nodes it makes. Nothing that
evaluation finds out about a value depends on them, unless a function of the host does: with other
names in the values of a document and in the context, whatever a value comes to is the same but for
these names. -/
namespace IndentMarkup

variable {ν μ : Type}

/-! ## Values -/

namespace Value

mutual

/-- The value with other names for the nodes in it. -/
def mapNodes (f : ν → μ) : Value ν → Value μ
  | .absent => .absent
  | .bool value => .bool value
  | .number value => .number value
  | .string value => .string value
  | .node held => .node (f held)
  | .list items => .list (mapItems f items)
  | .map entries => .map (mapEntries f entries)
  | .ref names projection => .ref names (mapProjection f projection)
  | .host handle => .host handle

def mapItems (f : ν → μ) : List (Value ν) → List (Value μ)
  | [] => []
  | item :: rest => mapNodes f item :: mapItems f rest

def mapEntries (f : ν → μ) : List (String × Value ν) → List (String × Value μ)
  | [] => []
  | (key, value) :: rest => (key, mapNodes f value) :: mapEntries f rest

def mapProjection (f : ν → μ) : Projection (Value ν) → Projection (Value μ)
  | .first => .first
  | .closure function captured => .closure function (mapItems f captured)

end

variable (f : ν → μ)

theorem mapItems_eq (items : List (Value ν)) : mapItems f items = items.map (mapNodes f) := by
  induction items with
  | nil => rfl
  | cons item rest ih => rw [mapItems, ih, List.map_cons]

theorem mapEntries_eq (entries : List (String × Value ν)) :
    mapEntries f entries = entries.map fun entry => (entry.1, mapNodes f entry.2) := by
  induction entries with
  | nil => rfl
  | cons entry rest ih => rw [mapEntries, ih, List.map_cons]

theorem mapNodes_list (items : List (Value ν)) :
    (Value.list items).mapNodes f = .list (items.map (mapNodes f)) := by
  rw [mapNodes, mapItems_eq]

theorem mapNodes_map (entries : List (String × Value ν)) :
    (Value.map entries).mapNodes f = .map (entries.map fun entry => (entry.1, mapNodes f entry.2)) := by
  rw [mapNodes, mapEntries_eq]

mutual

/-- A node shows nothing of its name. -/
theorem display_mapNodes (value : Value ν) : (value.mapNodes f).display = value.display := by
  cases value with
  | list items => rw [mapNodes, display, displayItems_mapItems items, display]
  | map entries => rw [mapNodes, display, displayEntries_mapEntries entries, display]
  | _ => rfl

theorem displayItems_mapItems (items : List (Value ν)) :
    displayItems (mapItems f items) = displayItems items := by
  cases items with
  | nil => rfl
  | cons item rest =>
    rw [mapItems, displayItems, display_mapNodes item, displayItems_mapItems rest, displayItems]

theorem displayEntries_mapEntries (entries : List (String × Value ν)) :
    displayEntries (mapEntries f entries) = displayEntries entries := by
  cases entries with
  | nil => rfl
  | cons entry rest =>
    rw [mapEntries, displayEntries, display_mapNodes entry.2, displayEntries_mapEntries rest,
      displayEntries]

end

/-- An error that shows a value is the same. -/
theorem error_display {β γ : Type} (g : β → γ) (error : String → EvaluationError) (value : Value ν) :
    (Except.error (error (value.mapNodes f).display) : Except EvaluationError γ) =
      (Except.error (error value.display)).map g := by
  rw [display_mapNodes]
  rfl

theorem isTruthy_mapNodes (value : Value ν) : (value.mapNodes f).isTruthy = value.isTruthy := by
  cases value <;> rfl

theorem kindName_mapNodes (value : Value ν) : (value.mapNodes f).kindName = value.kindName := by
  cases value <;> rfl

theorem headD_map (values : List (Value ν)) :
    (values.map (mapNodes f)).headD .absent = (values.headD .absent).mapNodes f := by
  cases values <;> rfl

/-! ## Known functions -/

/-- The references in a value are made of known functions, or of none. -/
def MadeOf (known : String → Prop) (value : Value ν) : Prop :=
  ∀ reference ∈ value.references, ∀ function captured, reference.2 = .closure function captured →
    known function

variable {known : String → Prop}

theorem madeOf_of_references {value : Value ν} (h : value.references = []) : value.MadeOf known := by
  simp [MadeOf, h]

theorem madeOf_list_iff {items : List (Value ν)} :
    MadeOf known (.list items) ↔ ∀ item ∈ items, item.MadeOf known := by
  simp only [MadeOf, references, referencesOfItems_eq, List.mem_flatMap]
  refine ⟨fun h item hitem reference hreference => h reference ⟨item, hitem, hreference⟩, ?_⟩
  rintro h reference ⟨item, hitem, hreference⟩
  exact h item hitem reference hreference

theorem madeOf_map_iff {entries : List (String × Value ν)} :
    MadeOf known (.map entries) ↔ ∀ entry ∈ entries, entry.2.MadeOf known := by
  simp only [MadeOf, references, referencesOfEntries_eq, List.mem_flatMap]
  refine ⟨fun h entry hentry reference hreference => h reference ⟨entry, hentry, hreference⟩, ?_⟩
  rintro h reference ⟨entry, hentry, hreference⟩
  exact h entry hentry reference hreference

/-- A reference is made of the function of its projection and of what this captures. -/
theorem MadeOf.of_closure {names : List String} {function : String} {captured : List (Value ν)}
    (h : MadeOf known (.ref names (.closure function captured))) :
    known function ∧ ∀ value ∈ captured, value.MadeOf known := by
  refine ⟨h _ List.mem_cons_self function captured rfl,
    fun value hvalue reference hreference => h reference (List.mem_cons_of_mem _ ?_)⟩
  rw [referencesOfProjection, referencesOfItems_eq]
  exact List.mem_flatMap_of_mem hvalue hreference

end Value

/-- On values that are made of known functions, the hosts of two builders agree about these
functions, but for names of nodes, and what the functions give is made of known functions again. -/
structure Host.Agree [Host ν] [Host μ] (f : ν → μ) (known : String → Prop) : Prop where
  call {function : String} {captured arguments : List (Value ν)} : known function →
    (∀ value ∈ captured ++ arguments, value.MadeOf known) →
      Host.call function (captured.map (Value.mapNodes f)) (arguments.map (Value.mapNodes f)) =
        (Host.call function captured arguments).mapNodes f
  closed {function : String} {captured arguments : List (Value ν)} : known function →
    (∀ value ∈ captured ++ arguments, value.MadeOf known) →
      (Host.call function captured arguments).MadeOf known

/-- Without functions there is nothing to agree about. -/
theorem Host.agree_none [Host ν] [Host μ] (f : ν → μ) : Host.Agree f fun _ => False :=
  ⟨fun h => h.elim, fun h => h.elim⟩

namespace Value

variable {f : ν → μ} {known : String → Prop} [Host ν] [Host μ]

/-- What a reference comes to in one step is the same but for names of nodes. -/
theorem project_mapNodes (hagree : Host.Agree f known) {names : List String}
    {projection : Projection (Value ν)} (hmade : MadeOf known (.ref names projection))
    {arguments : List (Value ν)} (harguments : ∀ value ∈ arguments, value.MadeOf known) :
    project (mapProjection f projection) (arguments.map (mapNodes f)) =
      (project projection arguments).mapNodes f := by
  cases projection with
  | first => exact headD_map f arguments
  | closure function captured =>
    obtain ⟨hknown, hcaptured⟩ := hmade.of_closure
    rw [mapProjection, mapItems_eq]
    exact hagree.call hknown (List.forall_mem_append.mpr ⟨hcaptured, harguments⟩)

theorem MadeOf.project (hagree : Host.Agree f known) {names : List String}
    {projection : Projection (Value ν)} (hmade : MadeOf known (.ref names projection))
    {arguments : List (Value ν)} (harguments : ∀ value ∈ arguments, value.MadeOf known) :
    MadeOf known (project projection arguments) := by
  cases projection with
  | first =>
    cases arguments with
    | nil => exact madeOf_of_references rfl
    | cons first rest => exact harguments first List.mem_cons_self
  | closure function captured =>
    obtain ⟨hknown, hcaptured⟩ := hmade.of_closure
    exact hagree.closed hknown (List.forall_mem_append.mpr ⟨hcaptured, harguments⟩)

end Value

/-! ## Words -/

namespace Value

theorem plainText_mapNodes (f : ν → μ) (value : Value ν) :
    (value.mapNodes f).plainText = value.plainText := by
  cases value with
  | string text => rfl
  | _ => exact display_mapNodes f _

theorem productFrom_map (f : ν → μ) (start : Float) (values : List (Value ν)) :
    productFrom start (values.map (mapNodes f)) = productFrom start values := by
  induction values generalizing start with
  | nil => rfl
  | cons value rest ih =>
    cases value with
    | number factor => exact ih (start * factor)
    | _ => rfl

end Value

open Value in
/-- No word tells one node from another. -/
theorem Host.say_mapNodes (f : ν → μ) (word : String) (captured arguments : List (Value ν)) :
    say word (captured.map (mapNodes f)) (arguments.map (mapNodes f)) =
      (say word captured arguments).mapNodes f := by
  have hfirst := headD_map f arguments
  have htexts (values : List (Value ν)) :
      (values.map (mapNodes f)).map plainText = values.map plainText := by
    rw [List.map_map]
    exact List.map_congr_left fun value _ => plainText_mapNodes f value
  fun_cases say word captured arguments with
  | case1 => rfl
  | case2 index =>
    simp only [say, List.map_cons, List.map_nil, mapNodes, List.getD_eq_getElem?_getD,
      List.getElem?_map]
    cases arguments[index.toUInt64.toNat]? <;> rfl
  | case3 =>
    simp only [say, htexts, mapNodes_map, List.zip_map_right]
    rfl
  | case4 => simp only [say, mapNodes_list]
  | case5 => simp only [say, List.length_map, mapNodes]
  | case6 =>
    simp only [say, hfirst, display_mapNodes, mapNodes]
    rfl
  | case7 => simp only [say, htexts, mapNodes]
  | case8 =>
    simp only [say, productFrom_map]
    cases productFrom 1.0 arguments <;> rfl
  | case9 =>
    simp only [say, hfirst, kindName_mapNodes, mapNodes]
    rfl
  | case10 =>
    simp only [say, hfirst, isTruthy_mapNodes, mapNodes]
    rfl
  | case11 =>
    rename_i text htext
    have htext : arguments.headD .absent = .string text := htext
    simp only [say, hfirst, htext]
    rfl
  | case12 =>
    rename_i hother
    have hother : ∀ text, arguments.headD .absent ≠ .string text := hother
    show say _ _ _ = (arguments.headD .absent).mapNodes f
    simp only [say, hfirst]
    revert hother
    cases arguments.headD .absent with
    | string text => exact fun hother => absurd rfl (hother text)
    | _ => exact fun _ => rfl
  | case13 =>
    rename_i hconstant hargument
    unfold say
    split
    all_goals try contradiction
    · obtain ⟨held, rfl, -⟩ := List.map_eq_singleton_iff.mp ‹captured.map (mapNodes f) = [_]›
      exact (hconstant held rfl rfl).elim
    · obtain ⟨held, rfl, hheld⟩ := List.map_eq_singleton_iff.mp ‹captured.map (mapNodes f) = [_]›
      cases held <;> first | contradiction | exact (hargument _ rfl rfl).elim
    · rfl

/-- The hosts that know nothing but the words agree about all functions. -/
theorem Host.agree_ofWords (f : ν → μ) : @Host.Agree ν μ .ofWords .ofWords f fun _ => True :=
  @Host.Agree.mk _ _ .ofWords .ofWords _ _ (fun _ _ => say_mapNodes f _ _ _)
    (fun _ _ _ _ _ _ _ => trivial)

/-! ## Contexts -/

section

variable (f : ν → μ)

def Bindings.mapNodes (bindings : Bindings ν) : Bindings μ :=
  ⟨bindings.entries.map fun entry => (entry.1, entry.2.map f)⟩

def Context.mapNodes (context : Context ν) : Context μ :=
  ⟨context.options, context.bindings.mapNodes f,
    ⟨context.scope.entries.map fun entry => (entry.1, entry.2.mapNodes f)⟩⟩

theorem Bindings.mapNodes_add (bindings : Bindings ν) (name : String) (node : ν) :
    (bindings.add name node).mapNodes f = (bindings.mapNodes f).add name (f node) := by
  have hentries : ∀ entries : List (String × List ν),
      (addTo name node entries).map (fun entry => (entry.1, entry.2.map f)) =
        addTo name (f node) (entries.map fun entry => (entry.1, entry.2.map f)) := by
    intro entries
    induction entries with
    | nil => rfl
    | cons entry rest ih =>
      obtain ⟨known, nodes⟩ := entry
      by_cases h : known = name
      · simp [addTo, h]
      · simp [addTo, h, ih]
  exact congrArg Bindings.mk (hentries bindings.entries)

theorem Bindings.last?_mapNodes (bindings : Bindings ν) (name : String) :
    (bindings.mapNodes f).last? name = (bindings.last? name).map f := by
  have hsame : ((fun entry : String × List μ => entry.1 == name) ∘
      fun entry : String × List ν => (entry.1, entry.2.map f)) = fun entry => entry.1 == name := rfl
  unfold last? get? mapNodes
  rw [List.find?_map, hsame]
  cases bindings.entries.find? (·.1 == name) with
  | none => rfl
  | some entry => simp

namespace Context

variable (context : Context ν)

theorem mapNodes_bind (name : String) (node : ν) :
    (context.bind name node).mapNodes f = (context.mapNodes f).bind name (f node) := by
  simp only [bind, mapNodes, Bindings.mapNodes_add]

theorem mapNodes_insertTo (name : String) (value : Value ν) (entries : List (String × Value ν)) :
    (Variables.insertTo name value entries).map (fun entry => (entry.1, entry.2.mapNodes f)) =
      Variables.insertTo name (value.mapNodes f)
        (entries.map fun entry => (entry.1, entry.2.mapNodes f)) := by
  induction entries with
  | nil => rfl
  | cons entry rest ih =>
    obtain ⟨known, old⟩ := entry
    by_cases h : known = name
    · simp [Variables.insertTo, h]
    · simp [Variables.insertTo, h, ih]

theorem mapNodes_setVariable (name : String) (value : Value ν) :
    (context.setVariable name value).mapNodes f =
      (context.mapNodes f).setVariable name (value.mapNodes f) := by
  simp only [setVariable, Variables.insert, mapNodes, mapNodes_insertTo]

theorem mapNodes_restoreVariable (name : String) (before : Option (Value ν)) :
    (context.restoreVariable name before).mapNodes f =
      (context.mapNodes f).restoreVariable name (before.map (Value.mapNodes f)) := by
  cases before with
  | some value => exact context.mapNodes_setVariable f name value
  | none =>
    simp only [restoreVariable, Variables.restore, Variables.remove, mapNodes, Option.map_none,
      List.filter_map]
    rfl

theorem get?_mapNodes (name : String) :
    (context.mapNodes f).scope.get? name =
      (context.scope.get? name).map (Value.mapNodes f) := by
  have hsame : ((fun entry : String × Value μ => entry.1 == name) ∘
      fun entry : String × Value ν => (entry.1, entry.2.mapNodes f)) =
        fun entry => entry.1 == name := rfl
  simp only [Variables.get?, mapNodes, List.find?_map, hsame, Option.map_map]
  rfl

theorem lookup_mapNodes (name : String) :
    (context.mapNodes f).lookup name = (context.lookup name).mapNodes f := by
  unfold lookup
  split
  · rename_i bound hname
    unfold boundNode mapNodes
    rw [Bindings.last?_mapNodes]
    cases context.bindings.last? (String.ofList bound) <;> rfl
  · unfold loopVariable
    rw [get?_mapNodes]
    cases context.scope.get? name <;> rfl

theorem map_lookup_mapNodes (names : List String) :
    names.map (context.mapNodes f).lookup = (names.map context.lookup).map (Value.mapNodes f) := by
  rw [List.map_map]
  exact List.map_congr_left fun name _ => lookup_mapNodes f context name

end Context

end

/-! ## What values come to -/

section

variable [Host ν] [Host μ] {f : ν → μ} {known : String → Prop}

namespace Context

def MadeOf (known : String → Prop) (context : Context ν) : Prop :=
  context.AllVariables (Value.MadeOf known)

variable {context : Context ν}

omit [Host ν] in
theorem MadeOf.lookup (h : context.MadeOf known) (name : String) :
    (context.lookup name).MadeOf known := by
  have habsent : (.absent : Value ν).MadeOf known := Value.madeOf_of_references rfl
  unfold Context.lookup
  split
  · unfold boundNode
    cases context.bindings.last? _ <;> exact Value.madeOf_of_references rfl
  · exact AllVariables.loopVariable h habsent name

theorem MadeOf.project (h : context.MadeOf known) (hagree : Host.Agree f known)
    {names : List String} {projection : Projection (Value ν)}
    (hmade : Value.MadeOf known (.ref names projection)) :
    (Value.project projection (names.map context.lookup)).MadeOf known :=
  Value.MadeOf.project hagree hmade (List.forall_mem_map.mpr fun name _ => h.lookup name)

theorem MadeOf.project_mapNodes (h : context.MadeOf known) (hagree : Host.Agree f known)
    {names : List String} {projection : Projection (Value ν)}
    (hmade : Value.MadeOf known (.ref names projection)) :
    Value.project (Value.mapProjection f projection) (names.map (context.mapNodes f).lookup) =
      (Value.project projection (names.map context.lookup)).mapNodes f := by
  rw [map_lookup_mapNodes]
  exact Value.project_mapNodes hagree hmade (List.forall_mem_map.mpr fun name _ => h.lookup name)

/-- Other names for nodes do not change the way from a value. -/
theorem MadeOf.comesTo (h : context.MadeOf known) (hagree : Host.Agree f known)
    {value result : Value ν} (hway : ComesTo context value result) (hmade : value.MadeOf known) :
    ComesTo (context.mapNodes f) (value.mapNodes f) (result.mapNodes f) ∧ result.MadeOf known := by
  induction hway with
  | here hvalue =>
    refine ⟨.here ?_, hmade⟩
    rename_i value
    cases value <;> first | rfl | contradiction
  | follow _ ih =>
    obtain ⟨hnext, hresult⟩ := ih (h.project hagree hmade)
    rw [← h.project_mapNodes hagree hmade] at hnext
    exact ⟨.follow hnext, hresult⟩

/-- Nor do they make an end of one that goes on forever. -/
theorem MadeOf.comesTo_of_mapNodes (h : context.MadeOf known) (hagree : Host.Agree f known)
    {value' result' : Value μ} (hway : ComesTo (context.mapNodes f) value' result')
    {value : Value ν} (hvalue : value' = value.mapNodes f) (hmade : value.MadeOf known) :
    ∃ result, ComesTo context value result := by
  induction hway generalizing value with
  | here hend =>
    refine ⟨value, .here ?_⟩
    subst hvalue
    cases value <;> first | rfl | contradiction
  | follow _ ih =>
    cases value with
    | ref names projection =>
      obtain ⟨rfl, rfl⟩ := Value.ref.inj hvalue
      obtain ⟨result, hnext⟩ := ih (h.project_mapNodes hagree hmade) (h.project hagree hmade)
      exact ⟨result, .follow hnext⟩
    | _ => contradiction

theorem MadeOf.resolve (h : context.MadeOf known) (hagree : Host.Agree f known) {value : Value ν}
    (hmade : value.MadeOf known) : (context.resolve value).MadeOf known := by
  rcases comesTo_resolve_or context value with hway | ⟨-, habsent⟩
  · exact (h.comesTo hagree hway hmade).2
  · exact habsent ▸ Value.madeOf_of_references rfl

/-- A value comes to the same but for names of nodes. -/
theorem MadeOf.resolve_mapNodes (h : context.MadeOf known) (hagree : Host.Agree f known)
    {value : Value ν} (hmade : value.MadeOf known) :
    (context.mapNodes f).resolve (value.mapNodes f) = (context.resolve value).mapNodes f := by
  rcases comesTo_resolve_or context value with hway | ⟨hforever, habsent⟩
  · exact resolve_of_comesTo (h.comesTo hagree hway hmade).1
  · rcases comesTo_resolve_or (context.mapNodes f) (value.mapNodes f) with hway | ⟨-, habsent'⟩
    · obtain ⟨result, hresult⟩ := h.comesTo_of_mapNodes hagree hway rfl hmade
      exact absurd hresult (hforever result)
    · rw [habsent, habsent']
      rfl

theorem MadeOf.map_resolve_mapNodes (h : context.MadeOf known) (hagree : Host.Agree f known)
    {values : List (Value ν)} (hmade : ∀ value ∈ values, value.MadeOf known) :
    (values.map (Value.mapNodes f)).map (context.mapNodes f).resolve =
      (values.map context.resolve).map (Value.mapNodes f) := by
  rw [List.map_map, List.map_map]
  exact List.map_congr_left fun value hvalue => h.resolve_mapNodes hagree (hmade value hvalue)

/-! ### Leaves -/

section

variable {fits : Value ν → Bool} {fits' : Value μ → Bool}

omit [Host ν] [Host μ] in
private theorem mapNodes_ne_list {leaf : Value ν} (h : ∀ items, leaf ≠ .list items) :
    ∀ items, leaf.mapNodes f ≠ .list items := by
  cases leaf <;> first | exact absurd rfl (h _) | exact fun _ => nofun

private theorem madeOf_items (h : context.MadeOf known) (hagree : Host.Agree f known)
    {items rest : List (Value ν)}
    (hmade : ∀ value ∈ .list items :: rest, Value.MadeOf known value) :
    (∀ item ∈ items, item.MadeOf known) ∧
      ∀ value ∈ items.map context.resolve ++ rest, value.MadeOf known := by
  obtain ⟨hlist, hrest⟩ := List.forall_mem_cons.mp hmade
  have hitems := Value.madeOf_list_iff.mp hlist
  refine ⟨hitems, List.forall_mem_append.mpr ⟨?_, hrest⟩⟩
  exact List.forall_mem_map.mpr fun item hitem => h.resolve hagree (hitems item hitem)

/-- The same leaves are met, but for names of nodes. -/
theorem MadeOf.meets (h : context.MadeOf known) (hagree : Host.Agree f known)
    (hfits : ∀ leaf : Value ν, fits' (leaf.mapNodes f) = fits leaf) {values leaves : List (Value ν)}
    (hmeets : Meets context fits values leaves) (hmade : ∀ value ∈ values, value.MadeOf known) :
    Meets (context.mapNodes f) fits' (values.map (Value.mapNodes f))
      (leaves.map (Value.mapNodes f)) := by
  induction hmeets with
  | nil => exact .nil
  | fit hleaf hfit _ ih =>
    exact .fit (mapNodes_ne_list hleaf) ((hfits _).trans hfit)
      (ih (List.forall_mem_cons.mp hmade).2)
  | unfit hleaf hunfit => exact .unfit (mapNodes_ne_list hleaf) ((hfits _).trans hunfit)
  | list _ ih =>
    obtain ⟨hitems, hnext⟩ := madeOf_items h hagree hmade
    have hmore := ih hnext
    rw [List.map_append, ← h.map_resolve_mapNodes hagree hitems] at hmore
    rw [List.map_cons, Value.mapNodes_list]
    exact .list hmore

theorem MadeOf.meets_of_mapNodes (h : context.MadeOf known) (hagree : Host.Agree f known)
    (hfits : ∀ leaf : Value ν, fits' (leaf.mapNodes f) = fits leaf)
    {values' leaves' : List (Value μ)} (hmeets : Meets (context.mapNodes f) fits' values' leaves')
    {values : List (Value ν)} (hvalues : values' = values.map (Value.mapNodes f))
    (hmade : ∀ value ∈ values, value.MadeOf known) :
    ∃ leaves, Meets context fits values leaves := by
  induction hmeets generalizing values with
  | nil =>
    obtain rfl := List.map_eq_nil_iff.mp hvalues.symm
    exact ⟨[], .nil⟩
  | @fit leaf' rest' _ hleaf hfit _ ih =>
    obtain ⟨leaf, rest, rfl, rfl, rfl⟩ := List.map_eq_cons_iff.mp hvalues.symm
    obtain ⟨leaves, hleaves⟩ := ih rfl (List.forall_mem_cons.mp hmade).2
    refine ⟨leaf :: leaves, .fit (fun items heq => ?_) ((hfits leaf).symm.trans hfit) hleaves⟩
    exact hleaf _ (heq ▸ Value.mapNodes_list f items)
  | unfit hleaf hunfit =>
    obtain ⟨leaf, rest, rfl, rfl, rfl⟩ := List.map_eq_cons_iff.mp hvalues.symm
    refine ⟨[leaf], .unfit (fun items heq => ?_) ((hfits leaf).symm.trans hunfit)⟩
    exact hleaf _ (heq ▸ Value.mapNodes_list f items)
  | @list items' rest' _ _ ih =>
    obtain ⟨value, rest, rfl, hlist, rfl⟩ := List.map_eq_cons_iff.mp hvalues.symm
    cases value with
    | list items =>
      obtain rfl := Value.list.inj ((Value.mapNodes_list f items).symm.trans hlist)
      obtain ⟨hitems, hnext⟩ := madeOf_items h hagree hmade
      obtain ⟨leaves, hleaves⟩ := ih (by rw [h.map_resolve_mapNodes hagree hitems, List.map_append])
        hnext
      exact ⟨leaves, .list hleaves⟩
    | _ => contradiction

/-- The leaves of a value are the same but for names of nodes. -/
theorem MadeOf.leaves_mapNodes (h : context.MadeOf known) (hagree : Host.Agree f known)
    (hfits : ∀ leaf : Value ν, fits' (leaf.mapNodes f) = fits leaf) {value : Value ν}
    (hmade : value.MadeOf known) :
    (context.mapNodes f).leaves fits' (value.mapNodes f) =
      (context.leaves fits value).map (Value.mapNodes f) := by
  have hresolve := h.resolve_mapNodes hagree hmade
  have hresolved : ∀ value' ∈ [context.resolve value], value'.MadeOf known := by
    simpa using h.resolve hagree hmade
  by_cases hmeets : ∃ leaves, Meets context fits [context.resolve value] leaves
  · obtain ⟨leaves, hmeets⟩ := hmeets
    have hmapped := h.meets hagree hfits hmeets hresolved
    rw [List.map_singleton, ← hresolve] at hmapped
    rw [leaves_of_meets hmeets, leaves_of_meets hmapped]
  · have hforever : ∀ leaves, ¬ Meets (context.mapNodes f) fits'
        [(context.mapNodes f).resolve (value.mapNodes f)] leaves := by
      intro leaves hleaves
      exact hmeets (h.meets_of_mapNodes hagree hfits hleaves (by rw [hresolve]; rfl) hresolved)
    rw [leaves_of_not_meets fun leaves hleaves => hmeets ⟨leaves, hleaves⟩,
      leaves_of_not_meets hforever]
    rfl

theorem MadeOf.leaves (h : context.MadeOf known) (hagree : Host.Agree f known) {value : Value ν}
    (hmade : value.MadeOf known) : ∀ leaf ∈ context.leaves fits value, leaf.MadeOf known :=
  forall_leaves (P := Value.MadeOf known) (h.resolve hagree hmade)
    fun _ hitems item hitem => h.resolve hagree (Value.madeOf_list_iff.mp hitems item hitem)

end

/-! ### Items of a loop -/

theorem MadeOf.iterationItems_mapNodes (h : context.MadeOf known) (hagree : Host.Agree f known)
    {iterable : Value ν} (hmade : iterable.MadeOf known) :
    iterationItems (context.mapNodes f) (iterable.mapNodes f) =
      (iterationItems context iterable).map (List.map (Value.mapNodes f)) := by
  unfold iterationItems
  rw [h.resolve_mapNodes hagree hmade]
  cases context.resolve iterable with
  | list items => rw [Value.mapNodes_list]; rfl
  | string text =>
    simp only [Value.mapNodes, Except.map, List.map_map]
    rfl
  | map entries => exact Value.error_display f _ .notIterable _
  | _ => rfl

theorem MadeOf.iterationItems (h : context.MadeOf known) (hagree : Host.Agree f known)
    {iterable : Value ν} (hmade : iterable.MadeOf known) {items : List (Value ν)}
    (hitems : iterationItems context iterable = .ok items) :
    ∀ item ∈ items, item.MadeOf known := by
  have hresolved := h.resolve hagree hmade
  unfold IndentMarkup.iterationItems at hitems
  split at hitems
  · rename_i found heq
    obtain rfl := Except.ok.inj hitems
    exact Value.madeOf_list_iff.mp (heq ▸ hresolved)
  · obtain rfl := Except.ok.inj hitems
    exact List.forall_mem_map.mpr fun c _ => Value.madeOf_of_references rfl
  · contradiction

end Context

end

/-! ## Attributes -/

section

variable (f : ν → μ)

theorem Word.value_mapNodes (word : Word (Value ν)) :
    (word.map (Value.mapNodes f)).value = word.value.mapNodes f := by
  cases word <;> rfl

theorem Attribute.nameValue?_mapNodes (entry : Attribute (Value ν)) :
    (entry.map (Value.mapNodes f)).nameValue? = entry.nameValue?.map (Value.mapNodes f) := by
  cases entry with
  | pair name value => exact congrArg some (name.value_mapNodes f)
  | bare name => exact congrArg some (name.value_mapNodes f)
  | splat value => rfl

theorem Attribute.assigned_mapNodes (entry : Attribute (Value ν)) :
    (entry.map (Value.mapNodes f)).assigned = entry.assigned.mapNodes f := by
  cases entry with
  | pair name value => exact value.value_mapNodes f
  | bare name => rfl
  | splat value => rfl

def EventBinding.mapNodes (binding : EventBinding ν) : EventBinding μ :=
  ⟨binding.event, binding.callback.mapNodes f, binding.options.map (Value.mapNodes f)⟩

namespace AttributeSet

def mapNodes (set : AttributeSet ν) : AttributeSet μ :=
  ⟨set.attributes, set.events.map (EventBinding.mapNodes f)⟩

theorem valueText_mapNodes (name : String) (value : Value ν) :
    valueText name (value.mapNodes f) = valueText name value := by
  cases value with
  | bool value => cases value <;> rfl
  | list items => exact Value.error_display f id (.invalidAttributeValue name) _
  | map entries => exact Value.error_display f id (.invalidAttributeValue name) _
  | _ => rfl

end AttributeSet

end

section

variable [Host ν] [Host μ] {f : ν → μ} {known : String → Prop} {context : Context ν}

omit [Host ν] [Host μ] in
theorem Word.madeOf_value {word : Word (Value ν)} (h : ∀ value ∈ word.slots, value.MadeOf known) :
    word.value.MadeOf known := by
  cases word with
  | text content => exact Value.madeOf_of_references rfl
  | slot value => exact h value List.mem_cons_self

omit [Host ν] [Host μ] in
theorem Attribute.madeOf_nameValue? {entry : Attribute (Value ν)}
    (h : ∀ value ∈ entry.slots, value.MadeOf known) :
    ∀ name, entry.nameValue? = some name → name.MadeOf known := by
  cases entry with
  | pair name value =>
    rintro _ ⟨⟩
    exact name.madeOf_value fun value hvalue => h value (List.mem_append_left _ hvalue)
  | bare name =>
    rintro _ ⟨⟩
    exact name.madeOf_value h
  | splat value => nofun

omit [Host ν] [Host μ] in
theorem Attribute.madeOf_assigned {entry : Attribute (Value ν)}
    (h : ∀ value ∈ entry.slots, value.MadeOf known) : entry.assigned.MadeOf known := by
  cases entry with
  | pair name value =>
    exact value.madeOf_value fun value hvalue => h value (List.mem_append_right _ hvalue)
  | bare name => exact Value.madeOf_of_references rfl
  | splat value => exact h value List.mem_cons_self

namespace AttributeSet

variable (hcontext : context.MadeOf known) (hagree : Host.Agree f known)

include hcontext hagree

theorem eventBinding_mapNodes (event : String) {value : Value ν} (hvalue : value.MadeOf known) :
    eventBinding (context.mapNodes f) event (value.mapNodes f) =
      (eventBinding context event value).mapNodes f := by
  cases value with
  | list items =>
    have hresolve := hcontext.map_resolve_mapNodes hagree (Value.madeOf_list_iff.mp hvalue)
    simp only [Value.mapNodes_list, eventBinding, hresolve, Value.headD_map, List.getElem?_map,
      EventBinding.mapNodes]
  | _ => rfl

theorem add_mapNodes (set : AttributeSet ν) (name : Value ν) {value : Value ν}
    (hvalue : value.MadeOf known) :
    (set.mapNodes f).add (context.mapNodes f) (name.mapNodes f) (value.mapNodes f) =
      (set.add context name value).map (mapNodes f) := by
  cases name with
  | string name =>
    simp only [Value.mapNodes, add]
    split
    · rw [eventBinding_mapNodes hcontext hagree _ hvalue]
      simp [Except.map, mapNodes]
    · rw [valueText_mapNodes]
      cases valueText name value with
      | error error => rfl
      | ok text => cases text <;> rfl
  | _ => exact Value.error_display f (mapNodes f) .invalidAttributeName _

theorem addEntries_mapNodes (set : AttributeSet ν) {entries : List (String × Value ν)}
    (hentries : ∀ entry ∈ entries, entry.2.MadeOf known) :
    (set.mapNodes f).addEntries (context.mapNodes f)
        (entries.map fun entry => (entry.1, entry.2.mapNodes f)) =
      (set.addEntries context entries).map (mapNodes f) := by
  induction entries generalizing set with
  | nil => rfl
  | cons entry rest ih =>
    obtain ⟨hentry, hrest⟩ := List.forall_mem_cons.mp hentries
    have hadd := add_mapNodes hcontext hagree set (.string entry.1) (hcontext.resolve hagree hentry)
    rw [← hcontext.resolve_mapNodes hagree hentry] at hadd
    rw [List.map_cons, addEntries, addEntries]
    show ((set.mapNodes f).add (context.mapNodes f) ((Value.string entry.1).mapNodes f)
      ((context.mapNodes f).resolve (entry.2.mapNodes f)) >>= _) = _
    rw [hadd]
    cases set.add context (.string entry.1) (context.resolve entry.2) with
    | error error => rfl
    | ok set => exact ih set hrest

theorem addWritten_mapNodes (set : AttributeSet ν) {entry : Attribute (Value ν)}
    (hentry : ∀ value ∈ entry.slots, value.MadeOf known) :
    (set.mapNodes f).addWritten (context.mapNodes f) (entry.map (Value.mapNodes f)) =
      (set.addWritten context entry).map (mapNodes f) := by
  have hassigned := entry.madeOf_assigned hentry
  have hresolved := hcontext.resolve hagree hassigned
  unfold addWritten
  rw [Attribute.nameValue?_mapNodes, Attribute.assigned_mapNodes,
    hcontext.resolve_mapNodes hagree hassigned]
  cases hname : entry.nameValue? with
  | some name =>
    simp only [Option.map_some,
      hcontext.resolve_mapNodes hagree (entry.madeOf_nameValue? hentry name hname)]
    exact add_mapNodes hcontext hagree set _ hresolved
  | none =>
    simp only [Option.map_none]
    generalize context.resolve entry.assigned = resolved at hresolved
    cases resolved with
    | map entries =>
      simp only [Value.mapNodes_map]
      exact addEntries_mapNodes hcontext hagree set (Value.madeOf_map_iff.mp hresolved)
    | _ => exact Value.error_display f (mapNodes f) .invalidSplat _

/-- The final attributes are the same but for names of nodes, or faulty in the same way. -/
theorem build_mapNodes {written : List (Attribute (Value ν))}
    (hwritten : ∀ entry ∈ written, ∀ value ∈ entry.slots, value.MadeOf known) :
    build (context.mapNodes f) (written.map (Attribute.map (Value.mapNodes f))) =
      (build context written).map (mapNodes f) := by
  have hall : ∀ set : AttributeSet ν,
      (set.mapNodes f).addAll (context.mapNodes f) (written.map (Attribute.map (Value.mapNodes f))) =
        (set.addAll context written).map (mapNodes f) := by
    induction written with
    | nil => exact fun _ => rfl
    | cons entry rest ih =>
      intro set
      obtain ⟨hentry, hrest⟩ := List.forall_mem_cons.mp hwritten
      rw [List.map_cons, addAll, addAll, addWritten_mapNodes hcontext hagree set hentry]
      cases set.addWritten context entry with
      | error error => rfl
      | ok set => exact ih hrest set
  exact hall {}

end AttributeSet

end

end IndentMarkup

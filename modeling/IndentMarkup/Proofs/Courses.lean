import IndentMarkup.Proofs.CallTrees
import IndentMarkup.Proofs.ShownNames

/-! Courses. What is asked of a builder about one element takes a fixed course: the element is made,
it gets its attributes and its listeners, it may show its name, and if it has children of its own it
is cleared and they are appended. A script is orderly if every element in it is on such a course, as
far as the script goes, and if nothing is appended to an element that was made before the element
was cleared. While a script is written, some elements are in hand: it is known how far they have
come. -/
namespace IndentMarkup

namespace Call

def target : Call → Nat
  | .createElement id _ | .createText id _ | .setAttribute id _ _ | .addEventListener id _ _ _
  | .appendChild id _ | .removeAllChildren id | .createFragment id _ => id

/-- The calls that give attributes and then listeners to an element. -/
def decoration (attributes : List (String × String))
    (listeners : List (String × String × Option String)) (id : Nat) : List Call :=
  (attributes.map fun (name, value) => .setAttribute id name value) ++
    listeners.map fun (event, callback, options) => .addEventListener id event callback options

def isText : Call → Bool
  | .createText _ _ => true
  | _ => false

end Call

namespace ScriptStep

def target : ScriptStep → Nat
  | .call request => request.target
  | .bound _ element _ => element

def made? : ScriptStep → Option Nat
  | .call request => request.made?
  | .bound _ _ _ => none

def made (steps : List ScriptStep) : List Nat :=
  steps.filterMap made?

def about (id : Nat) (steps : List ScriptStep) : List ScriptStep :=
  steps.filter (·.target == id)

variable {id : Nat} {steps : List ScriptStep}

theorem mem_about {step : ScriptStep} : step ∈ about id steps ↔ step ∈ steps ∧ step.target = id := by
  simp [about]

theorem about_append (more : List ScriptStep) :
    about id (steps ++ more) = about id steps ++ about id more :=
  List.filter_append ..

theorem about_eq_self (h : ∀ step ∈ steps, step.target = id) : about id steps = steps :=
  List.filter_eq_self.mpr fun step hstep => beq_iff_eq.mpr (h step hstep)

theorem about_eq_nil (h : ∀ step ∈ steps, step.target ≠ id) : about id steps = [] :=
  List.filter_eq_nil_iff.mpr fun step hstep heq => h step hstep (beq_iff_eq.mp heq)

end ScriptStep

open ScriptStep (about made)

/-! ## The course of an element -/

/-- How far an element has come: what it has been asked for, in this order. -/
structure Course where
  tag : String
  attributes : List (String × String)
  /-- Events with their callbacks and options, both in their display form. -/
  listeners : List (String × String × Option String)
  /-- The name under which the element is bound. -/
  name : Option String
  cleared : Bool
  appended : List Nat
  /-- No attribute is set twice. -/
  nodup : (attributes.map (·.1)).Nodup
  /-- Nothing is appended unless the element is cleared. -/
  clearedFirst : appended ≠ [] → cleared = true

namespace Course

/-- An element that has only been made. -/
def bare (tag : String) : Course :=
  ⟨tag, [], [], none, false, [], List.nodup_nil, fun h => absurd rfl h⟩

variable (course : Course)

def filling (id : Nat) : List Call :=
  (if course.cleared then [.removeAllChildren id] else []) ++
    course.appended.map fun child => .appendChild id child

/-- The calls of a course. If this attribute shows names, it is set where the element is bound. -/
def calls (attr : Option String) (id : Nat) : List Call :=
  .createElement id course.tag :: (Call.decoration course.attributes course.listeners id ++
    (attr.bind fun attr => course.name.map fun name => .setAttribute id attr name).toList ++
      course.filling id)

def steps (parent : Bool) (id : Nat) : List ScriptStep :=
  .call (.createElement id course.tag) ::
    ((Call.decoration course.attributes course.listeners id).map .call ++
      (course.name.map fun name => .bound name id parent).toList ++ (course.filling id).map .call)

variable {course} {parent : Bool} {id : Nat}

/-- The steps come to the calls. -/
theorem flatMap_steps (parent : Bool) (attr : Option String) :
    (course.steps parent id).flatMap (ScriptStep.calls attr) = course.calls attr id := by
  have hname : (course.name.map fun name => ScriptStep.bound name id parent).toList.flatMap
      (ScriptStep.calls attr) =
        (attr.bind fun attr => course.name.map fun name => .setAttribute id attr name).toList := by
    cases attr <;> cases course.name <;> rfl
  simp only [steps, calls, List.flatMap_cons, List.flatMap_append, ScriptStep.flatMap_calls, hname]
  rfl

/-- All steps are about the element, and behind the first nothing is made. -/
theorem of_mem_steps {step : ScriptStep} (h : step ∈ (course.steps parent id).tail) :
    step.target = id ∧ step.made? = none := by
  have hcalls : ∀ call ∈ Call.decoration course.attributes course.listeners id ++ course.filling id,
      call.target = id ∧ call.made? = none := by
    intro call hcall
    simp only [Call.decoration, filling, List.mem_append, List.mem_map] at hcall
    rcases hcall with (⟨_, -, rfl⟩ | ⟨_, -, rfl⟩) | hclear | ⟨_, -, rfl⟩
    · exact ⟨rfl, rfl⟩
    · exact ⟨rfl, rfl⟩
    · split at hclear
      · obtain rfl := List.mem_singleton.mp hclear
        exact ⟨rfl, rfl⟩
      · contradiction
    · exact ⟨rfl, rfl⟩
  simp only [steps, List.tail_cons, List.mem_append, List.mem_map] at h
  rcases h with (⟨call, hcall, rfl⟩ | hbound) | ⟨call, hcall, rfl⟩
  · exact hcalls call (List.mem_append_left _ hcall)
  · obtain ⟨name, -, rfl⟩ := Option.map_eq_some_iff.mp (Option.mem_toList.mp hbound)
    exact ⟨rfl, rfl⟩
  · exact hcalls call (List.mem_append_right _ hcall)

theorem bound_mem_steps (parent : Bool) {name : String} :
    (∃ flag, .bound name id flag ∈ course.steps parent id) ↔ course.name = some name := by
  simp [steps]

end Course

/-! ## Orderly scripts -/

/-- A node has been made after its parent was cleared, and appended after that. -/
def Placed (steps : List ScriptStep) (parent child : Nat) : Prop :=
  ∃ create : Call, create.made? = some child ∧
    [.call (.removeAllChildren parent), .call create, .call (.appendChild parent child)].Sublist steps

/-- The steps about a node: nothing but the creation of a text, or the course of an element. -/
def OnCourse (id : Nat) (steps : List ScriptStep) : Prop :=
  (∃ content, steps = [.call (.createText id content)]) ∨
    ∃ (course : Course) (parent : Bool), steps = course.steps parent id

namespace Script

/-- Every node of a script is made once and is a text or on its course. -/
structure Orderly (script : Script) : Prop where
  numbered : made script.steps = List.range script.nextId
  known : ∀ step ∈ script.steps, step.target < script.nextId
  courses : ∀ id < script.nextId, OnCourse id (about id script.steps)
  placed : ∀ parent child, .call (.appendChild parent child) ∈ script.steps →
    Placed script.steps parent child

variable {script start middle : Script} {id : Nat} {more : List ScriptStep}

theorem orderly_empty : Orderly {} :=
  ⟨rfl, by simp, by simp, by simp⟩

theorem Orderly.about_eq_nil (h : script.Orderly) (hid : script.nextId ≤ id) :
    about id script.steps = [] :=
  ScriptStep.about_eq_nil fun step hstep heq =>
    absurd (h.known step hstep) (Nat.not_lt.mpr (heq ▸ hid))

/-- More steps about one node. -/
theorem Orderly.extend (h : script.Orderly) {nextId : Nat} (hid : id < nextId)
    (htarget : ∀ step ∈ more, step.target = id)
    (hothers : ∀ other < nextId, other ≠ id → other < script.nextId)
    (hle : script.nextId ≤ nextId) (hmade : List.range script.nextId ++ made more = List.range nextId)
    (hcourse : OnCourse id (about id script.steps ++ more))
    (hplaced : ∀ child, .call (.appendChild id child) ∈ more →
      Placed (script.steps ++ more) id child) :
    Orderly ⟨nextId, script.steps ++ more⟩ := by
  refine ⟨?_, fun step hstep => ?_, fun other hother => ?_, fun parent child happend => ?_⟩
  · rw [made, List.filterMap_append]
    exact (congrArg (· ++ made more) h.numbered).trans hmade
  · rcases List.mem_append.mp hstep with hstep | hstep
    · exact Nat.lt_of_lt_of_le (h.known step hstep) hle
    · exact htarget step hstep ▸ hid
  · show OnCourse other (about other (script.steps ++ more))
    rw [ScriptStep.about_append]
    by_cases heq : other = id
    · rw [heq, ScriptStep.about_eq_self htarget]
      exact hcourse
    · have hne : ∀ step ∈ more, step.target ≠ other := fun step hstep hsame =>
        heq (hsame.symm.trans (htarget step hstep))
      rw [ScriptStep.about_eq_nil hne, List.append_nil]
      exact h.courses other (hothers other hother heq)
  · rcases List.mem_append.mp happend with happend | happend
    · obtain ⟨create, hcreate, hsub⟩ := h.placed parent child happend
      exact ⟨create, hcreate, hsub.trans (List.sublist_append_left _ _)⟩
    · obtain rfl : parent = id := htarget _ happend
      exact hplaced child happend

/-! ## Elements in hand -/

/-- How far an element has come at most. -/
inductive Stage where
  | bare
  | decorated
  | named
  | cleared

/-- What a course looks like at a stage. -/
def Stage.Holds : Stage → Course → Prop
  | .bare, course => ∃ tag, course = .bare tag
  | .decorated, course => course.name = none ∧ course.cleared = false
  | .named, course => course.cleared = false
  | .cleared, course => course.cleared = true

/-- A script has come from another to where it is, and these elements are at these stages. -/
structure Underway (start : Script) (hand : List (Nat × Stage)) (script : Script) : Prop where
  orderly : script.Orderly
  begun : start.Orderly
  goesOn : start.steps <+: script.steps
  nodup : (hand.map (·.1)).Nodup
  inHand : ∀ entry ∈ hand, ∃ (course : Course) (parent : Bool),
    entry.2.Holds course ∧ about entry.1 script.steps = course.steps parent entry.1

variable {hand : List (Nat × Stage)} {stage : Stage}

namespace Underway

theorem here (h : Underway start hand script) : Underway script hand script :=
  ⟨h.orderly, h.orderly, List.prefix_rfl, h.nodup, h.inHand⟩

theorem trans {hand' : List (Nat × Stage)} (h : Underway start hand middle)
    (h' : Underway middle hand' script) : Underway start hand' script :=
  ⟨h'.orderly, h.begun, h.goesOn.trans h'.goesOn, h'.nodup, h'.inHand⟩

theorem perm {hand' : List (Nat × Stage)} (h : Underway start hand script)
    (hperm : hand.Perm hand') : Underway start hand' script :=
  ⟨h.orderly, h.begun, h.goesOn, (hperm.map _).nodup_iff.mp h.nodup,
    fun entry hentry => h.inHand entry (hperm.mem_iff.mpr hentry)⟩

theorem drop (h : Underway start ((id, stage) :: hand) script) : Underway start hand script :=
  ⟨h.orderly, h.begun, h.goesOn, (List.nodup_cons.mp h.nodup).2,
    fun entry hentry => h.inHand entry (List.mem_cons_of_mem _ hentry)⟩

theorem nextId_le (h : Underway start hand script) : start.nextId ≤ script.nextId := by
  have hmade : (made start.steps).length ≤ (made script.steps).length :=
    (h.goesOn.filterMap ScriptStep.made?).length_le
  rwa [h.begun.numbered, h.orderly.numbered, List.length_range, List.length_range] at hmade

theorem lt_nextId (h : Underway start hand script) {entry : Nat × Stage} (hentry : entry ∈ hand) :
    entry.1 < script.nextId := by
  obtain ⟨course, parent, -, habout⟩ := h.inHand entry hentry
  have hmem : .call (.createElement entry.1 course.tag) ∈ about entry.1 script.steps := by
    rw [habout]
    exact List.mem_cons_self
  exact h.orderly.known _ (ScriptStep.mem_about.mp hmem).1

/-- A new node. -/
theorem create (h : Underway start hand script) (call : Call)
    (hmade : call.made? = some script.nextId) (htarget : call.target = script.nextId)
    (hcourse : OnCourse script.nextId [.call call]) :
    Underway start hand ⟨script.nextId + 1, script.steps ++ [.call call]⟩ := by
  have hsteps : ∀ step ∈ [ScriptStep.call call], step.target = script.nextId :=
    fun step hstep => List.mem_singleton.mp hstep ▸ htarget
  refine ⟨?_, h.begun, h.goesOn.trans (List.prefix_append _ _), h.nodup, fun entry hentry => ?_⟩
  · refine h.orderly.extend (Nat.lt_succ_self _) hsteps (fun other hother hne => ?_)
      (Nat.le_succ _) ?_ ?_ fun child happend => ?_
    · omega
    · rw [List.range_succ]
      exact congrArg _ (by simp [made, ScriptStep.made?, hmade])
    · rwa [h.orderly.about_eq_nil (Nat.le_refl _), List.nil_append]
    · obtain rfl := ScriptStep.call.inj (List.mem_singleton.mp happend)
      contradiction
  · obtain ⟨course, parent, hstage, habout⟩ := h.inHand entry hentry
    refine ⟨course, parent, hstage, ?_⟩
    have hne := Nat.ne_of_gt (h.lt_nextId hentry)
    rw [ScriptStep.about_append, habout,
      ScriptStep.about_eq_nil fun step hstep => hsteps step hstep ▸ hne, List.append_nil]

/-- A new element is in hand. -/
theorem createElement (h : Underway start hand script) (tag : String) :
    Underway start (hand ++ [(script.nextId, .bare)])
      ⟨script.nextId + 1, script.steps ++ [.call (.createElement script.nextId tag)]⟩ := by
  have hsteps : [.call (.createElement script.nextId tag)] =
      (Course.bare tag).steps false script.nextId := rfl
  have hcreate := h.create (.createElement script.nextId tag) rfl rfl
    (.inr ⟨.bare tag, false, hsteps⟩)
  refine ⟨hcreate.orderly, hcreate.begun, hcreate.goesOn, ?_, fun entry hentry => ?_⟩
  · rw [List.map_append, List.nodup_append]
    refine ⟨h.nodup, by simp, fun known hknown new hnew => ?_⟩
    obtain ⟨entry, hentry, rfl⟩ := List.mem_map.mp hknown
    obtain rfl := List.mem_singleton.mp hnew
    exact Nat.ne_of_lt (h.lt_nextId hentry)
  · rcases List.mem_append.mp hentry with hentry | hentry
    · exact hcreate.inHand entry hentry
    · obtain rfl := List.mem_singleton.mp hentry
      refine ⟨.bare tag, false, ⟨tag, rfl⟩, ?_⟩
      rw [ScriptStep.about_append, h.orderly.about_eq_nil (Nat.le_refl _), List.nil_append, ← hsteps]
      exact ScriptStep.about_eq_self fun step hstep => List.mem_singleton.mp hstep ▸ rfl

end Underway

/-- With these steps an element comes from one stage to another. -/
def Stage.Leads (stage : Stage) (id : Nat) (more : List ScriptStep) (next : Stage) : Prop :=
  ∀ (course : Course) (parent : Bool), stage.Holds course →
    ∃ (course' : Course) (parent' : Bool), next.Holds course' ∧
      course'.steps parent' id = course.steps parent id ++ more

/-- An element in hand goes on. -/
theorem Underway.advance (h : Underway start ((id, stage) :: hand) script) {next : Stage}
    (hleads : stage.Leads id more next)
    (hplaced : ∀ child, .call (.appendChild id child) ∈ more →
      Placed (script.steps ++ more) id child) :
    Underway start ((id, next) :: hand) ⟨script.nextId, script.steps ++ more⟩ := by
  obtain ⟨course, parent, hstage, habout⟩ := h.inHand _ List.mem_cons_self
  obtain ⟨course', parent', hnext, hsteps⟩ := hleads course parent hstage
  have htail : (course'.steps parent' id).tail = (course.steps parent id).tail ++ more := by
    rw [hsteps]
    rfl
  have hmore : ∀ step ∈ more, step.target = id ∧ step.made? = none := fun step hstep =>
    Course.of_mem_steps (htail ▸ List.mem_append_right _ hstep)
  have hmade : made more = [] := List.filterMap_eq_nil_iff.mpr fun step hstep => (hmore step hstep).2
  obtain ⟨hid, hnodup⟩ := List.nodup_cons.mp h.nodup
  refine ⟨?_, h.begun, h.goesOn.trans (List.prefix_append _ _), h.nodup, fun entry hentry => ?_⟩
  · refine h.orderly.extend (h.lt_nextId List.mem_cons_self) (fun step hstep => (hmore step hstep).1)
      (fun other hother _ => hother) (Nat.le_refl _) ?_ ?_ hplaced
    · rw [hmade, List.append_nil]
    · exact .inr ⟨course', parent', by rw [habout, hsteps]⟩
  · show ∃ course parent, _ ∧ about entry.1 (script.steps ++ more) = _
    rw [ScriptStep.about_append]
    rcases List.mem_cons.mp hentry with rfl | hentry
    · refine ⟨course', parent', hnext, ?_⟩
      rw [habout, ScriptStep.about_eq_self fun step hstep => (hmore step hstep).1, hsteps]
    · obtain ⟨course, parent, hstage, habout⟩ := h.inHand entry (List.mem_cons_of_mem _ hentry)
      refine ⟨course, parent, hstage, ?_⟩
      have hmem : entry.1 ∈ hand.map (·.1) := List.mem_map_of_mem hentry
      have hne : ∀ step ∈ more, step.target ≠ entry.1 := fun step hstep hsame =>
        hid (((hmore step hstep).1.symm.trans hsame) ▸ hmem)
      rw [habout, ScriptStep.about_eq_nil hne, List.append_nil]

namespace Stage

/-- An element that has only been made gets its attributes and its listeners. -/
theorem leads_decorated {attributes : List (String × String)}
    (hnodup : (attributes.map (·.1)).Nodup) (listeners : List (String × String × Option String)) :
    Leads .bare id ((Call.decoration attributes listeners id).map .call) .decorated := by
  rintro course parent ⟨tag, rfl⟩
  refine ⟨⟨tag, attributes, listeners, none, false, [], hnodup, fun h => absurd rfl h⟩, parent,
    ⟨rfl, rfl⟩, ?_⟩
  simp [Course.steps, Call.decoration, Course.filling, Course.bare]

theorem appended_of_uncleared {course : Course} (h : course.cleared = false) :
    course.appended = [] := by
  by_contra happended
  rw [course.clearedFirst happended] at h
  contradiction

theorem leads_named (name : String) (flag : Bool) :
    Leads .decorated id [.bound name id flag] .named := by
  rintro course parent ⟨hname, hcleared⟩
  refine ⟨{ course with name := some name }, flag, hcleared, ?_⟩
  simp [Course.steps, Call.decoration, Course.filling, hname, hcleared,
    appended_of_uncleared hcleared]

/-- An element need not have a name. -/
theorem leads_unnamed : Leads .decorated id [] .named :=
  fun course parent h => ⟨course, parent, h.2, (List.append_nil _).symm⟩

theorem leads_cleared : Leads .named id [.call (.removeAllChildren id)] .cleared := by
  intro course parent hcleared
  refine ⟨{ course with cleared := true, clearedFirst := fun _ => rfl }, parent, rfl, ?_⟩
  have hnot : course.cleared = false := hcleared
  simp [Course.steps, Call.decoration, Course.filling, hnot, appended_of_uncleared hnot]

theorem leads_appended (child : Nat) : Leads .cleared id [.call (.appendChild id child)] .cleared := by
  intro course parent hcleared
  refine ⟨{ course with
    appended := course.appended ++ [child], clearedFirst := fun _ => hcleared }, parent,
    hcleared, ?_⟩
  simp [Course.steps, Call.decoration, Course.filling]

end Stage

/-- What has been made since an element was cleared can be appended to it. -/
theorem Underway.placed (h : Underway start hand script)
    (hcleared : .call (.removeAllChildren id) ∈ start.steps) {child : Nat}
    (hge : start.nextId ≤ child) (hlt : child < script.nextId) :
    Placed (script.steps ++ [.call (.appendChild id child)]) id child := by
  obtain ⟨since, hsince⟩ := h.goesOn
  have hmade : child ∈ made start.steps ++ made since := by
    rw [made, made, ← List.filterMap_append, hsince]
    show child ∈ made script.steps
    rw [h.orderly.numbered]
    exact List.mem_range.mpr hlt
  rw [h.begun.numbered, List.mem_append, List.mem_range] at hmade
  obtain ⟨step, hstep, hchild⟩ := List.mem_filterMap.mp (hmade.resolve_left (Nat.not_lt.mpr hge))
  cases step with
  | bound name element parent => contradiction
  | call create =>
    refine ⟨create, hchild, ?_⟩
    rw [← hsince]
    exact ((List.singleton_sublist.mpr hcleared).append (List.singleton_sublist.mpr hstep)).append
      (List.Sublist.refl _)

end Script

end IndentMarkup

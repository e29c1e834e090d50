import IndentMarkup.Proofs.SlotsTaken

/-! What the parser records. The log of a production is its own event and the logs of the
productions it calls, in their order. There is one lemma for each way to read something, and from
them every event of a derivation happened within its input. -/
namespace IndentMarkup.Parser

open Text (isBlank)

variable {α : Type}

namespace Traced

variable {β γ : Type}

theorem events_bind_ok {first : Traced α β} {value : β} (h : first.outcome = .ok value)
    (next : β → Traced α γ) : (first >>= next).events = first.events ++ (next value).events := by
  show (Traced.bind first next).events = _
  unfold Traced.bind
  rw [h]

@[simp] theorem events_pure (value : β) : (pure value : Traced α β).events = [] := rfl

@[simp] theorem events_note (kind : Event.Kind) (rest : Source α) (next : Unit → Traced α γ) :
    (note kind rest >>= next).events = ⟨kind, rest⟩ :: (next ()).events :=
  events_bind_ok rfl next

/-- Where the second computation records nothing, the log is that of the first. -/
theorem events_bind_silent (first : Traced α β) {next : β → Traced α γ}
    (h : ∀ value, (next value).events = []) : (first >>= next).events = first.events := by
  show (Traced.bind first next).events = _
  unfold Traced.bind
  cases first.outcome with
  | error failure => rfl
  | ok value => simp only [h, List.append_nil]

end Traced

def Production.log (indent : Indent) (source : Source α) : Production → List (Event α)
  | .item => (Traced.item indent source).events
  | .element => (Traced.element indent source).events
  | .content => (Traced.content indent source).events
  | .children => (Traced.children indent source).events
  | .instruction => (Traced.instruction indent source).events
  | .otherwise => (Traced.otherwise indent source).events
  | .siblings => (Traced.siblings indent source).events
  | .block => (Traced.block indent source).events

/-- What comes to a result comes to it with a log. -/
theorem outcome_of_map {β γ : Type} {traced : Traced α β} {f : β → γ} {value : γ}
    (h : traced.outcome.map f = .ok value) :
    ∃ found, traced.outcome = .ok found ∧ f found = value := by
  cases hfound : traced.outcome with
  | error failure =>
    rw [hfound] at h
    contradiction
  | ok found =>
    rw [hfound] at h
    exact ⟨found, rfl, Except.ok.inj h⟩

variable {indent deeper : Indent} {source start inner after rest : Source α}
  {nodes : List (Node α)}

theorem log_item_comment (h : comment? indent source = some rest) :
    Production.log indent source .item = [⟨.item, source⟩, ⟨.comment, source⟩] := by
  simp only [Production.log]
  rw [Traced.item, Traced.events_note]
  split
  · simp
  · simp_all

theorem log_item_text {found : List (Node α) × Source α} (hcomment : comment? indent source = none)
    (h : textItem? indent source = some found) :
    Production.log indent source .item = [⟨.item, source⟩, ⟨.textItem, source⟩] := by
  simp only [Production.log]
  rw [Traced.item, Traced.events_note]
  split
  · simp_all
  · split
    · simp
    · simp_all

theorem log_item_element {found : List (Node α) × Source α}
    (hcomment : comment? indent source = none) (htext : textItem? indent source = none)
    (h : element indent source = .ok (some found)) :
    Production.log indent source .item =
      ⟨.item, source⟩ :: Production.log indent source .element := by
  simp only [Production.log]
  rw [Traced.item, Traced.events_note]
  split
  · simp_all
  · split
    · simp_all
    · obtain ⟨_ | found, hfound, heq⟩ := outcome_of_map h
      · contradiction
      · rw [Traced.events_bind_ok hfound]
        simp

/-- Where there is no control flow line, no word begins one. -/
theorem of_instruction_none (h : instruction indent source = .ok none) :
    instructionName source = .ok none := by
  rw [instruction_eq] at h
  obtain ⟨found, hname, h⟩ := of_bind_ok h
  cases found with
  | none => exact hname
  | some found =>
    obtain ⟨⟨line, _⟩, -, h⟩ := of_bind_ok h
    cases line with
    | ifThen condition =>
      obtain ⟨_, -, h⟩ := of_bind_ok h
      obtain ⟨_, -, h⟩ := of_bind_ok h
      exact absurd (Except.ok.inj h) (Option.some_ne_none _)
    | forEach variableName iterable =>
      obtain ⟨_, -, h⟩ := of_bind_ok h
      exact absurd (Except.ok.inj h) (Option.some_ne_none _)

theorem log_element_none (h : element indent source = .ok none) :
    Production.log indent source .element = [] := by
  have hnaming := of_element_none h
  simp only [Production.log]
  rw [Traced.element]
  split
  · rfl
  · rfl
  · simp_all

theorem log_instruction_none (h : instruction indent source = .ok none) :
    Production.log indent source .instruction = [] := by
  have hname := of_instruction_none h
  simp only [Production.log]
  rw [Traced.instruction]
  split
  · rfl
  · rfl
  · simp_all

theorem log_item_instruction (hcomment : comment? indent source = none)
    (htext : textItem? indent source = none) (h : element indent source = .ok none) :
    Production.log indent source .item =
      ⟨.item, source⟩ :: Production.log indent source .instruction := by
  have helement := log_element_none h
  simp only [Production.log] at helement ⊢
  rw [Traced.item, Traced.events_note]
  split
  · simp_all
  · split
    · simp_all
    · obtain ⟨_ | found, hnone, heq⟩ := outcome_of_map h
      · rw [Traced.events_bind_ok hnone, helement, List.nil_append]
        simp only
        rw [Traced.events_bind_silent]
        intro found
        cases found with
        | some found => rfl
        | none =>
          simp only
          split
          · rfl
          · split <;> rfl
      · contradiction

theorem log_element {named : Naming α} {opening : Opening α}
    (hnaming : naming source = .ok (some (named, start)))
    (hopening : openingRest named start = .ok (opening, inner)) :
    Production.log indent source .element =
      ⟨.element, start⟩ :: Production.log indent inner .content := by
  simp only [Production.log]
  rw [Traced.element]
  split
  · simp_all
  · simp_all
  · rename_i heq
    obtain ⟨rfl, rfl⟩ := Prod.mk.inj (Option.some.inj (Except.ok.inj (hnaming.symm.trans heq)))
    rw [Traced.events_note]
    split
    · simp_all
    · rename_i heq
      obtain ⟨rfl, rfl⟩ := Prod.mk.inj (Except.ok.inj (hopening.symm.trans heq))
      rw [Traced.events_bind_silent _ fun _ => rfl]

theorem log_content_expansion (h : expansion? (skipOneBlank source) = some inner) :
    Production.log indent source .content = Production.log indent inner .element := by
  simp only [Production.log]
  rw [Traced.content]
  split
  · rename_i heq
    obtain rfl := Option.some.inj (h.symm.trans heq)
    rw [Traced.events_bind_silent]
    intro found
    cases found <;> rfl
  · simp_all

theorem log_content_lineText (h : expansion? (skipOneBlank source) = none)
    (htext : lineText indent (skipOneBlank source) = (some nodes, rest)) :
    Production.log indent source .content = [] := by
  simp only [Production.log]
  rw [Traced.content]
  split
  · simp_all
  · split
    · rfl
    · simp_all

theorem log_content_lower (h : expansion? (skipOneBlank source) = none)
    (htext : lineText indent (skipOneBlank source) = (none, inner)) :
    Production.log indent source .content = Production.log indent inner .children := by
  simp only [Production.log]
  rw [Traced.content]
  split
  · simp_all
  · split
    · simp_all
    · rename_i heq
      obtain rfl := (Prod.mk.inj (htext.symm.trans heq)).2
      rw [Traced.events_bind_silent _ fun _ => rfl]

theorem log_children_none (h : deeperIndent? indent (skipBlankLines source) = none) :
    Production.log indent source .children = [] := by
  simp only [Production.log]
  rw [Traced.children]
  split
  · rfl
  · simp_all

theorem log_children_deeper
    (h : deeperIndent? indent (skipBlankLines source) = some (deeper, inner)) :
    Production.log indent source .children = Production.log deeper inner .block := by
  simp only [Production.log]
  rw [Traced.children]
  split
  · simp_all
  · rename_i heq
    obtain rfl := Option.some.inj (h.symm.trans heq)
    rw [Traced.events_bind_silent]
    intro found
    cases found <;> rfl

theorem log_ifThen {word : String} {condition : α}
    (hname : instructionName source = .ok (some (word, start)))
    (hline : instructionRest word start = .ok (.ifThen condition, inner))
    (hthen : children indent inner = .ok (nodes, after)) :
    Production.log indent source .instruction = ⟨.instruction word, start⟩ ::
      (Production.log indent inner .children ++ Production.log indent after .otherwise) := by
  simp only [Production.log]
  rw [Traced.instruction]
  split
  · simp_all
  · simp_all
  · rename_i heq
    obtain ⟨rfl, rfl⟩ := Prod.mk.inj (Option.some.inj (Except.ok.inj (hname.symm.trans heq)))
    rw [Traced.events_note]
    split
    · simp_all
    · rename_i heq
      obtain ⟨heq, rfl⟩ := Prod.mk.inj (Except.ok.inj (hline.symm.trans heq))
      obtain ⟨⟨found, hle⟩, hfound, heq⟩ := outcome_of_map hthen
      obtain rfl : found = (nodes, after) := heq
      rw [Traced.events_bind_ok hfound]
      simp only
      rw [Traced.events_bind_silent _ fun _ => rfl]
    · simp_all

theorem log_forEach {word variableName : String} {iterable : α}
    (hname : instructionName source = .ok (some (word, start)))
    (hline : instructionRest word start = .ok (.forEach variableName iterable, inner)) :
    Production.log indent source .instruction =
      ⟨.instruction word, start⟩ :: Production.log indent inner .children := by
  simp only [Production.log]
  rw [Traced.instruction]
  split
  · simp_all
  · simp_all
  · rename_i heq
    obtain ⟨rfl, rfl⟩ := Prod.mk.inj (Option.some.inj (Except.ok.inj (hname.symm.trans heq)))
    rw [Traced.events_note]
    split
    · simp_all
    · simp_all
    · rename_i heq
      obtain ⟨heq, rfl⟩ := Prod.mk.inj (Except.ok.inj (hline.symm.trans heq))
      rw [Traced.events_bind_silent _ fun _ => rfl]

theorem log_otherwise_none (h : elseMark? indent source = none) :
    Production.log indent source .otherwise = [] := by
  simp only [Production.log]
  rw [Traced.otherwise]
  split
  · rfl
  · simp_all

theorem log_otherwise (hmark : elseMark? indent source = some start)
    (hend : endOfLine .elseMark start = .ok inner) :
    Production.log indent source .otherwise = Production.log indent inner .children := by
  simp only [Production.log]
  rw [Traced.otherwise]
  split
  · simp_all
  · rename_i heq
    obtain rfl := Option.some.inj (hmark.symm.trans heq)
    split
    · simp_all
    · rename_i heq
      obtain rfl := Except.ok.inj (hend.symm.trans heq)
      rw [Traced.events_bind_silent _ fun _ => rfl]

theorem log_siblings_outside (h : literal? indent source = none) :
    Production.log indent source .siblings = [] := by
  simp only [Production.log]
  rw [Traced.siblings]
  split
  · rfl
  · simp_all

/-- At the end of the input an item is looked for, and none found. -/
theorem log_item_nil : Production.log indent ([] : Source α) .item = [⟨.item, []⟩] := by
  rw [log_item_instruction rfl rfl (element_nil indent),
    log_instruction_none (instruction_nil indent)]

theorem log_siblings_nil (h : literal? indent source = some []) :
    Production.log indent source .siblings = [⟨.item, []⟩] := by
  have hitem : Production.log indent ([] : Source α) .item = _ := log_item_nil
  simp only [Production.log] at hitem ⊢
  rw [Traced.siblings]
  split
  · simp_all
  · rename_i heq
    obtain rfl := Option.some.inj (h.symm.trans heq)
    obtain ⟨_ | found, hnone, heq⟩ := outcome_of_map (item_nil (α := α) indent)
    · rw [if_neg (by simp [charsWhile]), Traced.events_bind_ok hnone, hitem]
      rfl
    · contradiction

theorem log_block_nil : Production.log indent ([] : Source α) .block = [⟨.item, []⟩] := by
  have hitem : Production.log indent ([] : Source α) .item = _ := log_item_nil
  simp only [Production.log] at hitem ⊢
  rw [Traced.block]
  obtain ⟨_ | found, hnone, heq⟩ := outcome_of_map (item_nil (α := α) indent)
  · rw [Traced.events_bind_ok hnone, hitem]
    rfl
  · contradiction

theorem log_siblings (hindent : literal? indent source = some start)
    (hchars : charsWhile isBlank start = []) (h : item indent start = .ok (some (nodes, inner))) :
    Production.log indent source .siblings =
      Production.log indent start .item ++ Production.log indent inner .siblings := by
  simp only [Production.log]
  rw [Traced.siblings]
  split
  · simp_all
  · rename_i heq
    obtain rfl := Option.some.inj (hindent.symm.trans heq)
    obtain ⟨_ | ⟨found, hlt⟩, hfound, heq⟩ := outcome_of_map h
    · contradiction
    · obtain rfl : found = (nodes, inner) := Option.some.inj heq
      rw [if_neg (by simp [hchars]), Traced.events_bind_ok hfound]
      simp only
      rw [Traced.events_bind_silent _ fun _ => rfl]

theorem log_block (h : item indent source = .ok (some (nodes, inner))) :
    Production.log indent source .block =
      Production.log indent source .item ++ Production.log indent inner .siblings := by
  simp only [Production.log]
  rw [Traced.block]
  obtain ⟨_ | ⟨found, hlt⟩, hfound, heq⟩ := outcome_of_map h
  · contradiction
  · obtain rfl : found = (nodes, inner) := Option.some.inj heq
    rw [Traced.events_bind_ok hfound]
    simp only
    rw [Traced.events_bind_silent _ fun _ => rfl]

/-! ## Where events happen -/

/-- These events happened within the input. -/
def Within (source : Source α) (events : List (Event α)) : Prop :=
  ∀ event ∈ events, event.rest <:+ source

namespace Within

variable {events others : List (Event α)}

theorem nil : Within source [] := fun _ hevent => by contradiction

theorem cons {kind : Event.Kind} (hsuffix : rest <:+ source) (h : Within source events) :
    Within source (⟨kind, rest⟩ :: events) :=
  List.forall_mem_cons.mpr ⟨hsuffix, h⟩

theorem append (h : Within source events) (hothers : Within source others) :
    Within source (events ++ others) :=
  List.forall_mem_append.mpr ⟨h, hothers⟩

theorem of_suffix (h : Within inner events) (hsuffix : inner <:+ source) : Within source events :=
  fun event hevent => (h event hevent).trans hsuffix

end Within

/-- What a production records happened within its input. -/
theorem Reads.within {production : Production} (h : Reads production indent source nodes rest) :
    Within source (production.log indent source) := by
  induction h with
  | comment hcomment =>
    rw [log_item_comment hcomment]
    exact .cons List.suffix_rfl (.cons List.suffix_rfl .nil)
  | text hcomment htext =>
    rw [log_item_text hcomment htext]
    exact .cons List.suffix_rfl (.cons List.suffix_rfl .nil)
  | elementItem hcomment htext helement ih =>
    rw [log_item_element hcomment htext helement.gives]
    exact .cons List.suffix_rfl ih
  | instructionItem hcomment htext helement _ ih =>
    rw [log_item_instruction hcomment htext helement]
    exact .cons List.suffix_rfl ih
  | blankLine hcomment htext helement hinstruction =>
    rw [log_item_instruction hcomment htext helement, log_instruction_none hinstruction]
    exact .cons List.suffix_rfl .nil
  | element hnaming hopening _ ih =>
    obtain ⟨_, hheader, -⟩ := accounts_openingRest hopening
    have hstart := (accounts_naming hnaming).suffix
    rw [log_element hnaming hopening]
    exact .cons hstart (ih.of_suffix (hheader.suffix.trans hstart))
  | @expansion _ source _ _ _ hcolon _ ih =>
    have hinner := (accounts_skipOneBlank source).skip (accounts_expansion? hcolon)
    rw [log_content_expansion hcolon]
    exact ih.of_suffix hinner.suffix
  | lineText hcolon hline =>
    rw [log_content_lineText hcolon hline]
    exact .nil
  | @lower _ source _ _ _ hcolon hline _ ih =>
    have hinner := (accounts_skipOneBlank source).skip (accounts_lineText hline)
    rw [log_content_lower hcolon hline]
    exact ih.of_suffix hinner.suffix
  | childless hdeeper =>
    rw [log_children_none hdeeper]
    exact .nil
  | @deeper _ _ source _ _ _ hdeeper _ ih =>
    have hinner := (accounts_skipBlankLines source).skip (accounts_deeperIndent? hdeeper)
    rw [log_children_deeper hdeeper]
    exact ih.of_suffix hinner.suffix
  | @noBlock _ _ source _ hdeeper hblock =>
    obtain rfl := of_block_none hblock
    have hinner := (accounts_skipBlankLines source).skip (accounts_deeperIndent? hdeeper)
    rw [log_children_deeper hdeeper, log_block_nil]
    exact .cons hinner.suffix .nil
  | ifThen hname hline hthen _ ihthen ihelse =>
    have hstart := (accounts_instructionName hname).suffix
    have hinner := (accounts_instructionRest hline).suffix.trans hstart
    rw [log_ifThen hname hline hthen.gives]
    refine .cons hstart (.append (ihthen.of_suffix hinner) (ihelse.of_suffix ?_))
    exact hthen.accounts.suffix.trans hinner
  | forEach hname hline _ ih =>
    have hstart := (accounts_instructionName hname).suffix
    rw [log_forEach hname hline]
    exact .cons hstart (ih.of_suffix ((accounts_instructionRest hline).suffix.trans hstart))
  | noElse hmark =>
    rw [log_otherwise_none hmark]
    exact .nil
  | elseMark hmark hend _ ih =>
    have hinner := (accounts_elseMark? hmark).skip (accounts_endOfLine hend)
    rw [log_otherwise hmark hend]
    exact ih.of_suffix hinner.suffix
  | outside hindent =>
    rw [log_siblings_outside hindent]
    exact .nil
  | noItem hindent hitem =>
    obtain rfl := of_item_none hitem
    rw [log_siblings_nil hindent]
    exact .cons (accounts_literal? hindent).suffix .nil
  | sibling hindent hchars hitem _ ihitem ihmore =>
    have hstart := (accounts_literal? hindent).suffix
    rw [log_siblings hindent hchars hitem.gives]
    exact .append (ihitem.of_suffix hstart)
      (ihmore.of_suffix (hitem.accounts.suffix.trans hstart))
  | block hitem _ ihitem ihmore =>
    rw [log_block hitem.gives]
    exact .append ihitem (ihmore.of_suffix hitem.accounts.suffix)

end IndentMarkup.Parser

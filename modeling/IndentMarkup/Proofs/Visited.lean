import IndentMarkup.Proofs.ExchangedBlocks

/-! Items that are come upon. The log of a production names every item that is looked for, also
where the parsing fails later on; a path leads from the production to the item, past what has been
read before it. Along such a path a line can be exchanged for another one: the outcome is the same
if the block that begins on the line has the same outcome. -/
namespace IndentMarkup.Parser

open Text (isBlank)
open Source (ofChars)

variable {α : Type}

/-- An event is in a log if its parts are found there together. -/
theorem Event.mem_of_parts {events : List (Event α)} {kind : Event.Kind} {rest : Source α}
    (h : (kind, rest) ∈ events.map fun event => (event.kind, event.rest)) :
    ⟨kind, rest⟩ ∈ events := by
  obtain ⟨event, hmem, hparts⟩ := List.mem_map.mp h
  obtain ⟨rfl, rfl⟩ := Prod.mk.inj hparts
  exact hmem

/-! ## Paths -/

/-- A production looks for an item at a place. -/
inductive Visits : Production → Indent → Source α → Source α → Prop
  | here {indent : Indent} {source : Source α} : Visits .item indent source source
  | elementItem {indent : Indent} {source place : Source α} :
      comment? indent source = none → textItem? indent source = none →
        Visits .element indent source place → Visits .item indent source place
  | instructionItem {indent : Indent} {source place : Source α} :
      comment? indent source = none → textItem? indent source = none →
        element indent source = .ok none → Visits .instruction indent source place →
          Visits .item indent source place
  | element {indent : Indent} {source start inner place : Source α} {named : Naming α}
      {opening : Opening α} :
      naming source = .ok (some (named, start)) → openingRest named start = .ok (opening, inner) →
        Visits .content indent inner place → Visits .element indent source place
  | expansion {indent : Indent} {source inner place : Source α} :
      expansion? (skipOneBlank source) = some inner → Visits .element indent inner place →
        Visits .content indent source place
  | lower {indent : Indent} {source inner place : Source α} :
      expansion? (skipOneBlank source) = none →
        lineText indent (skipOneBlank source) = (none, inner) →
          Visits .children indent inner place → Visits .content indent source place
  | deeper {indent deeper : Indent} {source inner place : Source α} :
      deeperIndent? indent (skipBlankLines source) = some (deeper, inner) →
        Visits .block deeper inner place → Visits .children indent source place
  | thenBranch {indent : Indent} {source start inner place : Source α} {word : String}
      {condition : α} :
      instructionName source = .ok (some (word, start)) →
        instructionRest word start = .ok (.ifThen condition, inner) →
          Visits .children indent inner place → Visits .instruction indent source place
  | elseBranch {indent : Indent} {source start inner after place : Source α} {word : String}
      {condition : α} {nodes : List (Node α)} :
      instructionName source = .ok (some (word, start)) →
        instructionRest word start = .ok (.ifThen condition, inner) →
          Reads .children indent inner nodes after → Visits .otherwise indent after place →
            Visits .instruction indent source place
  | forEach {indent : Indent} {source start inner place : Source α} {word variableName : String}
      {iterable : α} :
      instructionName source = .ok (some (word, start)) →
        instructionRest word start = .ok (.forEach variableName iterable, inner) →
          Visits .children indent inner place → Visits .instruction indent source place
  | elseMark {indent : Indent} {source start inner place : Source α} :
      elseMark? indent source = some start → endOfLine .elseMark start = .ok inner →
        Visits .children indent inner place → Visits .otherwise indent source place
  | sibling {indent : Indent} {source start place : Source α} :
      literal? indent source = some start → charsWhile isBlank start = [] →
        Visits .item indent start place → Visits .siblings indent source place
  | siblings {indent : Indent} {source start inner place : Source α} {nodes : List (Node α)} :
      literal? indent source = some start → charsWhile isBlank start = [] →
        Reads .item indent start nodes inner → Visits .siblings indent inner place →
          Visits .siblings indent source place
  | first {indent : Indent} {source place : Source α} :
      Visits .item indent source place → Visits .block indent source place
  | later {indent : Indent} {source inner place : Source α} {nodes : List (Node α)} :
      Reads .item indent source nodes inner → Visits .siblings indent inner place →
        Visits .block indent source place

/-- What is looked for stands within the input. -/
theorem Visits.suffix {production : Production} {indent : Indent} {source place : Source α}
    (h : Visits production indent source place) : place <:+ source := by
  induction h with
  | here => exact List.suffix_rfl
  | elementItem _ _ _ ih | instructionItem _ _ _ _ ih | first _ ih => exact ih
  | element hnaming hopening _ ih =>
    obtain ⟨_, hheader, -⟩ := accounts_openingRest hopening
    exact ih.trans (hheader.suffix.trans (accounts_naming hnaming).suffix)
  | expansion hcolon _ ih =>
    exact ih.trans ((accounts_skipOneBlank _).skip (accounts_expansion? hcolon)).suffix
  | lower _ hline _ ih =>
    exact ih.trans ((accounts_skipOneBlank _).skip (accounts_lineText hline)).suffix
  | deeper hdeeper _ ih =>
    exact ih.trans ((accounts_skipBlankLines _).skip (accounts_deeperIndent? hdeeper)).suffix
  | thenBranch hname hline _ ih | forEach hname hline _ ih =>
    exact ih.trans ((accounts_instructionRest hline).suffix.trans
      (accounts_instructionName hname).suffix)
  | elseBranch hname hline hthen _ ih =>
    exact ih.trans (hthen.accounts.suffix.trans ((accounts_instructionRest hline).suffix.trans
      (accounts_instructionName hname).suffix))
  | elseMark hmark hend _ ih =>
    exact ih.trans ((accounts_elseMark? hmark).skip (accounts_endOfLine hend)).suffix
  | sibling hindent _ _ ih => exact ih.trans (accounts_literal? hindent).suffix
  | siblings hindent _ hitem _ ih =>
    exact ih.trans (hitem.accounts.suffix.trans (accounts_literal? hindent).suffix)
  | later hitem _ ih => exact ih.trans hitem.accounts.suffix

/-! ## The log names what is looked for -/

namespace Traced

variable {β γ : Type}

/-- An event of two computations in turn belongs to one of them. -/
theorem of_mem_events_bind {first : Traced α β} {next : β → Traced α γ} {event : Event α}
    (h : event ∈ (first >>= next).events) :
    event ∈ first.events ∨ ∃ value, first.outcome = .ok value ∧ event ∈ (next value).events := by
  cases hfirst : first.outcome with
  | error failure =>
    refine .inl (?_ : event ∈ first.events)
    change event ∈ (Traced.bind first next).events at h
    rw [Traced.bind, hfirst] at h
    exact h
  | ok value =>
    rw [events_bind_ok hfirst, List.mem_append] at h
    exact h.imp_right fun h => ⟨value, rfl, h⟩

/-- Where the second computation records nothing, the event belongs to the first. -/
theorem of_mem_events_bind_silent {first : Traced α β} {next : β → Traced α γ} {event : Event α}
    (h : event ∈ (first >>= next).events) (hnext : ∀ value, (next value).events = []) :
    event ∈ first.events := by
  rwa [events_bind_silent first hnext] at h

/-- A note of another kind is not the event in question. -/
theorem of_mem_events_note {kind other : Event.Kind} {rest place : Source α}
    {next : Unit → Traced α γ} (hkind : kind ≠ other)
    (h : (⟨kind, place⟩ : Event α) ∈ (note other rest >>= next).events) :
    ⟨kind, place⟩ ∈ (next ()).events := by
  rw [events_note, List.mem_cons] at h
  exact h.resolve_left fun heq => hkind (Event.mk.inj heq).1

end Traced

open Traced

mutual

theorem visits_item {indent : Indent} {source place : Source α}
    (h : ⟨.item, place⟩ ∈ (Traced.item indent source).events) :
    Visits .item indent source place := by
  rw [Traced.item, events_note, List.mem_cons] at h
  rcases h with heq | h
  · obtain rfl := (Event.mk.inj heq).2
    exact .here
  · split at h
    · contradiction
    · rename_i hcomment
      split at h
      · contradiction
      · rename_i htext
        rcases of_mem_events_bind h with h | ⟨found, helement, h⟩
        · exact .elementItem hcomment htext (visits_element h)
        · cases found with
          | some found => contradiction
          | none =>
            have h := of_mem_events_bind_silent h fun found => by
              cases found with
              | some found => rfl
              | none =>
                dsimp only
                split
                · rfl
                · split <;> rfl
            have helement : element indent source = .ok none := congrArg (Except.map _) helement
            exact .instructionItem hcomment htext helement (visits_instruction h)
termination_by 4 * source.length + 1

theorem visits_element {indent : Indent} {source place : Source α}
    (h : ⟨.item, place⟩ ∈ (Traced.element indent source).events) :
    Visits .element indent source place := by
  rw [Traced.element] at h
  split at h
  · contradiction
  · contradiction
  · rename_i hnaming
    have h := of_mem_events_note (by decide) h
    split at h
    · contradiction
    · rename_i hopening
      have hshorter := length_of_naming hnaming
      have hinner := length_of_openingRest hopening
      exact .element hnaming hopening (visits_content (of_mem_events_bind_silent h fun _ => rfl))
termination_by 4 * source.length

theorem visits_content {indent : Indent} {source place : Source α}
    (h : ⟨.item, place⟩ ∈ (Traced.content indent source).events) :
    Visits .content indent source place := by
  have hblank := length_skipOneBlank_le source
  rw [Traced.content] at h
  split at h
  · rename_i inner hcolon
    have hinner := length_of_expansion? hcolon
    have h := of_mem_events_bind_silent h fun found => by cases found <;> rfl
    exact .expansion hcolon (visits_element h)
  · rename_i hcolon
    have hlength := length_lineText_le indent (skipOneBlank source)
    split at h
    · contradiction
    · rename_i inner hline
      have hinner : inner.length ≤ (skipOneBlank source).length := by
        rw [hline] at hlength
        exact hlength
      exact .lower hcolon hline (visits_children (of_mem_events_bind_silent h fun _ => rfl))
termination_by 4 * source.length + 1

theorem visits_children {indent : Indent} {source place : Source α}
    (h : ⟨.item, place⟩ ∈ (Traced.children indent source).events) :
    Visits .children indent source place := by
  have hblank := length_skipBlankLines_le source
  rw [Traced.children] at h
  split at h
  · contradiction
  · rename_i start hdeeper
    have hstart := length_of_deeperIndent? hdeeper
    have h := of_mem_events_bind_silent h fun found => by cases found <;> rfl
    exact .deeper hdeeper (visits_block h)
termination_by 4 * source.length

theorem visits_instruction {indent : Indent} {source place : Source α}
    (h : ⟨.item, place⟩ ∈ (Traced.instruction indent source).events) :
    Visits .instruction indent source place := by
  rw [Traced.instruction] at h
  split at h
  · contradiction
  · contradiction
  · rename_i word start hname
    have hshorter := length_of_instructionName hname
    have h := of_mem_events_note (by simp) h
    split at h
    · contradiction
    · rename_i condition inner hline
      have hinner := length_of_instructionRest hline
      rcases of_mem_events_bind h with h | ⟨⟨⟨nodes, after⟩, hafter⟩, hthen, h⟩
      · exact .thenBranch hname hline (visits_children h)
      · have hthen : children indent inner = .ok (nodes, after) := congrArg (Except.map _) hthen
        have h := of_mem_events_bind_silent h fun _ => rfl
        have hafter : after.length ≤ inner.length := hafter
        exact .elseBranch hname hline (reads_children hthen) (visits_otherwise h)
    · rename_i hline
      have hinner := length_of_instructionRest hline
      exact .forEach hname hline (visits_children (of_mem_events_bind_silent h fun _ => rfl))
termination_by 4 * source.length

theorem visits_otherwise {indent : Indent} {source place : Source α}
    (h : ⟨.item, place⟩ ∈ (Traced.otherwise indent source).events) :
    Visits .otherwise indent source place := by
  rw [Traced.otherwise] at h
  split at h
  · contradiction
  · rename_i start hmark
    split at h
    · contradiction
    · rename_i inner hend
      have hstart := length_of_elseMark? hmark
      have hinner := length_of_endOfLine hend
      exact .elseMark hmark hend (visits_children (of_mem_events_bind_silent h fun _ => rfl))
termination_by 4 * source.length + 1

theorem visits_siblings {indent : Indent} {source place : Source α}
    (h : ⟨.item, place⟩ ∈ (Traced.siblings indent source).events) :
    Visits .siblings indent source place := by
  rw [Traced.siblings] at h
  split at h
  · contradiction
  · rename_i start hindent
    have hstart := length_of_literal? hindent
    split at h
    · contradiction
    · rename_i hchars
      have hchars : charsWhile isBlank start = [] := by simpa using hchars
      rcases of_mem_events_bind h with h | ⟨found, hitem, h⟩
      · exact .sibling hindent hchars (visits_item h)
      · cases found with
        | none => contradiction
        | some found =>
          obtain ⟨⟨nodes, inner⟩, hinner⟩ := found
          have hitem : item indent start = .ok (some (nodes, inner)) :=
            congrArg (Except.map _) hitem
          have h := of_mem_events_bind_silent h fun _ => rfl
          have hinner : inner.length < start.length := hinner
          exact .siblings hindent hchars (reads_item hitem) (visits_siblings h)
termination_by 4 * source.length + 2

theorem visits_block {indent : Indent} {source place : Source α}
    (h : ⟨.item, place⟩ ∈ (Traced.block indent source).events) :
    Visits .block indent source place := by
  rw [Traced.block] at h
  rcases of_mem_events_bind h with h | ⟨found, hitem, h⟩
  · exact .first (visits_item h)
  · cases found with
    | none => contradiction
    | some found =>
      obtain ⟨⟨nodes, inner⟩, hinner⟩ := found
      have hitem : item indent source = .ok (some (nodes, inner)) := congrArg (Except.map _) hitem
      have h := of_mem_events_bind_silent h fun _ => rfl
      have hinner : inner.length < source.length := hinner
      exact .later (reads_item hitem) (visits_siblings h)
termination_by 4 * source.length + 2

end

/-! ## Exchanging a line -/

/-- A production has the same outcome for two inputs. -/
def Production.Alike (indent : Indent) (source other : Source α) : Production → Prop
  | .item => Parser.item indent source = Parser.item indent other
  | .element => Parser.element indent source = Parser.element indent other
  | .content => Parser.content indent source = Parser.content indent other
  | .children => Parser.children indent source = Parser.children indent other
  | .instruction => Parser.instruction indent source = Parser.instruction indent other
  | .otherwise => Parser.otherwise indent source = Parser.otherwise indent other
  | .siblings => Parser.siblings indent source = Parser.siblings indent other
  | .block => Parser.block indent source = Parser.block indent other

/-- An element in which an item is looked for is named. -/
theorem Visits.element_ne_none {indent : Indent} {source place : Source α}
    (h : Visits .element indent source place) : Parser.element indent source ≠ .ok none := by
  intro hnone
  cases h with
  | element hnaming _ _ =>
    have heq := hnaming.symm.trans (of_element_none hnone)
    exact absurd (Except.ok.inj heq) (Option.some_ne_none _)

/-- A control flow line behind which an item is looked for has its word. -/
theorem Visits.instruction_ne_none {indent : Indent} {source place : Source α}
    (h : Visits .instruction indent source place) : instruction indent source ≠ .ok none := by
  intro hnone
  have hname := of_instruction_none hnone
  cases h with
  | thenBranch hword _ _ | elseBranch hword _ _ _ | forEach hword _ _ =>
    exact absurd (Except.ok.inj (hword.symm.trans hname)) (Option.some_ne_none _)

theorem item_of_instruction_ne {indent : Indent} {source : Source α}
    (hcomment : comment? indent source = none) (htext : textItem? indent source = none)
    (helement : element indent source = .ok none)
    (hne : instruction indent source ≠ .ok none) :
    item indent source = instruction indent source := by
  rw [item_eq, hcomment, htext]
  simp only [helement]
  cases hinstruction : instruction indent source with
  | error failure => rfl
  | ok found =>
    cases found with
    | none => exact absurd hinstruction hne
    | some found => rfl

/-! ## Results that are decided by the first item -/

/-- Where there is input, the block alone decides what is below a line. -/
theorem children_of_block {indent deeper : Indent} {source source' rest rest' : Source α}
    (hdeeper : deeperIndent? indent (skipBlankLines source) = some (deeper, rest))
    (hdeeper' : deeperIndent? indent (skipBlankLines source') = some (deeper, rest'))
    (hne : rest' ≠ []) (hblock : block deeper rest = block deeper rest') :
    children indent source = children indent source' := by
  rw [children_eq, children_eq, hdeeper, hdeeper']
  simp only [hblock]
  cases hfound : block deeper rest' with
  | error failure => rfl
  | ok found =>
    cases found with
    | none => exact absurd (of_block_none hfound) hne
    | some found => rfl

/-- Where there is input, the item decides how a row of items goes on. -/
theorem siblings_of_item {indent : Indent} {source source' start start' : Source α}
    (hindent : literal? indent source = some start)
    (hindent' : literal? indent source' = some start')
    (hchars : charsWhile isBlank start = []) (hchars' : charsWhile isBlank start' = [])
    (hne : start' ≠ []) (hitem : item indent start = item indent start') :
    siblings indent source = siblings indent source' := by
  rw [siblings_eq, siblings_eq, hindent, hindent']
  simp only [hchars, hchars', hitem]
  cases hfound : item indent start' with
  | error failure => rfl
  | ok found =>
    cases found with
    | none => exact absurd (of_item_none hfound) hne
    | some found => rfl

/-- Where there is input, the block decides the document. -/
theorem document_of_block {source source' : Source α}
    (hbase : baseIndent source = baseIndent source') (hne : firstItem source' ≠ [])
    (hblock : block (baseIndent source) (firstItem source) =
      block (baseIndent source) (firstItem source')) :
    document source = document source' := by
  rw [document_eq, document_eq, hblock, hbase]
  cases hfound : block (baseIndent source') (firstItem source') with
  | error failure => rfl
  | ok found =>
    cases found with
    | none => exact absurd (of_block_none hfound) hne
    | some found => rfl

/-- A row of items that begins with a line is the block from its item on. -/
theorem siblings_line {blanks : Blanks} {place line : Source α}
    (h : ItemLine blanks place line) :
    (siblings blanks.chars line).map some = block blanks.chars place := by
  have hindent : literal? blanks.chars line = some place := by
    rw [h.eq]
    exact literal?_append _ _
  rw [siblings_eq, hindent, block_eq]
  simp only [charsWhile_of_stops h.begins.stops, List.isEmpty_nil, Bool.not_true,
    Bool.false_eq_true, if_false]
  cases hitem : item blanks.chars place with
  | error failure => rfl
  | ok found =>
    cases found with
    | none => exact absurd (of_item_none hitem) h.begins.ne_nil
    | some found =>
      simp only [bind, Except.bind]
      cases siblings blanks.chars found.2 <;> rfl

variable {blanks : Blanks} {place line place' line' : Source α}

theorem siblings_exchange (hlines : Exchange blanks place line place' line')
    (hblock : block blanks.chars place = block blanks.chars place') :
    siblings blanks.chars line = siblings blanks.chars line' := by
  have hsame : (siblings blanks.chars line).map some = (siblings blanks.chars line').map some := by
    rw [siblings_line hlines.before, siblings_line hlines.after, hblock]
  cases hbefore : siblings blanks.chars line with
  | error failure =>
    cases hafter : siblings blanks.chars line' with
    | error other => simpa [hbefore, hafter, Except.map] using hsame
    | ok found => simp [hbefore, hafter, Except.map] at hsame
  | ok found =>
    cases hafter : siblings blanks.chars line' with
    | error other => simp [hbefore, hafter, Except.map] at hsame
    | ok other => simpa [hbefore, hafter, Except.map] using hsame

theorem Visits.alike (hlines : Exchange blanks place line place' line')
    (hblock : block blanks.chars place = block blanks.chars place')
    {production : Production} {indent : Indent} {whole target : Source α}
    (h : Visits production indent whole target) (htarget : target = place)
    (hblank : ∀ c ∈ indent, isBlank c = true)
    {source : Source α} (hwhole : whole = source ++ line) (hfront : Front source production) :
    production.Alike indent whole (source ++ line') := by
  induction h generalizing source with simp only [Production.Alike] at *
  | here =>
    have hlonger := hlines.before.suffix.length_le
    have hsource := List.length_pos_iff.mpr (EndsLine.ne_nil hfront)
    have hlength := congrArg List.length (htarget.symm.trans hwhole)
    rw [List.length_append] at hlength
    omega
  | elementItem hcomment htext helement ih =>
    subst hwhole
    have hsame := ih htarget hblank rfl hfront
    rw [item_of_element_ne hcomment htext helement.element_ne_none, hsame,
      item_of_element_ne (comment?_none_front hfront hcomment _)
        (textItem?_none_front hfront htext _) (hsame ▸ helement.element_ne_none)]
  | instructionItem hcomment htext helement hinstruction ih =>
    subst hwhole
    have hsame := ih htarget hblank rfl hfront
    have hnaming := naming_none_front hfront (of_element_none helement) line'
    rw [item_of_instruction_ne hcomment htext helement hinstruction.instruction_ne_none, hsame,
      item_of_instruction_ne (comment?_none_front hfront hcomment _)
        (textItem?_none_front hfront htext _) (element_of_naming hnaming)
        (hsame ▸ hinstruction.instruction_ne_none)]
  | element hnaming hopening hinner ih =>
    subst hwhole
    obtain ⟨_, inner, hends, rfl, hnaming', hopening'⟩ :=
      hlines.header hfront hnaming hopening (htarget ▸ hinner.suffix)
    rw [element_eq, element_eq, hnaming, hnaming']
    simp only [bind, Except.bind, hopening, hopening', ih htarget hblank rfl hends]
  | expansion hcolon helement ih =>
    subst hwhole
    obtain ⟨inner, hends, rfl, hcolon'⟩ := hlines.expansion hfront hcolon
    have hsame := ih htarget hblank rfl hends
    have hne := helement.element_ne_none
    rw [content_eq, content_eq]
    simp only [hcolon, hcolon', ← hsame]
    cases hfound : Parser.element _ (inner ++ line) with
    | error failure => rfl
    | ok found =>
      cases found with
      | none => exact absurd hfound hne
      | some found => rfl
  | @lower indent _ _ _ hcolon hline hinner ih =>
    subst hwhole
    obtain ⟨hcolon', _, inner, hlinesinner, hbefore, hline'⟩ := hlines.elementText
      ⟨indent, hblank⟩ hfront hcolon hline (htarget ▸ hinner.suffix)
    obtain ⟨rfl, rfl⟩ := Prod.mk.inj hbefore
    have hsame := ih htarget hblank rfl hlinesinner
    rw [content_eq, content_eq]
    simp only [hcolon, hcolon', hline, hline', hsame]
  | @deeper indent _ _ _ _ hdeeper hinner ih =>
    subst hwhole
    rcases hlines.deeperLine ⟨indent, hblank⟩ hfront hdeeper with
      ⟨rfl, rfl, hdeeper'⟩ | ⟨inner, hends, rfl, hdeeper'⟩
    · exact children_of_block hdeeper hdeeper' hlines.after.begins.ne_nil hblock
    · exact children_of_block hdeeper hdeeper'
        (List.append_ne_nil_of_left_ne_nil hends.ne_nil _)
        (ih htarget (blank_of_deeper hblank hdeeper) rfl hends)
  | thenBranch hname hline _ ih =>
    subst hwhole
    obtain ⟨_, inner, hinner, rfl, hname', hline'⟩ := hlines.instructionLine hfront hname hline
    rw [instruction_eq, instruction_eq, hname, hname']
    simp only [bind, Except.bind, hline, hline', ih htarget hblank rfl hinner]
  | elseBranch hname hline hthen helse ih =>
    subst hwhole
    obtain ⟨_, inner, hinner, rfl, hname', hline'⟩ := hlines.instructionLine hfront hname hline
    obtain ⟨after, hafter, rfl, hthen'⟩ :=
      hthen.exchange hlines hblank rfl hinner (htarget ▸ helse.suffix)
    have hthen : children _ _ = _ := hthen.gives
    have hthen' : children _ _ = _ := hthen'.gives
    rw [instruction_eq, instruction_eq, hname, hname']
    simp only [bind, Except.bind, hline, hline', hthen, hthen', ih htarget hblank rfl hafter]
  | forEach hname hline _ ih =>
    subst hwhole
    obtain ⟨_, inner, hinner, rfl, hname', hline'⟩ := hlines.instructionLine hfront hname hline
    rw [instruction_eq, instruction_eq, hname, hname']
    simp only [bind, Except.bind, hline, hline', ih htarget hblank rfl hinner]
  | @elseMark indent _ _ _ _ hmark hend _ ih =>
    subst hwhole
    obtain ⟨_, inner, hinner, rfl, hmark', hend'⟩ :=
      hlines.elseLine ⟨indent, hblank⟩ hfront hmark hend
    rw [otherwise_eq, otherwise_eq, hmark, hmark']
    simp only [bind, Except.bind, hend, hend', ih htarget hblank rfl hinner]
  | @sibling indent _ _ _ hindent hchars hitem ih =>
    subst hwhole
    rcases hlines.sibling ⟨indent, hblank⟩ hfront hindent hchars with
      ⟨rfl, rfl, rfl⟩ | ⟨start, hstart, rfl, hindent', hchars'⟩
    · exact siblings_exchange hlines hblock
    · exact siblings_of_item hindent hindent' hchars hchars'
        (List.append_ne_nil_of_left_ne_nil hstart.ne_nil _) (ih htarget hblank rfl hstart)
  | @siblings indent _ _ _ _ _ hindent hchars hitem hmore ih =>
    subst hwhole
    have hinner : place <:+ _ := htarget ▸ hmore.suffix
    rcases hlines.sibling ⟨indent, hblank⟩ hfront hindent hchars with
      ⟨-, -, rfl⟩ | ⟨start, hstart, rfl, hindent', hchars'⟩
    · exact absurd (length_of_item hitem.gives) (Nat.not_lt.mpr hinner.length_le)
    · obtain ⟨inner, hends, rfl, hitem'⟩ := hitem.exchange hlines hblank rfl hstart hinner
      have hitem : item _ _ = _ := hitem.gives
      have hitem' : item _ _ = _ := hitem'.gives
      rw [siblings_eq, siblings_eq, hindent, hindent']
      simp only [hchars, hchars', List.isEmpty_nil, Bool.not_true, Bool.false_eq_true, if_false,
        hitem, hitem', bind, Except.bind, ih htarget hblank rfl hends]
  | first hitem ih =>
    subst hwhole
    rw [block_eq, block_eq, ih htarget hblank rfl hfront]
  | later hitem hmore ih =>
    subst hwhole
    obtain ⟨inner, hinner, rfl, hitem'⟩ :=
      hitem.exchange hlines hblank rfl hfront (htarget ▸ hmore.suffix)
    have hitem : item _ _ = _ := hitem.gives
    have hitem' : item _ _ = _ := hitem'.gives
    rw [block_eq, block_eq, hitem, hitem']
    simp only [bind, Except.bind, ih htarget hblank rfl hinner]

/-- A document does not change if the block that begins on one of its lines does not. -/
theorem document_exchange (hlines : Exchange blanks place line place' line')
    (hblock : block blanks.chars place = block blanks.chars place') {source : Source α}
    (hsource : Lines source) (hvisited : ⟨.item, place⟩ ∈ (Traced.document (source ++ line)).events) :
    document (source ++ line) = document (source ++ line') := by
  have hskipped := (skipBlankLines_front hlines.before hsource).2
  rw [log_document] at hvisited
  rcases hskipped with hnil | hends
  · have hbegin : ∀ {place line : Source α}, ItemLine blanks place line →
        baseIndent (source ++ line) = blanks.chars ∧ firstItem (source ++ line) = place := by
      intro place line hline
      rw [baseIndent, firstItem, (skipBlankLines_front hline hsource).1, hnil, List.nil_append,
        hline.eq]
      exact ⟨charsWhile_append blanks.blank hline.begins.stops,
        afterWhile_append blanks.blank hline.begins.stops⟩
    obtain ⟨hbase, hfirst⟩ := hbegin hlines.before
    obtain ⟨hbase', hfirst'⟩ := hbegin hlines.after
    refine document_of_block (hbase.trans hbase'.symm) (hfirst' ▸ hlines.after.begins.ne_nil) ?_
    rw [hbase, hfirst, hfirst', hblock]
  · have hstart : EndsLine (firstItem source) := hends.afterWhile rfl
    have hbegin : ∀ {place line : Source α}, ItemLine blanks place line →
        baseIndent (source ++ line) = baseIndent source ∧
          firstItem (source ++ line) = firstItem source ++ line := by
      intro place line hline
      have hheld : Held isBlank (afterWhile isBlank (skipBlankLines source)) line :=
        .inl hstart.ne_nil
      rw [baseIndent, firstItem, (skipBlankLines_front hline hsource).1]
      exact ⟨charsWhile_prolong line hheld, afterWhile_prolong line hheld⟩
    obtain ⟨hbase, hfirst⟩ := hbegin hlines.before
    obtain ⟨hbase', hfirst'⟩ := hbegin hlines.after
    have hne : firstItem (source ++ line') ≠ [] := by
      rw [hfirst']
      exact List.append_ne_nil_of_left_ne_nil hstart.ne_nil _
    have hblank : ∀ c ∈ baseIndent source, isBlank c = true := fun c hc => of_mem_charsWhile hc
    rw [hbase, hfirst] at hvisited
    refine document_of_block (hbase.trans hbase'.symm) hne ?_
    rw [hbase, hfirst, hfirst']
    exact (visits_block hvisited).alike hlines hblock rfl hblank rfl hstart

end IndentMarkup.Parser

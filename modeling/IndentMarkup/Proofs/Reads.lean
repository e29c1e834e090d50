import IndentMarkup.Parser

/-! Derivations. `Reads` says how a production comes to its nodes: by which alternative, over which
inputs, and with which parts read by other productions. Whatever a production returns has such a
derivation, so a property of everything the parser accepts is proved by one case for each
alternative. Conversely, what has a derivation is what the production returns. -/
namespace IndentMarkup.Parser

open Text (isBlank)

variable {α : Type}

inductive Production where
  | item
  | element
  | content
  | children
  | instruction
  | otherwise
  | siblings
  | block
  deriving DecidableEq, Repr

/-- A production reads nodes from the front of an input and leaves a rest. -/
inductive Reads : Production → Indent → Source α → List (Node α) → Source α → Prop
  | comment {indent : Indent} {source rest : Source α} :
      comment? indent source = some rest → Reads .item indent source [] rest
  | text {indent : Indent} {source rest : Source α} {nodes : List (Node α)} :
      comment? indent source = none → textItem? indent source = some (nodes, rest) →
        Reads .item indent source nodes rest
  | elementItem {indent : Indent} {source rest : Source α} {nodes : List (Node α)} :
      comment? indent source = none → textItem? indent source = none →
        Reads .element indent source nodes rest → Reads .item indent source nodes rest
  | instructionItem {indent : Indent} {source rest : Source α} {nodes : List (Node α)} :
      comment? indent source = none → textItem? indent source = none →
        Parser.element indent source = .ok none → Reads .instruction indent source nodes rest →
          Reads .item indent source nodes rest
  | blankLine {indent : Indent} {source rest : Source α} {lineEnd : LineEnd} :
      comment? indent source = none → textItem? indent source = none →
        Parser.element indent source = .ok none → Parser.instruction indent source = .ok none →
          blankLine? source = some (lineEnd, rest) → Reads .item indent source [] rest
  | element {indent : Indent} {source start inner rest : Source α} {named : Naming α}
      {opening : Opening α} {nodes : List (Node α)} :
      naming source = .ok (some (named, start)) → openingRest named start = .ok (opening, inner) →
        Reads .content indent inner nodes rest →
          Reads .element indent source (opening.nodes nodes) rest
  | expansion {indent : Indent} {source inner rest : Source α} {nodes : List (Node α)} :
      expansion? (skipOneBlank source) = some inner → Reads .element indent inner nodes rest →
        Reads .content indent source nodes rest
  | lineText {indent : Indent} {source rest : Source α} {nodes : List (Node α)} :
      expansion? (skipOneBlank source) = none →
        Parser.lineText indent (skipOneBlank source) = (some nodes, rest) →
          Reads .content indent source nodes rest
  | lower {indent : Indent} {source inner rest : Source α} {nodes : List (Node α)} :
      expansion? (skipOneBlank source) = none →
        Parser.lineText indent (skipOneBlank source) = (none, inner) →
          Reads .children indent inner nodes rest → Reads .content indent source nodes rest
  | childless {indent : Indent} {source : Source α} :
      deeperIndent? indent (skipBlankLines source) = none →
        Reads .children indent source [] (skipBlankLines source)
  | deeper {indent deeper : Indent} {source inner rest : Source α} {nodes : List (Node α)} :
      deeperIndent? indent (skipBlankLines source) = some (deeper, inner) →
        Reads .block deeper inner nodes rest → Reads .children indent source nodes rest
  | noBlock {indent deeper : Indent} {source inner : Source α} :
      deeperIndent? indent (skipBlankLines source) = some (deeper, inner) →
        Parser.block deeper inner = .ok none → Reads .children indent source [] inner
  | ifThen {indent : Indent} {source start inner after rest : Source α} {word : String}
      {condition : α} {thenBranch elseBranch : List (Node α)} :
      instructionName source = .ok (some (word, start)) →
        instructionRest word start = .ok (.ifThen condition, inner) →
          Reads .children indent inner thenBranch after →
            Reads .otherwise indent after elseBranch rest →
              Reads .instruction indent source [.ifBlock condition thenBranch elseBranch] rest
  | forEach {indent : Indent} {source start inner rest : Source α} {word variableName : String}
      {iterable : α} {body : List (Node α)} :
      instructionName source = .ok (some (word, start)) →
        instructionRest word start = .ok (.forEach variableName iterable, inner) →
          Reads .children indent inner body rest →
            Reads .instruction indent source [.forBlock variableName iterable body] rest
  | noElse {indent : Indent} {source : Source α} :
      elseMark? indent source = none → Reads .otherwise indent source [] source
  | elseMark {indent : Indent} {source start inner rest : Source α} {nodes : List (Node α)} :
      elseMark? indent source = some start → endOfLine .elseMark start = .ok inner →
        Reads .children indent inner nodes rest → Reads .otherwise indent source nodes rest
  | outside {indent : Indent} {source : Source α} :
      literal? indent source = none → Reads .siblings indent source [] source
  | noItem {indent : Indent} {source start : Source α} :
      literal? indent source = some start → Parser.item indent start = .ok none →
        Reads .siblings indent source [] source
  | sibling {indent : Indent} {source start inner rest : Source α} {nodes more : List (Node α)} :
      literal? indent source = some start → charsWhile isBlank start = [] →
        Reads .item indent start nodes inner → Reads .siblings indent inner more rest →
          Reads .siblings indent source (nodes ++ more) rest
  | block {indent : Indent} {source inner rest : Source α} {nodes more : List (Node α)} :
      Reads .item indent source nodes inner → Reads .siblings indent inner more rest →
        Reads .block indent source (nodes ++ more) rest

/-! ## Whatever is read has a derivation -/

mutual

theorem reads_item {indent : Indent} {source rest : Source α} {nodes : List (Node α)}
    (h : item indent source = .ok (some (nodes, rest))) : Reads .item indent source nodes rest := by
  rw [item_eq] at h
  split at h
  · rename_i after hcomment
    obtain ⟨rfl, rfl⟩ := Prod.mk.inj (Option.some.inj (Except.ok.inj h))
    exact .comment hcomment
  · rename_i hcomment
    split at h
    · rename_i found htext
      obtain rfl := Option.some.inj (Except.ok.inj h)
      exact .text hcomment htext
    · rename_i htext
      obtain ⟨found, helement, h⟩ := of_bind_ok h
      cases found with
      | some found =>
        obtain rfl := Option.some.inj (Except.ok.inj h)
        exact .elementItem hcomment htext (reads_element helement)
      | none =>
        obtain ⟨found, hinstruction, h⟩ := of_bind_ok h
        cases found with
        | some found =>
          obtain rfl := Option.some.inj (Except.ok.inj h)
          exact .instructionItem hcomment htext helement (reads_instruction hinstruction)
        | none =>
          simp only at h
          split at h
          · rename_i lineEnd after hblank
            obtain ⟨rfl, rfl⟩ := Prod.mk.inj (Option.some.inj (Except.ok.inj h))
            exact .blankLine hcomment htext helement hinstruction hblank
          · split at h
            · exact absurd h (pure_none_ne _)
            · contradiction
termination_by 4 * source.length + 1

theorem reads_element {indent : Indent} {source rest : Source α} {nodes : List (Node α)}
    (h : element indent source = .ok (some (nodes, rest))) :
    Reads .element indent source nodes rest := by
  rw [element_eq] at h
  obtain ⟨found, hnaming, h⟩ := of_bind_ok h
  cases found with
  | none => exact absurd h (pure_none_ne _)
  | some found =>
    obtain ⟨named, start⟩ := found
    obtain ⟨⟨opening, inner⟩, hopening, h⟩ := of_bind_ok h
    obtain ⟨⟨children, after⟩, hcontent, h⟩ := of_bind_ok h
    obtain ⟨rfl, rfl⟩ := Prod.mk.inj (Option.some.inj (Except.ok.inj h))
    have hshorter := length_of_naming hnaming
    have hinner := length_of_openingRest hopening
    exact .element hnaming hopening (reads_content hcontent)
termination_by 4 * source.length

theorem reads_content {indent : Indent} {source rest : Source α} {nodes : List (Node α)}
    (h : content indent source = .ok (nodes, rest)) : Reads .content indent source nodes rest := by
  have hblank := length_skipOneBlank_le source
  rw [content_eq] at h
  simp only at h
  split at h
  · rename_i inner hcolon
    have hinner := length_of_expansion? hcolon
    obtain ⟨found, helement, h⟩ := of_bind_ok h
    cases found with
    | none => contradiction
    | some found =>
      obtain rfl := Except.ok.inj h
      exact .expansion hcolon (reads_element helement)
  · rename_i hcolon
    have hlength := length_lineText_le indent (skipOneBlank source)
    split at h
    · rename_i found after hline
      obtain ⟨rfl, rfl⟩ := Prod.mk.inj (Except.ok.inj h)
      exact .lineText hcolon hline
    · rename_i inner hline
      have hinner : inner.length ≤ (skipOneBlank source).length := by
        rw [hline] at hlength
        exact hlength
      exact .lower hcolon hline (reads_children h)
termination_by 4 * source.length + 1

theorem reads_children {indent : Indent} {source rest : Source α} {nodes : List (Node α)}
    (h : children indent source = .ok (nodes, rest)) : Reads .children indent source nodes rest := by
  have hblank := length_skipBlankLines_le source
  rw [children_eq] at h
  split at h
  · rename_i hdeeper
    obtain ⟨rfl, rfl⟩ := Prod.mk.inj (Except.ok.inj h)
    exact .childless hdeeper
  · rename_i deeper inner hdeeper
    have hinner := length_of_deeperIndent? hdeeper
    obtain ⟨found, hblock, h⟩ := of_bind_ok h
    cases found with
    | none =>
      obtain ⟨rfl, rfl⟩ := Prod.mk.inj (Except.ok.inj h)
      exact .noBlock hdeeper hblock
    | some found =>
      obtain rfl := Except.ok.inj h
      exact .deeper hdeeper (reads_block hblock)
termination_by 4 * source.length

theorem reads_instruction {indent : Indent} {source rest : Source α} {nodes : List (Node α)}
    (h : instruction indent source = .ok (some (nodes, rest))) :
    Reads .instruction indent source nodes rest := by
  rw [instruction_eq] at h
  obtain ⟨found, hname, h⟩ := of_bind_ok h
  cases found with
  | none => exact absurd h (pure_none_ne _)
  | some found =>
    obtain ⟨word, start⟩ := found
    obtain ⟨⟨found, inner⟩, hline, h⟩ := of_bind_ok h
    have hshorter := length_of_instructionName hname
    have hinner := length_of_instructionRest hline
    cases found with
    | ifThen condition =>
      obtain ⟨⟨thenBranch, after⟩, hthen, h⟩ := of_bind_ok h
      obtain ⟨⟨elseBranch, last⟩, helse, h⟩ := of_bind_ok h
      obtain ⟨rfl, rfl⟩ := Prod.mk.inj (Option.some.inj (Except.ok.inj h))
      have hafter := length_of_children hthen
      exact .ifThen hname hline (reads_children hthen) (reads_otherwise helse)
    | forEach variableName iterable =>
      obtain ⟨⟨body, last⟩, hbody, h⟩ := of_bind_ok h
      obtain ⟨rfl, rfl⟩ := Prod.mk.inj (Option.some.inj (Except.ok.inj h))
      exact .forEach hname hline (reads_children hbody)
termination_by 4 * source.length

theorem reads_otherwise {indent : Indent} {source rest : Source α} {nodes : List (Node α)}
    (h : otherwise indent source = .ok (nodes, rest)) :
    Reads .otherwise indent source nodes rest := by
  rw [otherwise_eq] at h
  split at h
  · rename_i hmark
    obtain ⟨rfl, rfl⟩ := Prod.mk.inj (Except.ok.inj h)
    exact .noElse hmark
  · rename_i start hmark
    obtain ⟨inner, hend, h⟩ := of_bind_ok h
    have hstart := length_of_elseMark? hmark
    have hinner := length_of_endOfLine hend
    exact .elseMark hmark hend (reads_children h)
termination_by 4 * source.length + 1

theorem reads_siblings {indent : Indent} {source rest : Source α} {nodes : List (Node α)}
    (h : siblings indent source = .ok (nodes, rest)) : Reads .siblings indent source nodes rest := by
  rw [siblings_eq] at h
  split at h
  · rename_i hindent
    obtain ⟨rfl, rfl⟩ := Prod.mk.inj (Except.ok.inj h)
    exact .outside hindent
  · rename_i start hindent
    have hstart := length_of_literal? hindent
    split at h
    · contradiction
    · rename_i hchars
      obtain ⟨found, hitem, h⟩ := of_bind_ok h
      cases found with
      | none =>
        obtain ⟨rfl, rfl⟩ := Prod.mk.inj (Except.ok.inj h)
        exact .noItem hindent hitem
      | some found =>
        obtain ⟨front, inner⟩ := found
        obtain ⟨⟨more, last⟩, hmore, h⟩ := of_bind_ok h
        obtain ⟨rfl, rfl⟩ := Prod.mk.inj (Except.ok.inj h)
        have hinner := length_of_item hitem
        exact .sibling hindent (by simpa using hchars) (reads_item hitem) (reads_siblings hmore)
termination_by 4 * source.length + 2

theorem reads_block {indent : Indent} {source rest : Source α} {nodes : List (Node α)}
    (h : block indent source = .ok (some (nodes, rest))) :
    Reads .block indent source nodes rest := by
  rw [block_eq] at h
  obtain ⟨found, hitem, h⟩ := of_bind_ok h
  cases found with
  | none => exact absurd h (pure_none_ne _)
  | some found =>
    obtain ⟨front, inner⟩ := found
    obtain ⟨⟨more, last⟩, hmore, h⟩ := of_bind_ok h
    obtain ⟨rfl, rfl⟩ := Prod.mk.inj (Option.some.inj (Except.ok.inj h))
    have hinner := length_of_item hitem
    exact .block (reads_item hitem) (reads_siblings hmore)
termination_by 4 * source.length + 2

end

/-! ## Whatever has a derivation is read -/

theorem element_of_naming {indent : Indent} {source : Source α} (h : naming source = .ok none) :
    element indent source = .ok none := by
  rw [element_eq, h]
  rfl

/-- Where there is no element, nothing names one. -/
theorem of_element_none {indent : Indent} {source : Source α}
    (h : element indent source = .ok none) : naming source = .ok none := by
  rw [element_eq] at h
  obtain ⟨found, hnaming, h⟩ := of_bind_ok h
  cases found with
  | none => exact hnaming
  | some found =>
    obtain ⟨_, -, h⟩ := of_bind_ok h
    obtain ⟨_, -, h⟩ := of_bind_ok h
    exact absurd (Except.ok.inj h) (Option.some_ne_none _)

/-- Wherever there is input there is an item, or an error. -/
theorem of_item_none {indent : Indent} {source : Source α}
    (h : item indent source = .ok none) : source = [] := by
  rw [item_eq] at h
  split at h
  · exact absurd (Except.ok.inj h) (Option.some_ne_none _)
  · split at h
    · exact absurd (Except.ok.inj h) (Option.some_ne_none _)
    · obtain ⟨found, -, h⟩ := of_bind_ok h
      cases found with
      | some => exact absurd (Except.ok.inj h) (Option.some_ne_none _)
      | none =>
        obtain ⟨found, -, h⟩ := of_bind_ok h
        cases found with
        | some => exact absurd (Except.ok.inj h) (Option.some_ne_none _)
        | none =>
          simp only at h
          split at h
          · exact absurd (Except.ok.inj h) (Option.some_ne_none _)
          · split at h
            · rename_i hempty
              exact List.isEmpty_iff.mp hempty
            · contradiction

theorem of_block_none {indent : Indent} {source : Source α}
    (h : block indent source = .ok none) : source = [] := by
  rw [block_eq] at h
  obtain ⟨found, hitem, h⟩ := of_bind_ok h
  cases found with
  | none => exact of_item_none hitem
  | some found =>
    obtain ⟨_, -, h⟩ := of_bind_ok h
    exact absurd (Except.ok.inj h) (Option.some_ne_none _)

def Production.Gives (indent : Indent) (source : Source α) (nodes : List (Node α))
    (rest : Source α) : Production → Prop
  | .item => Parser.item indent source = .ok (some (nodes, rest))
  | .element => Parser.element indent source = .ok (some (nodes, rest))
  | .content => Parser.content indent source = .ok (nodes, rest)
  | .children => Parser.children indent source = .ok (nodes, rest)
  | .instruction => Parser.instruction indent source = .ok (some (nodes, rest))
  | .otherwise => Parser.otherwise indent source = .ok (nodes, rest)
  | .siblings => Parser.siblings indent source = .ok (nodes, rest)
  | .block => Parser.block indent source = .ok (some (nodes, rest))

theorem Reads.gives {production : Production} {indent : Indent} {source rest : Source α}
    {nodes : List (Node α)} (h : Reads production indent source nodes rest) :
    production.Gives indent source nodes rest := by
  induction h with simp only [Production.Gives] at *
  | comment hcomment => rw [item_eq, hcomment]
  | text hcomment htext => rw [item_eq, hcomment, htext]
  | elementItem hcomment htext _ ih =>
    rw [item_eq, hcomment, htext, ih]
    rfl
  | instructionItem hcomment htext helement _ ih =>
    rw [item_eq, hcomment, htext, helement, ih]
    rfl
  | blankLine hcomment htext helement hinstruction hblank =>
    rw [item_eq, hcomment, htext, helement, hinstruction, hblank]
    rfl
  | element hnaming hopening _ ih =>
    rw [element_eq, hnaming]
    simp only [bind, Except.bind, hopening, ih]
    rfl
  | expansion hcolon _ ih =>
    rw [content_eq]
    simp only [hcolon, ih, bind, Except.bind]
    rfl
  | lineText hcolon hline =>
    rw [content_eq]
    simp only [hcolon, hline]
  | lower hcolon hline _ ih =>
    rw [content_eq]
    simp only [hcolon, hline, ih]
  | childless hdeeper => rw [children_eq, hdeeper]
  | deeper hdeeper _ ih =>
    rw [children_eq, hdeeper]
    simp only [ih, bind, Except.bind]
    rfl
  | noBlock hdeeper hblock =>
    rw [children_eq, hdeeper]
    simp only [hblock, bind, Except.bind]
    rfl
  | ifThen hname hline _ _ ihthen ihelse =>
    rw [instruction_eq, hname]
    simp only [hline, ihthen, ihelse, bind, Except.bind]
    rfl
  | forEach hname hline _ ih =>
    rw [instruction_eq, hname]
    simp only [hline, ih, bind, Except.bind]
    rfl
  | noElse hmark => rw [otherwise_eq, hmark]
  | elseMark hmark hend _ ih =>
    rw [otherwise_eq, hmark]
    simp only [hend, ih, bind, Except.bind]
  | outside hindent => rw [siblings_eq, hindent]
  | noItem hindent hitem =>
    obtain rfl := of_item_none hitem
    rw [siblings_eq, hindent]
    simp only [hitem, bind, Except.bind]
    rfl
  | sibling hindent hchars _ _ ihitem ihmore =>
    rw [siblings_eq, hindent]
    simp only [hchars, List.isEmpty_nil, Bool.not_true, Bool.false_eq_true, if_false, ihitem,
      ihmore, bind, Except.bind]
    rfl
  | block _ _ ihitem ihmore =>
    rw [block_eq, ihitem]
    simp only [ihmore, bind, Except.bind]
    rfl

end IndentMarkup.Parser

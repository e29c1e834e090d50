import IndentMarkup.Proofs.InsetLines

/-! Blocks behind a margin. No production leaves a blank line in front of what it leaves, so a
block goes on in front of a line that stands behind the margin, or ends with the input. One lemma
for each production then says that behind a margin it reads the same nodes or fails in the same way,
and the document of a source does not change. -/
namespace IndentMarkup

open Text (isBlank)
open Source (ofChars inset insetLines)

variable {α β : Type}

namespace Parser

open Source (insetLeft)

variable {f : α → β} {margin : Blanks} {indent : Indent} {source rest : Source α}

/-! ## No blank line is left -/

theorem notBlank_skipDeeperLines (indent : Indent) (source : Source α) :
    blankLine? (skipDeeperLines indent source) = none := by
  fun_induction skipDeeperLines indent source with
  | case1 _ _ _ _ ih => exact ih
  | case2 _ _ _ _ ih => exact ih
  | case3 source hdeeper hblank => exact hblank

theorem notBlank_comment? (h : comment? indent source = some rest) : blankLine? rest = none := by
  unfold comment? at h
  split at h
  · obtain rfl := Option.some.inj h
    exact notBlank_skipDeeperLines indent _
  · contradiction

theorem notBlank_continuedText (indent trimmed : Indent) (source : Source α) :
    blankLine? (continuedText indent trimmed source).2 = none := by
  fun_induction continuedText indent trimmed source with
  | case1 source after nodes last hmore _ hblank ih =>
    rw [hmore] at ih
    exact ih
  | case2 source after nodes last hmore _ hblank ih =>
    rw [hmore] at ih
    exact ih
  | case3 source hblank => exact hblank
  | case4 source hblank deeper rest hdeeper line nodes after hmore ih =>
    rw [hmore] at ih
    exact ih

theorem notBlank_nestedText? {nodes : List (Node α)}
    (h : nestedText? indent source = some (nodes, rest)) : blankLine? rest = none := by
  simp only [nestedText?, Option.bind_eq_bind, Option.bind_eq_some_iff, Option.pure_def,
    Option.some.injEq, Prod.mk.injEq, Prod.exists] at h
  obtain ⟨deeper, after, _, _, rfl⟩ := h
  exact notBlank_continuedText indent deeper _

theorem notBlank_textItem? {nodes : List (Node α)}
    (h : textItem? indent source = some (nodes, rest)) : blankLine? rest = none := by
  have hbody : ∀ start : Source α, blankLine? (textBody indent start).2 = none := by
    intro start
    unfold textBody
    simp only
    split
    · split
      · rename_i hnested
        exact notBlank_nestedText? hnested
      · exact blankLine?_skipBlankLines _
    · exact notBlank_continuedText indent _ _
  unfold textItem? at h
  split at h
  · rename_i marker start
    have hstart := hbody start
    split at h
    · split at h
      · rename_i hnodes
        obtain ⟨-, rfl⟩ := Prod.mk.inj (Option.some.inj h)
        rwa [hnodes] at hstart
      · rename_i hnodes
        obtain ⟨-, rfl⟩ := Prod.mk.inj (Option.some.inj h)
        rwa [hnodes] at hstart
    · contradiction
  · contradiction

theorem notBlank_lineText (indent : Indent) (source : Source α) :
    blankLine? (lineText indent source).2 = none := by
  unfold lineText
  simp only
  split
  · exact blankLine?_skipBlankLines _
  · split
    · rename_i hnested
      exact notBlank_nestedText? hnested
    · exact blankLine?_skipBlankLines _

/-- Behind its indent a line is not blank if it is not blank as a whole. -/
theorem notBlank_of_blanks {text : List Char} (htext : ∀ c ∈ text, isBlank c = true)
    (h : blankLine? (ofChars text ++ source) = none) : blankLine? source = none := by
  cases hblank : blankLine? source with
  | none => rfl
  | some found =>
    have hne := ne_nil_of_blankLine? hblank
    unfold blankLine? at h hblank
    rw [afterWhile_ofChars htext] at h
    cases hafter : afterWhile isBlank source with
    | nil =>
      rw [hafter] at h
      simp [hne] at h
    | cons symbol after =>
      rw [hafter] at h hblank
      cases symbol with
      | slot value => contradiction
      | char c =>
        by_cases hc : c = '\n'
        · subst hc
          contradiction
        · simp [hc] at hblank

theorem notBlank_deeper {deeper : Indent} (h : blankLine? source = none)
    (hindent : ∀ c ∈ indent, isBlank c = true)
    (hdeeper : deeperIndent? indent source = some (deeper, rest)) :
    (∀ c ∈ deeper, isBlank c = true) ∧ blankLine? rest = none := by
  obtain ⟨gap, rfl, rfl, -⟩ := of_deeperIndent? hdeeper
  have hblank : ∀ c ∈ indent ++ gap.chars, isBlank c = true := by
    intro c hc
    rcases List.mem_append.mp hc with hc | hc
    · exact hindent c hc
    · exact gap.blank c hc
  exact ⟨hblank, notBlank_of_blanks hblank h⟩

/-- What a production leaves does not begin with a blank line, if it has not begun with one itself
where it may read nothing. -/
theorem Reads.notBlank {production : Production} {nodes : List (Node α)}
    (h : Reads production indent source nodes rest) (hindent : ∀ c ∈ indent, isBlank c = true)
    (hopens : production ∈ [.item, .otherwise, .siblings, .block] → blankLine? source = none) :
    blankLine? rest = none := by
  induction h with
  | comment hcomment => exact notBlank_comment? hcomment
  | text _ htext => exact notBlank_textItem? htext
  | elementItem _ _ _ ih => exact ih hindent (by simp)
  | instructionItem _ _ _ _ ih => exact ih hindent (by simp)
  | blankLine _ _ _ _ hblank =>
    rw [hopens (by simp)] at hblank
    contradiction
  | element _ _ _ ih => exact ih hindent (by simp)
  | expansion _ _ ih => exact ih hindent (by simp)
  | @lineText _ source rest nodes _ hline =>
    show blankLine? (some nodes, rest).2 = none
    rw [← hline]
    exact notBlank_lineText _ (skipOneBlank source)
  | lower _ _ _ ih => exact ih hindent (by simp)
  | childless => exact blankLine?_skipBlankLines _
  | deeper hdeeper _ ih =>
    obtain ⟨hblank, hinner⟩ := notBlank_deeper (blankLine?_skipBlankLines _) hindent hdeeper
    exact ih hblank fun _ => hinner
  | noBlock _ hblock =>
    obtain rfl := of_block_none hblock
    rfl
  | ifThen _ _ _ _ ihthen ihelse => exact ihelse hindent fun _ => ihthen hindent (by simp)
  | forEach _ _ _ ih => exact ih hindent (by simp)
  | noElse => exact hopens (by simp)
  | elseMark _ _ _ ih => exact ih hindent (by simp)
  | outside => exact hopens (by simp)
  | noItem => exact hopens (by simp)
  | sibling hliteral _ _ _ ihitem ihmore =>
    rw [literal?_eq_some] at hliteral
    subst hliteral
    have hstart := notBlank_of_blanks hindent (hopens (by simp))
    exact ihmore hindent fun _ => ihitem hindent fun _ => hstart
  | block _ _ ihitem ihmore => exact ihmore hindent fun _ => ihitem hindent fun _ => hopens (by simp)

/-! ## Blocks -/

theorem insetLeft_nil : insetLeft f margin ([] : Source α) = [] := rfl

mutual

theorem item_inset {indent : Indent} {source : Source α}
    (heven : Even margin indent source) (hline : blankLine? source = none) :
    item (margin.chars ++ indent) (inset f margin source) =
      insetOutcome f margin (Option.map (insetFoundLeft f margin (Node.mapAll f)))
        (item indent source) := by
  rw [item_eq, item_eq, comment?_inset heven.noBreak]
  cases comment? indent source with
  | some rest => rfl
  | none =>
    simp only [Option.map_none, textItem?_inset heven]
    cases textItem? indent source with
    | some found => rfl
    | none =>
      simp only [Option.map_none]
      rw [element_inset heven]
      refine insetOutcome_bind fun found _ => ?_
      cases found with
      | some found => rfl
      | none =>
        simp only [Option.map_none]
        rw [instruction_inset heven]
        refine insetOutcome_bind fun found _ => ?_
        cases found with
        | some found => rfl
        | none =>
          -- a blank line here could leave a margin alone at the end of the input
          simp only [Option.map_none, blankLine?_inset, hline, Source.isEmpty_inset]
          cases source.isEmpty <;> rfl
termination_by 4 * source.length + 1

theorem element_inset {indent : Indent} {source : Source α}
    (heven : Even margin indent source) :
    element (margin.chars ++ indent) (inset f margin source) =
      insetOutcome f margin (Option.map (insetFoundLeft f margin (Node.mapAll f)))
        (element indent source) := by
  rw [element_eq, element_eq, naming_inset]
  refine insetOutcome_bind fun found hnaming => ?_
  cases found with
  | none => rfl
  | some found =>
    obtain ⟨named, rest⟩ := found
    have hrest := length_of_naming hnaming
    simp only [Option.map_some, insetFound, openingRest_inset]
    refine insetOutcome_bind fun found hopening => ?_
    obtain ⟨opening, inner⟩ := found
    have hinner := length_of_openingRest hopening
    obtain ⟨_, haccounts, -⟩ := accounts_openingRest hopening
    have hsuffix : inner <:+ source := haccounts.suffix.trans (accounts_naming hnaming).suffix
    simp only [insetFound]
    rw [content_inset (heven.suffix hsuffix)]
    refine insetOutcome_bind fun found _ => ?_
    simp only [insetFoundLeft, nodes_map]
    rfl
termination_by 4 * source.length

theorem content_inset {indent : Indent} {source : Source α}
    (heven : Even margin indent source) :
    content (margin.chars ++ indent) (inset f margin source) =
      insetOutcome f margin (insetFoundLeft f margin (Node.mapAll f)) (content indent source) := by
  have hblank := length_skipOneBlank_le source
  have hstart : Even margin indent (skipOneBlank source) :=
    heven.suffix (accounts_skipOneBlank source).suffix
  rw [content_eq, content_eq]
  simp only [skipOneBlank_inset, expansion?_inset]
  cases hcolon : expansion? (skipOneBlank source) with
  | some inner =>
    have hinner := length_of_expansion? hcolon
    simp only [Option.map_some]
    rw [element_inset (hstart.suffix (accounts_expansion? hcolon).suffix)]
    refine insetOutcome_bind fun found _ => ?_
    cases found <;> rfl
  | none =>
    have hlength := length_lineText_le indent (skipOneBlank source)
    simp only [Option.map_none, lineText_inset hstart]
    cases hline : lineText indent (skipOneBlank source) with
    | mk nodes rest =>
      cases nodes with
      | some nodes => rfl
      | none =>
        have hrest : rest.length ≤ (skipOneBlank source).length := by
          rw [hline] at hlength
          exact hlength
        exact children_indented (hstart.suffix (accounts_lineText hline).suffix)
          (indented_insetLeft rest)
termination_by 4 * source.length + 1

theorem children_indented {indent : Indent} {source : Source α} {source' : Source β}
    (heven : Even margin indent source)
    (h : Indented f margin source source') :
    children (margin.chars ++ indent) source' =
      insetOutcome f margin (insetFoundLeft f margin (Node.mapAll f)) (children indent source) := by
  have hblank := length_skipBlankLines_le source
  have hskipped : Even margin indent (skipBlankLines source) :=
    heven.suffix (accounts_skipBlankLines source).suffix
  rw [children_eq, children_eq, skipBlankLines_indented h,
    deeperIndent?_indented heven.noBreak (indented_insetLeft _)]
  cases hdeeper : deeperIndent? indent (skipBlankLines source) with
  | none => rfl
  | some found =>
    obtain ⟨deeper, inner⟩ := found
    have hinner := length_of_deeperIndent? hdeeper
    have hline := (notBlank_deeper (blankLine?_skipBlankLines _) heven.blank hdeeper).2
    simp only [Option.map_some, insetIndent]
    rw [block_inset (hskipped.deeper hdeeper) hline]
    refine insetOutcome_bind fun found hblock => ?_
    cases found with
    | some found => rfl
    | none =>
      obtain rfl := of_block_none hblock
      rfl
termination_by 4 * source.length

theorem instruction_inset {indent : Indent} {source : Source α}
    (heven : Even margin indent source) :
    instruction (margin.chars ++ indent) (inset f margin source) =
      insetOutcome f margin (Option.map (insetFoundLeft f margin (Node.mapAll f)))
        (instruction indent source) := by
  rw [instruction_eq, instruction_eq, instructionName_inset]
  refine insetOutcome_bind fun found hname => ?_
  cases found with
  | none => rfl
  | some found =>
    obtain ⟨word, rest⟩ := found
    have hrest := length_of_instructionName hname
    simp only [Option.map_some, insetFound, id]
    refine (instructionRest_inset word rest).bind fun found found' hline hfound => ?_
    obtain ⟨found, inner⟩ := found
    obtain ⟨found', inner'⟩ := found'
    obtain ⟨rfl, hindented⟩ := hfound
    have hinner := length_of_instructionRest hline
    have hevenInner : Even margin indent inner :=
      heven.suffix ((accounts_instructionRest hline).suffix.trans
        (accounts_instructionName hname).suffix)
    cases found with
    | ifThen condition =>
      simp only [Instruction.map]
      rw [children_indented hevenInner hindented]
      refine insetOutcome_bind fun found hthen => ?_
      obtain ⟨thenBranch, after⟩ := found
      have hafter := length_of_children hthen
      have hreads := reads_children hthen
      simp only [insetFoundLeft]
      rw [otherwise_insetLeft (hevenInner.suffix hreads.accounts.suffix)]
      refine insetOutcome_bind fun found _ => ?_
      rfl
    | forEach variableName iterable =>
      simp only [Instruction.map]
      rw [children_indented hevenInner hindented]
      refine insetOutcome_bind fun found _ => ?_
      rfl
termination_by 4 * source.length

theorem otherwise_insetLeft {indent : Indent} {source : Source α}
    (heven : Even margin indent source) :
    otherwise (margin.chars ++ indent) (insetLeft f margin source) =
      insetOutcome f margin (insetFoundLeft f margin (Node.mapAll f)) (otherwise indent source) := by
  rw [otherwise_eq, otherwise_eq, elseMark?_insetLeft heven.noBreak]
  cases hmark : elseMark? indent source with
  | none => rfl
  | some rest =>
    have hrest := length_of_elseMark? hmark
    simp only [Option.map_some]
    refine (endOfLine_inset .elseMark rest).bind fun inner inner' hend hindented => ?_
    have hinner := length_of_endOfLine hend
    have hsuffix : inner <:+ source :=
      (accounts_endOfLine hend).suffix.trans (accounts_elseMark? hmark).suffix
    exact children_indented (heven.suffix hsuffix) hindented
termination_by 4 * source.length + 1

theorem siblings_insetLeft {indent : Indent} {source : Source α}
    (heven : Even margin indent source)
    (hline : blankLine? source = none) :
    siblings (margin.chars ++ indent) (insetLeft f margin source) =
      insetOutcome f margin (insetFoundLeft f margin (Node.mapAll f)) (siblings indent source) := by
  by_cases hne : source = []
  · subst hne
    rw [siblings_nil]
    exact siblings_nil _
  · rw [siblings_eq, siblings_eq, Source.insetLeft_of_ne_nil f margin hne,
      literal?_insetLines heven.noBreak]
    cases hindent : literal? indent source with
    | none =>
      simp [insetOutcome, insetFoundLeft, Source.insetLeft_of_ne_nil f margin hne, Node.mapAll]
    | some start =>
      have hstart := length_of_literal? hindent
      simp only [Option.map_some, charsWhile_inset (p := isBlank) rfl]
      split
      · rfl
      · have hsource := literal?_eq_some.mp hindent
        have hitemLine : blankLine? start = none := notBlank_of_blanks heven.blank (hsource ▸ hline)
        have hevenStart := heven.suffix (accounts_literal? hindent).suffix
        rw [item_inset hevenStart hitemLine]
        refine insetOutcome_bind fun found hitem => ?_
        cases found with
        | none =>
          simp [insetOutcome, insetFoundLeft, Source.insetLeft_of_ne_nil f margin hne, Node.mapAll,
            pure, Except.pure]
        | some found =>
          obtain ⟨nodes, rest⟩ := found
          have hrest := length_of_item hitem
          have hreads := reads_item hitem
          simp only [Option.map_some, insetFoundLeft]
          rw [siblings_insetLeft (hevenStart.suffix hreads.accounts.suffix)
            (hreads.notBlank heven.blank fun _ => hitemLine)]
          refine insetOutcome_bind fun found _ => ?_
          simp only [insetFoundLeft, ← Node.mapAll_append]
          rfl
termination_by 4 * source.length + 2

theorem block_inset {indent : Indent} {source : Source α}
    (heven : Even margin indent source) (hline : blankLine? source = none) :
    block (margin.chars ++ indent) (inset f margin source) =
      insetOutcome f margin (Option.map (insetFoundLeft f margin (Node.mapAll f)))
        (block indent source) := by
  rw [block_eq, block_eq, item_inset heven hline]
  refine insetOutcome_bind fun found hitem => ?_
  cases found with
  | none => rfl
  | some found =>
    obtain ⟨nodes, rest⟩ := found
    have hrest := length_of_item hitem
    have hreads := reads_item hitem
    simp only [Option.map_some, insetFoundLeft]
    rw [siblings_insetLeft (heven.suffix hreads.accounts.suffix)
      (hreads.notBlank heven.blank fun _ => hline)]
    refine insetOutcome_bind fun found _ => ?_
    simp only [insetFoundLeft, ← Node.mapAll_append]
    rfl
termination_by 4 * source.length + 2

end

/-! ## Documents -/

theorem charsWhile_insetLines (source : Source α) :
    charsWhile isBlank (insetLines f margin source) =
      margin.chars ++ charsWhile isBlank source := by
  rw [insetLines, charsWhile_ofChars margin.blank, charsWhile_inset rfl]

theorem leftover_insetLines {base : Indent} (hbase : ∀ c ∈ base, isBlank c = true)
    (rest : Source α) :
    leftover (margin.chars ++ base) (insetLines f margin rest) =
      (leftover base rest).inset f margin := by
  have hrest : ∀ c ∈ charsWhile isBlank rest, isBlank c = true :=
    fun c hc => of_mem_charsWhile hc
  simp only [leftover, charsWhile_insetLines, afterWhile_insetLines, Indent.compare_margin margin.blank hrest hbase]
  rfl

theorem finish_insetLeft {base : Indent} (hbase : ∀ c ∈ base, isBlank c = true)
    (nodes : List (Node α)) (rest : Source α) :
    finish (margin.chars ++ base) (Node.mapAll f nodes) (insetLeft f margin rest) =
      insetOutcome f margin (Document.map f) (finish base nodes rest) := by
  cases rest with
  | nil => rfl
  | cons symbol rest =>
    have hempty : (insetLines f margin (symbol :: rest)).isEmpty = false := by
      cases symbol <;> simp [insetLines, inset]
    rw [Source.insetLeft_of_ne_nil f margin (List.cons_ne_nil _ _)]
    unfold finish
    rw [hempty, leftover_insetLines hbase]
    rfl

theorem even_document (h : margin.chars ≠ [] → .char '\t' ∉ source) :
    Even margin (baseIndent source) (firstItem source) := by
  have hsource := charsWhile_append_afterWhile isBlank (skipBlankLines source)
  have hsuffix := (accounts_skipBlankLines source).suffix
  constructor
  · exact fun c hc => of_mem_charsWhile hc
  · intro hmargin
    constructor
    · intro hmem
      apply h hmargin
      apply hsuffix.subset
      rw [← hsource]
      exact List.mem_append_left _ (List.mem_map_of_mem hmem)
    · intro hmem
      apply h hmargin
      apply hsuffix.subset
      rw [← hsource]
      exact List.mem_append_right _ hmem

/-- A margin in front of every line and other values in the slots leave a document what it is, with
the other values in it, and a failure what it is. -/
theorem document_insetLines (h : margin.chars ≠ [] → .char '\t' ∉ source) :
    document (insetLines f margin source) =
      insetOutcome f margin (Document.map f) (document source) := by
  have hfront : Indented f margin source (insetLines f margin source) := .lines source
  have hskip := skipBlankLines_indented hfront
  by_cases hne : skipBlankLines source = []
  · rw [hne] at hskip
    rw [← document_skipBlankLines, hskip, ← document_skipBlankLines source, hne]
    simp only [insetLeft_nil, document_nil]
    rfl
  · rw [Source.insetLeft_of_ne_nil f margin hne] at hskip
    have hbase : baseIndent (insetLines f margin source) =
        margin.chars ++ baseIndent source := by
      rw [baseIndent, hskip, charsWhile_insetLines, baseIndent]
    have hfirst : firstItem (insetLines f margin source) = inset f margin (firstItem source) := by
      rw [firstItem, hskip, afterWhile_insetLines, firstItem]
    have heven := even_document h
    have hline : blankLine? (firstItem source) = none := by
      apply notBlank_of_blanks heven.blank
      rw [baseIndent, firstItem, charsWhile_append_afterWhile]
      exact blankLine?_skipBlankLines source
    rw [document_eq, document_eq, hbase, hfirst, block_inset heven hline]
    refine insetOutcome_bind fun found hblock => ?_
    cases found with
    | none =>
      rw [of_block_none hblock]
      rfl
    | some found => exact finish_insetLeft heven.blank found.1 found.2

end Parser

end IndentMarkup

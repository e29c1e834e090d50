import IndentMarkup.Parser
import IndentMarkup.Proofs.PrintedHeader

/-! Parsing undoes printing. A node is read from its line and the lines below it, which end where
the next line is neither blank nor deeper; behind a block nothing more may stand that it could take
in, and no `else` that an `if` at its end could. The induction over the tree carries both
conditions from a block to its last node and from a node to the blocks below it. -/
namespace IndentMarkup

namespace Parser

open Text (isBlank)
open Source (ofChars ofText joinLines)

variable {α : Type} {source rest : Source α} {indent : Indent}

/-! ## What follows a node -/

/-- Nothing at the front of the input belongs to the node before it, which stands at `indent`. -/
structure Beyond (indent : Indent) (source : Source α) : Prop extends Ends indent source where
  noElse : elseMark? indent source = none

/-- Nothing at the front of the input belongs to the block before it, whose nodes stand at
`indent`. -/
structure BeyondBlock (indent : Indent) (source : Source α) : Prop
    extends Beyond indent source where
  noSibling : siblings indent source = .ok ([], source)

theorem beyondBlock_nil (indent : Indent) : BeyondBlock indent ([] : Source α) := by
  refine ⟨⟨ends_nil indent, ?_⟩, siblings_nil indent⟩
  cases indent with
  | nil => rfl
  | cons c indent => rfl

/-- What ends at an indent is beyond every block that is deeper. -/
theorem Ends.beyondBlock {outer : Blanks} (h : Ends outer.chars source) (gap : Gap) :
    BeyondBlock (outer.below gap).chars source := by
  have hliteral : literal? (outer.below gap).chars source = none :=
    h.literal?_gap gap.nonempty gap.blank
  refine ⟨⟨h.gap gap.nonempty gap.blank, ?_⟩, ?_⟩
  · rw [elseMark?, hliteral]
    rfl
  · rw [siblings_eq, hliteral]

theorem instructionWord?_of_stops (h : Stops (· == '-') source) :
    instructionWord? source = none := by
  unfold instructionWord?
  split
  · exact absurd h (by simp)
  · rfl

/-- A printed line begins an item that is no `else`. -/
theorem printedLine_front {node : Node α} (hnode : node.Printable) (tail : Source α) :
    BeginsItem (node.printedLine ++ tail) ∧
      ∀ rest, instructionWord? (node.printedLine ++ tail) ≠ some ("else", rest) := by
  have hmark : ∀ c : Char, isBlank c = false → c ≠ '\n' → ∀ more : Source α,
      BeginsItem (.char c :: more) := fun c hblank hbreak more => ⟨hblank, hbreak⟩
  cases node with
  | element header children =>
    simp only [Node.Printable] at hnode
    refine ⟨beginsItem_header hnode.1.written tail, fun rest => ?_⟩
    rw [Node.printedLine, instructionWord?_of_stops (stops_dash_header hnode.1.written tail)]
    exact Option.some_ne_none _ |>.symm
  | text content => exact ⟨hmark '|' rfl (by decide) _, fun rest h => by contradiction⟩
  | newLine => exact absurd hnode (by simp [Node.Printable])
  | slot value => exact ⟨hmark '|' rfl (by decide) _, fun rest h => by contradiction⟩
  | ifBlock condition thenBranch elseBranch =>
    refine ⟨hmark '-' rfl (by decide) _, fun rest h => ?_⟩
    have hword : instructionWord? (ofText "- if " ++ .slot condition :: tail) =
        some ("if", .char ' ' :: .slot condition :: tail) := rfl
    rw [Node.printedLine, List.append_assoc, List.singleton_append, hword] at h
    exact absurd (Prod.mk.inj (Option.some.inj h)).1 (by decide)
  | forBlock variableName iterable body =>
    refine ⟨hmark '-' rfl (by decide) _, fun rest h => ?_⟩
    have hword : ∀ more : Source α, instructionWord? (ofText "- for " ++ more) =
        some ("for", .char ' ' :: more) := fun _ => rfl
    rw [Node.printedLine, List.append_assoc, hword] at h
    exact absurd (Prod.mk.inj (Option.some.inj h)).1 (by decide)

/-- A printed node at an indent is beyond the nodes before it. -/
theorem beyond_printedLine {node : Node α} (hnode : node.Printable) (indent : Blanks)
    (tail : Source α) : Beyond indent.chars (ofChars indent.chars ++ (node.printedLine ++ tail)) := by
  obtain ⟨hitem, hword⟩ := printedLine_front hnode tail
  refine ⟨ends_same indent.blank hitem, ?_⟩
  unfold elseMark?
  rw [literal?_append]
  -- `hword` rules out the first alternative of the match
  simp only [Option.bind_eq_bind, Option.bind_some]

/-! ## Lines that stand alone -/

/-- The end of a line is taken, whatever part of the line it follows. -/
theorem endOfLine_lineBreak (part : LinePart) (h : LineBreak source rest) :
    endOfLine part source = .ok rest := by
  cases h <;> rfl

theorem continuedText_of_ends (h : Ends indent source) (trimmed : Indent) :
    continuedText indent trimmed source = ([], source) := by
  rw [continuedText_eq, h.notBlank, h.notDeeper]

/-- One node on the line of a text item is read back. -/
theorem textItem?_line {tail : Source α} {node : Node α} (hnode : node.isNewLine = false)
    (hline : ∃ count, textLine tail = (node :: List.replicate count .newLine, rest))
    (h : Ends indent rest) :
    textItem? indent (.char '|' :: .char ' ' :: tail) = some ([node], rest) := by
  obtain ⟨count, hcount⟩ := hline
  have hmore := continuedText_of_ends h (indent ++ [' ', ' '])
  have hbreak : isLineBreak (node :: List.replicate count .newLine) = false := by
    cases node with
    | newLine => contradiction
    | _ => rfl
  have hbody : textBody indent (.char ' ' :: tail) =
      (some (node :: List.replicate count .newLine), rest) := by
    simp [textBody, textStart, hcount, hbreak, hmore]
  have hmarker : isTextMarker '|' = true := rfl
  have hdrop := dropTrailingNewLines_replicate hnode count
  simp [textItem?, hmarker, hbody, hdrop]

/-- A text item is no comment. -/
theorem item_text {tail : Source α} {nodes : List (Node α)}
    (h : textItem? indent (.char '|' :: tail) = some (nodes, rest)) :
    item indent (.char '|' :: tail) = .ok (some (nodes, rest)) := by
  have hcomment : comment? indent (.char '|' :: tail) = none := rfl
  rw [item_eq, hcomment, h]

/-- No tag name begins with a dash. -/
theorem tagName?_dash (tail : Source α) : tagName? (.char '-' :: tail) = none := by
  have hchars : charsWhile isTagChar (.char '-' :: tail) = '-' :: charsWhile isTagChar tail := rfl
  have hfront : ((charsWhile isTagChar (.char '-' :: tail)).reverse.dropWhile (· == ':')).reverse <+:
      charsWhile isTagChar (.char '-' :: tail) := by
    rw [← List.reverse_suffix, List.reverse_reverse]
    exact List.dropWhile_suffix _
  unfold tagName?
  simp only
  split
  · rfl
  · rename_i c cs hname
    rw [hname, hchars, List.cons_prefix_cons] at hfront
    rw [if_pos hfront.1]

/-- No element begins with a dash. -/
theorem element_dash (indent : Indent) (tail : Source α) :
    element indent (.char '-' :: tail) = .ok none := by
  have hshort : shorthands (.char '-' :: tail) = .ok ([], .char '-' :: tail) :=
    shorthands_of_stops rfl
  have hnaming : naming (.char '-' :: tail) = .ok none := by
    simp [naming, base?, slot?, tagName?_dash, hshort, bind, Except.bind, pure, Except.pure]
  rw [element_eq, hnaming]
  rfl

/-- An item that begins with a dash is an instruction. -/
theorem item_dash {tail : Source α} {nodes : List (Node α)}
    (h : instruction indent (.char '-' :: tail) = .ok (some (nodes, rest))) :
    item indent (.char '-' :: tail) = .ok (some (nodes, rest)) := by
  have hcomment : comment? indent (.char '-' :: tail) = none := rfl
  have htext : textItem? indent (.char '-' :: tail) = none := textItem?_of_stops indent rfl
  rw [item_eq, hcomment, htext]
  simp only [element_dash, h]
  rfl

/-- An `if` with its branches is read back from the lines below its own. -/
theorem item_if {condition : α} {thenBranch elseBranch : List (Node α)} {below after : Source α}
    (h : LineBreak source below) (hthen : children indent below = .ok (thenBranch, after))
    (helse : otherwise indent after = .ok (elseBranch, rest)) :
    item indent (ofText "- if " ++ .slot condition :: source) =
      .ok (some ([.ifBlock condition thenBranch elseBranch], rest)) := by
  have hname : instructionName (ofText "- if " ++ .slot condition :: source) =
      .ok (some ("if", .char ' ' :: .slot condition :: source)) := rfl
  have hline : instructionRest "if" (.char ' ' :: .slot condition :: source) =
      .ok (.ifThen condition, below) := by
    show ifLine (.slot condition :: source) = _
    simp [ifLine, slot?, endOfLine_lineBreak .ifCondition h, bind, Except.bind, pure, Except.pure]
  refine item_dash ?_
  rw [instruction_eq]
  show (instructionName (ofText "- if " ++ .slot condition :: source) >>= _) = _
  simp only [hname, hline, hthen, helse, bind, Except.bind]
  rfl

/-- A `for` with its body is read back from the lines below its own. -/
theorem item_for {variableName : String} {iterable : α} {body : List (Node α)} {below : Source α}
    (hvariable : IsIdentifier variableName) (h : LineBreak source below)
    (hbody : children indent below = .ok (body, rest)) :
    item indent (ofText "- for " ++
        (ofText variableName ++ (ofText " of " ++ .slot iterable :: source))) =
      .ok (some ([.forBlock variableName iterable body], rest)) := by
  generalize htail : (ofText variableName ++ (ofText " of " ++ .slot iterable :: source)) = tail
  have hstart : afterWhile isBlank (.char ' ' :: tail) = tail := by
    have hchars : ∀ c ∈ [' '], isBlank c = true := List.all_eq_true.mp rfl
    refine afterWhile_append hchars ?_
    rw [← htail]
    refine stops_ofText hvariable.nonempty (fun c hc => ?_) _
    have hchar := hvariable.chars c (List.mem_of_head? hc)
    exact not_isBlank_of_isTagChar (isTagChar_of_isIdentifierChar hchar)
  have hname : instructionName (ofText "- for " ++ tail) =
      .ok (some ("for", .char ' ' :: tail)) := rfl
  have hline : instructionRest "for" (.char ' ' :: tail) =
      .ok (.forEach variableName iterable, below) := by
    have hrun : run? isIdentifierChar tail =
        some (variableName.toList, ofText " of " ++ .slot iterable :: source) := by
      rw [← htail]
      exact run?_append hvariable.nonempty hvariable.chars rfl
    have hmark : ofMark? (ofText " of " ++ .slot iterable :: source) =
        some (.slot iterable :: source) := rfl
    show forLine (afterWhile isBlank (.char ' ' :: tail)) = _
    simp [forLine, hstart, hrun, hmark, slot?, endOfLine_lineBreak .iteratedValue h, bind,
      Except.bind, pure, Except.pure]
  refine item_dash ?_
  rw [instruction_eq]
  show (instructionName (ofText "- for " ++ tail) >>= _) = _
  simp only [hname, hline, hbody, bind, Except.bind]
  rfl

/-- The branch behind an `else` is read back from the lines below it. -/
theorem otherwise_else {elseBranch : List (Node α)} {below : Source α} (h : LineBreak source below)
    (hbranch : children indent below = .ok (elseBranch, rest)) :
    otherwise indent (ofChars indent ++ (elseLine ++ source)) = .ok (elseBranch, rest) := by
  have hrun : run? isWordChar (ofChars ['e', 'l', 's', 'e'] ++ source) =
      some (['e', 'l', 's', 'e'], source) :=
    run?_append (by simp) (List.all_eq_true.mp rfl) (h.stops rfl)
  have hword : instructionWord? (elseLine ++ source) = some ("else", source) :=
    calc instructionWord? (elseLine ++ source)
        = (run? isWordChar (ofChars ['e', 'l', 's', 'e'] ++ source)).map
            fun found => (String.ofList found.1, found.2) := rfl
      _ = some ("else", source) := by rw [hrun, Option.map_some]
  have hmark : elseMark? indent (ofChars indent ++ (elseLine ++ source)) = some source := by
    simp [elseMark?, literal?_append, hword]
  rw [otherwise_eq, hmark]
  simp only [endOfLine_lineBreak .elseMark h, bind, Except.bind]
  exact hbranch

/-! ## Blocks -/

/-- A block is what the siblings are behind its indent, if there are any. -/
theorem block_of_siblings {nodes : List (Node α)} (hne : nodes ≠ [])
    (h : siblings indent (ofChars indent ++ source) = .ok (nodes, rest)) :
    block indent source = .ok (some (nodes, rest)) := by
  rw [siblings_eq, literal?_append] at h
  rw [block_eq]
  simp only at h
  split at h
  · contradiction
  · cases hitem : item indent source with
    | error failure =>
      rw [hitem] at h
      contradiction
    | ok found =>
      rw [hitem] at h
      cases found with
      | none =>
        obtain ⟨rfl, -⟩ := Prod.mk.inj (Except.ok.inj h)
        exact absurd rfl hne
      | some found =>
        obtain ⟨front, after⟩ := found
        simp only [bind, Except.bind] at h ⊢
        cases hmore : siblings indent after with
        | error failure =>
          rw [hmore] at h
          contradiction
        | ok more =>
          rw [hmore] at h
          exact congrArg (Except.map some) h

variable {gap : List Step → Gap} {place : List Step} {outer : Blanks} {more : List (Source α)}
  {nodes : List (Node α)}

/-- The front of a printed block is beyond the node before it. -/
private theorem beyond_printedLines (hnodes : Node.AllPrintable nodes)
    (hbeyond : Beyond outer.chars (joinLines more)) :
    Beyond outer.chars (joinLines (Node.printedLines gap place outer nodes ++ more)) := by
  cases nodes with
  | nil => exact hbeyond
  | cons node rest =>
    simp only [Node.AllPrintable] at hnodes
    rw [Node.printedLines, List.cons_append]
    obtain ⟨tail, htail, -⟩ := joinLines_cons (ofChars outer.chars ++ node.printedLine)
      ((Node.lowerLines gap place outer node ++
        Node.printedLines gap (.next :: place) outer rest) ++ more)
    rw [htail, List.append_assoc]
    exact beyond_printedLine hnodes.1 outer tail

/-- A printed block is found below its parent, where its siblings are read back. -/
private theorem children_of_siblings (hnodes : Node.AllPrintable nodes)
    (hends : Ends outer.chars (joinLines more))
    (h : siblings (outer.below (gap place)).chars
        (joinLines (Node.printedLines gap place (outer.below (gap place)) nodes ++ more)) =
      .ok (nodes, joinLines more)) :
    children outer.chars
        (joinLines (Node.printedLines gap place (outer.below (gap place)) nodes ++ more)) =
      .ok (nodes, joinLines more) := by
  cases nodes with
  | nil =>
    show children outer.chars (joinLines more) = _
    rw [children_eq, skipBlankLines_of_not_blank hends.notBlank, hends.notDeeper]
  | cons node rest =>
    simp only [Node.AllPrintable] at hnodes
    rw [Node.printedLines, List.cons_append] at h ⊢
    obtain ⟨tail, htail, -⟩ := joinLines_cons
      (ofChars (outer.below (gap place)).chars ++ node.printedLine)
      (Node.lowerLines gap place (outer.below (gap place)) node ++
        Node.printedLines gap (.next :: place) (outer.below (gap place)) rest ++ more)
    have hitem := (printedLine_front hnodes.1 tail).1
    have hdeeper : deeperIndent? outer.chars
        (ofChars (outer.below (gap place)).chars ++ (node.printedLine ++ tail)) =
          some ((outer.below (gap place)).chars, node.printedLine ++ tail) :=
      deeperIndent?_append outer.chars (gap place).nonempty (gap place).blank hitem.stops
    rw [htail, List.append_assoc] at h ⊢
    rw [children_eq, skipBlankLines_item (outer.below (gap place)) hitem, hdeeper]
    simp only [block_of_siblings (by simp) h, bind, Except.bind]
    rfl

/-- An `if` is read back where its branches are, whatever ends them. -/
private theorem item_if_printed {condition : α} {thenBranch elseBranch : List (Node α)}
    (hline : LineBreak source
      (joinLines (Node.lowerLines gap place outer (.ifBlock condition thenBranch elseBranch) ++ more)))
    (hbeyond : Beyond outer.chars (joinLines more))
    (hthen : ∀ lines : List (Source α), Ends outer.chars (joinLines lines) →
      children outer.chars (joinLines (Node.printedLines gap (.below :: place)
        (outer.below (gap (.below :: place))) thenBranch ++ lines)) =
          .ok (thenBranch, joinLines lines))
    (helse : ∀ lines : List (Source α), Ends outer.chars (joinLines lines) →
      children outer.chars (joinLines (Node.printedLines gap (.otherwise :: place)
        (outer.below (gap (.otherwise :: place))) elseBranch ++ lines)) =
          .ok (elseBranch, joinLines lines)) :
    item outer.chars (ofText "- if " ++ .slot condition :: source) =
      .ok (some ([.ifBlock condition thenBranch elseBranch], joinLines more)) := by
  have hends := hbeyond.toEnds
  rw [Node.lowerLines] at hline
  cases elseBranch with
  | nil =>
    simp only [List.isEmpty_nil, if_true, List.append_nil] at hline
    have hotherwise : otherwise outer.chars (joinLines more) = .ok ([], joinLines more) := by
      rw [otherwise_eq, hbeyond.noElse]
    exact item_if hline (hthen more hends) hotherwise
  | cons node rest =>
    simp only [List.isEmpty_cons, Bool.false_eq_true, if_false, List.append_assoc,
      List.cons_append] at hline
    have hbranch := helse more hends
    -- the line of the `else` ends the first branch and opens the second one
    obtain ⟨tail, htail, hbreak⟩ := joinLines_cons (ofChars outer.chars ++ elseLine)
      (Node.printedLines gap (.otherwise :: place) (outer.below (gap (.otherwise :: place)))
        (node :: rest) ++ more)
    have hitem : BeginsItem (elseLine ++ tail) := ⟨rfl, by decide⟩
    have hmark := ends_same outer.blank hitem
    rw [← List.append_assoc, ← htail] at hmark
    refine item_if hline (hthen _ hmark) ?_
    rw [htail, List.append_assoc]
    exact otherwise_else hbreak hbranch

mutual

/-- A printed node is read back from its line and the lines below. -/
theorem item_printed {gap : List Step → Gap} {place : List Step} {outer : Blanks}
    {source : Source α} {more : List (Source α)} (node : Node α) (hnode : node.Printable)
    (hline : LineBreak source (joinLines (Node.lowerLines gap place outer node ++ more)))
    (hbeyond : Beyond outer.chars (joinLines more)) :
    item outer.chars (node.printedLine ++ source) = .ok (some ([node], joinLines more)) := by
  have hends := hbeyond.toEnds
  cases node with
  | element header children =>
    simp only [Node.Printable] at hnode
    obtain ⟨hheader, hchildren⟩ := hnode
    have hread : Parser.children outer.chars
        (joinLines (Node.lowerLines gap place outer (.element header children) ++ more)) =
          .ok (children, joinLines more) :=
      children_of_siblings hchildren hends
        (siblings_printed children hchildren (hends.beyondBlock _))
    rw [Node.printedLine, item_printed_header hheader outer.chars hline, hread]
    rfl
  | text content =>
    simp only [Node.Printable] at hnode
    have hline : LineBreak source (joinLines more) := hline
    have htext := textLine_text hnode.1 hnode.2 hline
    rw [String.ofList_toList] at htext
    exact item_text (textItem?_line rfl htext hends)
  | newLine => exact absurd hnode (by simp [Node.Printable])
  | slot value =>
    have hline : LineBreak source (joinLines more) := hline
    exact item_text (textItem?_line rfl (textLine_slot value hline) hends)
  | ifBlock condition thenBranch elseBranch =>
    simp only [Node.Printable] at hnode
    obtain ⟨hthen, helse⟩ := hnode
    rw [Node.printedLine, List.append_assoc]
    refine item_if_printed hline hbeyond (fun below hbelow => ?_) fun below hbelow => ?_
    · exact children_of_siblings hthen hbelow
        (siblings_printed thenBranch hthen (hbelow.beyondBlock _))
    · exact children_of_siblings helse hbelow
        (siblings_printed elseBranch helse (hbelow.beyondBlock _))
  | forBlock variableName iterable body =>
    simp only [Node.Printable] at hnode
    obtain ⟨hvariable, hbody⟩ := hnode
    have hread : children outer.chars
        (joinLines (Node.lowerLines gap place outer (.forBlock variableName iterable body) ++
          more)) = .ok (body, joinLines more) :=
      children_of_siblings hbody hends (siblings_printed body hbody (hends.beyondBlock _))
    rw [Node.printedLine, List.append_assoc, List.append_assoc, List.append_assoc]
    exact item_for hvariable hline hread

/-- A printed block is read back, whatever is beyond it. -/
theorem siblings_printed {gap : List Step → Gap} {place : List Step} {outer : Blanks}
    {more : List (Source α)} (nodes : List (Node α)) (hnodes : Node.AllPrintable nodes)
    (hbeyond : BeyondBlock outer.chars (joinLines more)) :
    siblings outer.chars (joinLines (Node.printedLines gap place outer nodes ++ more)) =
      .ok (nodes, joinLines more) := by
  cases nodes with
  | nil => exact hbeyond.noSibling
  | cons node rest =>
    simp only [Node.AllPrintable] at hnodes
    obtain ⟨hnode, hrest⟩ := hnodes
    have hmore : siblings outer.chars
        (joinLines (Node.printedLines gap (.next :: place) outer rest ++ more)) =
          .ok (rest, joinLines more) := siblings_printed rest hrest hbeyond
    have hnext : Beyond outer.chars
        (joinLines (Node.printedLines gap (.next :: place) outer rest ++ more)) :=
      beyond_printedLines hrest hbeyond.toBeyond
    rw [Node.printedLines, List.cons_append, List.append_assoc]
    obtain ⟨tail, htail, hline⟩ := joinLines_cons (ofChars outer.chars ++ node.printedLine)
      (Node.lowerLines gap place outer node ++
        (Node.printedLines gap (.next :: place) outer rest ++ more))
    have hitem := item_printed node hnode hline hnext
    have hstops := (printedLine_front hnode tail).1.stops
    rw [htail, List.append_assoc, siblings_eq, literal?_append]
    simp only [charsWhile_of_stops hstops, List.isEmpty_nil, Bool.not_true, Bool.false_eq_true,
      if_false, hitem, hmore, bind, Except.bind]
    rfl

end

/-! ## Documents -/

/-- A printed document is read back as its block; behind it the input ends. -/
theorem document_printed (layout : IndentMarkup.Layout) {document : Document α}
    (hdocument : document.Printable) :
    Parser.document (document.printed layout) = .ok document := by
  obtain ⟨nodes⟩ := document
  generalize hlines : (if layout.finalBreak then [[]] else [] : List (Source α)) = lines
  have hlast : joinLines lines = [] := by
    rw [← hlines]
    cases layout.finalBreak <;> rfl
  have hbeyond : BeyondBlock layout.base.chars (joinLines lines) := by
    rw [hlast]
    exact beyondBlock_nil layout.base.chars
  have hread : siblings layout.base.chars
      (joinLines (Node.printedLines layout.gap [] layout.base nodes ++ lines)) = .ok (nodes, []) := by
    rw [siblings_printed nodes hdocument hbeyond, hlast]
  rw [Document.printed, hlines]
  show Parser.document
    (joinLines (Node.printedLines layout.gap [] layout.base nodes ++ lines)) = .ok ⟨nodes⟩
  cases nodes with
  | nil =>
    rw [Node.printedLines, List.nil_append, hlast]
    exact document_nil
  | cons node rest =>
    simp only [Document.Printable, Node.AllPrintable] at hdocument
    rw [Node.printedLines, List.cons_append] at hread ⊢
    obtain ⟨tail, htail, -⟩ := joinLines_cons (ofChars layout.base.chars ++ node.printedLine)
      (Node.lowerLines layout.gap [] layout.base node ++
        Node.printedLines layout.gap [.next] layout.base rest ++ lines)
    have hitem := (printedLine_front hdocument.1 tail).1
    rw [htail, List.append_assoc] at hread ⊢
    rw [document_eq, baseIndent_item layout.base hitem, firstItem_item layout.base hitem]
    simp only [block_of_siblings (by simp) hread, bind, Except.bind]
    rfl

end Parser

/-- Parsing undoes printing, for every document with a printed form and every layout. -/
theorem parse_printed (layout : Layout) {document : Document α} (hdocument : document.Printable) :
    parse (document.printed layout) = .ok document := by
  rw [parse, Parser.document_printed layout hdocument]
  rfl

/-- An `if` with two branches below an element, and a loop in one of them. -/
def Document.sample : Document Nat :=
  ⟨[.element ⟨.text "ul", [.pair (.text "class") (.text "a b"), .splat 0], some (.text "list")⟩
    [.ifBlock 1 [.text "none"] [.forBlock "x" 2 [.slot 3]]]]⟩

/-- Second branches are set off by a tab, all other blocks by two spaces. -/
def Layout.sample : Layout where
  base := ⟨[' '], List.all_eq_true.mp rfl⟩
  gap
    | .otherwise :: _ => ⟨⟨['\t'], List.all_eq_true.mp rfl⟩, by decide⟩
    | _ => ⟨⟨[' ', ' '], List.all_eq_true.mp rfl⟩, by decide⟩
  finalBreak := true

theorem parse_printed_sample :
    Document.sample.Printable ∧
      parse (Document.sample.printed Layout.sample) = .ok Document.sample := by
  have hsample : Document.sample.Printable := by decide
  exact ⟨hsample, parse_printed Layout.sample hsample⟩

example : Source.ofParts
    [" ul(class=\"a b\" *", ") @list\n   - if ", "\n     | none\n   - else\n   \t- for x of ",
      "\n   \t  | ", "\n"] [0, 1, 2, 3] = .ok (Document.sample.printed Layout.sample) := by
  rfl

end IndentMarkup

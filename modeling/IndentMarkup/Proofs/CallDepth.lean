import IndentMarkup.Proofs.Loops

/-! How deep the calls of the parser go. With a limit on the calls that are open at a time, the
productions call one another with no other reason to end. Along a chain of calls the input becomes
shorter at the latest with every fourth, so a limit in proportion to the length of a source is not
reached. With what the productions and the loops do, this is why parsing ends. -/
namespace IndentMarkup

variable {α β γ : Type}

namespace Parser

/-! ## Calls with a limit -/

/-- A computation that may fail, or may reach the limit of its calls. -/
abbrev Limited (α β : Type) := ExceptT (Failure α) Option β

namespace Limited

def overrun : Limited α β :=
  ExceptT.mk none

def ended (result : Except (Failure α) β) : Limited α β :=
  ExceptT.mk (some result)

theorem ended_bind (result : Except (Failure α) β) (next : β → Limited α γ) :
    (ended result >>= next) =
      match result with
      | .ok value => next value
      | .error failure => ended (.error failure) := by
  cases result <;> rfl

mutual

def item (limit : Nat) (indent : Indent) (source : Source α) :
    Limited α (Option (List (Node α) × Source α)) :=
  match limit with
  | 0 => overrun
  | limit + 1 =>
    match comment? indent source with
    | some rest => return some ([], rest)
    | none =>
      match textItem? indent source with
      | some found => return some found
      | none => do
        match ← element limit indent source with
        | some found => return some found
        | none =>
          match ← instruction limit indent source with
          | some found => return some found
          | none =>
            match blankLine? source with
            | some (_, rest) => return some ([], rest)
            | none =>
              if source.isEmpty then return none
              else ended (.error ⟨.unknownIndicator, source⟩)

def element (limit : Nat) (indent : Indent) (source : Source α) :
    Limited α (Option (List (Node α) × Source α)) :=
  match limit with
  | 0 => overrun
  | limit + 1 => do
    match ← ended (naming source) with
    | none => return none
    | some (named, rest) =>
      let (opening, rest) ← ended (openingRest named rest)
      let (nodes, rest) ← content limit indent rest
      return some (opening.nodes nodes, rest)

def content (limit : Nat) (indent : Indent) (source : Source α) :
    Limited α (List (Node α) × Source α) :=
  match limit with
  | 0 => overrun
  | limit + 1 =>
    match expansion? (skipOneBlank source) with
    | some rest => do
      match ← element limit indent rest with
      | some found => return found
      | none => ended (.error ⟨.elementExpected, rest⟩)
    | none =>
      match lineText indent (skipOneBlank source) with
      | (some nodes, rest) => return (nodes, rest)
      | (none, rest) => children limit indent rest

def children (limit : Nat) (indent : Indent) (source : Source α) :
    Limited α (List (Node α) × Source α) :=
  match limit with
  | 0 => overrun
  | limit + 1 =>
    match deeperIndent? indent (skipBlankLines source) with
    | none => return ([], skipBlankLines source)
    | some (deeper, rest) => do
      match ← block limit deeper rest with
      | some found => return found
      | none => return ([], rest)

def instruction (limit : Nat) (indent : Indent) (source : Source α) :
    Limited α (Option (List (Node α) × Source α)) :=
  match limit with
  | 0 => overrun
  | limit + 1 => do
    match ← ended (instructionName source) with
    | none => return none
    | some (word, rest) =>
      match ← ended (instructionRest word rest) with
      | (.ifThen condition, rest) =>
        let (thenBranch, rest) ← children limit indent rest
        let (elseBranch, rest) ← otherwise limit indent rest
        return some ([.ifBlock condition thenBranch elseBranch], rest)
      | (.forEach variableName iterable, rest) =>
        let (body, rest) ← children limit indent rest
        return some ([.forBlock variableName iterable body], rest)

def otherwise (limit : Nat) (indent : Indent) (source : Source α) :
    Limited α (List (Node α) × Source α) :=
  match limit with
  | 0 => overrun
  | limit + 1 =>
    match elseMark? indent source with
    | none => return ([], source)
    | some rest => do
      let rest ← ended (endOfLine .elseMark rest)
      children limit indent rest

def siblings (limit : Nat) (indent : Indent) (source : Source α) :
    Limited α (List (Node α) × Source α) :=
  match limit with
  | 0 => overrun
  | limit + 1 =>
    match literal? indent source with
    | none => return ([], source)
    | some start =>
      if !(charsWhile Text.isBlank start).isEmpty then ended (.error ⟨.malformedIndent, start⟩)
      else do
        match ← item limit indent start with
        | none => return ([], source)
        | some (nodes, rest) =>
          let (more, rest) ← siblings limit indent rest
          return (nodes ++ more, rest)

def block (limit : Nat) (indent : Indent) (source : Source α) :
    Limited α (Option (List (Node α) × Source α)) :=
  match limit with
  | 0 => overrun
  | limit + 1 => do
    match ← item limit indent source with
    | none => return none
    | some (nodes, rest) =>
      let (more, rest) ← siblings limit indent rest
      return some (nodes ++ more, rest)

end

def document (limit : Nat) (source : Source α) : Limited α (Document α) := do
  match ← block limit (baseIndent source) (firstItem source) with
  | some (nodes, rest) => ended (finish (baseIndent source) nodes rest)
  | none => ended (finish (baseIndent source) [] (firstItem source))

/-! ## A limit that is not reached -/

/-- A limit is large enough for sources that are short enough: each production comes to its
result. -/
structure Suffices (α : Type) (limit : Nat) : Prop where
  item : ∀ (indent : Indent) (source : Source α), 4 * source.length + 1 < limit →
    Limited.item limit indent source = ended (Parser.item indent source)
  element : ∀ (indent : Indent) (source : Source α), 4 * source.length < limit →
    Limited.element limit indent source = ended (Parser.element indent source)
  content : ∀ (indent : Indent) (source : Source α), 4 * source.length + 1 < limit →
    Limited.content limit indent source = ended (Parser.content indent source)
  children : ∀ (indent : Indent) (source : Source α), 4 * source.length < limit →
    Limited.children limit indent source = ended (Parser.children indent source)
  instruction : ∀ (indent : Indent) (source : Source α), 4 * source.length < limit →
    Limited.instruction limit indent source = ended (Parser.instruction indent source)
  otherwise : ∀ (indent : Indent) (source : Source α), 4 * source.length + 1 < limit →
    Limited.otherwise limit indent source = ended (Parser.otherwise indent source)
  siblings : ∀ (indent : Indent) (source : Source α), 4 * source.length + 2 < limit →
    Limited.siblings limit indent source = ended (Parser.siblings indent source)
  block : ∀ (indent : Indent) (source : Source α), 4 * source.length + 2 < limit →
    Limited.block limit indent source = ended (Parser.block indent source)

namespace Suffices

variable {limit : Nat} {indent : Indent} {source : Source α}

theorem zero : Suffices α 0 where
  item _ _ h := absurd h (Nat.not_lt_zero _)
  element _ _ h := absurd h (Nat.not_lt_zero _)
  content _ _ h := absurd h (Nat.not_lt_zero _)
  children _ _ h := absurd h (Nat.not_lt_zero _)
  instruction _ _ h := absurd h (Nat.not_lt_zero _)
  otherwise _ _ h := absurd h (Nat.not_lt_zero _)
  siblings _ _ h := absurd h (Nat.not_lt_zero _)
  block _ _ h := absurd h (Nat.not_lt_zero _)

theorem item_succ (h : Suffices α limit) (hlimit : 4 * source.length < limit) :
    Limited.item (limit + 1) indent source = ended (Parser.item indent source) := by
  rw [Limited.item, item_eq]
  cases comment? indent source with
  | some rest => rfl
  | none =>
    cases textItem? indent source with
    | some found => rfl
    | none =>
      simp only
      rw [h.element indent source hlimit, h.instruction indent source hlimit]
      cases Parser.element indent source with
      | error failure => rfl
      | ok found =>
        cases found with
        | some found => rfl
        | none =>
          cases Parser.instruction indent source with
          | error failure => rfl
          | ok found =>
            cases found with
            | some found => rfl
            | none =>
              cases hblank : blankLine? source with
              | some found => rfl
              | none =>
                simp only [ended_bind]
                cases source.isEmpty <;> rfl

theorem element_succ (h : Suffices α limit) (hlimit : 4 * source.length < limit + 1) :
    Limited.element (limit + 1) indent source = ended (Parser.element indent source) := by
  rw [Limited.element, element_eq, ended_bind]
  cases hnaming : naming source with
  | error failure => rfl
  | ok found =>
    cases found with
    | none => rfl
    | some found =>
      obtain ⟨named, start⟩ := found
      simp only [ended_bind]
      cases hopening : openingRest named start with
      | error failure => simp only [bind, Except.bind, hopening]
      | ok found =>
        obtain ⟨opening, rest⟩ := found
        have hstart := length_of_naming hnaming
        have hrest := length_of_openingRest hopening
        simp only [bind, Except.bind, hopening]
        rw [h.content indent rest (by omega)]
        cases Parser.content indent rest <;> rfl

theorem content_succ (h : Suffices α limit) (hlimit : 4 * source.length < limit) :
    Limited.content (limit + 1) indent source = ended (Parser.content indent source) := by
  have hblank := length_skipOneBlank_le source
  rw [Limited.content, content_eq]
  simp only
  cases hcolon : expansion? (skipOneBlank source) with
  | some rest =>
    have hrest := length_of_expansion? hcolon
    simp only
    rw [h.element indent rest (by omega), ended_bind]
    cases Parser.element indent rest with
    | error failure => rfl
    | ok found => cases found <;> rfl
  | none =>
    have hline := length_lineText_le indent (skipOneBlank source)
    rcases hfound : lineText indent (skipOneBlank source) with ⟨_ | nodes, rest⟩
    · rw [hfound] at hline
      simp only at hline ⊢
      exact h.children indent rest (by omega)
    · rfl

theorem children_succ (h : Suffices α limit) (hlimit : 4 * source.length < limit + 1) :
    Limited.children (limit + 1) indent source = ended (Parser.children indent source) := by
  have hblank := length_skipBlankLines_le source
  rw [Limited.children, children_eq]
  cases hdeeper : deeperIndent? indent (skipBlankLines source) with
  | none => rfl
  | some found =>
    obtain ⟨deeper, rest⟩ := found
    have hrest := length_of_deeperIndent? hdeeper
    simp only
    rw [h.block deeper rest (by omega), ended_bind]
    cases Parser.block deeper rest with
    | error failure => rfl
    | ok found => cases found <;> rfl

theorem instruction_succ (h : Suffices α limit) (hlimit : 4 * source.length < limit + 1) :
    Limited.instruction (limit + 1) indent source = ended (Parser.instruction indent source) := by
  rw [Limited.instruction, instruction_eq, ended_bind]
  cases hname : instructionName source with
  | error failure => rfl
  | ok found =>
    cases found with
    | none => rfl
    | some found =>
      obtain ⟨word, start⟩ := found
      simp only [ended_bind]
      cases hline : instructionRest word start with
      | error failure => simp only [bind, Except.bind, hline]
      | ok found =>
        obtain ⟨line, rest⟩ := found
        have hstart := length_of_instructionName hname
        have hrest := length_of_instructionRest hline
        simp only [bind, Except.bind, hline]
        cases line with
        | ifThen condition =>
          simp only
          rw [h.children indent rest (by omega)]
          cases hthen : Parser.children indent rest with
          | error failure => rfl
          | ok found =>
            obtain ⟨thenBranch, after⟩ := found
            have hafter := length_of_children hthen
            show (Limited.otherwise limit indent after >>= _) = _
            rw [h.otherwise indent after (by omega)]
            show _ = ended (Parser.otherwise indent after >>= _)
            cases Parser.otherwise indent after <;> rfl
        | forEach variableName iterable =>
          simp only
          rw [h.children indent rest (by omega)]
          cases Parser.children indent rest <;> rfl

theorem otherwise_succ (h : Suffices α limit) (hlimit : 4 * source.length < limit) :
    Limited.otherwise (limit + 1) indent source = ended (Parser.otherwise indent source) := by
  rw [Limited.otherwise, otherwise_eq]
  cases hmark : elseMark? indent source with
  | none => rfl
  | some start =>
    simp only [ended_bind]
    cases hend : endOfLine .elseMark start with
    | error failure => rfl
    | ok rest =>
      have hstart := length_of_elseMark? hmark
      have hrest := length_of_endOfLine hend
      exact h.children indent rest (by omega)

theorem siblings_succ (h : Suffices α limit) (hlimit : 4 * source.length + 1 < limit) :
    Limited.siblings (limit + 1) indent source = ended (Parser.siblings indent source) := by
  rw [Limited.siblings, siblings_eq]
  cases hindent : literal? indent source with
  | none => rfl
  | some start =>
    have hstart := length_of_literal? hindent
    simp only
    by_cases hempty : (!(charsWhile Text.isBlank start).isEmpty) = true
    · rw [if_pos hempty, if_pos hempty]
    · rw [if_neg hempty, if_neg hempty, h.item indent start (by omega), ended_bind]
      cases hitem : Parser.item indent start with
      | error failure => rfl
      | ok found =>
        cases found with
        | none => rfl
        | some found =>
          obtain ⟨nodes, rest⟩ := found
          have hrest := length_of_item hitem
          simp only [bind, Except.bind]
          rw [h.siblings indent rest (by omega)]
          cases Parser.siblings indent rest <;> rfl

theorem block_succ (h : Suffices α limit) (hlimit : 4 * source.length + 1 < limit) :
    Limited.block (limit + 1) indent source = ended (Parser.block indent source) := by
  rw [Limited.block, block_eq, h.item indent source hlimit, ended_bind]
  cases hitem : Parser.item indent source with
  | error failure => rfl
  | ok found =>
    cases found with
    | none => rfl
    | some found =>
      obtain ⟨nodes, rest⟩ := found
      have hrest := length_of_item hitem
      simp only [bind, Except.bind]
      rw [h.siblings indent rest (by omega)]
      cases Parser.siblings indent rest <;> rfl

theorem succ (h : Suffices α limit) : Suffices α (limit + 1) where
  item _ _ hlimit := h.item_succ (Nat.lt_of_succ_lt_succ hlimit)
  element _ _ hlimit := h.element_succ hlimit
  content _ _ hlimit := h.content_succ (Nat.lt_of_succ_lt_succ hlimit)
  children _ _ hlimit := h.children_succ hlimit
  instruction _ _ hlimit := h.instruction_succ hlimit
  otherwise _ _ hlimit := h.otherwise_succ (Nat.lt_of_succ_lt_succ hlimit)
  siblings _ _ hlimit := h.siblings_succ (Nat.lt_of_succ_lt_succ hlimit)
  block _ _ hlimit := h.block_succ (Nat.lt_of_succ_lt_succ hlimit)

/-- Every limit is large enough for the sources that are short enough. -/
theorem all (limit : Nat) : Suffices α limit := by
  induction limit with
  | zero => exact zero
  | succ limit ih => exact ih.succ

end Suffices

theorem length_firstItem_le (source : Source α) : (firstItem source).length ≤ source.length :=
  Nat.le_trans (length_afterWhile_le _ _) (length_skipBlankLines_le source)

/-- Four calls for each symbol of a source, and three more, are enough to parse it. -/
theorem document_eq_ended (source : Source α) (more : Nat) :
    Limited.document (4 * source.length + 3 + more) source = ended (Parser.document source) := by
  have hlength := length_firstItem_le source
  rw [Limited.document, document_eq,
    (Suffices.all _).block (baseIndent source) (firstItem source) (by omega), ended_bind]
  cases Parser.block (baseIndent source) (firstItem source) with
  | error failure => rfl
  | ok found => cases found <;> rfl

end Limited

end Parser

/-- The document that a source stands for, unless its parsing reaches the limit of its calls. -/
def parseWithin (limit : Nat) (source : Source α) : Option (Except SyntaxError (Document α)) :=
  (Parser.Limited.document limit source).run.map
    (Except.mapError (Failure.locate source))

theorem parseWithin_enough (source : Source α) (more : Nat) :
    parseWithin (4 * source.length + 3 + more) source = some (parse source) := by
  rw [parseWithin, Parser.Limited.document_eq_ended]
  rfl

/-! ## Progress and termination -/

namespace Parser.Reader

/-- A reading that is a production of the parser, and goes forward or not at all. -/
structure Progresses (read production : Reader α (Option β)) : Prop where
  agrees : ∀ source, read source = production source
  forward : Forward read

/-- The productions of the parser that may not apply. -/
structure ProductionsProgress (α : Type) : Prop where
  comment : ∀ indent, Progresses (comment indent : Reader α _) fun source =>
    outcome source (.ok ((comment? indent source).map ([], ·)))
  textItem : ∀ indent, Progresses (textItem indent : Reader α _) fun source =>
    outcome source (.ok (textItem? indent source))
  element : ∀ indent, Progresses (element indent : Reader α _) fun source =>
    outcome source (Parser.element indent source)
  controlFlow : ∀ indent, Progresses (controlFlow indent : Reader α _) fun source =>
    outcome source (instruction indent source)
  blankLine : Progresses (blankLine : Reader α _) fun source =>
    outcome source (.ok (blankLine? source))
  deeperIndent : ∀ indent, Progresses (deeperIndent indent : Reader α _) fun source =>
    outcome source (.ok (deeperIndent? indent source))
  splat : ∀ layout, Progresses (splat layout : Reader α _) fun source =>
    outcome source (splat? layout source)
  pair : ∀ layout, Progresses (pair layout : Reader α _) fun source =>
    outcome source (pair? layout source)
  bareName : ∀ close, Progresses (bareName : Reader α _) fun source =>
    outcome source (.ok (bareName? (.wrapped close) source))
  refName : Progresses (refName : Reader α _) Parser.refName
  instructionWord : Progresses (instructionWord : Reader α _) fun source =>
    outcome source (.ok (instructionWord? source))

/-- The functions of the parser that read a row of things. -/
structure LoopsProgress (α : Type) : Prop where
  siblings : ∀ indent, IsLoop (siblingTurn indent : Reader α _) (siblings indent)
  wrappedAttributes : ∀ close, IsLoop (wrappedTurn close : Reader α _) (wrappedAttributes close)
  inlineAttributes : IsLoop (inlineTurn : Reader α _) inlineAttributes
  continuedText : ∀ indent trimmed, IsLoop (continuedTurn indent trimmed : Reader α _)
    fun source => .ok (continuedText indent trimmed source)
  skipDeeperLines : ∀ indent, IsLoop (commentTurn indent : Reader α _)
    fun source => .ok ([], skipDeeperLines indent source)
  textLine : IsLoop (textTurn : Reader α _) fun source => .ok (textLine source)
  skipLine : IsLoop (skipTurn : Reader α (Turn (Node α))) fun source => .ok ([], skipLine source)

theorem productionsProgress : ProductionsProgress α where
  comment indent := ⟨comment_apply indent, forward_comment indent⟩
  textItem indent := ⟨textItem_apply indent, forward_textItem indent⟩
  element indent := ⟨element_apply indent, forward_element indent⟩
  controlFlow indent := ⟨controlFlow_apply indent, forward_controlFlow indent⟩
  blankLine := ⟨blankLine_apply, forward_blankLine⟩
  deeperIndent indent := ⟨deeperIndent_apply indent, forward_deeperIndent indent⟩
  splat layout := ⟨splat_apply layout, forward_splat layout⟩
  pair layout := ⟨pair_apply layout, forward_pair layout⟩
  bareName close := ⟨bareName_apply close, forward_bareName⟩
  refName := ⟨refName_apply, forward_refName⟩
  instructionWord := ⟨instructionWord_apply, forward_instructionWord⟩

theorem loopsProgress : LoopsProgress α where
  siblings := isLoop_siblings
  wrappedAttributes := isLoop_wrappedAttributes
  inlineAttributes := isLoop_inlineAttributes
  continuedText := isLoop_continuedText
  skipDeeperLines := isLoop_skipDeeperLines
  textLine := isLoop_textLine
  skipLine := isLoop_skipLine

end Parser.Reader

/-- The parser goes forward or not at all. So its loops come to an end, and so does the parsing of
every source, with calls in proportion to its length. -/
theorem parser_progresses :
    Parser.Reader.ProductionsProgress α ∧ Parser.Reader.LoopsProgress α ∧
      ∀ (source : Source α) (more : Nat),
        parseWithin (4 * source.length + 3 + more) source = some (parse source) :=
  ⟨Parser.Reader.productionsProgress, Parser.Reader.loopsProgress, parseWithin_enough⟩

end IndentMarkup

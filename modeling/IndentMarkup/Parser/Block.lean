import IndentMarkup.Parser.Instruction
import IndentMarkup.Parser.Text
import IndentMarkup.Parser.Traced

/-! Blocks. A block is a row of items at one indent; what stands deeper below an element or a
control flow line is a block of its own. The productions call one another, so each gives back its
rest with a proof that it is shorter than its input. Behind them stand the same productions
without log and proof, each with the equation it satisfies. -/
namespace IndentMarkup.Parser

open Text (isBlank)

variable {α : Type}

/-! ## The productions with their log -/

/-- A result and the input behind it, where something has been taken. -/
abbrev Behind (source : Source α) (β : Type) :=
  { found : β × Source α // found.2.length < source.length }

/-- A result and the input behind it, where nothing need have been taken. -/
abbrev AtOrBehind (source : Source α) (β : Type) :=
  { found : β × Source α // found.2.length ≤ source.length }

/-- The input behind one blank, if it begins with one. -/
def skipOneBlank : Source α → Source α
  | .char c :: rest => if isBlank c then rest else .char c :: rest
  | source => source

/-- The input behind the colon of a block expansion and the blanks around it. -/
def expansion? (source : Source α) : Option (Source α) :=
  match afterWhile isBlank source with
  | .char ':' :: rest => some (afterWhile isBlank rest)
  | _ => none

theorem length_skipOneBlank_le (source : Source α) :
    (skipOneBlank source).length ≤ source.length := by
  unfold skipOneBlank
  split
  · split
    · exact Nat.le_succ _
    · exact Nat.le_refl _
  · exact Nat.le_refl _

theorem length_of_expansion? {source rest : Source α} (h : expansion? source = some rest) :
    rest.length < source.length := by
  have hblanks := length_afterWhile_le isBlank source
  unfold expansion? at h
  split at h
  · rename_i after hcolon
    obtain rfl := Option.some.inj h
    have hafter := length_afterWhile_le isBlank after
    rw [hcolon, List.length_cons] at hblanks
    omega
  · contradiction

namespace Traced

mutual

/-- One item of a block. The alternatives are tried in turn; there is no item only at the end of
the input. -/
def item (indent : Indent) (source : Source α) :
    Traced α (Option (Behind source (List (Node α)))) := do
  note .item source
  match hcomment : comment? indent source with
  | some rest =>
    note .comment source
    return some ⟨([], rest), length_of_comment? hcomment⟩
  | none =>
    match htext : textItem? indent source with
    | some (nodes, rest) =>
      note .textItem source
      return some ⟨(nodes, rest), length_of_textItem? htext⟩
    | none =>
      match ← element indent source with
      | some found => return some found
      | none =>
        match ← instruction indent source with
        | some found => return some found
        | none =>
          match hblank : blankLine? source with
          | some (_, rest) => return some ⟨([], rest), length_of_blankLine? hblank⟩
          | none => if source.isEmpty then return none else fail .unknownIndicator source
termination_by 4 * source.length + 1

/-- An element with its content, and the spaces around it. -/
def element (indent : Indent) (source : Source α) :
    Traced α (Option (Behind source (List (Node α)))) := do
  match hnaming : naming source with
  | .error failure => failWith failure
  | .ok none => return none
  | .ok (some (named, rest)) =>
    note .element rest
    match hopening : openingRest named rest with
    | .error failure => failWith failure
    | .ok (opening, rest) =>
      have hnaming := length_of_naming hnaming
      have hopening := length_of_openingRest hopening
      let ⟨(children, rest), hcontent⟩ ← content indent rest
      return some ⟨(opening.nodes children, rest), by grind⟩
termination_by 4 * source.length

/-- The content of an element: the element behind a colon, or the text on the line, or the block
below the line. -/
def content (indent : Indent) (source : Source α) :
    Traced α (AtOrBehind source (List (Node α))) := do
  have hblank := length_skipOneBlank_le source
  match hcolon : expansion? (skipOneBlank source) with
  | some rest =>
    have hcolon := length_of_expansion? hcolon
    match ← element indent rest with
    | some ⟨found, hfound⟩ => return ⟨found, by omega⟩
    | none => fail .elementExpected rest
  | none =>
    have hlength := length_lineText_le indent (skipOneBlank source)
    match hline : lineText indent (skipOneBlank source) with
    | (some nodes, rest) => return ⟨(nodes, rest), by grind⟩
    | (none, rest) =>
      let ⟨found, hfound⟩ ← children indent rest
      return ⟨found, by grind⟩
termination_by 4 * source.length + 1
decreasing_by
  · omega
  · grind

/-- The block below a line at `indent`, if the next line that is not blank is deeper. -/
def children (indent : Indent) (source : Source α) :
    Traced α (AtOrBehind source (List (Node α))) := do
  have hblank := length_skipBlankLines_le source
  match hdeeper : deeperIndent? indent (skipBlankLines source) with
  | none => return ⟨([], skipBlankLines source), hblank⟩
  | some start =>
    have hstart : start.2.length < _ := length_of_deeperIndent? hdeeper
    match ← block start.1 start.2 with
    | some ⟨found, hfound⟩ => return ⟨found, by omega⟩
    | none => return ⟨([], start.2), by grind⟩
termination_by 4 * source.length

/-- A control flow line with its blocks. -/
def instruction (indent : Indent) (source : Source α) :
    Traced α (Option (Behind source (List (Node α)))) := do
  match hname : instructionName source with
  | .error failure => failWith failure
  | .ok none => return none
  | .ok (some (word, rest)) =>
    note (.instruction word) rest
    match hline : instructionRest word rest with
    | .error failure => failWith failure
    | .ok (.ifThen condition, rest) =>
      have hname := length_of_instructionName hname
      have hline := length_of_instructionRest hline
      let ⟨(thenBranch, rest), hthen⟩ ← children indent rest
      let ⟨(elseBranch, rest), helse⟩ ← otherwise indent rest
      return some ⟨([.ifBlock condition thenBranch elseBranch], rest), by grind⟩
    | .ok (.forEach variableName iterable, rest) =>
      have hname := length_of_instructionName hname
      have hline := length_of_instructionRest hline
      let ⟨(body, rest), hbody⟩ ← children indent rest
      return some ⟨([.forBlock variableName iterable body], rest), by grind⟩
termination_by 4 * source.length
decreasing_by all_goals grind

/-- The block of an `else` at `indent`, if one is written. -/
def otherwise (indent : Indent) (source : Source α) :
    Traced α (AtOrBehind source (List (Node α))) := do
  match hmark : elseMark? indent source with
  | none => return ⟨([], source), Nat.le_refl _⟩
  | some rest =>
    match hend : endOfLine .elseMark rest with
    | .error failure => failWith failure
    | .ok rest =>
      have hmark := length_of_elseMark? hmark
      have hend := length_of_endOfLine hend
      let ⟨found, hfound⟩ ← children indent rest
      return ⟨found, by grind⟩
termination_by 4 * source.length + 1

/-- The items at `indent` that follow an item of their block. A line that goes on deeper than
`indent` has no block it could belong to. -/
def siblings (indent : Indent) (source : Source α) :
    Traced α (AtOrBehind source (List (Node α))) := do
  match hindent : literal? indent source with
  | none => return ⟨([], source), Nat.le_refl _⟩
  | some start =>
    have hindent := length_of_literal? hindent
    if !(charsWhile isBlank start).isEmpty then fail .malformedIndent start
    else
      match ← item indent start with
      | none => return ⟨([], source), Nat.le_refl _⟩
      | some ⟨(nodes, rest), hitem⟩ =>
        let ⟨(more, rest), hmore⟩ ← siblings indent rest
        return ⟨(nodes ++ more, rest), by grind⟩
termination_by 4 * source.length + 2
decreasing_by all_goals grind

/-- A block, from behind the indent of its first item. -/
def block (indent : Indent) (source : Source α) :
    Traced α (Option (Behind source (List (Node α)))) := do
  match ← item indent source with
  | none => return none
  | some ⟨(nodes, rest), hitem⟩ =>
    let ⟨(more, rest), hmore⟩ ← siblings indent rest
    return some ⟨(nodes ++ more, rest), by grind⟩
termination_by 4 * source.length + 2

end

end Traced

/-! ## The productions -/

/-- Forgets the log of a production that may not apply, and the proof that comes with its rest. -/
private def plain? {source : Source α} {β : Type}
    (traced : Traced α (Option (Behind source β))) :
    Except (Failure α) (Option (β × Source α)) :=
  traced.outcome.map (Option.map Subtype.val)

/-- Forgets the log of a production, and the proof that comes with its rest. -/
private def plain {source : Source α} {β : Type} (traced : Traced α (AtOrBehind source β)) :
    Except (Failure α) (β × Source α) :=
  traced.outcome.map Subtype.val

def item (indent : Indent) (source : Source α) :
    Except (Failure α) (Option (List (Node α) × Source α)) :=
  plain? (Traced.item indent source)

def element (indent : Indent) (source : Source α) :
    Except (Failure α) (Option (List (Node α) × Source α)) :=
  plain? (Traced.element indent source)

def content (indent : Indent) (source : Source α) :
    Except (Failure α) (List (Node α) × Source α) :=
  plain (Traced.content indent source)

/-- The block below a line at `indent`; it is empty unless the next line that is not blank is
deeper. -/
def children (indent : Indent) (source : Source α) :
    Except (Failure α) (List (Node α) × Source α) :=
  plain (Traced.children indent source)

def instruction (indent : Indent) (source : Source α) :
    Except (Failure α) (Option (List (Node α) × Source α)) :=
  plain? (Traced.instruction indent source)

/-- The block of an `else` at `indent`; it is empty if none is written. -/
def otherwise (indent : Indent) (source : Source α) :
    Except (Failure α) (List (Node α) × Source α) :=
  plain (Traced.otherwise indent source)

def siblings (indent : Indent) (source : Source α) :
    Except (Failure α) (List (Node α) × Source α) :=
  plain (Traced.siblings indent source)

def block (indent : Indent) (source : Source α) :
    Except (Failure α) (Option (List (Node α) × Source α)) :=
  plain? (Traced.block indent source)

/-- A block is what the block with its log comes to. -/
theorem map_outcome_block (indent : Indent) (source : Source α) :
    (Traced.block indent source).outcome.map (Option.map Subtype.val) = block indent source := rfl

/-! ## Their equations -/

private theorem ok_bind {ε β γ : Type} (value : β) (next : β → Except ε γ) :
    (Except.ok value >>= next) = next value := rfl

private theorem map_ok {ε β γ : Type} (value : β) (f : β → γ) :
    (Except.ok value : Except ε β).map f = .ok (f value) := rfl

theorem item_eq (indent : Indent) (source : Source α) :
    item indent source =
      match comment? indent source with
      | some rest => .ok (some ([], rest))
      | none =>
        match textItem? indent source with
        | some found => .ok (some found)
        | none => (do
          match ← element indent source with
          | some found => return some found
          | none =>
            match ← instruction indent source with
            | some found => return some found
            | none =>
              match blankLine? source with
              | some (_, rest) => return some ([], rest)
              | none =>
                if source.isEmpty then return none
                else throw ⟨.unknownIndicator, source⟩) := by
  simp only [item, element, instruction, plain?]
  rw [Traced.item]
  simp only [Traced.outcome_bind, Traced.outcome_note, ok_bind]
  split
  · simp_all; rfl
  · split
    · simp_all; rfl
    · simp only [Traced.outcome_bind, *]
      cases (Traced.element indent source).outcome with
      | error => rfl
      | ok found =>
        cases found with
        | some => rfl
        | none =>
          simp only [Traced.outcome_bind, ok_bind, map_ok, Option.map]
          cases (Traced.instruction indent source).outcome with
          | error => rfl
          | ok found =>
            cases found with
            | some => rfl
            | none =>
              simp only [Option.map, ok_bind, map_ok]
              split
              · simp_all; rfl
              · split <;> simp_all <;> rfl

theorem element_eq (indent : Indent) (source : Source α) :
    element indent source = do
      match ← naming source with
      | none => return none
      | some (named, rest) =>
        let (opening, rest) ← openingRest named rest
        let (children, rest) ← content indent rest
        return some (opening.nodes children, rest) := by
  simp only [element, content, plain?, plain]
  rw [Traced.element]
  split
  · simp_all; rfl
  · simp_all; rfl
  · simp only [Traced.outcome_bind, Traced.outcome_note, ok_bind, *]
    split
    · simp_all; rfl
    · simp only [Traced.outcome_bind, ok_bind, *]
      cases (Traced.content indent _).outcome <;> rfl

theorem content_eq (indent : Indent) (source : Source α) :
    content indent source =
      let start := skipOneBlank source
      match expansion? start with
      | some rest => (do
        match ← element indent rest with
        | some found => return found
        | none => throw ⟨.elementExpected, rest⟩)
      | none =>
        match lineText indent start with
        | (some nodes, rest) => .ok (nodes, rest)
        | (none, rest) => children indent rest := by
  simp only [content, element, children, plain?, plain]
  rw [Traced.content]
  split
  · simp only [Traced.outcome_bind, *]
    cases (Traced.element indent _).outcome with
    | error => rfl
    | ok found => cases found <;> rfl
  · split
    · simp_all; rfl
    · simp only [Traced.outcome_bind, *]
      cases (Traced.children indent _).outcome <;> rfl

theorem children_eq (indent : Indent) (source : Source α) :
    children indent source =
      match deeperIndent? indent (skipBlankLines source) with
      | none => .ok ([], skipBlankLines source)
      | some (deeper, rest) => (do
        match ← block deeper rest with
        | some found => return found
        | none => return ([], rest)) := by
  simp only [children, block, plain?, plain]
  rw [Traced.children]
  split
  · simp_all; rfl
  · simp only [Traced.outcome_bind, *]
    cases (Traced.block _ _).outcome with
    | error => rfl
    | ok found => cases found <;> rfl

theorem instruction_eq (indent : Indent) (source : Source α) :
    instruction indent source = do
      match ← instructionName source with
      | none => return none
      | some (word, rest) =>
        match ← instructionRest word rest with
        | (.ifThen condition, rest) =>
          let (thenBranch, rest) ← children indent rest
          let (elseBranch, rest) ← otherwise indent rest
          return some ([.ifBlock condition thenBranch elseBranch], rest)
        | (.forEach variableName iterable, rest) =>
          let (body, rest) ← children indent rest
          return some ([.forBlock variableName iterable body], rest) := by
  simp only [instruction, children, otherwise, plain?, plain]
  rw [Traced.instruction]
  split
  · simp_all; rfl
  · simp_all; rfl
  · simp only [Traced.outcome_bind, Traced.outcome_note, ok_bind, *]
    split
    · simp_all; rfl
    · simp only [Traced.outcome_bind, ok_bind, *]
      cases (Traced.children indent _).outcome with
      | error => rfl
      | ok found =>
        simp only [ok_bind, map_ok]
        cases (Traced.otherwise indent _).outcome <;> rfl
    · simp only [Traced.outcome_bind, ok_bind, *]
      cases (Traced.children indent _).outcome <;> rfl

theorem otherwise_eq (indent : Indent) (source : Source α) :
    otherwise indent source =
      match elseMark? indent source with
      | none => .ok ([], source)
      | some rest => (do
        let rest ← endOfLine .elseMark rest
        children indent rest) := by
  simp only [otherwise, children, plain]
  rw [Traced.otherwise]
  split
  · simp_all; rfl
  · split
    · simp_all; rfl
    · simp only [Traced.outcome_bind, ok_bind, *]
      cases (Traced.children indent _).outcome <;> rfl

theorem siblings_eq (indent : Indent) (source : Source α) :
    siblings indent source =
      match literal? indent source with
      | none => .ok ([], source)
      | some start =>
        if !(charsWhile isBlank start).isEmpty then .error ⟨.malformedIndent, start⟩
        else do
          match ← item indent start with
          | none => return ([], source)
          | some (nodes, rest) =>
            let (more, rest) ← siblings indent rest
            return (nodes ++ more, rest) := by
  simp only [siblings, item, plain?, plain]
  rw [Traced.siblings]
  split
  · simp_all; rfl
  · simp only [*]
    split
    · rfl
    · simp only [Traced.outcome_bind]
      cases (Traced.item indent _).outcome with
      | error => rfl
      | ok found =>
        cases found with
        | none => rfl
        | some found =>
          simp only [Traced.outcome_bind, ok_bind, map_ok, Option.map]
          cases (Traced.siblings indent _).outcome <;> rfl

theorem block_eq (indent : Indent) (source : Source α) :
    block indent source = do
      match ← item indent source with
      | none => return none
      | some (nodes, rest) =>
        let (more, rest) ← siblings indent rest
        return some (nodes ++ more, rest) := by
  simp only [block, item, siblings, plain?, plain]
  rw [Traced.block]
  simp only [Traced.outcome_bind]
  cases (Traced.item indent _).outcome with
  | error => rfl
  | ok found =>
    cases found with
    | none => rfl
    | some found =>
      simp only [Traced.outcome_bind, ok_bind, map_ok, Option.map]
      cases (Traced.siblings indent _).outcome <;> rfl

/-! ## Blank lines and the end of the input -/

theorem children_skipBlankLines (indent : Indent) (source : Source α) :
    children indent (skipBlankLines source) = children indent source := by
  rw [children_eq, children_eq, skipBlankLines_skipBlankLines]

theorem naming_nil : naming ([] : Source α) = .ok none := by
  simp [naming, base?, slot?, tagName?, charsWhile, shorthands_eq]
  rfl

theorem element_nil (indent : Indent) : element indent ([] : Source α) = .ok none := by
  rw [element_eq, naming_nil]
  rfl

theorem instruction_nil (indent : Indent) : instruction indent ([] : Source α) = .ok none := by
  rw [instruction_eq]
  rfl

/-- There is no item at the end of the input. -/
theorem item_nil (indent : Indent) : item indent ([] : Source α) = .ok none := by
  rw [item_eq, element_nil, instruction_nil]
  rfl

theorem siblings_nil (indent : Indent) : siblings indent ([] : Source α) = .ok ([], []) := by
  rw [siblings_eq]
  cases indent with
  | nil =>
    simp only [literal?, charsWhile, item_nil]
    rfl
  | cons c indent => rfl

theorem children_nil (indent : Indent) : children indent ([] : Source α) = .ok ([], []) := by
  rw [children_eq, skipBlankLines_nil]
  cases indent <;> rfl

/-! ## Every production goes forward -/

private theorem length_of_plain? {source rest : Source α} {β : Type} {value : β}
    {traced : Traced α (Option (Behind source β))}
    (h : plain? traced = .ok (some (value, rest))) : rest.length < source.length := by
  unfold plain? at h
  cases houtcome : traced.outcome with
  | error => simp [houtcome, Except.map] at h
  | ok found =>
    rcases found with _ | ⟨found, hfound⟩
    · simp [houtcome, Except.map] at h
    · simp [houtcome, Except.map] at h
      simpa [h] using hfound

private theorem length_of_plain {source rest : Source α} {β : Type} {value : β}
    {traced : Traced α (AtOrBehind source β)} (h : plain traced = .ok (value, rest)) :
    rest.length ≤ source.length := by
  unfold plain at h
  cases houtcome : traced.outcome with
  | error => simp [houtcome, Except.map] at h
  | ok found =>
    obtain ⟨found, hfound⟩ := found
    simp [houtcome, Except.map] at h
    simpa [h] using hfound

variable {indent : Indent} {source rest : Source α} {nodes : List (Node α)}

theorem length_of_item (h : item indent source = .ok (some (nodes, rest))) :
    rest.length < source.length := length_of_plain? h

theorem length_of_element (h : element indent source = .ok (some (nodes, rest))) :
    rest.length < source.length := length_of_plain? h

theorem length_of_children (h : children indent source = .ok (nodes, rest)) :
    rest.length ≤ source.length := length_of_plain h

theorem length_of_instruction (h : instruction indent source = .ok (some (nodes, rest))) :
    rest.length < source.length := length_of_plain? h

theorem length_of_block (h : block indent source = .ok (some (nodes, rest))) :
    rest.length < source.length := length_of_plain? h

end IndentMarkup.Parser

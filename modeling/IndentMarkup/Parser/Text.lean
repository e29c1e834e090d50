import IndentMarkup.Document.Basic
import IndentMarkup.Parser.Token

/-! Comments and text items. Both take whole lines: the line they begin on, and the lines after it
that are blank or deeper than their block. Neither can fail. -/
namespace IndentMarkup.Parser

open Text (isBlank)

variable {α : Type}

/-! ## Comments -/

/-- The input behind the line at its front, whatever the line holds. -/
def skipLine : Source α → Source α
  | [] => []
  | .char '\n' :: rest => rest
  | _ :: rest => skipLine rest

theorem length_skipLine_le (source : Source α) : (skipLine source).length ≤ source.length := by
  fun_induction skipLine source with
  | case1 => exact Nat.le_refl _
  | case2 rest => exact Nat.le_succ _
  | case3 symbol rest _ ih => exact Nat.le_succ_of_le ih

theorem length_skipLine_lt {source : Source α} (h : source ≠ []) :
    (skipLine source).length < source.length := by
  fun_induction skipLine source with
  | case1 => contradiction
  | case2 rest => exact Nat.lt_succ_self _
  | case3 symbol rest => exact Nat.lt_succ_of_le (length_skipLine_le rest)

/-- The input behind the lines at its front that are blank or deeper than `indent`. -/
def skipDeeperLines (indent : Indent) (source : Source α) : Source α :=
  match _deeper : deeperIndent? indent source with
  | some (_, rest) => skipDeeperLines indent (skipLine rest)
  | none =>
    match _blank : blankLine? source with
    | some _ => skipDeeperLines indent (skipLine source)
    | none => source
termination_by source.length
decreasing_by
  · have := length_of_deeperIndent? _deeper
    have := length_skipLine_le ‹Source α›
    omega
  · have := length_of_blankLine? _blank
    exact length_skipLine_lt (by rintro rfl; grind)

theorem skipDeeperLines_eq (indent : Indent) (source : Source α) :
    skipDeeperLines indent source =
      match deeperIndent? indent source with
      | some (_, rest) => skipDeeperLines indent (skipLine rest)
      | none =>
        match blankLine? source with
        | some _ => skipDeeperLines indent (skipLine source)
        | none => source := by
  rw [skipDeeperLines]
  split
  · simp only [*]
  · split <;> simp only [*]

theorem length_skipDeeperLines_le (indent : Indent) (source : Source α) :
    (skipDeeperLines indent source).length ≤ source.length := by
  fun_induction skipDeeperLines indent source with
  | case1 source _ rest found ih =>
    have := length_of_deeperIndent? found
    have := length_skipLine_le rest
    omega
  | case2 source _ _ _ ih =>
    have := length_skipLine_le source
    omega
  | case3 => omega

/-- The input behind a comment: the line after a slash, and every blank or deeper line below. -/
def comment? (indent : Indent) : Source α → Option (Source α)
  | .char '/' :: rest => some (skipDeeperLines indent (skipLine rest))
  | _ => none

theorem length_of_comment? {indent : Indent} {source rest : Source α}
    (h : comment? indent source = some rest) : rest.length < source.length := by
  unfold comment? at h
  split at h
  · rename_i line
    obtain rfl := Option.some.inj h
    have hdeeper := length_skipDeeperLines_le indent (skipLine line)
    exact Nat.lt_succ_of_le (Nat.le_trans hdeeper (length_skipLine_le line))
  · contradiction

/-! ## Text items -/

/-- Whether a character can stand in a line of text. -/
def inLine (c : Char) : Bool :=
  c != '\n'

/-- The text and the slots of a line, and the line break that ends it. -/
def textLine : Source α → List (Node α) × Source α
  | [] => ([], [])
  | .slot value :: rest =>
    let (nodes, rest) := textLine rest
    (.slot value :: nodes, rest)
  | .char c :: rest =>
    if c = '\n' then ([.newLine], rest)
    else
      let (nodes, after) := textLine (afterWhile inLine rest)
      (.text (String.ofList (c :: charsWhile inLine rest)) :: nodes, after)
termination_by source => source.length
decreasing_by
  · grind
  · have := length_afterWhile_le inLine rest
    grind

theorem length_textLine_le (source : Source α) :
    (textLine source).2.length ≤ source.length := by
  fun_induction textLine source with
  | case1 => exact Nat.le_refl _
  | case2 value rest nodes after hline ih =>
    rw [hline] at ih
    exact Nat.le_succ_of_le ih
  | case3 => exact Nat.le_succ _
  | case4 c rest hc nodes after hline ih =>
    rw [hline] at ih
    exact Nat.le_succ_of_le (Nat.le_trans ih (length_afterWhile_le inLine rest))

/-- Text without the line breaks at its end. -/
def dropTrailingNewLines (nodes : List (Node α)) : List (Node α) :=
  (nodes.reverse.dropWhile Node.isNewLine).reverse

/-- What an indent leaves of the deeper indent of a line, as text. -/
def indentText (indent : List Char) : List (Node α) :=
  if indent.isEmpty then [] else [.text (String.ofList indent)]

/-- The lines at the front of the input that are blank or deeper than `indent`, as text. The
indent `trimmed` is taken off the front of each line, and the last line break is kept. -/
def continuedText (indent trimmed : Indent) (source : Source α) : List (Node α) × Source α :=
  match _blank : blankLine? source with
  | some (lineEnd, rest) =>
    let (nodes, rest) := continuedText indent trimmed rest
    match lineEnd with
    | .newline => (.newLine :: nodes, rest)
    | .endOfInput => (nodes, rest)
  | none =>
    match _deeper : deeperIndent? indent source with
    | none => ([], source)
    | some (deeper, rest) =>
      let line := textLine rest
      let (nodes, rest) := continuedText indent trimmed line.2
      (indentText (Indent.trim deeper trimmed) ++ line.1 ++ nodes, rest)
termination_by source.length
decreasing_by
  · exact length_of_blankLine? _blank
  · have := length_of_deeperIndent? _deeper
    have := length_textLine_le ‹Source α›
    omega

theorem continuedText_eq (indent trimmed : Indent) (source : Source α) :
    continuedText indent trimmed source =
      match blankLine? source with
      | some (lineEnd, rest) =>
        let (nodes, rest) := continuedText indent trimmed rest
        match lineEnd with
        | .newline => (.newLine :: nodes, rest)
        | .endOfInput => (nodes, rest)
      | none =>
        match deeperIndent? indent source with
        | none => ([], source)
        | some (deeper, rest) =>
          let line := textLine rest
          let (nodes, rest) := continuedText indent trimmed line.2
          (indentText (Indent.trim deeper trimmed) ++ line.1 ++ nodes, rest) := by
  rw [continuedText]
  split
  · rename_i lineEnd rest found
    cases lineEnd <;> simp only [found]
  · split <;> simp only [*]

theorem length_continuedText_le (indent trimmed : Indent) (source : Source α) :
    (continuedText indent trimmed source).2.length ≤ source.length := by
  fun_induction continuedText indent trimmed source with
  | case1 source rest nodes after hmore _ hblank ih =>
    rw [hmore] at ih
    exact Nat.le_trans ih (Nat.le_of_lt (length_of_blankLine? hblank))
  | case2 source rest nodes after hmore _ hblank ih =>
    rw [hmore] at ih
    exact Nat.le_trans ih (Nat.le_of_lt (length_of_blankLine? hblank))
  | case3 => exact Nat.le_refl _
  | case4 source _ deeper rest hdeeper line nodes after hmore ih =>
    have hline : line.2.length ≤ rest.length := length_textLine_le rest
    rw [hmore] at ih
    exact Nat.le_trans (Nat.le_trans ih hline) (Nat.le_of_lt (length_of_deeperIndent? hdeeper))

/-- Text that begins on a line deeper than `indent` and goes on below it, every line without the
indent of the first. -/
def nestedText? (indent : Indent) (source : Source α) : Option (List (Node α) × Source α) := do
  let (deeper, rest) ← deeperIndent? indent source
  let line := textLine rest
  let more := continuedText indent deeper line.2
  return (line.1 ++ more.1, more.2)

theorem length_of_nestedText? {indent : Indent} {source rest : Source α} {nodes : List (Node α)}
    (h : nestedText? indent source = some (nodes, rest)) : rest.length < source.length := by
  simp only [nestedText?, Option.bind_eq_bind, Option.bind_eq_some_iff, Option.pure_def,
    Option.some.injEq, Prod.mk.injEq, Prod.exists] at h
  obtain ⟨deeper, after, hdeeper, _, rfl⟩ := h
  have := length_of_deeperIndent? hdeeper
  have := length_textLine_le after
  have := length_continuedText_le indent deeper (textLine after).2
  omega

/-- Whether a character marks a text item: a bar, or an apostrophe for a space at its end. -/
def isTextMarker (c : Char) : Bool :=
  c == '|' || c == '\''

/-- Where the text of a text item begins, from behind its marker: the indent that this gives to the
lines below, and the input from there. One space after the marker does not belong to the text. -/
def textStart (indent : Indent) : Source α → Indent × Source α
  | .char ' ' :: rest => (indent ++ [' ', ' '], rest)
  | source => (indent ++ [' '], source)

theorem length_textStart_le (indent : Indent) (source : Source α) :
    (textStart indent source).2.length ≤ source.length := by
  unfold textStart
  split <;> simp

/-- Whether a line holds nothing but its line break. -/
def isLineBreak : List (Node α) → Bool
  | [.newLine] => true
  | _ => false

/-- The text of a text item, from behind its marker. Lines below the first line up with the text
of the first; if nothing but a line break follows the marker, the text begins on the first line
that is not blank, provided it is deeper. -/
def textBody (indent : Indent) (source : Source α) : Option (List (Node α)) × Source α :=
  let start := textStart indent source
  let line := textLine start.2
  if isLineBreak line.1 then
    match nestedText? indent (skipBlankLines line.2) with
    | some (nodes, rest) => (some nodes, rest)
    | none => (none, skipBlankLines line.2)
  else
    let more := continuedText indent start.1 line.2
    (some (line.1 ++ more.1), more.2)

theorem length_textBody_le (indent : Indent) (source : Source α) :
    (textBody indent source).2.length ≤ source.length := by
  have := length_textStart_le indent source
  have := length_textLine_le (textStart indent source).2
  have := length_skipBlankLines_le (textLine (textStart indent source).2).2
  have := length_continuedText_le indent (textStart indent source).1
    (textLine (textStart indent source).2).2
  simp only [textBody]
  split
  · split
    · rename_i found
      have := length_of_nestedText? found
      simp only
      omega
    · simp only
      omega
  · simp only
    omega

/-- A text item. Line breaks at its end are dropped; an apostrophe adds a space after the text, if
there is a line of text at all. -/
def textItem? (indent : Indent) : Source α → Option (List (Node α) × Source α)
  | .char marker :: rest =>
    if isTextMarker marker then
      match textBody indent rest with
      | (none, rest) => some ([], rest)
      | (some nodes, rest) =>
        let space := if marker = '\'' then [.text " "] else []
        some (dropTrailingNewLines nodes ++ space, rest)
    else none
  | _ => none

theorem length_of_textItem? {indent : Indent} {source rest : Source α} {nodes : List (Node α)}
    (h : textItem? indent source = some (nodes, rest)) : rest.length < source.length := by
  unfold textItem? at h
  split at h
  · rename_i marker after
    have hbody := length_textBody_le indent after
    split at h
    · split at h
      · rename_i hnodes
        obtain ⟨-, rfl⟩ := Prod.mk.inj (Option.some.inj h)
        rw [hnodes] at hbody
        exact Nat.lt_succ_of_le hbody
      · rename_i hnodes
        obtain ⟨-, rfl⟩ := Prod.mk.inj (Option.some.inj h)
        rw [hnodes] at hbody
        exact Nat.lt_succ_of_le hbody
    · contradiction
  · contradiction

/-! ## Text behind an element header -/

/-- The text on the line of an element, with the deeper lines below it. There is none if the line
is empty; then only that line and the blank lines below it are taken. -/
def lineText (indent : Indent) (source : Source α) : Option (List (Node α)) × Source α :=
  let line := textLine source
  let rest := skipBlankLines line.2
  if line.1.all Node.isNewLine then (none, rest)
  else
    match nestedText? indent rest with
    | some (more, rest) => (some (dropTrailingNewLines (line.1 ++ more)), rest)
    | none => (some (dropTrailingNewLines line.1), rest)

theorem length_lineText_le (indent : Indent) (source : Source α) :
    (lineText indent source).2.length ≤ source.length := by
  have := length_textLine_le source
  have := length_skipBlankLines_le (textLine source).2
  simp only [lineText]
  split
  · simp only
    omega
  · split
    · rename_i found
      have := length_of_nestedText? found
      simp only
      omega
    · simp only
      omega

end IndentMarkup.Parser

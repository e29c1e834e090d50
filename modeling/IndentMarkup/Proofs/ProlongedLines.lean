import IndentMarkup.Proofs.Prolonged
import IndentMarkup.Proofs.RoundTrip

/-! Lines behind the end of a line. A comment, a text or a control flow line is read as before when
further input follows with a line end between, provided that the first further line that is not
blank ends what is below its indent. The blank lines in front of it are then taken as well, whether
they stand before the old end of the input or behind it: `joined` is what is left. A last line that
no line break ends takes one from the front of the further input. -/
namespace IndentMarkup.Parser

open Text (isBlank)
open Source (ofChars)

variable {α : Type} {indent : Indent} {source rest after : Source α} (tail : Source α)

/-! ## Blank lines -/

/-- What is left of an input with more input behind it, from the first line that is not blank. -/
def joined (rest tail : Source α) : Source α :=
  skipBlankLines (rest ++ tail)

theorem joined_nil (tail : Source α) : joined [] tail = skipBlankLines tail := rfl

/-- What is left behind a line that left `rest`, if further input follows: the further input comes
behind the rest, or the line takes its line break from there. -/
def Leaves (tail rest after : Source α) : Prop :=
  after = rest ++ tail ∨ rest = [] ∧ tail = .char '\n' :: after

theorem skipBlankLines_newline (rest : Source α) :
    skipBlankLines (.char '\n' :: rest) = skipBlankLines rest := by
  have hline : blankLine? (.char '\n' :: rest) = some (.newline, rest) := rfl
  rw [skipBlankLines_eq, hline]

theorem Leaves.skipBlankLines (h : Leaves tail rest after) :
    skipBlankLines after = joined rest tail := by
  rcases h with rfl | ⟨rfl, rfl⟩
  · rfl
  · exact (skipBlankLines_newline after).symm

/-- A blank line is blank with more input behind it; it may end with the line break there. -/
theorem blankLine?_prolong (h : LineBetween source tail) {lineEnd : LineEnd}
    (hblank : blankLine? source = some (lineEnd, rest)) :
    ∃ after, blankLine? (source ++ tail) = some (.newline, after) ∧ Leaves tail rest after ∧
      (lineEnd = .endOfInput → rest = []) := by
  unfold blankLine? at hblank ⊢
  rw [afterWhile_prolong tail (h.held rfl)]
  split at hblank
  · rename_i line hbreak
    obtain ⟨rfl, rfl⟩ := Prod.mk.inj (Option.some.inj hblank)
    rw [hbreak]
    exact ⟨_, rfl, .inl rfl, fun heq => by contradiction⟩
  · rename_i hnil
    split at hblank
    · contradiction
    · obtain ⟨rfl, rfl⟩ := Prod.mk.inj (Option.some.inj hblank)
      obtain hends | ⟨more, rfl⟩ := h
      · exact absurd hnil (hends.afterWhile rfl).ne_nil
      · rw [hnil]
        exact ⟨more, rfl, .inr ⟨rfl, rfl⟩, fun _ => rfl⟩
  · contradiction

/-- A line that is not blank is not blank with more input behind it. -/
theorem blankLine?_prolong_none (hne : source ≠ []) (hblank : blankLine? source = none) :
    blankLine? (source ++ tail) = none := by
  have hitem := beginsItem_of_not_blank hblank hne
  have hheld : Held isBlank (afterWhile isBlank source) tail := .inl hitem.ne_nil
  unfold blankLine?
  rw [afterWhile_prolong tail hheld]
  generalize afterWhile isBlank source = start at hitem
  cases start with
  | nil => contradiction
  | cons symbol rest =>
    cases symbol with
    | slot value => rfl
    | char c =>
      have hc : c ≠ '\n' := hitem.2
      simp [hc]

theorem WholeLines.lineBetween_of_blank {found : LineEnd × Source α} (h : WholeLines source tail)
    (hblank : blankLine? source = some found) : LineBetween source tail := by
  refine h.resolve_left ?_
  rintro rfl
  contradiction

/-- The line at the front is not blank, and a line ends before further input; or all is over. -/
structure AtLine (source tail : Source α) : Prop where
  wholeLines : WholeLines source tail
  notBlank : blankLine? source = none

theorem atLine_nil : AtLine ([] : Source α) tail := ⟨.inl rfl, rfl⟩

theorem AtLine.joined (h : AtLine source tail) (hne : source ≠ []) :
    LineBetween source tail ∧ joined source tail = source ++ tail :=
  ⟨h.wholeLines.resolve_left hne,
    skipBlankLines_of_not_blank (blankLine?_prolong_none tail hne h.notBlank)⟩

theorem skipBlankLines_prolong (h : WholeLines source tail) :
    skipBlankLines (source ++ tail) = joined (skipBlankLines source) tail ∧
      AtLine (skipBlankLines source) tail := by
  fun_induction skipBlankLines source with
  | case1 source lineEnd rest hblank ih =>
    have hrest := ih (h.of_suffix (accounts_blankLine? hblank).suffix)
    obtain ⟨after, hblank', hleaves, -⟩ :=
      blankLine?_prolong tail (h.lineBetween_of_blank tail hblank) hblank
    rw [skipBlankLines_eq, hblank']
    simp only [hleaves.skipBlankLines]
    exact hrest
  | case2 source hblank => exact ⟨rfl, h, hblank⟩

/-- Behind a line, a look at the next line that is not blank sees the same with more input, if it
sees nothing at the end of the input nor in front of the further line. -/
theorem AtLine.look {β : Type} (h : AtLine source tail) (look : Source α → Option β)
    (more : β → β) (hnil : look [] = none) (htail : look (skipBlankLines tail) = none)
    (hsame : LineBetween source tail → look (source ++ tail) = (look source).map more) :
    look (Parser.joined source tail) = (look source).map more := by
  by_cases hne : source = []
  · subst hne
    rw [joined_nil, htail, hnil]
    rfl
  · obtain ⟨hbetween, hjoined⟩ := h.joined tail hne
    rw [hjoined, hsame hbetween]

/-! ## Whole lines -/

theorem skipLine_prolong (h : LineBetween source tail) :
    Leaves tail (skipLine source) (skipLine (source ++ tail)) := by
  fun_induction skipLine source with
  | case1 =>
    obtain h | ⟨more, rfl⟩ := h
    · exact absurd rfl h.ne_nil
    · exact .inr ⟨rfl, rfl⟩
  | case2 rest => exact .inl rfl
  | case3 symbol rest hsymbol ih =>
    have hskip : skipLine (symbol :: (rest ++ tail)) = skipLine (rest ++ tail) := by
      rw [skipLine]
      rintro rfl
      exact hsymbol rfl
    rw [List.cons_append, hskip]
    cases symbol with
    | slot value => exact ih h.of_slot
    | char c =>
      refine ih (h.of_char ?_)
      rintro rfl
      exact hsymbol rfl

/-- A blank line is skipped like any other. -/
theorem skipLine_blankLine {lineEnd : LineEnd} (h : blankLine? source = some (lineEnd, rest)) :
    skipLine source = rest := by
  have hblanks : '\n' ∉ charsWhile isBlank source := fun hmem => by
    have := of_mem_charsWhile hmem
    contradiction
  rw [← charsWhile_append_afterWhile isBlank source, skipLine_ofChars hblanks]
  unfold blankLine? at h
  split at h
  · rename_i after hbreak
    obtain ⟨-, rfl⟩ := Prod.mk.inj (Option.some.inj h)
    rw [hbreak]
    rfl
  · rename_i hnil
    rw [hnil]
    split at h
    · contradiction
    · obtain ⟨-, rfl⟩ := Prod.mk.inj (Option.some.inj h)
      rfl
  · contradiction

/-- A line of text with more input behind it: the same line, or the last one with its line break. -/
theorem textLine_prolong (h : LineBetween source tail) :
    textLine (source ++ tail) = prolong tail (textLine source) ∨
      (textLine source).2 = [] ∧ (∀ node ∈ (textLine source).1, node.isNewLine = false) ∧
        ∃ more, tail = .char '\n' :: more ∧
          textLine (source ++ tail) = ((textLine source).1 ++ [.newLine], more) := by
  fun_induction textLine source with
  | case1 =>
    obtain h | ⟨more, rfl⟩ := h
    · exact absurd rfl h.ne_nil
    · exact .inr ⟨rfl, by simp, more, rfl, by simp [textLine]⟩
  | case2 value rest nodes after hline ih =>
    rw [List.cons_append, textLine]
    rcases ih h.of_slot with hsame | ⟨hrest, hnone, more, rfl, hbreak⟩
    · rw [hsame, hline]
      exact .inl rfl
    · rw [hbreak]
      rw [hline] at hrest hnone ⊢
      exact .inr ⟨hrest, List.forall_mem_cons.mpr ⟨rfl, hnone⟩, more, rfl, rfl⟩
  | case3 rest =>
    rw [List.cons_append, textLine]
    exact .inl rfl
  | case4 c rest hc nodes after hline ih =>
    have hrest := h.of_char hc
    have hheld := hrest.held (p := inLine) rfl
    rw [List.cons_append, textLine, if_neg hc, charsWhile_prolong tail hheld,
      afterWhile_prolong tail hheld]
    rcases ih (hrest.afterWhile rfl) with hsame | ⟨hlast, hnone, more, rfl, hbreak⟩
    · rw [hsame, hline]
      exact .inl rfl
    · rw [hbreak]
      rw [hline] at hlast hnone ⊢
      exact .inr ⟨hlast, List.forall_mem_cons.mpr ⟨rfl, hnone⟩, more, rfl, rfl⟩

/-- Line breaks at the end of a text are dropped, however many there are. -/
theorem dropTrailingNewLines_append (nodes : List (Node α)) (count : Nat) :
    dropTrailingNewLines (nodes ++ List.replicate count .newLine) = dropTrailingNewLines nodes := by
  induction count with
  | zero => rw [List.replicate_zero, List.append_nil]
  | succ count ih =>
    rw [List.replicate_succ', ← List.append_assoc, dropTrailingNewLines, List.reverse_append]
    exact ih

theorem textStart_prolong (indent : Indent) (h : LineBetween source tail) :
    textStart indent (source ++ tail) = prolong tail (textStart indent source) ∧
      LineBetween (textStart indent source).2 tail := by
  cases source with
  | nil =>
    obtain h | ⟨more, rfl⟩ := h
    · exact absurd rfl h.ne_nil
    · exact ⟨rfl, .inr ⟨more, rfl⟩⟩
  | cons symbol rest =>
    by_cases hsymbol : symbol = .char ' '
    · subst hsymbol
      exact ⟨rfl, h.of_char (by decide)⟩
    · have hother : ∀ more : Source α,
          textStart indent (symbol :: more) = (indent ++ [' '], symbol :: more) := by
        simp [textStart, hsymbol]
      rw [List.cons_append, hother, hother]
      exact ⟨rfl, h⟩

/-! ## Deeper lines -/

theorem deeperIndent?_prolong (hindent : '\n' ∉ indent) (h : LineBetween source tail) :
    deeperIndent? indent (source ++ tail) = (deeperIndent? indent source).map (prolong tail) := by
  unfold deeperIndent?
  rw [literal?_prolong tail h hindent]
  cases hliteral : literal? indent source with
  | none => rfl
  | some after =>
    have hafter := h.of_literal? hindent hliteral
    simp only [Option.map_some, Option.bind_eq_bind, Option.bind_some,
      run?_prolong tail hafter (p := isBlank) rfl]
    cases run? isBlank after <;> rfl

theorem LineBetween.of_deeperIndent? (h : LineBetween source tail) (hindent : '\n' ∉ indent)
    {deeper : Indent} (hdeeper : deeperIndent? indent source = some (deeper, rest)) :
    LineBetween rest tail := by
  simp only [deeperIndent?, Option.bind_eq_bind, Option.bind_eq_some_iff, Option.pure_def,
    Option.some.injEq, Prod.mk.injEq, Prod.exists] at hdeeper
  obtain ⟨after, hliteral, _, _, hrun, -, rfl⟩ := hdeeper
  exact (h.of_literal? hindent hliteral).of_run? rfl hrun

theorem deeperIndent?_nil (indent : Indent) : deeperIndent? indent ([] : Source α) = none :=
  (ends_nil indent).notDeeper

theorem WholeLines.lineBetween_of_deeper {found : Indent × Source α} (h : WholeLines source tail)
    (hdeeper : deeperIndent? indent source = some found) : LineBetween source tail := by
  refine h.resolve_left ?_
  rintro rfl
  rw [deeperIndent?_nil] at hdeeper
  contradiction

/-- There is no line break in what goes on behind an indent without one. -/
theorem not_mem_append_gap (gap : Gap) (hindent : '\n' ∉ indent) : '\n' ∉ indent ++ gap.chars := by
  intro hmem
  rcases List.mem_append.mp hmem with hmem | hmem
  · exact hindent hmem
  · have := gap.blank _ hmem
    contradiction

theorem AtLine.look_deeper (h : AtLine source tail) (hindent : '\n' ∉ indent)
    (hends : Ends indent (skipBlankLines tail)) :
    deeperIndent? indent (Parser.joined source tail) =
      (deeperIndent? indent source).map (prolong tail) :=
  h.look tail (deeperIndent? indent) (prolong tail) (deeperIndent?_nil indent) hends.notDeeper
    (deeperIndent?_prolong tail hindent)

/-! ## Comments and texts

Both take the blank lines in front of what ends them, a comment by skipping them and a text as line
breaks. Those at the end of a text are dropped with it. -/

theorem continuedText_nil (indent trimmed : Indent) :
    continuedText indent trimmed ([] : Source α) = ([], []) :=
  continuedText_of_ends (ends_nil indent) trimmed

/-- A text of one line goes on to be more than a line break. -/
theorem isLineBreak_of_none {nodes : List (Node α)}
    (hnone : ∀ node ∈ nodes, node.isNewLine = false) :
    isLineBreak nodes = false ∧ (nodes ≠ [] → isLineBreak (nodes ++ [.newLine]) = false) := by
  cases nodes with
  | nil => exact ⟨rfl, fun hne => absurd rfl hne⟩
  | cons node rest =>
    have hnode := hnone node List.mem_cons_self
    cases node with
    | newLine => contradiction
    | _ => cases rest <;> exact ⟨rfl, fun _ => rfl⟩

theorem nestedText?_of_ends (h : Ends indent source) : nestedText? indent source = none := by
  rw [nestedText?, h.notDeeper]
  rfl

theorem textLine_ne_nil (hne : source ≠ []) : (textLine source).1 ≠ [] := by
  cases source with
  | nil => exact absurd rfl hne
  | cons symbol rest =>
    cases symbol with
    | slot value =>
      rw [textLine]
      exact List.cons_ne_nil _ _
    | char c =>
      rw [textLine]
      split <;> exact List.cons_ne_nil _ _

/-- An apostrophe at the end of the input, with nothing behind it but a space at most. -/
def bareApostrophe : Source α → Bool
  | [.char '\''] | [.char '\'', .char ' '] => true
  | _ => false

/-- The apostrophe of a text item that has nothing behind it. -/
theorem bareApostrophe_cons (indent : Indent) (marker : Char) (rest : Source α) :
    bareApostrophe (.char marker :: rest) =
      (marker == '\'' && (textStart indent rest).2.isEmpty) := by
  by_cases hmarker : marker = '\''
  · subst hmarker
    match rest with
    | [] => rfl
    | .slot value :: rest => rfl
    | [.char c] =>
      by_cases hc : c = ' '
      · subst hc
        rfl
      · simp [bareApostrophe, textStart, hc]
    | .char c :: second :: rest =>
      by_cases hc : c = ' '
      · subst hc
        rfl
      · simp [bareApostrophe, textStart, hc]
  · have hnone : bareApostrophe (.char marker :: rest) = false := by
      unfold bareApostrophe
      split
      · rename_i heq
        exact absurd (Symbol.char.inj (List.cons.inj heq).1) hmarker
      · rename_i heq
        exact absurd (Symbol.char.inj (List.cons.inj heq).1) hmarker
      · rfl
    simp [hnone, hmarker]

theorem textItem?_prolong_none (h : LineBetween source tail)
    (hnone : textItem? indent source = none) : textItem? indent (source ++ tail) = none := by
  cases source with
  | nil =>
    obtain h | ⟨more, rfl⟩ := h
    · exact absurd rfl h.ne_nil
    · rfl
  | cons symbol rest =>
    cases symbol with
    | slot value => rfl
    | char marker =>
      rw [List.cons_append, textItem?]
      rw [textItem?] at hnone
      cases hmarker : isTextMarker marker with
      | false => rfl
      | true =>
        rw [if_pos hmarker] at hnone
        split at hnone <;> contradiction

section Lower

variable (hindent : '\n' ∉ indent) (hends : Ends indent (skipBlankLines tail))

include hindent hends

/-- A comment takes the blank lines in front of what ends it, also those that are deeper. -/
theorem skipDeeperLines_tail :
    skipDeeperLines indent tail = skipBlankLines tail := by
  fun_induction skipBlankLines tail with
  | case1 source lineEnd rest hblank ih =>
    rw [skipDeeperLines_eq]
    cases hdeeper : deeperIndent? indent source with
    | none =>
      simp only [hblank, skipLine_blankLine hblank]
      exact ih hends
    | some found =>
      obtain ⟨gap, hgap, hsource, -⟩ := of_deeperIndent? hdeeper
      have hskip : skipLine found.2 = rest := by
        rw [← skipLine_blankLine hblank, hsource, skipLine_ofChars]
        rw [hgap]
        exact not_mem_append_gap gap hindent
      simp only [hskip]
      exact ih hends
  | case2 source hblank => rw [skipDeeperLines_eq, hends.notDeeper, hblank]

/-- Behind a line that took its line break from the further input there are blank lines at most. -/
theorem skipDeeperLines_leaves (h : Leaves tail rest after)
    (hmore : skipDeeperLines indent (rest ++ tail) = joined (skipDeeperLines indent rest) tail) :
    skipDeeperLines indent after = joined (skipDeeperLines indent rest) tail := by
  rcases h with rfl | ⟨rfl, rfl⟩
  · exact hmore
  · rw [skipBlankLines_newline] at hends
    have hnil : skipDeeperLines indent ([] : Source α) = [] := by
      rw [skipDeeperLines_eq, deeperIndent?_nil]
      rfl
    rw [skipDeeperLines_tail after hindent hends, hnil, joined_nil, skipBlankLines_newline]

theorem skipDeeperLines_prolong (h : WholeLines source tail) :
    skipDeeperLines indent (source ++ tail) = joined (skipDeeperLines indent source) tail ∧
      AtLine (skipDeeperLines indent source) tail := by
  fun_induction skipDeeperLines indent source with
  | case1 source deeper rest hdeeper ih =>
    have hsource := h.lineBetween_of_deeper tail hdeeper
    have hrest := hsource.of_deeperIndent? tail hindent hdeeper
    obtain ⟨hmore, hat⟩ := ih (hrest.wholeLines (suffix_skipLine rest))
    refine ⟨?_, hat⟩
    rw [skipDeeperLines_eq, deeperIndent?_prolong tail hindent hsource, hdeeper]
    exact skipDeeperLines_leaves tail hindent hends (skipLine_prolong tail hrest) hmore
  | case2 source hdeeper found hblank ih =>
    have hsource := h.lineBetween_of_blank tail hblank
    obtain ⟨hmore, hat⟩ := ih (h.of_suffix (suffix_skipLine source))
    obtain ⟨after, hblank', -⟩ := blankLine?_prolong tail hsource hblank
    refine ⟨?_, hat⟩
    rw [skipDeeperLines_eq, deeperIndent?_prolong tail hindent hsource, hdeeper, hblank']
    exact skipDeeperLines_leaves tail hindent hends (skipLine_prolong tail hsource) hmore
  | case3 source hdeeper hblank =>
    have hline : AtLine source tail := ⟨h, hblank⟩
    refine ⟨?_, hline⟩
    by_cases hne : source = []
    · subst hne
      exact skipDeeperLines_tail tail hindent hends
    · obtain ⟨hsource, hjoined⟩ := hline.joined tail hne
      rw [skipDeeperLines_eq, deeperIndent?_prolong tail hindent hsource, hdeeper,
        blankLine?_prolong_none tail hne hblank, hjoined]
      rfl

theorem comment?_prolong (h : LineBetween source tail) :
    comment? indent (source ++ tail) = (comment? indent source).map (joined · tail) ∧
      ∀ rest, comment? indent source = some rest → AtLine rest tail := by
  cases source with
  | nil =>
    obtain h | ⟨more, rfl⟩ := h
    · exact absurd rfl h.ne_nil
    · exact ⟨rfl, fun _ heq => by contradiction⟩
  | cons symbol rest =>
    by_cases hsymbol : symbol = .char '/'
    · subst hsymbol
      have hrest := h.of_char (by decide)
      obtain ⟨hmore, hline⟩ :=
        skipDeeperLines_prolong tail hindent hends (hrest.wholeLines (suffix_skipLine rest))
      have hskip :=
        skipDeeperLines_leaves tail hindent hends (skipLine_prolong tail hrest) hmore
      refine ⟨?_, fun rest heq => Option.some.inj heq ▸ hline⟩
      rw [List.cons_append, comment?, hskip]
      rfl
    · have hother := fun more => comment?_of_stops indent (stops_cons hsymbol more)
      rw [List.cons_append, hother, hother]
      exact ⟨rfl, fun _ heq => by contradiction⟩

omit hindent in
theorem continuedText_tail (trimmed : Indent) :
    ∃ count, continuedText indent trimmed tail =
      (List.replicate count .newLine, skipBlankLines tail) := by
  fun_induction skipBlankLines tail with
  | case1 source lineEnd rest hblank ih =>
    obtain ⟨count, hcount⟩ := ih hends
    rw [continuedText_eq, hblank]
    simp only [hcount]
    cases lineEnd with
    | newline => exact ⟨count + 1, rfl⟩
    | endOfInput => exact ⟨count, rfl⟩
  | case2 source hblank => exact ⟨0, continuedText_of_ends hends trimmed⟩

/-- A text with line breaks added to it, and the input behind it with more lines. -/
def ProlongedText (tail : Source α) (before after : List (Node α) × Source α) : Prop :=
  (∃ count, after = (before.1 ++ List.replicate count .newLine, joined before.2 tail)) ∧
    AtLine before.2 tail

omit hindent in
theorem continuedText_leaves (trimmed : Indent) (h : Leaves tail rest after)
    (hmore : ProlongedText tail (continuedText indent trimmed rest)
      (continuedText indent trimmed (rest ++ tail))) :
    ProlongedText tail (continuedText indent trimmed rest)
      (continuedText indent trimmed after) := by
  rcases h with rfl | ⟨rfl, rfl⟩
  · exact hmore
  · rw [skipBlankLines_newline] at hends
    obtain ⟨count, hcount⟩ := continuedText_tail after hends trimmed
    rw [hcount, continuedText_nil]
    refine ⟨⟨count, ?_⟩, atLine_nil _⟩
    rw [joined_nil, skipBlankLines_newline, List.nil_append]

omit hindent in
/-- A line and the lines that go on with it, the last of them with its line break. -/
theorem lines_prolong (trimmed : Indent) (h : LineBetween source tail)
    (hmore : ProlongedText tail (continuedText indent trimmed (textLine source).2)
      (continuedText indent trimmed ((textLine source).2 ++ tail))) :
    ProlongedText tail
      ((textLine source).1 ++ (continuedText indent trimmed (textLine source).2).1,
        (continuedText indent trimmed (textLine source).2).2)
      ((textLine (source ++ tail)).1 ++
          (continuedText indent trimmed (textLine (source ++ tail)).2).1,
        (continuedText indent trimmed (textLine (source ++ tail)).2).2) := by
  rcases textLine_prolong tail h with hsame | ⟨hrest, -, more, rfl, hbreak⟩
  · obtain ⟨⟨count, hcount⟩, hat⟩ := hmore
    rw [hsame]
    simp only [prolong, hcount]
    exact ⟨⟨count, by rw [List.append_assoc]⟩, hat⟩
  · rw [skipBlankLines_newline] at hends
    obtain ⟨count, hcount⟩ := continuedText_tail more hends trimmed
    rw [hbreak, hrest, continuedText_nil]
    simp only [hcount, List.append_nil]
    refine ⟨⟨count + 1, ?_⟩, atLine_nil _⟩
    rw [joined_nil, skipBlankLines_newline, List.append_assoc]
    rfl

theorem continuedText_prolong (trimmed : Indent) (h : WholeLines source tail) :
    ProlongedText tail (continuedText indent trimmed source)
      (continuedText indent trimmed (source ++ tail)) := by
  fun_induction continuedText indent trimmed source with
  | case1 source rest nodes last hmore _ hblank ih =>
    have hrest := ih (h.of_suffix (accounts_blankLine? hblank).suffix)
    obtain ⟨after, hblank', hleaves, -⟩ :=
      blankLine?_prolong tail (h.lineBetween_of_blank tail hblank) hblank
    obtain ⟨⟨count, hcount⟩, hline⟩ := continuedText_leaves tail hends trimmed hleaves hrest
    rw [hmore] at hcount hline
    refine ⟨⟨count, ?_⟩, hline⟩
    rw [continuedText_eq, hblank']
    simp only [hcount]
    rfl
  | case2 source rest nodes last hmore _ hblank ih =>
    have hrest := ih (h.of_suffix (accounts_blankLine? hblank).suffix)
    obtain ⟨after, hblank', hleaves, hover⟩ :=
      blankLine?_prolong tail (h.lineBetween_of_blank tail hblank) hblank
    obtain ⟨⟨count, hcount⟩, hline⟩ := continuedText_leaves tail hends trimmed hleaves hrest
    obtain rfl := hover rfl
    rw [hmore] at hcount hline
    obtain ⟨rfl, rfl⟩ := Prod.mk.inj (hmore.symm.trans (continuedText_nil indent trimmed))
    refine ⟨⟨count + 1, ?_⟩, hline⟩
    rw [continuedText_eq, hblank']
    simp only [hcount]
    rfl
  | case3 source hblank hdeeper =>
    have hline : AtLine source tail := ⟨h, hblank⟩
    refine ⟨?_, hline⟩
    by_cases hne : source = []
    · subst hne
      exact continuedText_tail tail hends trimmed
    · obtain ⟨hsource, hjoined⟩ := hline.joined tail hne
      refine ⟨0, ?_⟩
      rw [continuedText_eq, blankLine?_prolong_none tail hne hblank,
        deeperIndent?_prolong tail hindent hsource, hdeeper, hjoined]
      rfl
  | case4 source hblank deeper rest hdeeper line nodes last hmore ih =>
    have hsource := h.lineBetween_of_deeper tail hdeeper
    have hne : source ≠ [] := by
      rintro rfl
      rw [deeperIndent?_nil] at hdeeper
      contradiction
    have hrest := hsource.of_deeperIndent? tail hindent hdeeper
    obtain ⟨⟨count, hcount⟩, hline⟩ := lines_prolong tail hends trimmed hrest
      (ih (hrest.wholeLines (accounts_textLine rest).suffix))
    rw [show continuedText indent trimmed (textLine rest).2 = (nodes, last) from hmore]
      at hcount hline
    obtain ⟨hnodes, hlast⟩ := Prod.mk.inj hcount
    refine ⟨⟨count, ?_⟩, hline⟩
    rw [continuedText_eq, blankLine?_prolong_none tail hne hblank,
      deeperIndent?_prolong tail hindent hsource, hdeeper]
    simp only [Option.map_some, prolong, List.append_assoc, hlast]
    rw [hnodes]
    simp only [line, List.append_assoc]

/-- Text below a line, looked for from the first line that is not blank. -/
theorem nestedText?_prolong (h : AtLine source tail) :
    (nestedText? indent source = none ∧ nestedText? indent (joined source tail) = none) ∨
      ∃ before after, nestedText? indent source = some before ∧
        nestedText? indent (joined source tail) = some after ∧ ProlongedText tail before after := by
  unfold nestedText?
  rw [h.look_deeper tail hindent hends]
  cases hdeeper : deeperIndent? indent source with
  | none => exact .inl ⟨rfl, rfl⟩
  | some found =>
    obtain ⟨deeper, rest⟩ := found
    have hrest := (h.wholeLines.lineBetween_of_deeper tail hdeeper).of_deeperIndent? tail hindent
      hdeeper
    exact .inr ⟨_, _, rfl, rfl, lines_prolong tail hends deeper hrest
      (continuedText_prolong tail hindent hends deeper
        (hrest.wholeLines (accounts_textLine rest).suffix))⟩

/-- A text item that has something behind its marker, or further lines, is as before. -/
theorem textBody_prolong (h : LineBetween source tail) (hne : (textStart indent source).2 ≠ []) :
    (∃ count, textBody indent (source ++ tail) =
        ((textBody indent source).1.map (· ++ List.replicate count .newLine),
          joined (textBody indent source).2 tail)) ∧
      AtLine (textBody indent source).2 tail := by
  obtain ⟨hstart, hbetween⟩ := textStart_prolong tail indent h
  have hwhole := hbetween.wholeLines (accounts_textLine (textStart indent source).2).suffix
  have hlines := lines_prolong tail hends (textStart indent source).1 hbetween
    (continuedText_prolong tail hindent hends (textStart indent source).1 hwhole)
  simp only [textBody, hstart, prolong]
  rcases textLine_prolong tail hbetween with hsame | ⟨-, hnone, _, -, hbreak⟩
  · rw [hsame] at hlines ⊢
    simp only [prolong] at hlines ⊢
    by_cases hline : isLineBreak (textLine (textStart indent source).2).1 = true
    · obtain ⟨hskip, hat⟩ := skipBlankLines_prolong tail hwhole
      simp only [if_pos hline, hskip]
      rcases nestedText?_prolong tail hindent hends hat with
        ⟨hbefore, hafter⟩ | ⟨before, _, hbefore, hafter, ⟨count, rfl⟩, hat'⟩
      · rw [hbefore, hafter]
        exact ⟨⟨0, rfl⟩, hat⟩
      · rw [hbefore, hafter]
        exact ⟨⟨count, rfl⟩, hat'⟩
    · obtain ⟨⟨count, hcount⟩, hat⟩ := hlines
      obtain ⟨hnodes, hlast⟩ := Prod.mk.inj hcount
      simp only [if_neg hline, hnodes, hlast]
      exact ⟨⟨count, rfl⟩, hat⟩
  · -- the line ends with the input, and has text on it
    obtain ⟨hbefore, hafter⟩ := isLineBreak_of_none hnone
    have hafter := hafter (textLine_ne_nil hne)
    obtain ⟨⟨count, hcount⟩, hat⟩ := hlines
    obtain ⟨hnodes, hlast⟩ := Prod.mk.inj hcount
    rw [hbreak] at hnodes hlast ⊢
    simp only [hbefore, hafter, Bool.false_eq_true, if_false, hnodes, hlast]
    exact ⟨⟨count, rfl⟩, hat⟩

omit hindent in
/-- With nothing behind its marker a text item has a text, which is empty; a line break behind the
marker takes it away. -/
theorem textBody_break (h : (textStart indent source).2 = []) (hbetween : LineBetween source tail) :
    textBody indent source = (some [], []) ∧
      textBody indent (source ++ tail) = (none, joined [] tail) := by
  obtain ⟨hstart, hbetween⟩ := textStart_prolong tail indent hbetween
  rw [h] at hbetween
  obtain hlast | ⟨more, rfl⟩ := hbetween
  · exact absurd rfl hlast.ne_nil
  · have hempty : textLine ([] : Source α) = ([], []) := by rw [textLine]
    have hline : textLine (.char '\n' :: more) = ([.newLine], more) := by simp [textLine]
    rw [skipBlankLines_newline] at hends
    have hnested := nestedText?_of_ends hends
    simp only [textBody, hstart, prolong, h, List.nil_append, hempty, hline, continuedText_nil,
      joined_nil, skipBlankLines_newline, hnested]
    exact ⟨rfl, rfl⟩

/-- A text item has the same text, but for a space that a line break takes away. -/
theorem textItem?_prolong (h : LineBetween source tail) {nodes : List (Node α)}
    (htext : textItem? indent source = some (nodes, rest)) :
    AtLine rest tail ∧
      textItem? indent (source ++ tail) =
        some (if bareApostrophe source then [] else nodes, joined rest tail) ∧
      (bareApostrophe source = true → nodes = [.text " "]) := by
  cases source with
  | nil => contradiction
  | cons symbol line =>
    cases symbol with
    | slot value => contradiction
    | char marker =>
      rw [textItem?] at htext
      rw [List.cons_append, textItem?]
      cases hmarker : isTextMarker marker with
      | false => simp [hmarker] at htext
      | true =>
        have hline : LineBetween line tail := by
          refine h.of_char ?_
          rintro rfl
          contradiction
        rw [if_pos hmarker] at htext
        rw [bareApostrophe_cons indent]
        by_cases hstart : (textStart indent line).2 = []
        · obtain ⟨hbefore, hafter⟩ := textBody_break tail hends hstart hline
          rw [hbefore] at htext
          obtain ⟨rfl, rfl⟩ := Prod.mk.inj (Option.some.inj htext)
          refine ⟨atLine_nil tail, ?_⟩
          by_cases happostrophe : marker = '\''
          · simp [hafter, hstart, happostrophe, dropTrailingNewLines]
          · simp [hafter, hstart, happostrophe, dropTrailingNewLines]
        · obtain ⟨⟨count, hbody⟩, hat⟩ := textBody_prolong tail hindent hends hline hstart
          simp only [hbody, if_true]
          cases hnodes : textBody indent line with
          | mk found after =>
            rw [hnodes] at hat htext
            cases found with
            | none =>
              obtain ⟨rfl, rfl⟩ := Prod.mk.inj (Option.some.inj htext)
              simp [hat, hstart]
            | some found =>
              obtain ⟨rfl, rfl⟩ := Prod.mk.inj (Option.some.inj htext)
              simp [hat, hstart, dropTrailingNewLines_append]

/-- The text of an element, and where there is none. -/
theorem lineText_prolong (h : LineBetween source tail) :
    lineText indent (source ++ tail) =
        ((lineText indent source).1, joined (lineText indent source).2 tail) ∧
      AtLine (lineText indent source).2 tail := by
  rcases textLine_prolong tail h with hsame | ⟨hrest, -, more, rfl, hbreak⟩
  · have hwhole := h.wholeLines (accounts_textLine source).suffix
    obtain ⟨hskip, hat⟩ := skipBlankLines_prolong tail hwhole
    simp only [lineText, hsame, prolong, hskip]
    split
    · exact ⟨rfl, hat⟩
    · rcases nestedText?_prolong tail hindent hends hat with
        ⟨hbefore, hafter⟩ | ⟨before, _, hbefore, hafter, ⟨count, rfl⟩, hat'⟩
      · rw [hbefore, hafter]
        exact ⟨rfl, hat⟩
      · rw [hbefore, hafter]
        refine ⟨?_, hat'⟩
        simp only [← List.append_assoc, dropTrailingNewLines_append]
  · -- the line break that ends the line is dropped, and nothing is nested below it
    have hdrop : dropTrailingNewLines ((textLine source).1 ++ [.newLine]) =
        dropTrailingNewLines (textLine source).1 := dropTrailingNewLines_append _ 1
    have hall : ((textLine source).1 ++ [Node.newLine]).all Node.isNewLine =
        (textLine source).1.all Node.isNewLine := by
      rw [List.all_append]
      exact Bool.and_true _
    have hmore := hends
    rw [skipBlankLines_newline] at hmore
    simp only [lineText, hbreak, hrest, skipBlankLines_nil, hall, hdrop,
      nestedText?_of_ends hmore, nestedText?_of_ends (ends_nil indent)]
    split
    · exact ⟨by rw [joined_nil, skipBlankLines_newline], atLine_nil _⟩
    · exact ⟨by rw [joined_nil, skipBlankLines_newline], atLine_nil _⟩

end Lower

/-! ## Behind a header -/

theorem skipOneBlank_prolong (h : LineBetween source tail) :
    skipOneBlank (source ++ tail) = skipOneBlank source ++ tail ∧
      LineBetween (skipOneBlank source) tail := by
  cases source with
  | nil =>
    obtain h | ⟨more, rfl⟩ := h
    · exact absurd rfl h.ne_nil
    · exact ⟨rfl, .inr ⟨more, rfl⟩⟩
  | cons symbol rest =>
    cases symbol with
    | slot value => exact ⟨rfl, h⟩
    | char c =>
      rw [List.cons_append, skipOneBlank, skipOneBlank]
      cases hc : isBlank c with
      | false => exact ⟨rfl, h⟩
      | true =>
        refine ⟨rfl, h.of_char ?_⟩
        rintro rfl
        contradiction

theorem expansion?_prolong (h : LineBetween source tail) :
    expansion? (skipOneBlank (source ++ tail)) =
        (expansion? (skipOneBlank source)).map (· ++ tail) ∧
      ∀ rest, expansion? (skipOneBlank source) = some rest → LineBetween rest tail := by
  obtain ⟨hskip, hbetween⟩ := skipOneBlank_prolong tail h
  have hstart := hbetween.afterWhile (p := isBlank) rfl
  have hheld := hbetween.held (p := isBlank) rfl
  unfold expansion?
  rw [hskip, afterWhile_prolong tail hheld]
  cases hfront : afterWhile isBlank (skipOneBlank source) with
  | nil =>
    rw [hfront] at hheld
    obtain hne | ⟨-, more, rfl⟩ := hheld
    · exact absurd rfl hne
    · exact ⟨rfl, fun _ heq => by contradiction⟩
  | cons symbol after =>
    rw [hfront] at hstart
    by_cases hsymbol : symbol = .char ':'
    · subst hsymbol
      have hafter := hstart.of_char (by decide)
      have hgap := hafter.held (p := isBlank) rfl
      refine ⟨?_, fun rest heq => Option.some.inj heq ▸ hafter.afterWhile rfl⟩
      simp only [List.cons_append, afterWhile_prolong tail hgap, Option.map_some]
    · simp [hsymbol]

/-! ## Control flow lines -/

theorem instructionWord?_prolong (h : LineBetween source tail) :
    instructionWord? (source ++ tail) = (instructionWord? source).map (prolong tail) ∧
      ∀ word rest, instructionWord? source = some (word, rest) → LineBetween rest tail := by
  cases source with
  | nil =>
    obtain h | ⟨more, rfl⟩ := h
    · exact absurd rfl h.ne_nil
    · exact ⟨rfl, fun _ _ heq => by contradiction⟩
  | cons symbol rest =>
    by_cases hsymbol : symbol = .char '-'
    · subst hsymbol
      have hdash := h.of_char (by decide)
      have hrest := hdash.afterWhile (p := isBlank) rfl
      rw [List.cons_append, instructionWord?, instructionWord?,
        afterWhile_prolong tail (hdash.held rfl), run?_prolong tail hrest (p := isWordChar) rfl]
      cases hrun : run? isWordChar (afterWhile isBlank rest) with
      | none => exact ⟨rfl, fun _ _ heq => by contradiction⟩
      | some found =>
        refine ⟨rfl, fun _ _ heq => ?_⟩
        obtain ⟨-, rfl⟩ := Prod.mk.inj (Option.some.inj heq)
        exact hrest.of_run? rfl hrun
    · have hother := fun more => instructionWord?_of_stops (stops_cons hsymbol more)
      rw [List.cons_append, hother, hother]
      exact ⟨rfl, fun _ _ heq => by contradiction⟩

theorem instructionName_prolong (h : LineBetween source tail)
    {found : Option (String × Source α)} (hfound : instructionName source = .ok found) :
    instructionName (source ++ tail) = .ok (found.map (prolong tail)) ∧
      ∀ word rest, found = some (word, rest) → LineBetween rest tail := by
  obtain ⟨hword, hbetween⟩ := instructionWord?_prolong tail h
  cases source with
  | nil =>
    obtain h | ⟨more, rfl⟩ := h
    · exact absurd rfl h.ne_nil
    · obtain rfl := Except.ok.inj hfound
      exact ⟨rfl, fun _ _ heq => by contradiction⟩
  | cons symbol rest =>
    by_cases hsymbol : symbol = .char '-'
    · subst hsymbol
      rw [List.cons_append] at hword ⊢
      simp only [instructionName, hword] at hfound ⊢
      cases hname : instructionWord? (.char '-' :: rest) with
      | none =>
        rw [hname] at hfound
        contradiction
      | some name =>
        rw [hname] at hfound
        obtain rfl := Except.ok.inj hfound
        exact ⟨rfl, fun word rest heq => hbetween word rest (hname.trans heq)⟩
    · have hother : ∀ more : Source α, instructionName (symbol :: more) = .ok none := by
        simp [instructionName, hsymbol]
      rw [List.cons_append, hother]
      obtain rfl := Except.ok.inj ((hother rest).symm.trans hfound)
      exact ⟨rfl, fun _ _ heq => by contradiction⟩

theorem endOfLine_prolong (h : LineBetween source tail) {part : LinePart}
    (hend : endOfLine part source = .ok rest) :
    ∃ after, endOfLine part (source ++ tail) = .ok after ∧ Leaves tail rest after := by
  unfold endOfLine at hend ⊢
  cases hblank : blankLine? source with
  | some found =>
    rw [hblank] at hend
    obtain rfl := Except.ok.inj hend
    obtain ⟨after, hblank', hleaves, -⟩ := blankLine?_prolong tail h hblank
    rw [hblank']
    exact ⟨after, rfl, hleaves⟩
  | none =>
    rw [hblank] at hend
    simp only at hend
    split at hend
    · rename_i hempty
      obtain rfl := Except.ok.inj hend
      obtain rfl := List.isEmpty_iff.mp hempty
      obtain h | ⟨more, rfl⟩ := h
      · exact absurd rfl h.ne_nil
      · exact ⟨more, rfl, .inr ⟨rfl, rfl⟩⟩
    · contradiction

theorem ifLine_prolong (h : LineBetween source tail) {found : Instruction α}
    (hline : ifLine source = .ok (found, rest)) :
    ∃ after, ifLine (source ++ tail) = .ok (found, after) ∧ Leaves tail rest after := by
  unfold ifLine at hline ⊢
  rw [slot?_prolong tail h.front]
  cases hslot : slot? source with
  | none =>
    rw [hslot] at hline
    contradiction
  | some condition =>
    rw [hslot] at hline
    obtain ⟨last, hend, hline⟩ := of_bind_ok hline
    obtain ⟨rfl, rfl⟩ := Prod.mk.inj (Except.ok.inj hline)
    obtain ⟨after, hend', hleaves⟩ := endOfLine_prolong tail (h.of_slot? hslot) hend
    simp only [Option.map_some, prolong, hend']
    exact ⟨after, rfl, hleaves⟩

theorem ofMark?_prolong (h : LineBetween source tail) :
    ofMark? (source ++ tail) = (ofMark? source).map (· ++ tail) ∧
      ∀ rest, ofMark? source = some rest → LineBetween rest tail := by
  unfold ofMark?
  rw [run?_prolong tail h (p := isBlank) rfl]
  cases hrun : run? isBlank source with
  | none => exact ⟨rfl, fun _ heq => by contradiction⟩
  | some found =>
    have hword : '\n' ∉ ['o', 'f'] := by decide
    have hfound : LineBetween found.2 tail := h.of_run? rfl hrun
    simp only [Option.map_some, prolong, Option.bind_eq_bind, Option.bind_some,
      literal?_prolong tail hfound hword]
    cases hliteral : literal? ['o', 'f'] found.2 with
    | none => exact ⟨rfl, fun _ heq => by contradiction⟩
    | some after =>
      have hafter := hfound.of_literal? hword hliteral
      have hgap := hafter.held (p := isBlank) rfl
      refine ⟨?_, fun rest heq => Option.some.inj heq ▸ hafter.afterWhile rfl⟩
      simp only [Option.map_some, Option.bind_some, afterWhile_prolong tail hgap]
      rfl

theorem forLine_prolong (h : LineBetween source tail) {found : Instruction α}
    (hline : forLine source = .ok (found, rest)) :
    ∃ after, forLine (source ++ tail) = .ok (found, after) ∧ Leaves tail rest after := by
  unfold forLine at hline
  split at hline
  · contradiction
  · rename_i name behind hname
    have hbehind := h.of_run? rfl hname
    obtain ⟨hof', hbetween⟩ := ofMark?_prolong tail hbehind
    split at hline
    · contradiction
    · rename_i start hof
      have hstart := hbetween start hof
      split at hline
      · contradiction
      · rename_i iterable line hslot
        obtain ⟨last, hend, hline⟩ := of_bind_ok hline
        obtain ⟨rfl, rfl⟩ := Prod.mk.inj (Except.ok.inj hline)
        obtain ⟨after, hend', hleaves⟩ := endOfLine_prolong tail (hstart.of_slot? hslot) hend
        refine ⟨after, ?_, hleaves⟩
        simp only [forLine, run?_prolong tail h (p := isIdentifierChar) rfl, hname, hof', hof,
          slot?_prolong tail hstart.front, hslot, Option.map_some, prolong, hend']
        rfl

theorem instructionRest_prolong (h : LineBetween source tail) {word : String}
    {found : Instruction α} (hline : instructionRest word source = .ok (found, rest)) :
    ∃ after, instructionRest word (source ++ tail) = .ok (found, after) ∧
      Leaves tail rest after := by
  have hstart := h.afterWhile (p := isBlank) rfl
  unfold instructionRest at hline ⊢
  rw [afterWhile_prolong tail (h.held rfl)]
  split at hline
  · exact ifLine_prolong tail hstart hline
  · exact forLine_prolong tail hstart hline
  · contradiction

/-- The whole of a control flow line. -/
theorem instructionLine_prolong (h : LineBetween source tail) {start : Source α} {word : String}
    {found : Instruction α} (hname : instructionName source = .ok (some (word, start)))
    (hline : instructionRest word start = .ok (found, rest)) :
    instructionName (source ++ tail) = .ok (some (word, start ++ tail)) ∧
      (∃ after, instructionRest word (start ++ tail) = .ok (found, after) ∧
        Leaves tail rest after) ∧ WholeLines rest tail := by
  obtain ⟨hsame, hbetween⟩ := instructionName_prolong tail h hname
  have hstart := hbetween word start rfl
  exact ⟨hsame, instructionRest_prolong tail hstart hline,
    hstart.wholeLines (accounts_instructionRest hline).suffix⟩

/-- An `else` on a line in front of further input. -/
theorem elseMark?_front (hindent : '\n' ∉ indent) (h : LineBetween source tail) :
    elseMark? indent (source ++ tail) = (elseMark? indent source).map (· ++ tail) ∧
      ∀ rest, elseMark? indent source = some rest → LineBetween rest tail := by
  unfold elseMark?
  rw [literal?_prolong tail h hindent]
  cases hliteral : literal? indent source with
  | none => exact ⟨rfl, fun _ heq => by contradiction⟩
  | some start =>
    obtain ⟨hword, hbetween⟩ := instructionWord?_prolong tail (h.of_literal? hindent hliteral)
    simp only [Option.map_some, Option.bind_eq_bind, Option.bind_some, hword]
    cases hfound : instructionWord? start with
    | none => exact ⟨rfl, fun _ heq => by contradiction⟩
    | some found =>
      obtain ⟨word, rest⟩ := found
      by_cases helse : word = "else"
      · subst helse
        exact ⟨rfl, fun _ heq => Option.some.inj heq ▸ hbetween "else" rest hfound⟩
      · simp [prolong, helse]

/-- An `else` behind the block of an `if`, looked for from the first line that is not blank. -/
theorem elseMark?_prolong (hindent : '\n' ∉ indent)
    (hmark : elseMark? indent (skipBlankLines tail) = none) (h : AtLine source tail) :
    elseMark? indent (joined source tail) = (elseMark? indent source).map (· ++ tail) ∧
      ∀ rest, elseMark? indent source = some rest → LineBetween rest tail := by
  have hnil : elseMark? indent ([] : Source α) = none := (beyondBlock_nil indent).noElse
  have hlook := h.look tail (elseMark? indent) (· ++ tail) hnil hmark fun hsource =>
    (elseMark?_front tail hindent hsource).1
  refine ⟨hlook, fun rest hrest =>
    (elseMark?_front tail hindent (h.wholeLines.resolve_left ?_)).2 rest hrest⟩
  rintro rfl
  rw [hnil] at hrest
  contradiction

end IndentMarkup.Parser

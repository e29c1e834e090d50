import IndentMarkup.Proofs.IndentOrder
import IndentMarkup.Proofs.Inset
import IndentMarkup.Proofs.SlotsTaken

/-! Lines behind a margin. What begins at the front of a line has the margin in front of it and in
front of its indent, so the two stand to one another as before. At the end of the input there may be
a margin and nothing behind it, a blank line where there was none; `Indented` covers both forms, and
a production that looks past blank lines leaves the one form of `insetLeft`. Tabs would let an
indent be incomparable with the margin in front of it and not without; they are ruled out wherever
there is a margin. -/
namespace IndentMarkup

open Text (isBlank isSpace)
open Source (ofChars inset insetLines)

variable {α β : Type}

/-! ## At the front of a line -/

namespace Source

/-- What is left in front of a line, past all blank lines. -/
def insetLeft (f : α → β) (margin : Blanks) (source : Source α) : Source β :=
  if source.isEmpty then [] else insetLines f margin source

theorem insetLeft_of_ne_nil (f : α → β) (margin : Blanks) {source : Source α} (h : source ≠ []) :
    insetLeft f margin source = insetLines f margin source := by
  simp [insetLeft, h]

end Source

namespace Parser

open Source (insetLeft)

/-- Input at the front of a line and the same input behind a margin; where there is no more line,
the margin may be missing. -/
inductive Indented (f : α → β) (margin : Blanks) : Source α → Source β → Prop
  | lines (source : Source α) : Indented f margin source (insetLines f margin source)
  | ended : Indented f margin [] []

/-- An input and the indent of its block: the indent is blank, and if there is a margin, neither has
a tab in it. -/
structure Even (margin : Blanks) (indent : Indent) (source : Source α) : Prop where
  blank : ∀ c ∈ indent, isBlank c = true
  noTab : margin.chars ≠ [] → '\t' ∉ indent ∧ .char '\t' ∉ source

variable {f : α → β} {margin : Blanks} {indent : Indent} {source rest : Source α}
  {source' : Source β}

theorem indented_insetLeft (source : Source α) :
    Indented f margin source (insetLeft f margin source) := by
  cases source with
  | nil => exact .ended
  | cons symbol rest => exact .lines _

theorem Indented.eq_lines (h : Indented f margin source source') (hne : source ≠ []) :
    source' = insetLines f margin source := by
  cases h with
  | ended => contradiction
  | lines => rfl

theorem Even.noBreak (h : Even margin indent source) : '\n' ∉ indent := by
  intro hmem
  have := h.blank _ hmem
  contradiction

theorem Even.suffix (h : Even margin indent source) (hrest : rest <:+ source) :
    Even margin indent rest := by
  refine ⟨h.blank, fun hmargin => ?_⟩
  obtain ⟨hindent, hsource⟩ := h.noTab hmargin
  exact ⟨hindent, fun hmem => hsource (hrest.subset hmem)⟩

theorem Even.deeper (h : Even margin indent source) {deeper : Indent}
    (hdeeper : deeperIndent? indent source = some (deeper, rest)) : Even margin deeper rest := by
  have hsuffix := (accounts_deeperIndent? hdeeper).suffix
  obtain ⟨gap, rfl, hsource, -⟩ := of_deeperIndent? hdeeper
  constructor
  · intro c hc
    rcases List.mem_append.mp hc with hc | hc
    · exact h.blank c hc
    · exact gap.blank c hc
  · intro hmargin
    obtain ⟨hindent, htab⟩ := h.noTab hmargin
    refine ⟨fun hmem => ?_, fun hmem => htab (hsuffix.subset hmem)⟩
    apply htab
    rw [hsource]
    exact List.mem_append_left _ (List.mem_map_of_mem hmem)

/-! ## Blank lines -/

theorem afterWhile_insetLines (source : Source α) :
    afterWhile isBlank (insetLines f margin source) =
      inset f margin (afterWhile isBlank source) := by
  rw [insetLines, afterWhile_ofChars margin.blank, afterWhile_inset (skipsMargin_of_false rfl)]

def insetLineEnd (f : α → β) (margin : Blanks) : LineEnd × Source α → LineEnd × Source β
  | (.newline, rest) => (.newline, insetLines f margin rest)
  | (.endOfInput, _) => (.endOfInput, [])

private theorem blankLine?_of_afterWhile
    (hafter : afterWhile isBlank source' = inset f margin (afterWhile isBlank source))
    (hempty : source'.isEmpty = source.isEmpty) :
    blankLine? source' = (blankLine? source).map (insetLineEnd f margin) := by
  unfold blankLine?
  rw [hafter, hempty]
  cases afterWhile isBlank source with
  | nil => cases source.isEmpty <;> rfl
  | cons symbol rest =>
    cases symbol with
    | slot value => rfl
    | char c =>
      by_cases hc : c = '\n'
      · subst hc
        rfl
      · simp [inset, hc]

/-- A line is blank behind the margin as it is without. -/
theorem blankLine?_inset (source : Source α) :
    blankLine? (inset f margin source) = (blankLine? source).map (insetLineEnd f margin) :=
  blankLine?_of_afterWhile (afterWhile_inset (skipsMargin_of_false rfl) source)
    (Source.isEmpty_inset f margin source)

theorem blankLine?_insetLines (hne : source ≠ []) :
    blankLine? (insetLines f margin source) =
      (blankLine? source).map (insetLineEnd f margin) := by
  apply blankLine?_of_afterWhile (afterWhile_insetLines source)
  cases source with
  | nil => contradiction
  | cons symbol rest => cases symbol <;> simp [insetLines, inset]

theorem ne_nil_of_blankLine? {found : LineEnd × Source α} (h : blankLine? source = some found) :
    source ≠ [] := by
  rintro rfl
  contradiction

/-- Behind a blank line the front of a line is reached, or the end of the input. -/
theorem indented_lineEnd {lineEnd : LineEnd} (h : blankLine? source = some (lineEnd, rest)) :
    Indented f margin rest (insetLineEnd f margin (lineEnd, rest)).2 := by
  cases lineEnd with
  | newline => exact .lines rest
  | endOfInput =>
    have hrest : rest = [] := by
      unfold blankLine? at h
      split at h
      · simp at h
      · split at h
        · contradiction
        · simpa using h.symm
      · contradiction
    rw [hrest]
    exact .ended

/-- A margin alone is a blank line, or nothing. -/
theorem blankLine?_ended (h : Indented f margin [] source') :
    source' = [] ∨ blankLine? source' = some (.endOfInput, []) := by
  cases h with
  | ended => exact .inl rfl
  | lines =>
    by_cases hmargin : margin.chars = []
    · exact .inl (by simp [insetLines, hmargin])
    · right
      have hempty : (insetLines f margin ([] : Source α)).isEmpty = false := by
        cases hchars : margin.chars with
        | nil => contradiction
        | cons c more => simp [insetLines, hchars]
      unfold blankLine?
      rw [afterWhile_insetLines, hempty]
      rfl

theorem skipBlankLines_ended (h : Indented f margin [] source') : skipBlankLines source' = [] := by
  rcases blankLine?_ended h with rfl | hblank
  · exact skipBlankLines_nil
  · rw [skipBlankLines_eq, hblank]
    exact skipBlankLines_nil

/-- Past the blank lines no margin stands alone. -/
theorem skipBlankLines_indented (h : Indented f margin source source') :
    skipBlankLines source' = insetLeft f margin (skipBlankLines source) := by
  fun_induction skipBlankLines source generalizing source' with
  | case1 source lineEnd rest found ih =>
    have hne := ne_nil_of_blankLine? found
    obtain rfl := h.eq_lines hne
    rw [skipBlankLines_eq, blankLine?_insetLines hne, found]
    exact ih (indented_lineEnd found)
  | case2 source hnone =>
    by_cases hne : source = []
    · subst hne
      exact skipBlankLines_ended h
    · cases h with
      | ended => contradiction
      | lines =>
        rw [skipBlankLines_eq, blankLine?_insetLines hne, hnone,
          Source.insetLeft_of_ne_nil f margin hne]
        rfl

/-! ## Indents -/

theorem literal?_margin (indent : Indent) (front : List Char) (source : Source α) :
    literal? (front ++ indent) (ofChars front ++ source) = literal? indent source := by
  induction front with
  | nil => rfl
  | cons c front ih => simpa [literal?] using ih

/-- An indent is found behind the margin, with the margin in front of it. -/
theorem literal?_insetLines (hindent : '\n' ∉ indent) (source : Source α) :
    literal? (margin.chars ++ indent) (insetLines f margin source) =
      (literal? indent source).map (inset f margin) := by
  rw [insetLines, literal?_margin, literal?_inset hindent]

/-- A deeper indent with the margin in front of it. -/
def insetIndent (f : α → β) (margin : Blanks) (found : Indent × Source α) : Indent × Source β :=
  (margin.chars ++ found.1, found.2.inset f margin)

theorem deeperIndent?_indented (hindent : '\n' ∉ indent) (h : Indented f margin source source') :
    deeperIndent? (margin.chars ++ indent) source' =
      (deeperIndent? indent source).map (insetIndent f margin) := by
  cases h with
  | ended => rw [(ends_nil _).notDeeper, (ends_nil _).notDeeper, Option.map_none]
  | lines =>
    unfold deeperIndent?
    rw [literal?_insetLines hindent]
    cases literal? indent source with
    | none => rfl
    | some rest =>
      simp only [Option.map_some, Option.bind_eq_bind, Option.bind_some,
        run?_inset (p := isBlank) rfl]
      cases run? isBlank rest with
      | none => rfl
      | some found => simp [insetFound, insetIndent]

/-- Of two runs of spaces, one begins with the other. -/
theorem compare_spaces {a b : Indent} (ha : ∀ c ∈ a, c = ' ') (hb : ∀ c ∈ b, c = ' ') :
    Indent.compare a b ≠ .incomparable := by
  have hblank : ∀ {text : List Char}, (∀ c ∈ text, c = ' ') → Indent.leading text = text := by
    intro text h
    refine Indent.leading_of_blank fun c hc => ?_
    rw [h c hc]
    rfl
  have hprefix : b <+: a ∨ a <+: b := by
    rw [List.eq_replicate_of_mem ha, List.eq_replicate_of_mem hb]
    rcases Nat.le_total b.length a.length with hle | hle
    · exact .inl ⟨List.replicate (a.length - b.length) ' ', by simp [hle]⟩
    · exact .inr ⟨List.replicate (b.length - a.length) ' ', by simp [hle]⟩
  rw [ne_eq, Indent.compare_eq_incomparable, hblank ha, hblank hb]
  exact fun ⟨hba, hab⟩ => hprefix.elim hba hab

/-- With a margin in front of both, one indent is taken off the other as without. -/
theorem trim_margin {a b : Indent} (ha : ∀ c ∈ a, isBlank c = true)
    (hb : ∀ c ∈ b, isBlank c = true)
    (heven : margin.chars ≠ [] → '\t' ∉ a ∧ '\t' ∉ b) :
    Indent.trim (margin.chars ++ a) (margin.chars ++ b) = Indent.trim a b := by
  have hspaces : ∀ {text : List Char}, (∀ c ∈ text, isBlank c = true) → '\t' ∉ text →
      ∀ c ∈ text, c = ' ' := by
    intro text hblank htab c hc
    have hc' := hblank c hc
    simp only [isBlank, Bool.or_eq_true, beq_iff_eq] at hc'
    rcases hc' with rfl | rfl
    · rfl
    · contradiction
  by_cases hmargin : margin.chars = []
  · rw [hmargin]
    rfl
  · obtain ⟨hatab, hbtab⟩ := heven hmargin
    have hcomparable := compare_spaces (hspaces ha hatab) (hspaces hb hbtab)
    rw [Indent.trim_margin margin.blank ha hb, if_neg hcomparable]

/-! ## Comments -/

theorem skipLine_inset (source : Source α) :
    Indented f margin (skipLine source) (skipLine (inset f margin source)) := by
  induction source with
  | nil => exact .ended
  | cons symbol rest ih =>
    cases symbol with
    | slot value => exact ih
    | char c =>
      by_cases hc : c = '\n'
      · subst hc
        exact .lines rest
      · rw [Source.inset_char f margin hc]
        simpa [skipLine, hc] using ih

theorem skipLine_insetLines (source : Source α) :
    skipLine (insetLines f margin source) = skipLine (inset f margin source) := by
  apply skipLine_ofChars
  intro hmem
  have := margin.blank _ hmem
  contradiction

theorem skipDeeperLines_ended (hindent : '\n' ∉ indent) (h : Indented f margin [] source') :
    skipDeeperLines (margin.chars ++ indent) source' = [] := by
  have hnil : skipDeeperLines (margin.chars ++ indent) ([] : Source β) = [] := by
    rw [skipDeeperLines_eq, (ends_nil _).notDeeper, (ends_nil indent).notBlank]
  rcases blankLine?_ended h with rfl | hblank
  · exact hnil
  · have hline : skipLine source' = [] := by
      cases h with
      | ended => rfl
      | lines => exact skipLine_insetLines []
    rw [skipDeeperLines_eq, deeperIndent?_indented hindent h, (ends_nil _).notDeeper, hblank]
    exact hline ▸ hnil

theorem skipDeeperLines_indented (hindent : '\n' ∉ indent) (h : Indented f margin source source') :
    skipDeeperLines (margin.chars ++ indent) source' =
      insetLeft f margin (skipDeeperLines indent source) := by
  fun_induction skipDeeperLines indent source generalizing source' with
  | case1 source _ rest hdeeper ih =>
    rw [skipDeeperLines_eq, deeperIndent?_indented hindent h, hdeeper]
    exact ih (skipLine_inset rest)
  | case2 source hdeeper _ hblank ih =>
    have hne := ne_nil_of_blankLine? hblank
    rw [skipDeeperLines_eq, deeperIndent?_indented hindent h, hdeeper]
    obtain rfl := h.eq_lines hne
    rw [blankLine?_insetLines hne, hblank]
    simp only [Option.map_none, Option.map_some, skipLine_insetLines]
    exact ih (skipLine_inset source)
  | case3 source hdeeper hblank =>
    by_cases hne : source = []
    · subst hne
      exact skipDeeperLines_ended hindent h
    · rw [skipDeeperLines_eq, deeperIndent?_indented hindent h, hdeeper]
      obtain rfl := h.eq_lines hne
      rw [blankLine?_insetLines hne, hblank, Source.insetLeft_of_ne_nil f margin hne]
      rfl

theorem comment?_inset (hindent : '\n' ∉ indent) (source : Source α) :
    comment? (margin.chars ++ indent) (inset f margin source) =
      (comment? indent source).map (insetLeft f margin) := by
  cases source with
  | nil => rfl
  | cons symbol rest =>
    cases symbol with
    | slot value => rfl
    | char c =>
      by_cases hc : c = '/'
      · subst hc
        rw [Source.inset_char f margin (by decide)]
        simp only [comment?, Option.map_some]
        rw [skipDeeperLines_indented hindent (skipLine_inset rest)]
      · simp [inset, comment?, hc]

/-! ## Texts -/

def insetFoundLeft {γ δ : Type} (f : α → β) (margin : Blanks) (g : γ → δ)
    (found : γ × Source α) : δ × Source β :=
  (g found.1, insetLeft f margin found.2)

theorem textLine_inset (source : Source α) :
    (textLine (inset f margin source)).1 = Node.mapAll f (textLine source).1 ∧
      Indented f margin (textLine source).2 (textLine (inset f margin source)).2 := by
  fun_induction textLine source with
  | case1 => exact ⟨by simp [textLine, Node.mapAll], by simpa [textLine] using .ended⟩
  | case2 value rest nodes after hline ih =>
    rw [hline] at ih
    rw [Source.inset_slot, textLine]
    exact ⟨by simp [ih.1, Node.mapAll, Node.map], ih.2⟩
  | case3 rest =>
    rw [Source.inset_newline, textLine, if_pos rfl]
    exact ⟨rfl, .lines rest⟩
  | case4 c rest hc nodes after hline ih =>
    rw [hline] at ih
    rw [Source.inset_char f margin hc, textLine, if_neg hc,
      afterWhile_inset (skipsMargin_of_false rfl), charsWhile_inset rfl]
    exact ⟨by simp [ih.1, Node.mapAll, Node.map], ih.2⟩

theorem dropTrailingNewLines_mapAll (nodes : List (Node α)) :
    dropTrailingNewLines (Node.mapAll f nodes) = Node.mapAll f (dropTrailingNewLines nodes) := by
  simp only [dropTrailingNewLines, Node.mapAll_eq_map, ← List.map_reverse, List.dropWhile_map,
    Node.isNewLine_comp_map]

theorem indentText_mapAll (f : α → β) (indent : List Char) :
    (indentText indent : List (Node β)) = Node.mapAll f (indentText indent) := by
  unfold indentText
  split <;> rfl

/-- An indent that is taken off the lines of a text: blank, and without tabs if there is a margin. -/
structure Trims (margin : Blanks) (trimmed : Indent) : Prop where
  blank : ∀ c ∈ trimmed, isBlank c = true
  noTab : margin.chars ≠ [] → '\t' ∉ trimmed

theorem Even.trims (h : Even margin indent source) : Trims margin indent :=
  ⟨h.blank, fun hmargin => (h.noTab hmargin).1⟩

theorem continuedText_ended (indent trimmed : Indent) (h : Indented f margin [] source') :
    continuedText indent trimmed source' = ([], []) := by
  have hnil : continuedText indent trimmed ([] : Source β) = ([], []) := by
    rw [continuedText_eq, (ends_nil _).notDeeper, (ends_nil indent).notBlank]
  rcases blankLine?_ended h with rfl | hblank
  · exact hnil
  · rw [continuedText_eq, hblank]
    simp only [hnil]

theorem continuedText_indented {trimmed : Indent} (heven : Even margin indent source)
    (htrimmed : Trims margin trimmed) (h : Indented f margin source source') :
    continuedText (margin.chars ++ indent) (margin.chars ++ trimmed) source' =
      insetFoundLeft f margin (Node.mapAll f) (continuedText indent trimmed source) := by
  fun_induction continuedText indent trimmed source generalizing source' with
  | case1 source after nodes last hmore _ hblank ih =>
    have hne := ne_nil_of_blankLine? hblank
    have hrest := ih (heven.suffix (accounts_blankLine? hblank).suffix) (indented_lineEnd hblank)
    obtain rfl := h.eq_lines hne
    rw [continuedText_eq, blankLine?_insetLines hne, hblank]
    simp only [insetLineEnd] at hrest
    simp only [Option.map_some, insetLineEnd, hrest, hmore]
    rfl
  | case2 source after nodes last hmore _ hblank ih =>
    have hne := ne_nil_of_blankLine? hblank
    have hrest := ih (heven.suffix (accounts_blankLine? hblank).suffix) (indented_lineEnd hblank)
    obtain rfl := h.eq_lines hne
    rw [continuedText_eq, blankLine?_insetLines hne, hblank]
    simp only [insetLineEnd] at hrest
    simp only [Option.map_some, insetLineEnd, hrest, hmore]
  | case3 source hblank hdeeper =>
    by_cases hne : source = []
    · subst hne
      exact continuedText_ended _ _ h
    · rw [continuedText_eq, deeperIndent?_indented heven.noBreak h, hdeeper]
      obtain rfl := h.eq_lines hne
      rw [blankLine?_insetLines hne, hblank]
      simp only [Option.map_none, insetFoundLeft, Source.insetLeft_of_ne_nil f margin hne]
      rfl
  | case4 source hblank deeper rest hdeeper line nodes after hmore =>
    rename_i ih
    have hinner := heven.deeper hdeeper
    have hsuffix := (accounts_deeperIndent? hdeeper).suffix
    obtain ⟨hline, hindented⟩ : (textLine (inset f margin rest)).1 = Node.mapAll f line.1 ∧
      Indented f margin line.2 (textLine (inset f margin rest)).2 := textLine_inset rest
    have hrest := ih (heven.suffix ((accounts_textLine rest).suffix.trans hsuffix)) hindented
    have htrim : Indent.trim (margin.chars ++ deeper) (margin.chars ++ trimmed) =
        Indent.trim deeper trimmed :=
      trim_margin hinner.blank htrimmed.blank fun hmargin =>
        ⟨(hinner.noTab hmargin).1, htrimmed.noTab hmargin⟩
    have hne : source ≠ [] := by
      rintro rfl
      rw [(ends_nil _).notDeeper] at hdeeper
      contradiction
    rw [continuedText_eq, deeperIndent?_indented heven.noBreak h, hdeeper]
    obtain rfl := h.eq_lines hne
    rw [blankLine?_insetLines hne, hblank]
    simp only [Option.map_none, Option.map_some, insetIndent, hrest, hmore, insetFoundLeft,
      htrim, hline, Node.mapAll_append, ← indentText_mapAll]

theorem nestedText?_indented (heven : Even margin indent source)
    (h : Indented f margin source source') :
    nestedText? (margin.chars ++ indent) source' =
      (nestedText? indent source).map (insetFoundLeft f margin (Node.mapAll f)) := by
  unfold nestedText?
  rw [deeperIndent?_indented heven.noBreak h]
  cases hdeeper : deeperIndent? indent source with
  | none => rfl
  | some found =>
    obtain ⟨deeper, rest⟩ := found
    have hsuffix := (accounts_deeperIndent? hdeeper).suffix
    obtain ⟨hline, hindented⟩ := textLine_inset (f := f) rest
    have hmore := continuedText_indented
      (heven.suffix ((accounts_textLine rest).suffix.trans hsuffix)) (heven.deeper hdeeper).trims
      hindented
    simp only [Option.map_some, Option.bind_eq_bind, Option.bind_some, insetIndent, hline, hmore,
      insetFoundLeft, Option.pure_def, Node.mapAll_append]

theorem textStart_inset (indent : Indent) (source : Source α) :
    textStart (margin.chars ++ indent) (inset f margin source) =
      insetIndent f margin (textStart indent source) := by
  cases source with
  | nil => simp [textStart, insetIndent]
  | cons symbol rest =>
    cases symbol with
    | slot value => simp [textStart, insetIndent]
    | char c =>
      by_cases hc : c = ' '
      · subst hc
        rw [Source.inset_char f margin (by decide)]
        simp [textStart, insetIndent]
      · simp [inset, textStart, hc, insetIndent]

/-- A text item takes off the indent of its block and spaces behind it. -/
theorem Even.textStart (h : Even margin indent source) (start : Source α) :
    Trims margin (textStart indent start).1 := by
  have hspaces : ∀ spaces : List Char, (∀ c ∈ spaces, c = ' ') → Trims margin (indent ++ spaces) := by
    intro spaces hspaces
    constructor
    · intro c hc
      rcases List.mem_append.mp hc with hc | hc
      · exact h.blank c hc
      · rw [hspaces c hc]
        rfl
    · intro hmargin htab
      rcases List.mem_append.mp htab with htab | htab
      · exact (h.noTab hmargin).1 htab
      · exact absurd (hspaces _ htab) (by decide)
  unfold Parser.textStart
  split
  · exact hspaces _ (by simp)
  · exact hspaces _ (by simp)

theorem isLineBreak_mapAll (nodes : List (Node α)) :
    isLineBreak (Node.mapAll f nodes) = isLineBreak nodes := by
  cases nodes with
  | nil => rfl
  | cons node rest =>
    cases node <;> cases rest <;> rfl

theorem textBody_inset (heven : Even margin indent source) :
    textBody (margin.chars ++ indent) (inset f margin source) =
      insetFoundLeft f margin (Option.map (Node.mapAll f)) (textBody indent source) := by
  have hstart : textStart (margin.chars ++ indent) (inset f margin source) = _ :=
    textStart_inset indent source
  obtain ⟨hline, hindented⟩ : _ ∧ Indented f margin _ _ :=
    textLine_inset (textStart indent source).2
  have hevenLine : Even margin indent (textLine (textStart indent source).2).2 :=
    heven.suffix ((accounts_textLine _).suffix.trans (accounts_textStart indent source).suffix)
  have hskip := skipBlankLines_indented hindented
  have hnested := nestedText?_indented (hevenLine.suffix (accounts_skipBlankLines _).suffix)
    (indented_insetLeft (f := f) (skipBlankLines (textLine (textStart indent source).2).2))
  have hmore := continuedText_indented hevenLine (heven.textStart source) hindented
  unfold textBody
  simp only [hstart, insetIndent, hline, isLineBreak_mapAll, hskip, hnested, hmore]
  split
  · cases nestedText? indent (skipBlankLines (textLine (textStart indent source).2).2) <;> rfl
  · simp [insetFoundLeft, Node.mapAll_append]

theorem textItem?_inset (heven : Even margin indent source) :
    textItem? (margin.chars ++ indent) (inset f margin source) =
      (textItem? indent source).map (insetFoundLeft f margin (Node.mapAll f)) := by
  cases source with
  | nil => rfl
  | cons symbol rest =>
    cases symbol with
    | slot value => rfl
    | char marker =>
      by_cases hmarker : isTextMarker marker = true
      · have hbreak : marker ≠ '\n' := by
          rintro rfl
          contradiction
        have hbody := textBody_inset (f := f) (heven.suffix (List.suffix_cons _ rest))
        rw [Source.inset_char f margin hbreak]
        simp only [textItem?, hmarker, if_true, hbody, insetFoundLeft]
        obtain ⟨nodes, after⟩ := textBody indent rest
        cases nodes with
        | none => rfl
        | some nodes =>
          by_cases hc : marker = '\''
          · simp [insetFoundLeft, hc, dropTrailingNewLines_mapAll, Node.mapAll_append, Node.mapAll,
              Node.map]
          · simp [insetFoundLeft, hc, dropTrailingNewLines_mapAll]
      · simp [inset, textItem?, hmarker]

theorem lineText_inset (heven : Even margin indent source) :
    lineText (margin.chars ++ indent) (inset f margin source) =
      insetFoundLeft f margin (Option.map (Node.mapAll f)) (lineText indent source) := by
  have hbreaks : ∀ nodes : List (Node α),
      (Node.mapAll f nodes).all Node.isNewLine = nodes.all Node.isNewLine := by
    intro nodes
    rw [Node.mapAll_eq_map, List.all_map, Node.isNewLine_comp_map]
  obtain ⟨hline, hindented⟩ : _ ∧ Indented f margin _ _ := textLine_inset source
  have hskip := skipBlankLines_indented hindented
  have hevenRest : Even margin indent (skipBlankLines (textLine source).2) :=
    heven.suffix ((accounts_skipBlankLines _).suffix.trans (accounts_textLine source).suffix)
  have hnested := nestedText?_indented hevenRest
    (indented_insetLeft (f := f) (skipBlankLines (textLine source).2))
  unfold lineText
  simp only [hline, hbreaks, hskip, hnested]
  split
  · rfl
  · cases nestedText? indent (skipBlankLines (textLine source).2) with
    | none => simp [insetFoundLeft, dropTrailingNewLines_mapAll]
    | some found => simp [insetFoundLeft, ← Node.mapAll_append, dropTrailingNewLines_mapAll]

/-! ## Control flow lines -/

/-- Two outcomes that correspond: the same failure, or results in a relation. -/
inductive Outcomes {γ δ : Type} (f : α → β) (margin : Blanks) (R : γ → δ → Prop) :
    Except (Failure α) γ → Except (Failure β) δ → Prop
  | failed (failure : Failure α) :
    Outcomes f margin R (.error failure) (.error (failure.inset f margin))
  | found {value : γ} {value' : δ} (h : R value value') :
    Outcomes f margin R (.ok value) (.ok value')

theorem Outcomes.map {γ γ' δ δ' : Type} {R : γ → γ' → Prop} {S : δ → δ' → Prop}
    {outcome : Except (Failure α) γ} {outcome' : Except (Failure β) γ'} {g : γ → δ} {g' : γ' → δ'}
    (h : Outcomes f margin R outcome outcome') (hS : ∀ value value', R value value' →
      S (g value) (g' value')) :
    Outcomes f margin S (outcome >>= fun value => pure (g value))
      (outcome' >>= fun value => pure (g' value)) := by
  cases h with
  | failed failure => exact .failed failure
  | found h => exact .found (hS _ _ h)

/-- A step whose results are in a relation, before one whose outcomes agree. -/
theorem Outcomes.bind {γ γ' δ δ' : Type} {R : γ → γ' → Prop} {g : δ → δ'}
    {first : Except (Failure α) γ} {first' : Except (Failure β) γ'}
    {next : γ → Except (Failure α) δ} {next' : γ' → Except (Failure β) δ'}
    (h : Outcomes f margin R first first') (hnext : ∀ value value', first = .ok value →
      R value value' → next' value' = insetOutcome f margin g (next value)) :
    (first' >>= next') = insetOutcome f margin g (first >>= next) := by
  cases h with
  | failed failure => rfl
  | found h => exact hnext _ _ rfl h

theorem endOfLine_inset (part : LinePart) (source : Source α) :
    Outcomes f margin (Indented f margin) (endOfLine part source)
      (endOfLine part (inset f margin source)) := by
  unfold endOfLine
  rw [blankLine?_inset, Source.isEmpty_inset]
  cases hblank : blankLine? source with
  | some found =>
    obtain ⟨lineEnd, rest⟩ := found
    exact .found (indented_lineEnd hblank)
  | none =>
    cases source with
    | nil => exact .found .ended
    | cons symbol rest => exact .failed ⟨.newlineExpected part, symbol :: rest⟩

def Instruction.map (f : α → β) : Instruction α → Instruction β
  | .ifThen condition => .ifThen (f condition)
  | .forEach variableName iterable => .forEach variableName (f iterable)

/-- A control flow line with the input at the front of the next line. -/
def LineFound (f : α → β) (margin : Blanks) (found : Instruction α × Source α)
    (found' : Instruction β × Source β) : Prop :=
  found'.1 = found.1.map f ∧ Indented f margin found.2 found'.2

theorem ifLine_inset (source : Source α) :
    Outcomes f margin (LineFound f margin) (ifLine source) (ifLine (inset f margin source)) := by
  unfold ifLine
  rw [slot?_inset]
  cases slot? source with
  | none => exact .failed ⟨.conditionExpected, source⟩
  | some found =>
    apply (endOfLine_inset .ifCondition found.2).map
    intro rest rest' hrest
    exact ⟨rfl, hrest⟩

theorem forLine_inset (source : Source α) :
    Outcomes f margin (LineFound f margin) (forLine source) (forLine (inset f margin source)) := by
  unfold forLine
  rw [run?_inset rfl]
  cases run? isIdentifierChar source with
  | none => exact .failed ⟨.variableExpected, source⟩
  | some named =>
    simp only [Option.map_some, insetFound, ofMark?_inset]
    cases ofMark? named.2 with
    | none => exact .failed ⟨.ofExpected, named.2⟩
    | some start =>
      simp only [Option.map_some, slot?_inset]
      cases slot? start with
      | none => exact .failed ⟨.iterableExpected, start⟩
      | some found =>
        apply (endOfLine_inset .iteratedValue found.2).map
        intro rest rest' hrest
        exact ⟨rfl, hrest⟩

theorem instructionRest_inset (word : String) (source : Source α) :
    Outcomes f margin (LineFound f margin) (instructionRest word source)
      (instructionRest word (inset f margin source)) := by
  unfold instructionRest
  rw [afterWhile_inset (skipsMargin_of_false rfl)]
  split
  · exact ifLine_inset _
  · exact forLine_inset _
  · exact .failed ⟨.unknownInstruction word, source⟩

theorem elseMark?_nil (indent : Indent) : elseMark? indent ([] : Source α) = none := by
  cases indent <;> rfl

theorem elseMark?_insetLeft (hindent : '\n' ∉ indent) (source : Source α) :
    elseMark? (margin.chars ++ indent) (insetLeft f margin source) =
      (elseMark? indent source).map (inset f margin) := by
  by_cases hne : source = []
  · subst hne
    rw [elseMark?_nil]
    exact elseMark?_nil _
  · unfold elseMark?
    rw [Source.insetLeft_of_ne_nil f margin hne, literal?_insetLines hindent]
    cases literal? indent source with
    | none => rfl
    | some start =>
      simp only [Option.map_some, Option.bind_eq_bind, Option.bind_some, instructionWord?_inset]
      cases instructionWord? start with
      | none => rfl
      | some found =>
        obtain ⟨word, rest⟩ := found
        by_cases hword : word = "else"
        · subst hword
          rfl
        · simp [insetFound, hword]

end Parser

end IndentMarkup

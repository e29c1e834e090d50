import IndentMarkup.Parser

/-! Tokens on a known front. Where the front of the input is known and the symbol behind it is
outside of the class that is read, a token takes exactly that front. `LineBreak` gives the two
ways in which a line can end, and `Ends` says that a block has nothing more at the front of the
input. -/
namespace IndentMarkup

open Text (isBlank)

variable {α : Type}

namespace Source

@[simp] theorem ofChars_nil : (ofChars [] : Source α) = [] := rfl

@[simp] theorem ofChars_cons (c : Char) (text : List Char) :
    (ofChars (c :: text) : Source α) = .char c :: ofChars text := rfl

@[simp] theorem ofChars_append (front back : List Char) :
    (ofChars (front ++ back) : Source α) = ofChars front ++ ofChars back := by
  simp [ofChars]

@[simp] theorem length_ofChars (text : List Char) :
    (ofChars text : Source α).length = text.length := by
  simp [ofChars]

def joinLines : List (Source α) → Source α
  | [] => []
  | [line] => line
  | line :: more => line ++ .char '\n' :: joinLines more

end Source

@[ext] structure Blanks where
  chars : List Char
  blank : ∀ c ∈ chars, isBlank c = true
  deriving DecidableEq

/-- Whether a run goes on behind another that it begins with. -/
def Blanks.Deeper (inner outer : Blanks) : Prop :=
  outer.chars <+: inner.chars ∧ outer.chars ≠ inner.chars

instance (inner outer : Blanks) : Decidable (inner.Deeper outer) :=
  inferInstanceAs (Decidable (_ ∧ _))

/-- A run of spaces and tabs that is not empty. -/
structure Gap extends Blanks where
  nonempty : chars ≠ []

/-- A run that goes on behind another one by a gap. -/
def Blanks.below (outer : Blanks) (gap : Gap) : Blanks where
  chars := outer.chars ++ gap.chars
  blank := by
    intro c hc
    rcases List.mem_append.mp hc with hc | hc
    · exact outer.blank c hc
    · exact gap.blank c hc

namespace Parser

open Source (ofChars)

/-! ## Runs -/

/-- The input does not begin with a character of the class. -/
def Stops (p : Char → Bool) : Source α → Prop
  | .char c :: _ => p c = false
  | _ => True

@[simp] theorem stops_nil (p : Char → Bool) : Stops p ([] : Source α) := trivial

@[simp] theorem stops_slot (p : Char → Bool) (value : α) (rest : Source α) :
    Stops p (.slot value :: rest) := trivial

@[simp] theorem stops_char (p : Char → Bool) (c : Char) (rest : Source α) :
    Stops p (.char c :: rest) ↔ p c = false := Iff.rfl

theorem charsWhile_of_stops {p : Char → Bool} {source : Source α} (h : Stops p source) :
    charsWhile p source = [] := by
  unfold charsWhile
  split
  · rw [stops_char] at h
    simp [h]
  · rfl

theorem afterWhile_of_stops {p : Char → Bool} {source : Source α} (h : Stops p source) :
    afterWhile p source = source := by
  unfold afterWhile
  split
  · rw [stops_char] at h
    simp [h]
  · rfl

/-- Behind a run there is no more of it. -/
theorem stops_afterWhile (p : Char → Bool) (source : Source α) :
    Stops p (afterWhile p source) := by
  fun_induction afterWhile p source with
  | case1 c rest hc ih => exact ih
  | case2 c rest hc => simpa using hc
  | case3 source hsource =>
    cases source with
    | nil => trivial
    | cons symbol rest =>
      cases symbol with
      | char c => exact absurd rfl (hsource c rest)
      | slot value => trivial

/-- A symbol other than a given character. -/
theorem stops_cons {c : Char} {symbol : Symbol α} (h : symbol ≠ .char c) (rest : Source α) :
    Stops (· == c) (symbol :: rest) := by
  cases symbol with
  | slot value => trivial
  | char d =>
    rw [stops_char, beq_eq_false_iff_ne]
    rintro rfl
    exact h rfl

variable {p : Char → Bool} {text : List Char} {source rest : Source α}

/-- A text of the class belongs to the run that it stands in front of. -/
theorem charsWhile_ofChars (htext : ∀ c ∈ text, p c = true) (rest : Source α) :
    charsWhile p (ofChars text ++ rest) = text ++ charsWhile p rest := by
  induction text with
  | nil => rfl
  | cons c text ih =>
    have hc : p c = true := htext c (by simp)
    have htail := ih fun d hd => htext d (List.mem_cons_of_mem _ hd)
    simp [charsWhile, hc, htail]

theorem afterWhile_ofChars (htext : ∀ c ∈ text, p c = true) (rest : Source α) :
    afterWhile p (ofChars text ++ rest) = afterWhile p rest := by
  induction text with
  | nil => rfl
  | cons c text ih =>
    have hc : p c = true := htext c (by simp)
    have htail := ih fun d hd => htext d (List.mem_cons_of_mem _ hd)
    simp [afterWhile, hc, htail]

theorem charsWhile_append (htext : ∀ c ∈ text, p c = true) (hstop : Stops p rest) :
    charsWhile p (ofChars text ++ rest) = text := by
  rw [charsWhile_ofChars htext, charsWhile_of_stops hstop, List.append_nil]

theorem afterWhile_append (htext : ∀ c ∈ text, p c = true) (hstop : Stops p rest) :
    afterWhile p (ofChars text ++ rest) = rest := by
  rw [afterWhile_ofChars htext, afterWhile_of_stops hstop]

theorem run?_append (hne : text ≠ []) (htext : ∀ c ∈ text, p c = true) (hstop : Stops p rest) :
    run? p (ofChars text ++ rest) = some (text, rest) := by
  unfold run?
  rw [charsWhile_append htext hstop, afterWhile_append htext hstop]
  cases text with
  | nil => exact absurd rfl hne
  | cons => rfl

theorem run?_of_stops (h : Stops p source) : run? p source = none := by
  simp [run?, charsWhile_of_stops h]

theorem literal?_append (text : List Char) (rest : Source α) :
    literal? text (ofChars text ++ rest) = some rest :=
  literal?_eq_some.mpr rfl

theorem literal?_of_stops {c : Char} (h : Stops (· == c) source) (text : List Char) :
    literal? (c :: text) source = none := by
  cases hliteral : literal? (c :: text) source with
  | none => rfl
  | some rest =>
    rw [literal?_eq_some] at hliteral
    rw [hliteral] at h
    exact absurd h (by simp)

/-! ## The end of a line -/

/-- A line ends at the front of `source`, and the next line begins with `rest`. -/
inductive LineBreak : Source α → Source α → Prop
  | newline (rest : Source α) : LineBreak (.char '\n' :: rest) rest
  | endOfInput : LineBreak [] []

theorem LineBreak.stops (h : LineBreak source rest) (hp : p '\n' = false) : Stops p source := by
  cases h with
  | newline => exact hp
  | endOfInput => trivial

theorem LineBreak.suffix (h : LineBreak source rest) : rest <:+ source := by
  cases h with
  | newline => exact List.suffix_cons _ _
  | endOfInput => exact List.suffix_rfl

/-- Each of several lines ends where the next begins. -/
theorem joinLines_cons (line : Source α) (more : List (Source α)) :
    ∃ tail, Source.joinLines (line :: more) = line ++ tail ∧
      LineBreak tail (Source.joinLines more) := by
  cases more with
  | nil => exact ⟨[], by simp [Source.joinLines], .endOfInput⟩
  | cons next more => exact ⟨_, rfl, .newline _⟩

/-- A line break gives at most one line break as a node. -/
theorem textLine_lineBreak (h : LineBreak source rest) :
    ∃ count, textLine source = (List.replicate count .newLine, rest) := by
  cases h with
  | newline => exact ⟨1, by simp [textLine]⟩
  | endOfInput => exact ⟨0, by simp [textLine]⟩

/-- A text goes on as far as its line does. -/
theorem textLine_ofChars (hne : text ≠ []) (htext : '\n' ∉ text) (hstop : Stops inLine source) :
    textLine (ofChars text ++ source) =
      (.text (String.ofList text) :: (textLine source).1, (textLine source).2) := by
  cases text with
  | nil => exact absurd rfl hne
  | cons c text =>
    have hc : ¬ c = '\n' := fun hc => htext (by simp [hc])
    have hline : ∀ d ∈ text, inLine d = true := by
      intro d hd
      have hd' : d ≠ '\n' := fun e => htext (List.mem_cons_of_mem _ (e ▸ hd))
      simpa [inLine] using hd'
    rw [Source.ofChars_cons, List.cons_append, textLine]
    simp [hc, charsWhile_append hline hstop, afterWhile_append hline hstop]

/-- A line of one text, up to its end. -/
theorem textLine_text (hne : text ≠ []) (htext : '\n' ∉ text) (h : LineBreak source rest) :
    ∃ count, textLine (ofChars text ++ source) =
      (.text (String.ofList text) :: List.replicate count .newLine, rest) := by
  obtain ⟨count, hcount⟩ := textLine_lineBreak h
  exact ⟨count, by rw [textLine_ofChars hne htext (h.stops rfl), hcount]⟩

/-- A line of one slot, up to its end. -/
theorem textLine_slot (value : α) (h : LineBreak source rest) :
    ∃ count, textLine (.slot value :: source) =
      (.slot value :: List.replicate count .newLine, rest) := by
  obtain ⟨count, hcount⟩ := textLine_lineBreak h
  exact ⟨count, by rw [textLine, hcount]⟩

/-- Line breaks behind a node that is none are dropped. -/
theorem dropTrailingNewLines_replicate {node : Node α} (hnode : node.isNewLine = false)
    (count : Nat) : dropTrailingNewLines (node :: List.replicate count .newLine) = [node] := by
  have hdrop : ∀ n, (List.replicate n (.newLine : Node α) ++ [node]).dropWhile Node.isNewLine =
      [node] := by
    intro n
    induction n with
    | zero => simp [hnode]
    | succ n ih =>
      rw [List.replicate_succ, List.cons_append, List.dropWhile_cons_of_pos rfl]
      exact ih
  simp [dropTrailingNewLines, hdrop]

/-- Text without a line break is skipped with its line. -/
theorem skipLine_ofChars {text : List Char} (htext : '\n' ∉ text) (rest : Source α) :
    skipLine (ofChars text ++ rest) = skipLine rest := by
  induction text with
  | nil => rfl
  | cons c text ih =>
    have hc : c ≠ '\n' := fun hc => htext (by simp [hc])
    rw [Source.ofChars_cons, List.cons_append, skipLine]
    · exact ih fun hmem => htext (List.mem_cons_of_mem _ hmem)
    · intro hbreak
      exact hc (Symbol.char.inj hbreak)

/-! ## Blank lines -/

/-- A line of blanks is skipped. -/
theorem skipBlankLines_blank (hblank : ∀ c ∈ text, isBlank c = true)
    (h : LineBreak source rest) : skipBlankLines (ofChars text ++ source) = skipBlankLines rest := by
  have hafter : afterWhile isBlank (ofChars text ++ source) = source :=
    afterWhile_append hblank (h.stops rfl)
  cases h with
  | newline =>
    have hline : blankLine? (ofChars text ++ .char '\n' :: rest) = some (.newline, rest) := by
      simp [blankLine?, hafter]
    rw [skipBlankLines_eq, hline]
  | endOfInput =>
    cases text with
    | nil => rfl
    | cons c text =>
      have hline : blankLine? (ofChars (c :: text) ++ ([] : Source α)) =
          some (.endOfInput, []) := by
        unfold blankLine?
        rw [hafter]
        simp
      rw [skipBlankLines_eq, hline]

theorem skipBlankLines_of_not_blank (h : blankLine? source = none) :
    skipBlankLines source = source := by
  rw [skipBlankLines_eq, h]

/-- The first symbol of an item: a slot, or a character that is neither blank nor a line break. -/
def BeginsItem : Source α → Prop
  | .char c :: _ => isBlank c = false ∧ c ≠ '\n'
  | .slot _ :: _ => True
  | [] => False

theorem BeginsItem.stops (h : BeginsItem source) : Stops isBlank source := by
  unfold BeginsItem at h
  split at h
  · exact h.1
  · trivial
  · contradiction

theorem beginsItem_of_stops (hblank : Stops isBlank source) (hbreak : Stops (· == '\n') source)
    (hne : source ≠ []) : BeginsItem source := by
  cases source with
  | nil => exact absurd rfl hne
  | cons symbol after =>
    cases symbol with
    | slot value => trivial
    | char c => exact ⟨hblank, by simpa using hbreak⟩

/-- A line with an item on it is not blank. -/
theorem blankLine?_item (hblank : ∀ c ∈ text, isBlank c = true) (h : BeginsItem source) :
    blankLine? (ofChars text ++ source) = none := by
  unfold blankLine?
  rw [afterWhile_append hblank h.stops]
  split
  · exact absurd rfl h.2
  · exact absurd h id
  · rfl

/-- Behind the blanks of a line that is not blank an item begins. -/
theorem beginsItem_of_not_blank (h : blankLine? source = none) (hne : source ≠ []) :
    BeginsItem (afterWhile isBlank source) := by
  have hstops := stops_afterWhile isBlank source
  unfold blankLine? at h
  split at h
  · contradiction
  · simp [hne] at h
  · rename_i hbreak hnil
    cases hfront : afterWhile isBlank source with
    | nil => exact absurd hfront hnil
    | cons symbol after =>
      cases symbol with
      | slot value => trivial
      | char c =>
        rw [hfront] at hstops
        refine ⟨hstops, ?_⟩
        rintro rfl
        exact hbreak after hfront

/-- The same for blanks that are known. -/
theorem beginsItem_of_line {start : Source α} (hblank : ∀ c ∈ text, isBlank c = true)
    (hstops : Stops isBlank start) (hsource : source = ofChars text ++ start)
    (h : blankLine? source = none) (hne : source ≠ []) : BeginsItem start := by
  have hitem := beginsItem_of_not_blank h hne
  rwa [hsource, afterWhile_append hblank hstops] at hitem

theorem BeginsItem.ne_nil (h : BeginsItem source) : source ≠ [] := by
  rintro rfl
  contradiction

theorem BeginsItem.not_blank (h : BeginsItem source) : blankLine? source = none := by
  have hnone : ∀ c ∈ ([] : List Char), isBlank c = true := fun _ hc => by contradiction
  exact blankLine?_item hnone h

/-- A line with an item on it is not skipped. -/
theorem skipBlankLines_item (indent : Blanks) (h : BeginsItem source) :
    skipBlankLines (ofChars indent.chars ++ source) = ofChars indent.chars ++ source :=
  skipBlankLines_of_not_blank (blankLine?_item indent.blank h)

theorem baseIndent_item (indent : Blanks) (h : BeginsItem source) :
    baseIndent (ofChars indent.chars ++ source) = indent.chars := by
  rw [baseIndent, skipBlankLines_item indent h]
  exact charsWhile_append indent.blank h.stops

theorem firstItem_item (indent : Blanks) (h : BeginsItem source) :
    firstItem (ofChars indent.chars ++ source) = source := by
  rw [firstItem, skipBlankLines_item indent h]
  exact afterWhile_append indent.blank h.stops

/-! ## Marks of other items -/

theorem comment?_of_stops (indent : Indent) (h : Stops (· == '/') source) :
    comment? indent source = none := by
  unfold comment?
  split
  · exact absurd h (by simp)
  · rfl

theorem textItem?_of_stops (indent : Indent) (h : Stops isTextMarker source) :
    textItem? indent source = none := by
  unfold textItem?
  split
  · rw [stops_char] at h
    simp [h]
  · rfl

/-! ## Deeper lines -/

theorem deeperIndent?_append {gap : List Char} (indent : Indent) (hne : gap ≠ [])
    (hgap : ∀ c ∈ gap, isBlank c = true) (hstop : Stops isBlank source) :
    deeperIndent? indent (ofChars (indent ++ gap) ++ source) = some (indent ++ gap, source) := by
  have hliteral := literal?_append indent (ofChars gap ++ source)
  have hrun := run?_append hne hgap hstop
  simp [deeperIndent?, hliteral, hrun]

/-- The line at the front is deeper when the indent can be read there, with a blank behind it. -/
theorem deeperIndent?_eq_none {indent : Indent} :
    deeperIndent? indent source = none ↔
      ∀ rest, literal? indent source = some rest → Stops isBlank rest := by
  constructor
  · intro h rest hliteral
    cases hrest : run? isBlank rest with
    | none =>
      unfold run? at hrest
      split at hrest
      · rename_i hchars
        cases rest with
        | nil => trivial
        | cons symbol rest =>
          cases symbol with
          | slot => trivial
          | char c =>
            cases hc : isBlank c with
            | false => exact hc
            | true => simp [charsWhile, hc] at hchars
      · contradiction
    | some found => simp [deeperIndent?, hliteral, hrest] at h
  · intro h
    cases hliteral : literal? indent source with
    | none => simp [deeperIndent?, hliteral]
    | some rest => simp [deeperIndent?, hliteral, run?_of_stops (h rest hliteral)]

/-- A deeper line begins with the indent and a gap behind it. -/
theorem of_deeperIndent? {deeper : Indent}
    (h : deeperIndent? indent source = some (deeper, rest)) :
    ∃ gap : Gap, deeper = indent ++ gap.chars ∧ source = ofChars deeper ++ rest ∧
      Stops isBlank rest := by
  simp only [deeperIndent?, Option.bind_eq_bind, Option.bind_eq_some_iff, Option.pure_def,
    Option.some.injEq, Prod.mk.injEq, Prod.exists] at h
  obtain ⟨after, hliteral, extra, behind, hrun, rfl, rfl⟩ := h
  rw [literal?_eq_some] at hliteral
  unfold run? at hrun
  split at hrun
  · contradiction
  · rename_i c cs hchars
    obtain ⟨rfl, rfl⟩ := Prod.mk.inj (Option.some.inj hrun)
    have hblank : ∀ d ∈ c :: cs, isBlank d = true := fun d hd =>
      of_mem_charsWhile (hchars ▸ hd)
    refine ⟨⟨⟨c :: cs, hblank⟩, List.cons_ne_nil _ _⟩, rfl, ?_, stops_afterWhile _ _⟩
    rw [hliteral, Source.ofChars_append, List.append_assoc, ← hchars, charsWhile_append_afterWhile]

/-- Nothing at the front of the input belongs below a line at `indent`: neither a blank line nor a
deeper one. -/
structure Ends (indent : Indent) (source : Source α) : Prop where
  notBlank : blankLine? source = none
  notDeeper : deeperIndent? indent source = none

theorem ends_nil (indent : Indent) : Ends indent ([] : Source α) := by
  refine ⟨by simp [blankLine?, afterWhile], deeperIndent?_eq_none.mpr fun rest hrest => ?_⟩
  rw [literal?_eq_some] at hrest
  obtain ⟨-, rfl⟩ := List.append_eq_nil_iff.mp hrest.symm
  trivial

/-- A line at an indent ends what is below another line at that indent. -/
theorem ends_same {indent : Indent} (hblank : ∀ c ∈ indent, isBlank c = true)
    (h : BeginsItem source) : Ends indent (ofChars indent ++ source) := by
  refine ⟨blankLine?_item hblank h, deeperIndent?_eq_none.mpr fun rest hrest => ?_⟩
  rw [literal?_append] at hrest
  exact Option.some.inj hrest ▸ h.stops

/-- An indent can be read at the start of a line only if the line begins with it. -/
theorem literal?_line {outer inner : List Char} (hblank : ∀ c ∈ outer, isBlank c = true)
    (hitem : BeginsItem source) :
    literal? outer (ofChars inner ++ source) =
      if outer <+: inner then some (ofChars (inner.drop outer.length) ++ source) else none := by
  induction outer generalizing inner with
  | nil => simp [literal?]
  | cons c outer ih =>
    have hc : isBlank c = true := hblank c (by simp)
    cases inner with
    | nil =>
      have hstops : Stops (· == c) source := by
        unfold BeginsItem at hitem
        split at hitem
        · have hne : ∀ d, isBlank d = false → (d == c) = false := by
            intro d hd
            rw [beq_eq_false_iff_ne]
            rintro rfl
            rw [hc] at hd
            exact Bool.noConfusion hd
          exact hne _ hitem.1
        · trivial
        · contradiction
      simpa using literal?_of_stops hstops outer
    | cons d inner =>
      by_cases hcd : c = d
      · have hmore := @ih inner fun e he => hblank e (List.mem_cons_of_mem _ he)
        simpa [literal?, hcd] using hmore
      · simp [literal?, hcd]

/-- The line at the front is deeper if its indent goes on behind the given one. -/
theorem deeperIndent?_line (outer inner : Blanks) (hitem : BeginsItem source) :
    deeperIndent? outer.chars (ofChars inner.chars ++ source) =
      if inner.Deeper outer then some (inner.chars, source) else none := by
  have hliteral := @literal?_line _ source _ inner.chars outer.blank hitem
  by_cases hfront : outer.chars <+: inner.chars
  · obtain ⟨gap, hgap⟩ := hfront
    have hblank : ∀ c ∈ gap, isBlank c = true := fun c hc => inner.blank c (by simp [← hgap, hc])
    rw [← hgap]
    cases gap with
    | nil => simp [(ends_same outer.blank hitem).notDeeper, Blanks.Deeper, ← hgap]
    | cons c gap =>
      rw [deeperIndent?_append outer.chars (by simp) hblank hitem.stops]
      simp [Blanks.Deeper, ← hgap]
  · rw [if_neg hfront] at hliteral
    simp [deeperIndent?, hliteral, Blanks.Deeper, hfront]

/-- What is not deeper than a line does not begin with any deeper indent. -/
theorem Ends.literal?_gap {indent : Indent} {gap : List Char} (h : Ends indent source)
    (hne : gap ≠ []) (hgap : ∀ c ∈ gap, isBlank c = true) :
    literal? (indent ++ gap) source = none := by
  cases hliteral : literal? (indent ++ gap) source with
  | none => rfl
  | some rest =>
    rw [literal?_eq_some, Source.ofChars_append, List.append_assoc] at hliteral
    have hstops := deeperIndent?_eq_none.mp h.notDeeper _ (literal?_eq_some.mpr hliteral)
    cases gap with
    | nil => exact absurd rfl hne
    | cons c gap =>
      have hc : isBlank c = true := hgap c (by simp)
      rw [Source.ofChars_cons, List.cons_append, stops_char, hc] at hstops
      contradiction

/-- What ends at an indent ends at every deeper one. -/
theorem Ends.gap {indent : Indent} {gap : List Char} (h : Ends indent source) (hne : gap ≠ [])
    (hgap : ∀ c ∈ gap, isBlank c = true) : Ends (indent ++ gap) source := by
  refine ⟨h.notBlank, deeperIndent?_eq_none.mpr fun rest hrest => ?_⟩
  rw [h.literal?_gap hne hgap] at hrest
  contradiction

end Parser

end IndentMarkup

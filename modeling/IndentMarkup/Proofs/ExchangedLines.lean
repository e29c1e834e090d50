import IndentMarkup.Proofs.Composition
import IndentMarkup.Proofs.Shortened

/-! One line in the place of another. What stands in front of a line is read in the same way
whatever the line holds behind its indent, provided that the reading stops there: a line with an
item on it may be exchanged for another one at the same indent, unless one of them is an `else`. -/
namespace IndentMarkup.Parser

open Text (isBlank)
open Source (ofChars)

variable {α : Type}

/-! ## Lines and items -/

/-- Complete lines, or none at all. -/
def Lines (source : Source α) : Prop :=
  source = [] ∨ EndsLine source

section

variable {source rest : Source α}

theorem Lines.of_suffix (h : Lines source) (hsuffix : rest <:+ source) : Lines rest := by
  rcases h with rfl | h
  · exact .inl (List.suffix_nil.mp hsuffix)
  · by_cases hne : rest = []
    · exact .inl hne
    · exact .inr (h.of_suffix hsuffix hne)

theorem Lines.wholeLines (h : Lines source) (tail : Source α) : WholeLines source tail :=
  h.imp_right .inl

theorem EndsLine.lines (h : EndsLine source) (hsuffix : rest <:+ source) : Lines rest :=
  Lines.of_suffix (.inr h) hsuffix

theorem LineBetween.endsLine (h : LineBetween source []) : EndsLine source :=
  h.resolve_right fun ⟨_, hmore⟩ => by contradiction

theorem Lines.of_blankLine? (h : Lines source) {found : LineEnd × Source α}
    (hblank : blankLine? source = some found) : EndsLine source :=
  ((h.wholeLines []).lineBetween_of_blank [] hblank).endsLine

theorem Lines.of_deeperIndent? (h : Lines source) {indent deeper : Indent} (hindent : '\n' ∉ indent)
    (hdeeper : deeperIndent? indent source = some (deeper, rest)) :
    EndsLine source ∧ EndsLine rest := by
  have hsource := (h.wholeLines []).lineBetween_of_deeper [] hdeeper
  exact ⟨hsource.endsLine, (hsource.of_deeperIndent? [] hindent hdeeper).endsLine⟩

end

/-- A line with an item behind its blanks, which is no `else`, and the input from there on. -/
structure ItemLine (blanks : Blanks) (place line : Source α) : Prop where
  eq : line = ofChars blanks.chars ++ place
  begins : BeginsItem place
  noElse : ∀ rest, instructionWord? place ≠ some ("else", rest)

namespace ItemLine

variable {blanks : Blanks} {place line source rest after : Source α}

theorem suffix (h : ItemLine blanks place line) : place <:+ line :=
  h.eq ▸ List.suffix_append _ _

theorem notBlank (h : ItemLine blanks place line) : blankLine? line = none :=
  h.eq ▸ blankLine?_item blanks.blank h.begins

theorem ne_break (h : ItemLine blanks place line) (more : Source α) : line ≠ .char '\n' :: more := by
  rintro rfl
  have hnone := h.notBlank
  contradiction

theorem endsLine (h : ItemLine blanks place line) (hsource : LineBetween source line) :
    EndsLine source :=
  hsource.resolve_right fun ⟨more, hbreak⟩ => h.ne_break more hbreak

theorem lines (h : ItemLine blanks place line) (hsource : WholeLines source line) : Lines source :=
  hsource.imp_right h.endsLine

theorem of_leaves (h : ItemLine blanks place line) (hleaves : Leaves line rest after) :
    after = rest ++ line :=
  hleaves.resolve_right fun hbreak => h.ne_break _ hbreak.2

theorem deeperIndent? (h : ItemLine blanks place line) (outer : Blanks) :
    deeperIndent? outer.chars line =
      if blanks.Deeper outer then some (blanks.chars, place) else none :=
  h.eq ▸ deeperIndent?_line outer blanks h.begins

end ItemLine

/-- There is no line break among blanks. -/
theorem not_mem_blanks (blanks : Blanks) : '\n' ∉ blanks.chars := by
  intro hmem
  have := blanks.blank _ hmem
  contradiction

/-! ## Text in front of a line -/

section Front

variable {blanks : Blanks} {place line source rest : Source α}

theorem blankLine?_front (h : EndsLine source) (tail : Source α) :
    blankLine? (source ++ tail) = (blankLine? source).map (prolong tail) := by
  have hstart := h.afterWhile (p := isBlank) rfl
  unfold blankLine?
  rw [afterWhile_prolong tail (.inl hstart.ne_nil)]
  cases hfront : afterWhile isBlank source with
  | nil => exact absurd hfront hstart.ne_nil
  | cons symbol after =>
    cases symbol with
    | slot value => rfl
    | char c =>
      by_cases hc : c = '\n'
      · subst hc
        rfl
      · simp [hc]

theorem skipLine_front (hline : ItemLine blanks place line) (h : EndsLine source) :
    skipLine (source ++ line) = skipLine source ++ line :=
  hline.of_leaves (skipLine_prolong line (.inl h))

theorem textLine_front (hline : ItemLine blanks place line) (h : EndsLine source) :
    textLine (source ++ line) = prolong line (textLine source) :=
  (textLine_prolong line (.inl h)).resolve_right fun ⟨_, _, more, hbreak, _⟩ =>
    hline.ne_break more hbreak

theorem length_textLine_lt (hne : source ≠ []) : (textLine source).2.length < source.length := by
  cases source with
  | nil => exact absurd rfl hne
  | cons symbol rest =>
    cases symbol with
    | slot value =>
      rw [textLine]
      exact Nat.lt_succ_of_le (length_textLine_le rest)
    | char c =>
      have hrest := length_afterWhile_le inLine rest
      rw [textLine]
      split
      · exact Nat.lt_succ_self _
      · exact Nat.lt_succ_of_le (Nat.le_trans (length_textLine_le _) hrest)

theorem skipBlankLines_front (hline : ItemLine blanks place line) (h : Lines source) :
    skipBlankLines (source ++ line) = skipBlankLines source ++ line ∧
      Lines (skipBlankLines source) := by
  have hskipped : Lines (skipBlankLines source) :=
    h.of_suffix (accounts_skipBlankLines source).suffix
  obtain ⟨hjoined, hat⟩ := skipBlankLines_prolong line (h.wholeLines line)
  refine ⟨hjoined.trans ?_, hskipped⟩
  by_cases hne : skipBlankLines source = []
  · rw [hne, joined_nil]
    exact skipBlankLines_of_not_blank hline.notBlank
  · exact (hat.joined line hne).2

theorem blankLine?_front_none (hline : ItemLine blanks place line) (h : blankLine? source = none) :
    blankLine? (source ++ line) = none := by
  by_cases hne : source = []
  · subst hne
    exact hline.notBlank
  · exact blankLine?_prolong_none line hne h

/-- Where no line in front of an item is deeper, the next deeper line can only be that of the
item. -/
theorem deeperIndent?_front (hline : ItemLine blanks place line) (outer : Blanks) (h : Lines source)
    (hnone : deeperIndent? outer.chars source = none) :
    deeperIndent? outer.chars (source ++ line) = none ∨
      deeperIndent? outer.chars (source ++ line) = some (blanks.chars, place) := by
  rcases h with rfl | hends
  · rw [List.nil_append, hline.deeperIndent? outer]
    split
    · exact .inr rfl
    · exact .inl rfl
  · rw [deeperIndent?_prolong line (not_mem_blanks outer) (.inl hends), hnone]
    exact .inl rfl

end Front

/-! ## Two readings abreast -/

/-- Two readings that give the same and stop behind the same lines, in front of two other ones. -/
def Abreast {β : Type} (line line' : Source α) (found found' : β × Source α) : Prop :=
  ∃ value rest, Lines rest ∧ found = (value, rest ++ line) ∧ found' = (value, rest ++ line')

theorem Abreast.map {β γ : Type} {line line' : Source α} {found found' : β × Source α}
    (h : Abreast line line' found found') (f : β → γ) :
    Abreast line line' (f found.1, found.2) (f found'.1, found'.2) := by
  obtain ⟨value, rest, hrest, rfl, rfl⟩ := h
  exact ⟨f value, rest, hrest, rfl, rfl⟩

/-- Two lines at the same indent with an item on each. -/
structure Exchange (blanks : Blanks) (place line place' line' : Source α) : Prop where
  before : ItemLine blanks place line
  after : ItemLine blanks place' line'

namespace Exchange

variable {blanks : Blanks} {place line place' line' source rest : Source α}

/-- Where one of the lines is not deeper the other is not deeper either. -/
theorem deeperIndent?_none (h : Exchange blanks place line place' line') (outer : Blanks)
    (hsource : Lines source) (hnone : deeperIndent? outer.chars (source ++ line) = none) :
    deeperIndent? outer.chars (source ++ line') = none := by
  rcases hsource with rfl | hends
  · rw [List.nil_append, h.before.deeperIndent? outer] at hnone
    rw [List.nil_append, h.after.deeperIndent? outer, if_neg]
    intro hdeeper
    rw [if_pos hdeeper] at hnone
    contradiction
  · rw [deeperIndent?_prolong line (not_mem_blanks outer) (.inl hends), Option.map_eq_none_iff] at hnone
    rw [deeperIndent?_prolong line' (not_mem_blanks outer) (.inl hends), hnone]
    rfl

theorem skipDeeperLines (h : Exchange blanks place line place' line') (outer : Blanks)
    (hsource : Lines source)
    (hplace : place <:+ Parser.skipDeeperLines outer.chars (source ++ line)) :
    ∃ rest, Lines rest ∧ Parser.skipDeeperLines outer.chars (source ++ line) = rest ++ line ∧
      Parser.skipDeeperLines outer.chars (source ++ line') = rest ++ line' := by
  have hbreak := not_mem_blanks outer
  fun_induction Parser.skipDeeperLines outer.chars source with
  | case1 source deeper rest hdeeper ih =>
    obtain ⟨hends, hrest⟩ := hsource.of_deeperIndent? hbreak hdeeper
    have hstep : ∀ {place line : Source α}, ItemLine blanks place line →
        Parser.skipDeeperLines outer.chars (source ++ line) =
          Parser.skipDeeperLines outer.chars (skipLine rest ++ line) := by
      intro place line hline
      rw [skipDeeperLines_eq, deeperIndent?_prolong line hbreak (.inl hends), hdeeper]
      simp only [Option.map_some, prolong, skipLine_front hline hrest]
    rw [hstep h.before] at hplace ⊢
    rw [hstep h.after]
    exact ih (hrest.lines (suffix_skipLine rest)) hplace
  | case2 source hdeeper found hblank ih =>
    have hends := hsource.of_blankLine? hblank
    have hstep : ∀ {place line : Source α}, ItemLine blanks place line →
        Parser.skipDeeperLines outer.chars (source ++ line) =
          Parser.skipDeeperLines outer.chars (skipLine source ++ line) := by
      intro place line hline
      rw [skipDeeperLines_eq, deeperIndent?_prolong line hbreak (.inl hends), hdeeper,
        blankLine?_front hends, hblank]
      simp only [Option.map_some, Option.map_none, skipLine_front hline hends]
    rw [hstep h.before] at hplace ⊢
    rw [hstep h.after]
    exact ih (hends.lines (suffix_skipLine source)) hplace
  | case3 source hdeeper hblank =>
    rcases deeperIndent?_front h.before outer hsource hdeeper with hnone | hfound
    · have hstop : ∀ {place line : Source α}, ItemLine blanks place line →
          deeperIndent? outer.chars (source ++ line) = none →
            Parser.skipDeeperLines outer.chars (source ++ line) = source ++ line := by
        intro place line hline hnone
        rw [skipDeeperLines_eq, hnone, blankLine?_front_none hline hblank]
      exact ⟨source, hsource, hstop h.before hnone,
        hstop h.after (h.deeperIndent?_none outer hsource hnone)⟩
    · have hskip := length_skipLine_lt h.before.begins.ne_nil
      have hbehind := length_skipDeeperLines_le outer.chars (skipLine place)
      rw [skipDeeperLines_eq, hfound] at hplace
      have hle : place.length ≤ _ := hplace.length_le
      simp only at hle
      omega

theorem continuedText (h : Exchange blanks place line place' line') (outer : Blanks)
    (trimmed : Indent) (hsource : Lines source)
    (hplace : place <:+ (Parser.continuedText outer.chars trimmed (source ++ line)).2) :
    Abreast line line' (Parser.continuedText outer.chars trimmed (source ++ line))
      (Parser.continuedText outer.chars trimmed (source ++ line')) := by
  have hbreak := not_mem_blanks outer
  fun_induction Parser.continuedText outer.chars trimmed source with
  | case1 source rest nodes last hmore _ hblank ih =>
    have hends := hsource.of_blankLine? hblank
    have hstep : ∀ tail, Parser.continuedText outer.chars trimmed (source ++ tail) =
        (.newLine :: (Parser.continuedText outer.chars trimmed (rest ++ tail)).1,
          (Parser.continuedText outer.chars trimmed (rest ++ tail)).2) := by
      intro tail
      rw [continuedText_eq, blankLine?_front hends, hblank]
      rfl
    rw [hstep] at hplace ⊢
    rw [hstep]
    exact (ih (hends.lines (accounts_blankLine? hblank).suffix) hplace).map _
  | case2 source rest nodes last hmore _ hblank ih =>
    have hends := hsource.of_blankLine? hblank
    have hstep : ∀ tail, Parser.continuedText outer.chars trimmed (source ++ tail) =
        Parser.continuedText outer.chars trimmed (rest ++ tail) := by
      intro tail
      rw [continuedText_eq, blankLine?_front hends, hblank]
      rfl
    rw [hstep] at hplace ⊢
    rw [hstep]
    exact ih (hends.lines (accounts_blankLine? hblank).suffix) hplace
  | case3 source hblank hdeeper =>
    rcases deeperIndent?_front h.before outer hsource hdeeper with hnone | hfound
    · have hstop : ∀ {place line : Source α}, ItemLine blanks place line →
          deeperIndent? outer.chars (source ++ line) = none →
            Parser.continuedText outer.chars trimmed (source ++ line) = ([], source ++ line) := by
        intro place line hline hnone
        rw [continuedText_eq, blankLine?_front_none hline hblank, hnone]
      exact ⟨[], source, hsource, hstop h.before hnone,
        hstop h.after (h.deeperIndent?_none outer hsource hnone)⟩
    · have hskip := length_textLine_lt h.before.begins.ne_nil
      have hbehind := length_continuedText_le outer.chars trimmed (textLine place).2
      rw [continuedText_eq, blankLine?_front_none h.before hblank, hfound] at hplace
      have hle : place.length ≤ _ := hplace.length_le
      simp only at hle
      omega
  | case4 source hblank deeper rest hdeeper textual nodes last hmore ih =>
    obtain ⟨hends, hrest⟩ := hsource.of_deeperIndent? hbreak hdeeper
    have hstep : ∀ {place line : Source α}, ItemLine blanks place line →
        Parser.continuedText outer.chars trimmed (source ++ line) =
          (indentText (Indent.trim deeper trimmed) ++ (textLine rest).1 ++
            (Parser.continuedText outer.chars trimmed ((textLine rest).2 ++ line)).1,
          (Parser.continuedText outer.chars trimmed ((textLine rest).2 ++ line)).2) := by
      intro place line hline
      rw [continuedText_eq, blankLine?_front_none hline hblank,
        deeperIndent?_prolong line hbreak (.inl hends), hdeeper]
      simp only [Option.map_some, prolong, textLine_front hline hrest]
    rw [hstep h.before] at hplace ⊢
    rw [hstep h.after]
    exact (ih (hrest.lines (accounts_textLine rest).suffix) hplace).map _

theorem nestedText?_none (h : Exchange blanks place line place' line') (outer : Blanks)
    (hsource : Lines source) (hnone : Parser.nestedText? outer.chars (source ++ line) = none) :
    Parser.nestedText? outer.chars (source ++ line') = none := by
  have hdeeper : deeperIndent? outer.chars (source ++ line) = none := by
    cases hdeeper : deeperIndent? outer.chars (source ++ line) with
    | none => rfl
    | some found => simp [Parser.nestedText?, hdeeper] at hnone
  simp [Parser.nestedText?, h.deeperIndent?_none outer hsource hdeeper]

theorem nestedText? (h : Exchange blanks place line place' line') (outer : Blanks)
    (hsource : Lines source) {found : List (Node α) × Source α}
    (hfound : Parser.nestedText? outer.chars (source ++ line) = some found)
    (hplace : place <:+ found.2) :
    ∃ found', Parser.nestedText? outer.chars (source ++ line') = some found' ∧
      Abreast line line' found found' := by
  have hbreak := not_mem_blanks outer
  cases hdeeper : deeperIndent? outer.chars source with
  | some first =>
    obtain ⟨deeper, rest⟩ := first
    obtain ⟨hends, hrest⟩ := hsource.of_deeperIndent? hbreak hdeeper
    have hstep : ∀ {place line : Source α}, ItemLine blanks place line →
        Parser.nestedText? outer.chars (source ++ line) =
          some ((textLine rest).1 ++
            (Parser.continuedText outer.chars deeper ((textLine rest).2 ++ line)).1,
          (Parser.continuedText outer.chars deeper ((textLine rest).2 ++ line)).2) := by
      intro place line hline
      simp [Parser.nestedText?, deeperIndent?_prolong line hbreak (.inl hends), hdeeper, prolong,
        textLine_front hline hrest]
    rw [hstep h.before] at hfound
    obtain rfl := Option.some.inj hfound
    exact ⟨_, hstep h.after,
      (h.continuedText outer deeper (hrest.lines (accounts_textLine rest).suffix) hplace).map _⟩
  | none =>
    rcases deeperIndent?_front h.before outer hsource hdeeper with hnone | hreached
    · simp [Parser.nestedText?, hnone] at hfound
    · have hskip := length_textLine_lt h.before.begins.ne_nil
      have hbehind := length_continuedText_le outer.chars blanks.chars (textLine place).2
      simp only [Parser.nestedText?, hreached, Option.bind_eq_bind, Option.bind_some,
        Option.pure_def, Option.some.injEq] at hfound
      have hle : place.length ≤ _ := hplace.length_le
      rw [← hfound] at hle
      simp only at hle
      omega

theorem textBody (h : Exchange blanks place line place' line') (outer : Blanks)
    (hsource : EndsLine source) (hplace : place <:+ (Parser.textBody outer.chars (source ++ line)).2) :
    Abreast line line' (Parser.textBody outer.chars (source ++ line))
      (Parser.textBody outer.chars (source ++ line')) := by
  have hbetween : ∀ tail, LineBetween source tail := fun _ => .inl hsource
  have hends := h.before.endsLine (textStart_prolong line outer.chars (hbetween line)).2
  have hbelow := hends.lines (accounts_textLine (textStart outer.chars source).2).suffix
  simp only [Parser.textBody, (textStart_prolong _ outer.chars (hbetween _)).1, prolong,
    textLine_front h.before hends, textLine_front h.after hends,
    (skipBlankLines_front h.before hbelow).1, (skipBlankLines_front h.after hbelow).1] at hplace ⊢
  have hskipped := (skipBlankLines_front h.before hbelow).2
  generalize textLine (textStart outer.chars source).2 = first at *
  by_cases hempty : isLineBreak first.1 = true
  · simp only [if_pos hempty] at hplace ⊢
    cases hnested : Parser.nestedText? outer.chars (skipBlankLines first.2 ++ line) with
    | none =>
      rw [h.nestedText?_none outer hskipped hnested]
      exact ⟨none, _, hskipped, rfl, rfl⟩
    | some found =>
      rw [hnested] at hplace
      obtain ⟨found', hnested', hsame⟩ := h.nestedText? outer hskipped hnested hplace
      rw [hnested']
      exact hsame.map some
  · simp only [if_neg hempty] at hplace ⊢
    exact (h.continuedText outer _ hbelow hplace).map fun more => some (first.1 ++ more)

theorem textItem? (h : Exchange blanks place line place' line') (outer : Blanks)
    (hsource : EndsLine source) {found : List (Node α) × Source α}
    (hfound : Parser.textItem? outer.chars (source ++ line) = some found)
    (hplace : place <:+ found.2) :
    ∃ found', Parser.textItem? outer.chars (source ++ line') = some found' ∧
      Abreast line line' found found' := by
  cases source with
  | nil => exact absurd rfl hsource.ne_nil
  | cons symbol rest =>
    cases symbol with
    | slot value => contradiction
    | char marker =>
      cases hmarker : isTextMarker marker with
      | false => simp [Parser.textItem?, hmarker] at hfound
      | true =>
        have hrest : EndsLine rest := by
          refine hsource.of_char ?_
          rintro rfl
          contradiction
        have hlast : found.2 = (Parser.textBody outer.chars (rest ++ line)).2 := by
          simp only [List.cons_append, Parser.textItem?, hmarker, if_true] at hfound
          split at hfound <;> simp [← Option.some.inj hfound, *]
        obtain ⟨value, after, hafter, hbefore, hother⟩ := h.textBody outer hrest (hlast ▸ hplace)
        simp only [List.cons_append, Parser.textItem?, hmarker, if_true, hbefore, hother]
          at hfound ⊢
        cases value with
        | none => exact ⟨_, rfl, [], after, hafter, (Option.some.inj hfound).symm, rfl⟩
        | some nodes => exact ⟨_, rfl, _, after, hafter, (Option.some.inj hfound).symm, rfl⟩

theorem lineText (h : Exchange blanks place line place' line') (outer : Blanks)
    (hsource : EndsLine source) (hplace : place <:+ (Parser.lineText outer.chars (source ++ line)).2) :
    Abreast line line' (Parser.lineText outer.chars (source ++ line))
      (Parser.lineText outer.chars (source ++ line')) := by
  have hbelow := hsource.lines (accounts_textLine source).suffix
  simp only [Parser.lineText, textLine_front h.before hsource, textLine_front h.after hsource,
    prolong, (skipBlankLines_front h.before hbelow).1,
    (skipBlankLines_front h.after hbelow).1] at hplace ⊢
  have hskipped := (skipBlankLines_front h.before hbelow).2
  generalize textLine source = first at *
  by_cases hempty : first.1.all Node.isNewLine = true
  · simp only [if_pos hempty] at hplace ⊢
    exact ⟨none, _, hskipped, rfl, rfl⟩
  · simp only [if_neg hempty] at hplace ⊢
    cases hnested : Parser.nestedText? outer.chars (skipBlankLines first.2 ++ line) with
    | none =>
      rw [h.nestedText?_none outer hskipped hnested]
      exact ⟨some _, _, hskipped, rfl, rfl⟩
    | some found =>
      rw [hnested] at hplace
      obtain ⟨found', hnested', hsame⟩ := h.nestedText? outer hskipped hnested hplace
      rw [hnested']
      exact hsame.map fun more => some (dropTrailingNewLines (first.1 ++ more))

theorem comment? (h : Exchange blanks place line place' line') (outer : Blanks)
    (hsource : EndsLine source) (hfound : Parser.comment? outer.chars (source ++ line) = some rest)
    (hplace : place <:+ rest) :
    ∃ after, Lines after ∧ rest = after ++ line ∧
      Parser.comment? outer.chars (source ++ line') = some (after ++ line') := by
  cases source with
  | nil => exact absurd rfl hsource.ne_nil
  | cons symbol source =>
    by_cases hsymbol : symbol = .char '/'
    · subst hsymbol
      have hends : EndsLine source := hsource.of_char (by decide)
      have hlines := hends.lines (suffix_skipLine source)
      simp only [List.cons_append, Parser.comment?, skipLine_front h.before hends,
        skipLine_front h.after hends, Option.some.injEq] at hfound ⊢
      subst hfound
      exact h.skipDeeperLines outer hlines hplace
    · rw [List.cons_append, comment?_of_stops _ (stops_cons hsymbol _)] at hfound
      contradiction

end Exchange

end IndentMarkup.Parser

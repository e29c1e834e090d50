import IndentMarkup.Proofs.ExchangedBlocks

/-! Readings cut short. What is read in front of an item is read in the same way where the input
ends before the line of that item, provided that the reading stops there. So the blank lines between
two items say nothing about the first of them, and whatever else may follow in their place. -/
namespace IndentMarkup.Parser

open Text (isBlank isSpace)
open Source (ofChars)

variable {α : Type}

/-! ## What lies ahead -/

/-- Blank lines, or none, and behind them a line with an item. -/
structure Ahead (blanks : Blanks) (place tail : Source α) : Prop where
  spaces : ∃ text : List Char, (∀ c ∈ text, isSpace c = true) ∧ tail = ofChars text ++ place
  line : ItemLine blanks place (skipBlankLines tail)

namespace Ahead

variable {blanks : Blanks} {place tail source rest : Source α}

theorem ne_nil (h : Ahead blanks place tail) : tail ≠ [] := by
  obtain ⟨text, -, rfl⟩ := h.spaces
  exact List.append_ne_nil_of_right_ne_nil _ h.line.begins.ne_nil

/-- Behind the blank lines an indent ends at the item. -/
theorem start_eq (h : Ahead blanks place tail) (outer : Blanks) {start : Source α}
    (hindent : literal? outer.chars (skipBlankLines tail) = some start)
    (hchars : charsWhile isBlank start = []) : start = place := by
  rw [h.line.literal? outer] at hindent
  split at hindent
  · rename_i hfront
    obtain ⟨gap, hgap⟩ := hfront
    obtain rfl := Option.some.inj hindent
    rw [← hgap, List.drop_left] at hchars ⊢
    have hblank : ∀ c ∈ gap, isBlank c = true := fun c hc => blanks.blank c (by simp [← hgap, hc])
    obtain rfl : gap = [] := by
      rwa [charsWhile_append hblank h.line.begins.stops] at hchars
    rfl
  · contradiction

end Ahead

/-- The input of a production in front of what lies ahead. The block below a line may be looked for
from any of the blank lines above it. -/
def Precedes (source tail whole : Source α) : Production → Prop
  | .children => skipBlankLines whole = joined source tail
  | .otherwise | .siblings => whole = joined source tail
  | .item | .element | .content | .instruction | .block => whole = source ++ tail

/-- A further item in front of what lies ahead, or the item there. -/
theorem sibling_curtail {blanks : Blanks} {place tail source start : Source α} (outer : Blanks)
    (hahead : Ahead blanks place tail) (hat : AtLine source tail) (hsource : Lines source)
    (hindent : literal? outer.chars (joined source tail) = some start)
    (hchars : charsWhile isBlank start = []) :
    start = place ∨ ∃ start', start = start' ++ tail ∧ EndsLine start' ∧
      literal? outer.chars source = some start' ∧ charsWhile isBlank start' = [] := by
  rcases hsource with rfl | hends
  · rw [joined_nil] at hindent
    exact .inl (hahead.start_eq outer hindent hchars)
  · obtain ⟨hbetween, hjoined⟩ := hat.joined tail hends.ne_nil
    rw [hjoined, literal?_prolong tail hbetween (not_mem_blanks outer)] at hindent
    obtain ⟨start', hindent', rfl⟩ := Option.map_eq_some_iff.mp hindent
    have hstart : EndsLine start' :=
      (LineBetween.of_literal? (.inl hends) (not_mem_blanks outer) hindent').endsLine
    refine .inr ⟨start', rfl, hstart, hindent', ?_⟩
    rwa [charsWhile_prolong tail (.inl (hstart.afterWhile rfl).ne_nil)] at hchars

/-! ## Parts of an item -/

section

variable {indent : Indent} {tail source rest start inner : Source α} {nodes : List (Node α)}

theorem comment?_curtail (hparted : Parted indent tail) (hsource : LineBetween source tail)
    (hcomment : comment? indent (source ++ tail) = some rest) :
    ∃ after, comment? indent source = some after ∧ rest = joined after tail := by
  rw [(comment?_prolong tail hparted.noBreak hparted.ends hsource).1] at hcomment
  obtain ⟨after, hafter, heq⟩ := Option.map_eq_some_iff.mp hcomment
  exact ⟨after, hafter, heq.symm⟩

theorem comment?_curtail_none (hparted : Parted indent tail) (hsource : LineBetween source tail)
    (hcomment : comment? indent (source ++ tail) = none) : comment? indent source = none := by
  rwa [(comment?_prolong tail hparted.noBreak hparted.ends hsource).1,
    Option.map_eq_none_iff] at hcomment

theorem textItem?_curtail (hparted : Parted indent tail) (hsource : EndsLine source)
    (htext : textItem? indent (source ++ tail) = some (nodes, rest)) :
    ∃ after, textItem? indent source = some (nodes, after) ∧ rest = joined after tail := by
  cases hfound : textItem? indent source with
  | none =>
    rw [textItem?_prolong_none tail (.inl hsource) hfound] at htext
    contradiction
  | some found =>
    obtain ⟨-, hsame, -⟩ :=
      textItem?_prolong tail hparted.noBreak hparted.ends (.inl hsource) hfound
    rw [htext, not_bareApostrophe hsource] at hsame
    obtain ⟨rfl, rfl⟩ := Prod.mk.inj (Option.some.inj hsame)
    exact ⟨found.2, rfl, rfl⟩

theorem textItem?_curtail_none (hparted : Parted indent tail) (hsource : LineBetween source tail)
    (htext : textItem? indent (source ++ tail) = none) : textItem? indent source = none := by
  cases hfound : textItem? indent source with
  | none => rfl
  | some found =>
    obtain ⟨-, hsame, -⟩ := textItem?_prolong tail hparted.noBreak hparted.ends hsource hfound
    rw [htext] at hsame
    contradiction

theorem naming_curtail_none (hsource : LineBetween source tail)
    (hnaming : naming (source ++ tail) = .ok none) : naming source = .ok none := by
  obtain ⟨before, hbefore, hnone⟩ := naming_shorten hsource hnaming
  rwa [Option.map_eq_none_iff.mp hnone] at hbefore

/-- The header of an element ends in front of what lies ahead. -/
theorem header_curtail {blanks : Blanks} {place : Source α} (hahead : Ahead blanks place tail)
    (hsource : EndsLine source) {named : Naming α} {opening : Opening α}
    (hnaming : naming (source ++ tail) = .ok (some (named, start)))
    (hopening : openingRest named start = .ok (opening, inner)) (hplace : place <:+ inner) :
    ∃ start' inner', EndsLine inner' ∧ inner = inner' ++ tail ∧
      naming source = .ok (some (named, start')) ∧
        openingRest named start' = .ok (opening, inner') := by
  obtain ⟨before, hbefore, heq⟩ := naming_shorten (.inl hsource) hnaming
  obtain ⟨⟨_, start'⟩, rfl, hsame⟩ := Option.map_eq_some_iff.mp heq
  obtain ⟨rfl, rfl⟩ := Prod.mk.inj hsame
  have hstart : EndsLine start' :=
    ((naming_prolong [] (.inl hsource) hbefore).2 _ _ rfl).endsLine
  obtain ⟨text, hspaces, rfl⟩ := hahead.spaces
  obtain ⟨inner', rfl, hopening'⟩ := openingRest_shorten hspaces hstart hplace hopening
  exact ⟨start', inner', (openingRest_prolong [] (.inl hstart) hopening').2.endsLine, rfl, hbefore,
    hopening'⟩

/-- The element behind a colon stands in front of what lies ahead. -/
theorem expansion_curtail (hsource : EndsLine source)
    (hcolon : expansion? (skipOneBlank (source ++ tail)) = some inner) :
    ∃ inner', EndsLine inner' ∧ inner = inner' ++ tail ∧
      expansion? (skipOneBlank source) = some inner' := by
  rw [(expansion?_prolong tail (.inl hsource)).1] at hcolon
  obtain ⟨inner', hcolon', rfl⟩ := Option.map_eq_some_iff.mp hcolon
  have hbetween := (expansion?_prolong [] (.inl hsource)).2 inner' hcolon'
  exact ⟨inner', hbetween.endsLine, rfl, hcolon'⟩

theorem lineText_curtail (hparted : Parted indent tail) (hsource : EndsLine source)
    (hcolon : expansion? (skipOneBlank (source ++ tail)) = none)
    {found : Option (List (Node α))}
    (hline : lineText indent (skipOneBlank (source ++ tail)) = (found, rest)) :
    expansion? (skipOneBlank source) = none ∧ ∃ after, rest = joined after tail ∧
      AtLine after tail ∧ lineText indent (skipOneBlank source) = (found, after) := by
  rw [(expansion?_prolong tail (.inl hsource)).1, Option.map_eq_none_iff] at hcolon
  obtain ⟨hsame, hat⟩ := hparted.lineText (.inl hsource) rfl
  rw [hline] at hsame
  obtain ⟨rfl, rfl⟩ := Prod.mk.inj hsame
  exact ⟨hcolon, _, rfl, hat, rfl⟩

/-- A control flow line ends in front of what lies ahead. -/
theorem instructionLine_curtail (hsource : EndsLine source) {word : String}
    {found : Instruction α} (hname : instructionName (source ++ tail) = .ok (some (word, start)))
    (hline : instructionRest word start = .ok (found, inner)) :
    ∃ start' inner', Lines inner' ∧ Leaves tail inner' inner ∧
      instructionName source = .ok (some (word, start')) ∧
        instructionRest word start' = .ok (found, inner') := by
  obtain ⟨before, hbefore, heq⟩ := instructionName_shorten (.inl hsource) hname
  obtain ⟨⟨_, start'⟩, rfl, hsame⟩ := Option.map_eq_some_iff.mp heq
  obtain ⟨rfl, rfl⟩ := Prod.mk.inj hsame
  have hstart : EndsLine start' :=
    ((instructionName_prolong [] (.inl hsource) hbefore).2 _ _ rfl).endsLine
  obtain ⟨inner', hline', hleaves⟩ := instructionRest_shorten (.inl hstart) hline
  exact ⟨start', inner', hstart.lines (accounts_instructionRest hline').suffix, hleaves, hbefore,
    hline'⟩

/-- The line of an `else` ends in front of what lies ahead. -/
theorem elseLine_curtail (hparted : Parted indent tail) (hat : AtLine source tail)
    (hsource : Lines source) (hmark : elseMark? indent (joined source tail) = some start)
    (hend : endOfLine .elseMark start = .ok inner) :
    ∃ start' inner', Lines inner' ∧ Leaves tail inner' inner ∧
      elseMark? indent source = some start' ∧ endOfLine .elseMark start' = .ok inner' := by
  rw [(elseMark?_prolong tail hparted.noBreak hparted.beyond.noElse hat).1] at hmark
  obtain ⟨start', hmark', rfl⟩ := Option.map_eq_some_iff.mp hmark
  have hends : EndsLine source := by
    refine hsource.resolve_left ?_
    rintro rfl
    rw [(beyondBlock_nil indent).noElse] at hmark'
    contradiction
  have hstart : EndsLine start' :=
    ((elseMark?_front [] hparted.noBreak (.inl hends)).2 start' hmark').endsLine
  obtain ⟨inner', hend', hleaves⟩ := endOfLine_shorten (.inl hstart) hend
  exact ⟨start', inner', hstart.lines (accounts_endOfLine hend').suffix, hleaves, hmark', hend'⟩

/-- A block below a line begins in front of what lies ahead. -/
theorem deeperLine_curtail (hparted : Parted indent tail) (hsource : Lines source)
    {deeper : Indent}
    (hdeeper : deeperIndent? indent (joined source tail) = some (deeper, inner)) :
    ∃ inner', EndsLine inner' ∧ inner = inner' ++ tail ∧
      deeperIndent? indent (skipBlankLines source) = some (deeper, inner') := by
  rw [hparted.look (hsource.wholeLines tail)] at hdeeper
  obtain ⟨⟨_, inner'⟩, hdeeper', heq⟩ := Option.map_eq_some_iff.mp hdeeper
  obtain ⟨rfl, rfl⟩ := Prod.mk.inj heq
  have hskipped : Lines (skipBlankLines source) :=
    hsource.of_suffix (accounts_skipBlankLines source).suffix
  exact ⟨inner', (hskipped.of_deeperIndent? hparted.noBreak hdeeper').2, rfl, hdeeper'⟩

end

/-! ## Whatever is read -/

variable {blanks : Blanks} {place tail : Source α}

/-- Whatever is read in front of what lies ahead is read in the same way where the input ends
there. -/
theorem Reads.curtail (hahead : Ahead blanks place tail) {production : Production}
    {indent : Indent} {whole rest : Source α} {nodes : List (Node α)}
    (h : Reads production indent whole nodes rest) (hparted : Parted indent tail)
    {source : Source α} (hwhole : Precedes source tail whole production)
    (hfront : Front source production) (hopens : Opens source tail production)
    (hplace : place <:+ rest) :
    ∃ after, rest = joined after tail ∧ Reads production indent source nodes after := by
  induction h generalizing source with
  | comment hcomment =>
    obtain rfl := hwhole
    obtain ⟨after, hcomment', hrest⟩ := comment?_curtail hparted hopens.1 hcomment
    exact ⟨after, hrest, .comment hcomment'⟩
  | text hcomment htext =>
    obtain rfl := hwhole
    obtain ⟨after, htext', hrest⟩ := textItem?_curtail hparted hfront htext
    exact ⟨after, hrest, .text (comment?_curtail_none hparted hopens.1 hcomment) htext'⟩
  | elementItem hcomment htext _ ih =>
    obtain rfl := hwhole
    obtain ⟨after, hrest, hread⟩ := ih hparted rfl hfront hopens.1 hplace
    exact ⟨after, hrest, .elementItem (comment?_curtail_none hparted hopens.1 hcomment)
      (textItem?_curtail_none hparted hopens.1 htext) hread⟩
  | instructionItem hcomment htext helement _ ih =>
    obtain rfl := hwhole
    obtain ⟨after, hrest, hread⟩ := ih hparted rfl hfront hopens.1 hplace
    have hnaming := naming_curtail_none hopens.1 (of_element_none helement)
    exact ⟨after, hrest, .instructionItem (comment?_curtail_none hparted hopens.1 hcomment)
      (textItem?_curtail_none hparted hopens.1 htext) (element_of_naming hnaming) hread⟩
  | blankLine _ _ _ _ hline =>
    obtain rfl := hwhole
    rw [blankLine?_prolong_none tail hfront.ne_nil hopens.2.not_blank] at hline
    contradiction
  | element hnaming hopening hcontent ih =>
    obtain rfl := hwhole
    obtain ⟨_, inner, hinner, rfl, hnaming', hopening'⟩ := header_curtail hahead hfront hnaming
      hopening (hplace.trans hcontent.accounts.suffix)
    obtain ⟨after, hrest, hread⟩ := ih hparted rfl hinner (.inl hinner) hplace
    exact ⟨after, hrest, .element hnaming' hopening' hread⟩
  | expansion hcolon _ ih =>
    obtain rfl := hwhole
    obtain ⟨inner, hinner, rfl, hcolon'⟩ := expansion_curtail hfront hcolon
    obtain ⟨after, hrest, hread⟩ := ih hparted rfl hinner (.inl hinner) hplace
    exact ⟨after, hrest, .expansion hcolon' hread⟩
  | lineText hcolon hline =>
    obtain rfl := hwhole
    obtain ⟨hcolon', after, hrest, -, hline'⟩ := lineText_curtail hparted hfront hcolon hline
    exact ⟨after, hrest, .lineText hcolon' hline'⟩
  | lower hcolon hline _ ih =>
    obtain rfl := hwhole
    obtain ⟨hcolon', inner, rfl, hat, hline'⟩ := lineText_curtail hparted hfront hcolon hline
    have hinner : Lines inner := hfront.lines
      ((accounts_lineText hline').suffix.trans (accounts_skipOneBlank source).suffix)
    obtain ⟨after, hrest, hread⟩ :=
      ih hparted (skipBlankLines_skipBlankLines _) hinner hat.wholeLines hplace
    exact ⟨after, hrest, .lower hcolon' hline' hread⟩
  | childless hdeeper =>
    rw [hwhole, hparted.look hopens, Option.map_eq_none_iff] at hdeeper
    exact ⟨_, hwhole.trans (skipBlankLines_prolong tail hopens).1, .childless hdeeper⟩
  | deeper hdeeper _ ih =>
    rw [hwhole] at hdeeper
    obtain ⟨inner, hinner, rfl, hdeeper'⟩ := deeperLine_curtail hparted hfront hdeeper
    obtain ⟨⟨gap, rfl⟩, hitem⟩ := opens_deeper hparted hopens hdeeper'
    obtain ⟨after, hrest, hread⟩ := ih (hparted.below gap) rfl hinner hitem hplace
    exact ⟨after, hrest, .deeper hdeeper' hread⟩
  | noBlock _ hblock =>
    -- Such a reading leaves no input, but the place is left.
    rw [of_block_none hblock, List.suffix_nil] at hplace
    exact absurd hplace hahead.line.begins.ne_nil
  | ifThen hname hline _ helse ihthen ihelse =>
    obtain rfl := hwhole
    obtain ⟨_, inner, hinner, hleaves, hname', hline'⟩ :=
      instructionLine_curtail hfront hname hline
    have hlines := hinner.wholeLines tail
    obtain ⟨after, rfl, hthen'⟩ := ihthen hparted hleaves.skipBlankLines hinner hlines
      (hplace.trans helse.accounts.suffix)
    obtain ⟨last, hrest, helse'⟩ := ihelse hparted rfl (hinner.of_suffix hthen'.accounts.suffix)
      (hthen'.continues hparted hlines).1 hplace
    exact ⟨last, hrest, .ifThen hname' hline' hthen' helse'⟩
  | forEach hname hline _ ih =>
    obtain rfl := hwhole
    obtain ⟨_, inner, hinner, hleaves, hname', hline'⟩ :=
      instructionLine_curtail hfront hname hline
    obtain ⟨after, hrest, hread⟩ :=
      ih hparted hleaves.skipBlankLines hinner (hinner.wholeLines tail) hplace
    exact ⟨after, hrest, .forEach hname' hline' hread⟩
  | noElse hmark =>
    obtain rfl := hwhole
    rw [(elseMark?_prolong tail hparted.noBreak hparted.beyond.noElse hopens).1,
      Option.map_eq_none_iff] at hmark
    exact ⟨source, rfl, .noElse hmark⟩
  | elseMark hmark hend _ ih =>
    obtain rfl := hwhole
    obtain ⟨_, inner, hinner, hleaves, hmark', hend'⟩ :=
      elseLine_curtail hparted hopens hfront hmark hend
    obtain ⟨after, hrest, hread⟩ :=
      ih hparted hleaves.skipBlankLines hinner (hinner.wholeLines tail) hplace
    exact ⟨after, hrest, .elseMark hmark' hend' hread⟩
  | @outside indent _ hindent =>
    obtain rfl := hwhole
    refine ⟨source, rfl, ?_⟩
    by_cases hne : source = []
    · subst hne
      exact reads_siblings (siblings_nil indent)
    · obtain ⟨hbetween, hjoined⟩ := hopens.joined tail hne
      rw [hjoined, literal?_prolong tail hbetween hparted.noBreak,
        Option.map_eq_none_iff] at hindent
      exact .outside hindent
  | @noItem indent _ start hindent hitem =>
    obtain rfl := hwhole
    obtain rfl := of_item_none hitem
    rcases sibling_curtail ⟨indent, hparted.blank⟩ hahead hopens hfront hindent rfl with
      hnil | ⟨_, hnil, -⟩
    · exact absurd hnil.symm hahead.line.begins.ne_nil
    · exact absurd (List.append_eq_nil_iff.mp hnil.symm).2 hahead.ne_nil
  | @sibling indent _ _ _ _ _ _ hindent hchars hitem hmore ihitem ihmore =>
    obtain rfl := hwhole
    have hinner := hplace.trans hmore.accounts.suffix
    rcases sibling_curtail ⟨indent, hparted.blank⟩ hahead hopens hfront hindent hchars with
      rfl | ⟨start, rfl, hstart, hindent', hchars'⟩
    · -- An item that begins at the place takes some of it, and then it is not left.
      exact absurd (length_of_item hitem.gives) (Nat.not_lt.mpr hinner.length_le)
    · have hitemopens := (opens_sibling hparted hopens hindent' hchars' hstart.ne_nil).2
      obtain ⟨inner, rfl, hitem'⟩ := ihitem hparted rfl hstart hitemopens hinner
      obtain ⟨after, hrest, hmore'⟩ := ihmore hparted rfl (hstart.lines hitem'.accounts.suffix)
        (hitem'.continues hparted hitemopens).1 hplace
      exact ⟨after, hrest, .sibling hindent' hchars' hitem' hmore'⟩
  | block hitem hmore ihitem ihmore =>
    obtain rfl := hwhole
    obtain ⟨inner, rfl, hitem'⟩ :=
      ihitem hparted rfl hfront hopens (hplace.trans hmore.accounts.suffix)
    obtain ⟨after, hrest, hmore'⟩ := ihmore hparted rfl (hfront.lines hitem'.accounts.suffix)
      (hitem'.continues hparted hopens).1 hplace
    exact ⟨after, hrest, .block hitem' hmore'⟩

/-- An item of complete lines that ends where the next line with an item begins is read in the same
way in front of other lines that do not belong to it. -/
theorem item_elsewhere (hahead : Ahead blanks place tail) {indent : Indent}
    {first other next : Source α} {nodes : List (Node α)} (hends : EndsLine first)
    (hbegins : BeginsItem first) (hparted : Parted indent tail) (hparted' : Parted indent other)
    (hnext : skipBlankLines tail = next) (h : Reads .item indent (first ++ tail) nodes next) :
    Reads .item indent (first ++ other) nodes (skipBlankLines other) := by
  subst hnext
  obtain ⟨after, hrest, hread⟩ :=
    h.curtail hahead hparted rfl hends ⟨.inl hends, hbegins⟩ hahead.line.suffix
  obtain rfl : after = [] := by
    have hat := (hread.continues hparted ⟨.inl hends, hbegins⟩).1
    by_cases hne : after = []
    · exact hne
    · have hlength := length_skipBlankLines_le tail
      rw [hrest, (hat.joined tail hne).2, List.length_append] at hlength
      exact List.length_eq_zero_iff.mp (by omega)
  obtain ⟨-, found, hshorn, hmore⟩ := hread.continues hparted' ⟨.inl hends, hbegins⟩
  obtain rfl := hshorn.same (hread.within.not_bare hends)
  exact hmore

end IndentMarkup.Parser

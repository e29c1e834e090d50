import IndentMarkup.Proofs.ExchangedLines

/-! Blocks around an exchanged line. The productions that stop in front of the line give the same
for both; the ones that come upon an item there go on with it, so they have the same outcome if the
blocks that begin there have. From this it follows that a document does not change, if the block
that begins on the line does not. -/
namespace IndentMarkup.Parser

open Text (isBlank)
open Source (ofChars)

variable {α : Type}

/-! ## The steps of a production in front of a line -/

section

variable {indent : Indent} {source tail : Source α}

theorem comment?_none_front (hsource : EndsLine source)
    (hnone : comment? indent (source ++ tail) = none) (tail' : Source α) :
    comment? indent (source ++ tail') = none := by
  cases source with
  | nil => exact absurd rfl hsource.ne_nil
  | cons symbol source =>
    by_cases hsymbol : symbol = .char '/'
    · subst hsymbol
      contradiction
    · exact comment?_of_stops indent (stops_cons hsymbol _)

theorem textItem?_none_front (hsource : EndsLine source)
    (hnone : textItem? indent (source ++ tail) = none) (tail' : Source α) :
    textItem? indent (source ++ tail') = none := by
  refine textItem?_prolong_none tail' (.inl hsource) ?_
  cases source with
  | nil => exact absurd rfl hsource.ne_nil
  | cons symbol source =>
    cases symbol with
    | slot value => rfl
    | char marker =>
      cases hmarker : isTextMarker marker with
      | false => simp [textItem?, hmarker]
      | true =>
        rw [List.cons_append, textItem?, if_pos hmarker] at hnone
        split at hnone <;> contradiction

theorem naming_none_front (hsource : EndsLine source)
    (hnone : naming (source ++ tail) = .ok none) (tail' : Source α) :
    naming (source ++ tail') = .ok none := by
  obtain ⟨before, hbefore, heq⟩ := naming_shorten (.inl hsource) hnone
  obtain rfl := Option.map_eq_none_iff.mp heq
  exact (naming_prolong tail' (.inl hsource) hbefore).1

theorem instructionName_none_front (hsource : EndsLine source)
    (hnone : instructionName (source ++ tail) = .ok none) (tail' : Source α) :
    instructionName (source ++ tail') = .ok none := by
  obtain ⟨before, hbefore, heq⟩ := instructionName_shorten (.inl hsource) hnone
  obtain rfl := Option.map_eq_none_iff.mp heq
  exact (instructionName_prolong tail' (.inl hsource) hbefore).1

/-- Where no word begins a control flow line, there is none. -/
theorem instruction_of_name (h : instructionName source = .ok none) :
    instruction indent source = .ok none := by
  rw [instruction_eq, h]
  rfl

end

namespace ItemLine

variable {blanks : Blanks} {place line : Source α}

theorem literal? (h : ItemLine blanks place line) (outer : Blanks) :
    Parser.literal? outer.chars line =
      if outer.chars <+: blanks.chars then
        some (ofChars (blanks.chars.drop outer.chars.length) ++ place)
      else none :=
  h.eq ▸ literal?_line outer.blank h.begins

/-- No block is looked for behind an `else` at the line. -/
theorem elseMark? (h : ItemLine blanks place line) (outer : Blanks) :
    Parser.elseMark? outer.chars line = none := by
  unfold Parser.elseMark?
  rw [h.literal? outer]
  split
  · simp only [Option.bind_eq_bind, Option.bind_some]
    cases hgap : blanks.chars.drop outer.chars.length with
    | nil =>
      rw [Source.ofChars_nil, List.nil_append]
      split
      · rename_i hword
        exact absurd hword (h.noElse _)
      · rfl
    | cons c gap =>
      have hc : isBlank c = true :=
        blanks.blank c (List.mem_of_mem_drop (hgap ▸ List.mem_cons_self))
      have hstops : Stops (· == '-') (ofChars (c :: gap) ++ place) := by
        rw [Source.ofChars_cons, List.cons_append, stops_char, beq_eq_false_iff_ne]
        rintro rfl
        contradiction
      rw [instructionWord?_of_stops hstops]
  · rfl

end ItemLine

namespace Exchange

variable {blanks : Blanks} {place line place' line' source start inner rest : Source α}

/-- The header of an element is the same. -/
theorem header (h : Exchange blanks place line place' line') (hsource : EndsLine source)
    {named : Naming α} {opening : Opening α}
    (hnaming : naming (source ++ line) = .ok (some (named, start)))
    (hopening : openingRest named start = .ok (opening, inner)) (hplace : place <:+ inner) :
    ∃ start' rest, EndsLine rest ∧ inner = rest ++ line ∧
      naming (source ++ line') = .ok (some (named, start' ++ line')) ∧
        openingRest named (start' ++ line') = .ok (opening, rest ++ line') := by
  obtain ⟨before, hbefore, heq⟩ := naming_shorten (.inl hsource) hnaming
  obtain ⟨⟨_, start'⟩, rfl, hsame⟩ := Option.map_eq_some_iff.mp heq
  obtain ⟨rfl, rfl⟩ := Prod.mk.inj hsame
  have hstart : EndsLine start' :=
    h.before.endsLine ((naming_prolong line (.inl hsource) hbefore).2 _ _ rfl)
  rw [h.before.eq] at hopening
  have hspaces : ∀ c ∈ blanks.chars, Text.isSpace c = true := fun c hc =>
    Text.isSpace_of_isBlank (blanks.blank c hc)
  obtain ⟨rest, rfl, hopening'⟩ := openingRest_shorten hspaces hstart hplace hopening
  have hrest := (openingRest_prolong line (.inl hstart) hopening').2
  exact ⟨start', rest, h.before.endsLine hrest, by rw [h.before.eq],
    (naming_prolong line' (.inl hsource) hbefore).1,
    (openingRest_prolong line' (.inl hstart) hopening').1⟩

/-- A control flow line is the same. -/
theorem instructionLine (h : Exchange blanks place line place' line') (hsource : EndsLine source)
    {word : String} {found : Instruction α}
    (hname : instructionName (source ++ line) = .ok (some (word, start)))
    (hline : instructionRest word start = .ok (found, inner)) :
    ∃ start' rest, Lines rest ∧ inner = rest ++ line ∧
      instructionName (source ++ line') = .ok (some (word, start' ++ line')) ∧
        instructionRest word (start' ++ line') = .ok (found, rest ++ line') := by
  obtain ⟨before, hbefore, heq⟩ := instructionName_shorten (.inl hsource) hname
  obtain ⟨⟨_, start'⟩, rfl, hsame⟩ := Option.map_eq_some_iff.mp heq
  obtain ⟨rfl, rfl⟩ := Prod.mk.inj hsame
  obtain ⟨hname', hbetween⟩ := instructionName_prolong line' (.inl hsource) hbefore
  have hstart : EndsLine start' := h.after.endsLine (hbetween _ _ rfl)
  obtain ⟨rest, hline', hleaves⟩ := instructionRest_shorten (.inl hstart) hline
  obtain ⟨_, hother, hleaves'⟩ := instructionRest_prolong line' (.inl hstart) hline'
  rw [h.after.of_leaves hleaves'] at hother
  exact ⟨start', rest, hstart.lines (accounts_instructionRest hline').suffix,
    h.before.of_leaves hleaves, hname', hother⟩

/-- An `else` stands in front of the line. -/
theorem elseLine (h : Exchange blanks place line place' line') (outer : Blanks)
    (hsource : Lines source) (hmark : elseMark? outer.chars (source ++ line) = some start)
    (hend : endOfLine .elseMark start = .ok inner) :
    ∃ start' rest, Lines rest ∧ inner = rest ++ line ∧
      elseMark? outer.chars (source ++ line') = some (start' ++ line') ∧
        endOfLine .elseMark (start' ++ line') = .ok (rest ++ line') := by
  have hbreak := not_mem_blanks outer
  rcases hsource with rfl | hsource
  · rw [List.nil_append, h.before.elseMark? outer] at hmark
    contradiction
  · rw [(elseMark?_front line hbreak (.inl hsource)).1] at hmark
    obtain ⟨start', hmark', rfl⟩ := Option.map_eq_some_iff.mp hmark
    obtain ⟨hother, hbetween⟩ := elseMark?_front line' hbreak (.inl hsource)
    rw [hmark'] at hother
    have hstart : EndsLine start' := h.after.endsLine (hbetween _ hmark')
    obtain ⟨rest, hend', hleaves⟩ := endOfLine_shorten (.inl hstart) hend
    obtain ⟨_, hlast, hleaves'⟩ := endOfLine_prolong line' (.inl hstart) hend'
    rw [h.after.of_leaves hleaves'] at hlast
    exact ⟨start', rest, hstart.lines (accounts_endOfLine hend').suffix,
      h.before.of_leaves hleaves, hother, hlast⟩

theorem elseMark?_none (h : Exchange blanks place line place' line') (outer : Blanks)
    (hsource : Lines source) (hmark : elseMark? outer.chars (source ++ line) = none) :
    elseMark? outer.chars (source ++ line') = none := by
  have hbreak := not_mem_blanks outer
  rcases hsource with rfl | hsource
  · exact h.after.elseMark? outer
  · rw [(elseMark?_front line hbreak (.inl hsource)).1, Option.map_eq_none_iff] at hmark
    rw [(elseMark?_front line' hbreak (.inl hsource)).1, hmark]
    rfl

/-- The next item of a row is the one on the line, or it stands in front of it. -/
theorem sibling (h : Exchange blanks place line place' line') (outer : Blanks)
    (hsource : Lines source) (hindent : literal? outer.chars (source ++ line) = some start)
    (hchars : charsWhile isBlank start = []) :
    (source = [] ∧ outer = blanks ∧ start = place) ∨
      ∃ start', EndsLine start' ∧ start = start' ++ line ∧
        literal? outer.chars (source ++ line') = some (start' ++ line') ∧
          charsWhile isBlank (start' ++ line') = [] := by
  have hbreak := not_mem_blanks outer
  rcases hsource with rfl | hsource
  · rw [List.nil_append, h.before.literal? outer] at hindent
    split at hindent
    · rename_i hfront
      obtain ⟨gap, hgap⟩ := hfront
      obtain rfl := Option.some.inj hindent
      rw [← hgap, List.drop_left] at hchars ⊢
      have hblank : ∀ c ∈ gap, isBlank c = true := fun c hc => blanks.blank c (by simp [← hgap, hc])
      obtain rfl : gap = [] := by
        rwa [charsWhile_append hblank h.before.begins.stops] at hchars
      exact .inl ⟨rfl, Blanks.ext (by simpa using hgap), rfl⟩
    · contradiction
  · rw [literal?_prolong line (.inl hsource) hbreak] at hindent
    obtain ⟨start', hindent', rfl⟩ := Option.map_eq_some_iff.mp hindent
    have hstart : EndsLine start' :=
      h.before.endsLine (LineBetween.of_literal? (.inl hsource) hbreak hindent')
    have hheld : ∀ tail, Held isBlank (afterWhile isBlank start') tail := fun _ =>
      .inl (hstart.afterWhile rfl).ne_nil
    rw [charsWhile_prolong line (hheld line)] at hchars
    refine .inr ⟨start', hstart, rfl, ?_, ?_⟩
    · rw [literal?_prolong line' (.inl hsource) hbreak, hindent']
      rfl
    · rw [charsWhile_prolong line' (hheld line'), hchars]

theorem literal?_none (h : Exchange blanks place line place' line') (outer : Blanks)
    (hsource : Lines source) (hindent : literal? outer.chars (source ++ line) = none) :
    literal? outer.chars (source ++ line') = none := by
  have hbreak := not_mem_blanks outer
  rcases hsource with rfl | hsource
  · rw [List.nil_append, h.before.literal? outer] at hindent
    rw [List.nil_append, h.after.literal? outer, if_neg]
    intro hfront
    rw [if_pos hfront] at hindent
    contradiction
  · rw [literal?_prolong line (.inl hsource) hbreak, Option.map_eq_none_iff] at hindent
    rw [literal?_prolong line' (.inl hsource) hbreak, hindent]
    rfl

/-- The next deeper line is the exchanged one, or it stands in front of it. -/
theorem deeperLine (h : Exchange blanks place line place' line') (outer : Blanks)
    (hsource : Lines source) {deeper : Indent}
    (hdeeper : deeperIndent? outer.chars (skipBlankLines (source ++ line)) = some (deeper, inner)) :
    (deeper = blanks.chars ∧ inner = place ∧
      deeperIndent? outer.chars (skipBlankLines (source ++ line')) = some (deeper, place')) ∨
      ∃ inner', EndsLine inner' ∧ inner = inner' ++ line ∧
        deeperIndent? outer.chars (skipBlankLines (source ++ line')) =
          some (deeper, inner' ++ line') := by
  have hbreak := not_mem_blanks outer
  obtain ⟨hskip, hskipped⟩ := skipBlankLines_front h.before hsource
  rw [hskip] at hdeeper
  rw [(skipBlankLines_front h.after hsource).1]
  rcases hskipped with hnil | hskipped
  · rw [hnil, List.nil_append, h.before.deeperIndent? outer] at hdeeper
    rw [hnil, List.nil_append, h.after.deeperIndent? outer]
    split at hdeeper
    · obtain ⟨rfl, rfl⟩ := Prod.mk.inj (Option.some.inj hdeeper)
      exact .inl ⟨rfl, rfl, by simp [*]⟩
    · contradiction
  · rw [deeperIndent?_prolong line hbreak (.inl hskipped)] at hdeeper
    obtain ⟨⟨_, inner'⟩, hdeeper', hsame⟩ := Option.map_eq_some_iff.mp hdeeper
    obtain ⟨rfl, rfl⟩ := Prod.mk.inj hsame
    have hinner := (Lines.of_deeperIndent? (.inr hskipped) hbreak hdeeper').2
    refine .inr ⟨inner', hinner, rfl, ?_⟩
    rw [deeperIndent?_prolong line' hbreak (.inl hskipped), hdeeper']
    rfl

/-- The element behind a colon stands in front of the line. -/
theorem expansion (h : Exchange blanks place line place' line') (hsource : EndsLine source)
    (hcolon : expansion? (skipOneBlank (source ++ line)) = some inner) :
    ∃ inner', EndsLine inner' ∧ inner = inner' ++ line ∧
      expansion? (skipOneBlank (source ++ line')) = some (inner' ++ line') := by
  obtain ⟨hsame, hbetween⟩ := expansion?_prolong line (.inl hsource)
  rw [hsame] at hcolon
  obtain ⟨inner', hcolon', rfl⟩ := Option.map_eq_some_iff.mp hcolon
  refine ⟨inner', h.before.endsLine (hbetween _ hcolon'), rfl, ?_⟩
  rw [(expansion?_prolong line' (.inl hsource)).1, hcolon']
  rfl

/-- Without a colon, the text of an element is the same if it stops in front of the line. -/
theorem elementText (h : Exchange blanks place line place' line') (outer : Blanks)
    (hsource : EndsLine source) (hcolon : expansion? (skipOneBlank (source ++ line)) = none)
    {found : Option (List (Node α)) × Source α}
    (hline : Parser.lineText outer.chars (skipOneBlank (source ++ line)) = found)
    (hplace : place <:+ found.2) :
    expansion? (skipOneBlank (source ++ line')) = none ∧
      Abreast line line' found (Parser.lineText outer.chars (skipOneBlank (source ++ line'))) := by
  subst hline
  obtain ⟨hskip, hbetween⟩ := skipOneBlank_prolong line (.inl hsource)
  rw [(expansion?_prolong line (.inl hsource)).1, Option.map_eq_none_iff] at hcolon
  rw [hskip] at hplace ⊢
  rw [(expansion?_prolong line' (.inl hsource)).1, hcolon,
    (skipOneBlank_prolong line' (.inl hsource)).1]
  exact ⟨rfl, h.lineText outer (h.before.endsLine hbetween) hplace⟩

end Exchange

/-- Deeper indents are blank, too. -/
theorem blank_of_deeper {indent deeper : Indent} {source inner : Source α}
    (hblank : ∀ c ∈ indent, isBlank c = true)
    (hdeeper : deeperIndent? indent source = some (deeper, inner)) :
    ∀ c ∈ deeper, isBlank c = true := by
  obtain ⟨gap, rfl, -⟩ := of_deeperIndent? hdeeper
  exact (Blanks.below ⟨indent, hblank⟩ gap).blank

/-! ## What stops in front of the line -/

/-- Complete lines; a production that has to find something finds it on them. -/
def Front (source : Source α) : Production → Prop
  | .children | .otherwise | .siblings => Lines source
  | .item | .element | .content | .instruction | .block => EndsLine source

variable {blanks : Blanks} {place line place' line' : Source α}

/-- Whatever is read in front of the line is read in front of the other one. -/
theorem Reads.exchange (hlines : Exchange blanks place line place' line')
    {production : Production} {indent : Indent} {whole rest : Source α} {nodes : List (Node α)}
    (h : Reads production indent whole nodes rest) (hblank : ∀ c ∈ indent, isBlank c = true)
    {source : Source α} (hwhole : whole = source ++ line) (hfront : Front source production)
    (hplace : place <:+ rest) :
    ∃ after, Lines after ∧ rest = after ++ line ∧
      Reads production indent (source ++ line') nodes (after ++ line') := by
  induction h generalizing source with
  | @comment indent _ _ hcomment =>
    subst hwhole
    obtain ⟨after, hafter, rfl, hcomment'⟩ := hlines.comment? ⟨indent, hblank⟩ hfront hcomment hplace
    exact ⟨after, hafter, rfl, .comment hcomment'⟩
  | @text indent _ _ _ hcomment htext =>
    subst hwhole
    obtain ⟨_, htext', nodes, after, hafter, hbefore, rfl⟩ :=
      hlines.textItem? ⟨indent, hblank⟩ hfront htext hplace
    obtain ⟨rfl, rfl⟩ := Prod.mk.inj hbefore
    exact ⟨after, hafter, rfl, .text (comment?_none_front hfront hcomment _) htext'⟩
  | elementItem hcomment htext _ ih =>
    subst hwhole
    obtain ⟨after, hafter, rfl, hread⟩ := ih hblank rfl hfront hplace
    exact ⟨after, hafter, rfl, .elementItem (comment?_none_front hfront hcomment _)
      (textItem?_none_front hfront htext _) hread⟩
  | instructionItem hcomment htext helement _ ih =>
    subst hwhole
    obtain ⟨after, hafter, rfl, hread⟩ := ih hblank rfl hfront hplace
    have hnaming := naming_none_front hfront (of_element_none helement) line'
    exact ⟨after, hafter, rfl, .instructionItem (comment?_none_front hfront hcomment _)
      (textItem?_none_front hfront htext _) (element_of_naming hnaming) hread⟩
  | blankLine hcomment htext helement hinstruction hline =>
    subst hwhole
    have hnaming := naming_none_front hfront (of_element_none helement) line'
    have hname := instructionName_none_front hfront (of_instruction_none hinstruction) line'
    rw [blankLine?_front hfront] at hline
    obtain ⟨⟨lineEnd, after⟩, hline', hsame⟩ := Option.map_eq_some_iff.mp hline
    obtain ⟨rfl, rfl⟩ := Prod.mk.inj hsame
    have hother : blankLine? (source ++ line') = some (lineEnd, after ++ line') := by
      rw [blankLine?_front hfront, hline']
      rfl
    exact ⟨after, hfront.lines (accounts_blankLine? hline').suffix, rfl,
      .blankLine (comment?_none_front hfront hcomment _) (textItem?_none_front hfront htext _)
        (element_of_naming hnaming) (instruction_of_name hname) hother⟩
  | element hnaming hopening hcontent ih =>
    subst hwhole
    have hinner := hplace.trans hcontent.accounts.suffix
    obtain ⟨_, inner, hends, rfl, hnaming', hopening'⟩ :=
      hlines.header hfront hnaming hopening hinner
    obtain ⟨after, hafter, rfl, hread⟩ := ih hblank rfl hends hplace
    exact ⟨after, hafter, rfl, .element hnaming' hopening' hread⟩
  | expansion hcolon _ ih =>
    subst hwhole
    obtain ⟨inner, hends, rfl, hcolon'⟩ := hlines.expansion hfront hcolon
    obtain ⟨after, hafter, rfl, hread⟩ := ih hblank rfl hends hplace
    exact ⟨after, hafter, rfl, .expansion hcolon' hread⟩
  | @lineText indent _ _ _ hcolon hline =>
    subst hwhole
    obtain ⟨hcolon', _, after, hafter, hbefore, hline'⟩ :=
      hlines.elementText ⟨indent, hblank⟩ hfront hcolon hline hplace
    obtain ⟨rfl, rfl⟩ := Prod.mk.inj hbefore
    exact ⟨after, hafter, rfl, .lineText hcolon' hline'⟩
  | @lower indent _ _ _ _ hcolon hline hlower ih =>
    subst hwhole
    obtain ⟨hcolon', _, inner, hinner, hbefore, hline'⟩ := hlines.elementText ⟨indent, hblank⟩
      hfront hcolon hline (hplace.trans hlower.accounts.suffix)
    obtain ⟨rfl, rfl⟩ := Prod.mk.inj hbefore
    obtain ⟨after, hafter, rfl, hread⟩ := ih hblank rfl hinner hplace
    exact ⟨after, hafter, rfl, .lower hcolon' hline' hread⟩
  | @childless indent _ hdeeper =>
    subst hwhole
    obtain ⟨hskip, hskipped⟩ := skipBlankLines_front hlines.before hfront
    have hskip' := (skipBlankLines_front hlines.after hfront).1
    rw [hskip] at hdeeper
    have hdeeper' := hlines.deeperIndent?_none ⟨indent, hblank⟩ hskipped hdeeper
    rw [← hskip'] at hdeeper'
    exact ⟨_, hskipped, hskip, hskip' ▸ .childless hdeeper'⟩
  | @deeper indent _ _ _ _ _ hdeeper hread ih =>
    subst hwhole
    rcases hlines.deeperLine ⟨indent, hblank⟩ hfront hdeeper with
      ⟨-, rfl, -⟩ | ⟨inner, hends, rfl, hdeeper'⟩
    · exact absurd (length_of_block hread.gives) (Nat.not_lt.mpr hplace.length_le)
    · obtain ⟨after, hafter, rfl, hread'⟩ := ih (blank_of_deeper hblank hdeeper) rfl hends hplace
      exact ⟨after, hafter, rfl, .deeper hdeeper' hread'⟩
  | noBlock _ hblock =>
    rw [of_block_none hblock, List.suffix_nil] at hplace
    exact absurd hplace hlines.before.begins.ne_nil
  | ifThen hname hline hthen helse ihthen ihelse =>
    subst hwhole
    obtain ⟨_, inner, hinner, rfl, hname', hline'⟩ := hlines.instructionLine hfront hname hline
    obtain ⟨after, hafter, rfl, hthen'⟩ :=
      ihthen hblank rfl hinner (hplace.trans helse.accounts.suffix)
    obtain ⟨last, hlast, rfl, helse'⟩ := ihelse hblank rfl hafter hplace
    exact ⟨last, hlast, rfl, .ifThen hname' hline' hthen' helse'⟩
  | forEach hname hline _ ih =>
    subst hwhole
    obtain ⟨_, inner, hinner, rfl, hname', hline'⟩ := hlines.instructionLine hfront hname hline
    obtain ⟨after, hafter, rfl, hread⟩ := ih hblank rfl hinner hplace
    exact ⟨after, hafter, rfl, .forEach hname' hline' hread⟩
  | @noElse indent _ hmark =>
    subst hwhole
    exact ⟨source, hfront, rfl, .noElse (hlines.elseMark?_none ⟨indent, hblank⟩ hfront hmark)⟩
  | @elseMark indent _ _ _ _ _ hmark hend _ ih =>
    subst hwhole
    obtain ⟨_, inner, hinner, rfl, hmark', hend'⟩ :=
      hlines.elseLine ⟨indent, hblank⟩ hfront hmark hend
    obtain ⟨after, hafter, rfl, hread⟩ := ih hblank rfl hinner hplace
    exact ⟨after, hafter, rfl, .elseMark hmark' hend' hread⟩
  | @outside indent _ hindent =>
    subst hwhole
    exact ⟨source, hfront, rfl, .outside (hlines.literal?_none ⟨indent, hblank⟩ hfront hindent)⟩
  | @noItem indent _ start hindent hitem =>
    subst hwhole
    obtain rfl := of_item_none hitem
    rcases hlines.sibling ⟨indent, hblank⟩ hfront hindent rfl with ⟨-, -, hnil⟩ | ⟨_, hends, hnil, -⟩
    · exact absurd hnil.symm hlines.before.begins.ne_nil
    · exact absurd (List.append_eq_nil_iff.mp hnil.symm).1 hends.ne_nil
  | @sibling indent _ _ _ _ _ _ hindent hchars hitem hmore ihitem ihmore =>
    subst hwhole
    have hinner := hplace.trans hmore.accounts.suffix
    rcases hlines.sibling ⟨indent, hblank⟩ hfront hindent hchars with
      ⟨-, -, rfl⟩ | ⟨start, hstart, rfl, hindent', hchars'⟩
    · exact absurd (length_of_item hitem.gives) (Nat.not_lt.mpr hinner.length_le)
    · obtain ⟨inner, hends, rfl, hitem'⟩ := ihitem hblank rfl hstart hinner
      obtain ⟨after, hafter, rfl, hmore'⟩ := ihmore hblank rfl hends hplace
      exact ⟨after, hafter, rfl, .sibling hindent' hchars' hitem' hmore'⟩
  | block hitem hmore ihitem ihmore =>
    subst hwhole
    obtain ⟨inner, hinner, rfl, hitem'⟩ :=
      ihitem hblank rfl hfront (hplace.trans hmore.accounts.suffix)
    obtain ⟨after, hafter, rfl, hmore'⟩ := ihmore hblank rfl hinner hplace
    exact ⟨after, hafter, rfl, .block hitem' hmore'⟩

end IndentMarkup.Parser

import IndentMarkup.Parser
import IndentMarkup.Proofs.IndentOrder
import IndentMarkup.Proofs.PrintedHeader

/-! The offside rule. For a source of bare tags, one a line, the nesting is what a stack of open
indents makes of it: a line deeper than the one before opens a level, a line at an open level
closes the deeper ones, and any other line is an error of indentation. The parser has no such
stack; its open levels are its pending calls. `resume` names what these calls still do, and the
induction over the lines keeps the two in step. -/
namespace IndentMarkup.Offside

open Text (isBlank)
open Source (ofChars ofText joinLines)
open IndentMarkup.Parser

variable {α : Type}

/-! ## The stack of indents -/

/-- A line of an outline: blank, or a tag at an indent. -/
inductive Line where
  | blank (blanks : Blanks)
  | tag (indent : Blanks) (name : { name : String // IsTagName name })

def Line.written : Line → List Char
  | .blank blanks => blanks.chars
  | .tag indent name => indent.chars ++ name.val.toList

def sourceOf (lines : List Line) : Source α :=
  joinLines (lines.map fun line => ofChars line.written)

/-- An element of which only the tag is written. -/
def bareElement (name : String) (children : List (Node α)) : Node α :=
  .element ⟨.text name, [], none⟩ children

/-- An open level: its indent, the nodes before its last one, and the tag of the last one, to
which children may still be added. -/
structure Level (α : Type) where
  indent : Blanks
  done : List (Node α)
  tag : String

/-- The nodes of a level, when the children of its last one are known. -/
def Level.close (level : Level α) (children : List (Node α)) : List (Node α) :=
  level.done ++ [bareElement level.tag children]

/-- The outermost nodes, when the children of the innermost open element are known. -/
def closeAll : List (Level α) → List (Node α) → List (Node α)
  | [], nodes => nodes
  | level :: outer, nodes => closeAll outer (level.close nodes)

/-- Adds a tag to the open level of its indent; the deeper levels are closed. The innermost level
comes first, with the children of its last node. -/
def addSibling (indent : Blanks) (name : String) :
    List (Level α) → List (Node α) → Option (List (Level α))
  | [], _ => none
  | level :: outer, children =>
    if level.indent = indent then some (⟨indent, level.close children, name⟩ :: outer)
    else addSibling indent name outer (level.close children)

/-- Adds a tag: as the first child of the last line if it is deeper than that, and to an open
level otherwise. The first tag of all opens the outermost level. -/
def addTag (indent : Blanks) (name : String) : List (Level α) → Option (List (Level α))
  | [] => some [⟨indent, [], name⟩]
  | level :: outer =>
    if indent.Deeper level.indent then some (⟨indent, [], name⟩ :: level :: outer)
    else addSibling indent name (level :: outer) []

/-- The nodes of the lines from a number on, or the number of the first line that fits no open
level. -/
def buildFrom (number : Nat) : List (Level α) → List Line → Except Nat (List (Node α))
  | levels, [] => .ok (closeAll levels [])
  | levels, .blank _ :: rest => buildFrom (number + 1) levels rest
  | levels, .tag indent name :: rest =>
    match addTag indent name.val levels with
    | some levels => buildFrom (number + 1) levels rest
    | none => .error number

/-- The nodes of an outline, or the number of its first line that fits no open level. -/
def build (lines : List Line) : Except Nat (List (Node α)) :=
  buildFrom 1 [] lines

/-! ## The parser on one line -/

variable {source rest : Source α} {indent outer : Blanks} {name : String}

/-- The input begins with a bare tag at an indent; `rest` begins with the line below. -/
structure TagLine (indent : Blanks) (name : String) (source rest : Source α) : Prop where
  isTag : IsTagName name
  line : ∃ tail, source = ofChars indent.chars ++ (ofText name ++ tail) ∧ LineBreak tail rest

private theorem item_tag {tail : Source α} (hname : IsTagName name) (indent : Indent)
    (h : LineBreak tail rest) :
    item indent (ofText name ++ tail) = do
      let (nodes, after) ← children indent rest
      return some ([bareElement name nodes], after) := by
  have hheader : (⟨.text name, [], none⟩ : Header α).Printable := ⟨hname, by simp, by simp⟩
  have hread := item_printed_header hheader indent h
  simpa [Header.printed, Header.printedAttributes, Header.printedRef, Word.printed,
    bareElement] using hread

/-- A block that begins with a bare tag: the element, then its siblings. -/
private theorem block_tag {tail : Source α} (hname : IsTagName name) (indent : Indent)
    (h : LineBreak tail rest) :
    block indent (ofText name ++ tail) = do
      let (nodes, after) ← children indent rest
      let (more, after) ← siblings indent after
      return some (bareElement name nodes :: more, after) := by
  rw [block_eq, item_tag hname indent h]
  cases children indent rest with
  | error => rfl
  | ok found => rfl

/-- A deeper line opens a block with its element. -/
theorem children_deeper (h : TagLine indent name source rest) (hdeeper : indent.Deeper outer) :
    children outer.chars source = do
      let (nodes, after) ← children indent.chars rest
      let (more, after) ← siblings indent.chars after
      return (bareElement name nodes :: more, after) := by
  obtain ⟨tail, rfl, hbreak⟩ := h.line
  have hitem := beginsItem_tagName h.isTag tail
  have hindent := deeperIndent?_line outer indent hitem
  rw [if_pos hdeeper] at hindent
  rw [children_eq, skipBlankLines_item indent hitem, hindent]
  simp only [block_tag h.isTag indent.chars hbreak]
  cases children indent.chars rest with
  | error => rfl
  | ok found =>
    simp only [bind, Except.bind, pure, Except.pure]
    cases siblings indent.chars found.2 <;> rfl

/-- A line that is not deeper is left to the open blocks. -/
theorem children_not_deeper (h : TagLine indent name source rest)
    (hdeeper : ¬ indent.Deeper outer) : children outer.chars source = .ok ([], source) := by
  obtain ⟨tail, rfl, -⟩ := h.line
  have hitem := beginsItem_tagName h.isTag tail
  have hindent := deeperIndent?_line outer indent hitem
  rw [if_neg hdeeper] at hindent
  rw [children_eq, skipBlankLines_item indent hitem, hindent]

/-- A line at the indent of an open block goes on with that block. -/
theorem siblings_same (h : TagLine indent name source rest) :
    siblings indent.chars source = do
      let (nodes, after) ← children indent.chars rest
      let (more, after) ← siblings indent.chars after
      return (bareElement name nodes :: more, after) := by
  obtain ⟨tail, rfl, hbreak⟩ := h.line
  have hitem := beginsItem_tagName h.isTag tail
  rw [siblings_eq, literal?_append]
  simp only [charsWhile_of_stops hitem.stops, List.isEmpty_nil, Bool.not_true,
    Bool.false_eq_true, if_false, item_tag h.isTag indent.chars hbreak]
  cases children indent.chars rest with
  | error => rfl
  | ok found =>
    simp only [bind, Except.bind, pure, Except.pure]
    cases siblings indent.chars found.2 <;> rfl

/-- A line deeper than an open block fails in it: the block below is closed already. -/
theorem siblings_deeper (h : TagLine indent name source rest) (hdeeper : indent.Deeper outer) :
    ∃ start, siblings outer.chars source = .error ⟨.malformedIndent, start⟩ ∧
      source = ofChars outer.chars ++ start := by
  obtain ⟨tail, rfl, -⟩ := h.line
  have hitem := beginsItem_tagName h.isTag tail
  obtain ⟨⟨gap, hgap⟩, hne⟩ := hdeeper
  have hblank : ∀ c ∈ gap, isBlank c = true :=
    fun c hc => indent.blank c (by simp [← hgap, hc])
  refine ⟨ofChars gap ++ (ofText name ++ tail), ?_, by simp [← hgap]⟩
  have hliteral := literal?_append outer.chars (ofChars gap ++ (ofText name ++ tail))
  have hchars := charsWhile_append hblank hitem.stops
  have hnil : gap ≠ [] := by
    rintro rfl
    exact hne (by simpa using hgap)
  rw [← hgap, Source.ofChars_append, List.append_assoc, siblings_eq, hliteral]
  simp [hchars, hnil]

/-- A line that does not begin with the indent of an open block ends it. -/
theorem siblings_outside (h : TagLine indent name source rest)
    (hfront : ¬ outer.chars <+: indent.chars) :
    siblings outer.chars source = .ok ([], source) := by
  obtain ⟨tail, rfl, -⟩ := h.line
  have hitem := beginsItem_tagName h.isTag tail
  rw [siblings_eq, literal?_line outer.blank hitem, if_neg hfront]

/-! ## Line breaks and line numbers -/

def lineBreaks (source : Source α) : Nat :=
  source.countP fun symbol =>
    match symbol with
    | .char c => c == '\n'
    | .slot _ => false

theorem lineBreaks_append (front back : Source α) :
    lineBreaks (front ++ back) = lineBreaks front + lineBreaks back :=
  List.countP_append

theorem lineBreaks_ofChars {text : List Char} (h : '\n' ∉ text) :
    lineBreaks (ofChars text : Source α) = 0 := by
  rw [lineBreaks, ofChars, List.countP_map, List.countP_eq_zero]
  intro c hc
  have hne : c ≠ '\n' := fun e => h (e ▸ hc)
  simpa using hne

/-- Without slots, the line of a position is the number of line breaks before it. -/
theorem line_behind {text : List Char} :
    (Position.behind (ofChars text : Source α)).line = lineBreaks (ofChars text : Source α) + 1 := by
  have hfold : ∀ position : Position,
      ((ofChars text : Source α).foldl Position.advance position).line =
        position.line + lineBreaks (ofChars text : Source α) := by
    induction text with
    | nil => simp [lineBreaks]
    | cons c text ih =>
      intro position
      rw [Source.ofChars_cons, List.foldl_cons, ih]
      by_cases hc : c = '\n'
      · simp [Position.advance, lineBreaks, hc]
        omega
      · simp [Position.advance, lineBreaks, hc]
  rw [Position.behind, hfold]
  simp [Position.start, Nat.add_comm]

/-- Blanks hold no line break. -/
private theorem not_mem_blanks (blanks : Blanks) : '\n' ∉ blanks.chars := by
  intro h
  exact absurd (blanks.blank _ h) (by decide)

/-- A line as it is written holds none. -/
private theorem not_mem_written (line : Line) : '\n' ∉ line.written := by
  cases line with
  | blank blanks => exact not_mem_blanks blanks
  | tag indent name =>
    have hname : '\n' ∉ name.val.toList := fun h => absurd (name.property.chars _ h) (by decide)
    simp only [Line.written, List.mem_append, not_or]
    exact ⟨not_mem_blanks indent, hname⟩

/-- The line at the front of a source of lines ends where the next one begins. -/
theorem sourceOf_cons (line : Line) (more : List Line) :
    ∃ tail : Source α, sourceOf (line :: more) = ofChars line.written ++ tail ∧
      LineBreak tail (sourceOf more) :=
  joinLines_cons (ofChars line.written) (more.map fun line => ofChars line.written)

/-- There is one line break less than there are lines. -/
theorem lineBreaks_sourceOf (line : Line) (more : List Line) :
    lineBreaks (sourceOf (line :: more) : Source α) = more.length := by
  induction more generalizing line with
  | nil => exact lineBreaks_ofChars (not_mem_written line)
  | cons next more ih =>
    have hsource : (sourceOf (line :: next :: more) : Source α) =
        ofChars (line.written ++ ['\n']) ++ sourceOf (next :: more) := by
      simp [sourceOf, joinLines]
    have hline : lineBreaks (ofChars (line.written ++ ['\n']) : Source α) = 1 := by
      rw [Source.ofChars_append, lineBreaks_append, lineBreaks_ofChars (not_mem_written line)]
      rfl
    rw [hsource, lineBreaks_append, hline, ih, List.length_cons]
    omega

/-- The source of lines is a text. -/
theorem sourceOf_eq_ofChars (lines : List Line) :
    ∃ text, (sourceOf lines : Source α) = ofChars text := by
  induction lines with
  | nil => exact ⟨[], rfl⟩
  | cons line more ih =>
    obtain ⟨tail, htail, hbreak⟩ := @sourceOf_cons α line more
    obtain ⟨text, htext⟩ := ih
    rw [htext] at hbreak
    generalize hrest : (ofChars text : Source α) = rest at hbreak
    cases hbreak with
    | newline => exact ⟨line.written ++ '\n' :: text, by simp [htail, hrest]⟩
    | endOfInput => exact ⟨line.written, by simp [htail]⟩

/-! ## The pending calls -/

/-- What the parser still does when the children of the innermost open element have been read:
every open block goes on with its siblings, and at last nothing may be left over. -/
def resume (base : Blanks) :
    List (Level α) → List (Node α) × Source α → Except (Failure α) (Document α)
  | [], (nodes, rest) => finish base.chars nodes rest
  | level :: outer, (nodes, rest) => do
    let (more, rest) ← siblings level.indent.chars rest
    resume base outer (level.close nodes ++ more, rest)

/-- Open levels from the innermost, at `last`, to the outermost, at `base`; each is longer than the
next. -/
inductive Nested (base : Blanks) : Blanks → List (Level α) → Prop
  | outermost (done : List (Node α)) (tag : String) : Nested base base [⟨base, done, tag⟩]
  | inner {last next : Blanks} {outer : List (Level α)} (done : List (Node α)) (tag : String) :
      next.chars.length < last.chars.length → Nested base next outer →
        Nested base last (⟨last, done, tag⟩ :: outer)

variable {base last : Blanks} {levels : List (Level α)}

/-- No open level is longer than the innermost one. -/
theorem Nested.length_le (h : Nested base last levels) :
    ∀ level ∈ levels, level.indent.chars.length ≤ last.chars.length := by
  induction h with
  | outermost => simp
  | inner done tag hlt _ ih =>
    intro level hlevel
    rcases List.mem_cons.mp hlevel with rfl | hlevel
    · exact Nat.le_refl _
    · exact Nat.le_of_lt (Nat.lt_of_le_of_lt (ih level hlevel) hlt)

/-- A tag is set below the last line if it is deeper. -/
theorem Nested.addTag_eq (h : Nested base last levels) (indent : Blanks) (name : String) :
    addTag indent name levels =
      if indent.Deeper last then some (⟨indent, [], name⟩ :: levels)
      else addSibling indent name levels [] := by
  cases h <;> rfl

/-- No open level fits an indent that none of them has. -/
theorem addSibling_eq_none (h : ∀ level ∈ levels, level.indent ≠ indent)
    (nodes : List (Node α)) :
    addSibling indent name levels nodes = none := by
  induction levels generalizing nodes with
  | nil => rfl
  | cons level outer ih =>
    rw [addSibling, if_neg (h level (by simp))]
    exact ih (fun other hother => h other (by simp [hother])) _

private theorem length_lt_of_deeper {inner outer : Blanks} (h : inner.Deeper outer) :
    outer.chars.length < inner.chars.length := by
  obtain ⟨hfront, hne⟩ := h
  have hle := hfront.length_le
  have hlength : outer.chars.length ≠ inner.chars.length :=
    fun heq => hne (hfront.eq_of_length heq)
  omega

/-- An indent that begins with another one is the same or deeper. -/
private theorem not_front {inner outer : Blanks} (hne : outer ≠ inner)
    (hdeeper : ¬ inner.Deeper outer) : ¬ outer.chars <+: inner.chars := by
  intro hfront
  exact hdeeper ⟨hfront, fun heq => hne (Blanks.ext heq)⟩

/-- At the end of the input every open block ends. -/
theorem resume_nil (base : Blanks) (levels : List (Level α)) (nodes : List (Node α)) :
    resume base levels (nodes, []) = .ok ⟨closeAll levels nodes⟩ := by
  induction levels generalizing nodes with
  | nil => rfl
  | cons level outer ih =>
    simp only [resume, siblings_nil, bind, Except.bind, List.append_nil]
    exact ih _

/-- A deeper tag is the first child of the last line; its own block is now the innermost one. -/
theorem resume_below (h : TagLine indent name source rest) (hdeeper : indent.Deeper last)
    (base : Blanks) (levels : List (Level α)) :
    children last.chars source >>= resume base levels =
      children indent.chars rest >>= resume base (⟨indent, [], name⟩ :: levels) := by
  rw [children_deeper h hdeeper]
  cases children indent.chars rest with
  | error => rfl
  | ok found =>
    obtain ⟨below, after⟩ := found
    simp only [resume, bind, Except.bind]
    cases siblings indent.chars after <;> rfl

/-- A tag at the indent of the innermost open block becomes its last node. -/
theorem resume_same (h : TagLine indent name source rest) (base : Blanks)
    (levels : List (Level α)) (done nodes : List (Node α)) (tag : String) :
    resume base (⟨indent, done, tag⟩ :: levels) (nodes, source) =
      children indent.chars rest >>=
        resume base (⟨indent, done ++ [bareElement tag nodes], name⟩ :: levels) := by
  rw [resume, siblings_same h]
  cases children indent.chars rest with
  | error => rfl
  | ok found =>
    obtain ⟨below, after⟩ := found
    simp only [resume, bind, Except.bind]
    cases siblings indent.chars after with
    | error => rfl
    | ok found =>
      simp only [pure, Except.pure, Level.close, List.append_assoc, List.cons_append,
        List.nil_append]

/-- The failure of the parser at a line of its own: the line is not indented as it should be. -/
def Misplaced (source : Source α) (result : Except (Failure α) (Document α)) : Prop :=
  ∃ (front : Blanks) (start : Source α),
    source = ofChars front.chars ++ start ∧ result = .error ⟨.malformedIndent, start⟩

/-- A tag that begins with no open indent is left over at last. -/
theorem finish_misplaced (h : TagLine indent name source rest)
    (hfront : ¬ base.chars <+: indent.chars) (nodes : List (Node α)) :
    Misplaced source (finish base.chars nodes source) := by
  obtain ⟨tail, rfl, -⟩ := h.line
  have hstops := (beginsItem_tagName h.isTag tail).stops
  have hchars := charsWhile_append indent.blank hstops
  have hafter := afterWhile_append indent.blank hstops
  have hcause : Indent.compare indent.chars base.chars = .shallower ∨
      Indent.compare indent.chars base.chars = .incomparable := by
    apply Indent.compare_of_not_front
    rwa [Indent.leading_of_blank base.blank, Indent.leading_of_blank indent.blank]
  refine ⟨indent, ofText name ++ tail, rfl, ?_⟩
  have hne : (ofChars indent.chars ++ (ofText name ++ tail)).isEmpty = false := by
    cases hchars : name.toList with
    | nil => exact absurd hchars h.isTag.nonempty
    | cons c cs => simp [ofText, hchars]
  rw [finish, hne, leftover, hchars, hafter]
  rcases hcause with hcause | hcause
  · rw [hcause]
    rfl
  · rw [hcause]
    rfl

/-- A tag deeper than an open block that was left fails in it. -/
theorem resume_deeper {level : Level α} (h : TagLine indent name source rest)
    (hdeeper : indent.Deeper level.indent) (base : Blanks) (outer : List (Level α))
    (nodes : List (Node α)) :
    Misplaced source (resume base (level :: outer) (nodes, source)) := by
  obtain ⟨start, herror, hstart⟩ := siblings_deeper h hdeeper
  exact ⟨level.indent, start, hstart, by rw [resume, herror]; rfl⟩

/-- A tag that does not begin with the indent of an open block leaves that block. -/
theorem resume_outside {level : Level α} (h : TagLine indent name source rest)
    (hfront : ¬ level.indent.chars <+: indent.chars) (base : Blanks) (outer : List (Level α))
    (nodes : List (Node α)) :
    resume base (level :: outer) (nodes, source) =
      resume base outer (level.close nodes, source) := by
  rw [resume, siblings_outside h hfront]
  simp only [bind, Except.bind, List.append_nil]

/-- What the pending calls do with a tag that is not deeper than the last line. -/
theorem resume_place (h : TagLine indent name source rest) (hnested : Nested base last levels)
    (nodes : List (Node α)) :
    match addSibling indent name levels nodes with
    | some placed =>
      resume base levels (nodes, source) = children indent.chars rest >>= resume base placed ∧
        Nested base indent placed
    | none => Misplaced source (resume base levels (nodes, source)) := by
  induction hnested generalizing nodes with
  | outermost done tag =>
    by_cases hsame : base = indent
    · subst hsame
      rw [addSibling, if_pos rfl]
      exact ⟨resume_same h base [] done nodes tag, .outermost _ name⟩
    · rw [addSibling, if_neg hsame]
      by_cases hdeeper : indent.Deeper base
      · exact resume_deeper h hdeeper base [] nodes
      · have hfront := not_front hsame hdeeper
        rw [resume_outside h hfront]
        exact finish_misplaced h hfront _
  | @inner last next outer done tag hlt hnested ih =>
    by_cases hsame : last = indent
    · subst hsame
      rw [addSibling, if_pos rfl]
      exact ⟨resume_same h base outer done nodes tag, .inner _ name hlt hnested⟩
    · rw [addSibling, if_neg hsame]
      by_cases hdeeper : indent.Deeper last
      · -- all other open levels are shorter than `last`, so none of them has this indent
        have hnone : ∀ level ∈ outer, level.indent ≠ indent := by
          rintro level hlevel rfl
          have hle := hnested.length_le level hlevel
          have hlonger := hdeeper.1.length_le
          omega
        rw [addSibling_eq_none hnone]
        exact resume_deeper h hdeeper base outer nodes
      · rw [resume_outside h (not_front hsame hdeeper)]
        exact ih _

/-! ## The parser and the stack -/

/-- The parser and the stack come to the same: to the same nodes, or to an error of indentation in
the line of that number. The line is counted by the line breaks that follow. -/
def Agrees (source : Source α) (total : Nat) :
    Except (Failure α) (Document α) → Except Nat (List (Node α)) → Prop
  | .ok document, .ok nodes => document = ⟨nodes⟩
  | .error failure, .error number =>
    failure.cause = .malformedIndent ∧ failure.rest <:+ source ∧
      number + lineBreaks failure.rest = total
  | _, _ => False

/-- The rest of a source of lines is a suffix of it. -/
theorem suffix_sourceOf_cons (line : Line) (lines : List Line) :
    (sourceOf lines : Source α) <:+ sourceOf (line :: lines) := by
  obtain ⟨tail, htail, hbreak⟩ := @sourceOf_cons α line lines
  rw [htail]
  exact hbreak.suffix.trans (List.suffix_append _ _)

variable {whole : Source α} {number total : Nat} {lines : List Line}

/-- A source that begins with a tag has its line in front. -/
theorem tagLine_sourceOf (indent : Blanks) (name : { name : String // IsTagName name })
    (lines : List Line) :
    TagLine indent name.val (sourceOf (.tag indent name :: lines) : Source α) (sourceOf lines) := by
  obtain ⟨tail, htail, hbreak⟩ := @sourceOf_cons α (.tag indent name) lines
  exact ⟨name.property, tail, by simp [htail, Line.written, ofText], hbreak⟩

/-- A misplaced tag is reported in its line. -/
theorem Misplaced.agrees {result : Except (Failure α) (Document α)} {line : Line}
    (h : Misplaced (sourceOf (line :: lines)) result) (hsuffix : sourceOf (line :: lines) <:+ whole)
    (htotal : number + lines.length = total) :
    Agrees whole total result (.error number) := by
  obtain ⟨front, start, hstart, rfl⟩ := h
  have hfront := lineBreaks_append (ofChars front.chars) start
  rw [← hstart, lineBreaks_ofChars (not_mem_blanks front), lineBreaks_sourceOf] at hfront
  refine ⟨rfl, (List.suffix_append _ start).trans (hstart ▸ hsuffix), ?_⟩
  show number + lineBreaks start = total
  omega

/-- A blank line is skipped below any line. -/
theorem children_blank (indent : Indent) (blanks : Blanks) (lines : List Line) :
    children indent (sourceOf (.blank blanks :: lines) : Source α) =
      children indent (sourceOf lines) := by
  obtain ⟨tail, htail, hbreak⟩ := @sourceOf_cons α (.blank blanks) lines
  have hskip := skipBlankLines_blank blanks.blank hbreak
  rw [← children_skipBlankLines, htail, Line.written, hskip, children_skipBlankLines]

/-- Below a line, the parser with its pending calls and the stack with its open levels agree. -/
theorem children_agrees (hnested : Nested base last levels) (hsuffix : sourceOf lines <:+ whole)
    (htotal : number + lines.length = total + 1) :
    Agrees whole total (children last.chars (sourceOf lines) >>= resume base levels)
      (buildFrom number levels lines) := by
  induction lines generalizing number last levels with
  | nil =>
    have hchildren : children last.chars (sourceOf [] : Source α) = .ok ([], []) :=
      children_nil last.chars
    rw [hchildren]
    show Agrees whole total (resume base levels ([], [])) _
    rw [resume_nil]
    rfl
  | cons line lines ih =>
    have hrest : sourceOf lines <:+ whole := (suffix_sourceOf_cons line lines).trans hsuffix
    rw [List.length_cons] at htotal
    have hnext : number + 1 + lines.length = total + 1 := by omega
    cases line with
    | blank blanks =>
      rw [children_blank, buildFrom]
      exact ih hnested hrest hnext
    | tag indent name =>
      have hline := @tagLine_sourceOf α indent name lines
      rw [buildFrom, hnested.addTag_eq]
      by_cases hdeeper : indent.Deeper last
      · rw [if_pos hdeeper, resume_below hline hdeeper]
        have hlonger : last.chars.length < indent.chars.length := length_lt_of_deeper hdeeper
        exact ih (.inner [] name hlonger hnested) hrest hnext
      · rw [if_neg hdeeper, children_not_deeper hline hdeeper]
        have hplace := resume_place hline hnested []
        cases hadd : addSibling indent name.val levels [] with
        | none =>
          rw [hadd] at hplace
          exact hplace.agrees hsuffix (by omega)
        | some placed =>
          rw [hadd] at hplace
          show Agrees whole total (resume base levels ([], sourceOf (.tag indent name :: lines))) _
          rw [hplace.1]
          exact ih hplace.2 hrest hnext

/-- The first tag opens the outermost block. -/
theorem document_tag (indent : Blanks) (name : { name : String // IsTagName name })
    (lines : List Line) :
    document (sourceOf (.tag indent name :: lines) : Source α) =
      children indent.chars (sourceOf lines) >>= resume indent [⟨indent, [], name⟩] := by
  obtain ⟨hname, tail, hsource, hbreak⟩ := @tagLine_sourceOf α indent name lines
  have hitem := beginsItem_tagName hname tail
  rw [hsource, document_eq, baseIndent_item indent hitem, firstItem_item indent hitem,
    block_tag hname indent.chars hbreak]
  cases children indent.chars (sourceOf lines) with
  | error => rfl
  | ok found =>
    obtain ⟨below, after⟩ := found
    simp only [resume, bind, Except.bind]
    cases siblings indent.chars after <;> rfl

/-- The parser and the stack agree on every outline. -/
theorem document_agrees (hsuffix : sourceOf lines <:+ whole)
    (htotal : number + lines.length = total + 1) :
    Agrees whole total (document (sourceOf lines)) (buildFrom number [] lines) := by
  induction lines generalizing number with
  | nil =>
    show Agrees whole total (document []) _
    rw [document_nil]
    rfl
  | cons line lines ih =>
    have hrest : sourceOf lines <:+ whole := (suffix_sourceOf_cons line lines).trans hsuffix
    rw [List.length_cons] at htotal
    have hnext : number + 1 + lines.length = total + 1 := by omega
    cases line with
    | blank blanks =>
      obtain ⟨tail, htail, hbreak⟩ := @sourceOf_cons α (.blank blanks) lines
      have hskip := skipBlankLines_blank blanks.blank hbreak
      rw [← document_skipBlankLines, htail, Line.written, hskip, document_skipBlankLines,
        buildFrom]
      exact ih hrest hnext
    | tag indent name =>
      rw [document_tag, buildFrom, addTag]
      exact children_agrees (.outermost [] name) hrest hnext

/-- The line of a place in an outline, found by the line breaks behind the place. -/
theorem line_ofRest {line : Line} {rest : Source α} (hrest : rest <:+ sourceOf (line :: lines))
    (hnumber : number + lineBreaks rest = lines.length + 1) :
    (Position.ofRest (sourceOf (line :: lines)) rest).line = number := by
  obtain ⟨taken, htaken⟩ := hrest
  obtain ⟨text, htext⟩ := @sourceOf_eq_ofChars α (line :: lines)
  obtain ⟨front, -, -, hfront, -⟩ := List.map_eq_append_iff.mp (htext.symm.trans htaken.symm)
  have hbreaks := lineBreaks_append taken rest
  rw [htaken, lineBreaks_sourceOf] at hbreaks
  have hline : (Position.behind taken).line = lineBreaks taken + 1 := by
    rw [← hfront]
    exact line_behind
  rw [← htaken, Position.ofRest_append, hline]
  omega

/-- The offside rule. Of an outline the parser makes what the stack of open indents makes of it:
the same tree, or an error of indentation in the first line that fits no open level. -/
theorem parse_outline (lines : List Line) :
    (parse (sourceOf lines : Source α)).mapError (fun error => (error.cause.message, error.line)) =
      ((build lines).map Document.mk).mapError fun number => ("malformed indent", number) := by
  have hagrees := @document_agrees α (sourceOf lines) 1 lines.length lines List.suffix_rfl
    (by omega)
  rw [← build] at hagrees
  unfold parse
  cases hparsed : document (sourceOf lines : Source α) with
  | ok document =>
    cases hbuilt : @build α lines with
    | ok nodes =>
      rw [hparsed, hbuilt] at hagrees
      rw [show document = ⟨nodes⟩ from hagrees]
      rfl
    | error number =>
      rw [hparsed, hbuilt] at hagrees
      exact absurd hagrees id
  | error failure =>
    cases hbuilt : @build α lines with
    | ok nodes =>
      rw [hparsed, hbuilt] at hagrees
      exact absurd hagrees id
    | error number =>
      rw [hparsed, hbuilt] at hagrees
      obtain ⟨hcause, hrest, hnumber⟩ := hagrees
      have hline : (Position.ofRest (sourceOf lines) failure.rest).line = number := by
        cases lines with
        | nil => contradiction
        | cons line lines => exact line_ofRest hrest hnumber
      show Except.error (failure.cause.message, (Position.ofRest _ failure.rest).line) =
        Except.error ("malformed indent", number)
      rw [hcause, hline]
      rfl

-- The third line stands at neither of the two open indents.
example : @build Unit
    [.tag ⟨[], List.all_eq_true.mp rfl⟩ ⟨"a", by decide⟩,
      .tag ⟨[' ', ' '], List.all_eq_true.mp rfl⟩ ⟨"b", by decide⟩,
      .tag ⟨[' '], List.all_eq_true.mp rfl⟩ ⟨"c", by decide⟩] = .error 3 := by
  rfl

end IndentMarkup.Offside

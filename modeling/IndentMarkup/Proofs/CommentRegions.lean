import IndentMarkup.Proofs.Curtailed
import IndentMarkup.Proofs.Visited

/-! Comments. A comment takes the line it stands on and the lines below it that are blank or deeper,
up to the first other line: whatever these lines hold is passed over, and there are no nodes for it.
The item in front of it ends where it begins, and so the next item is read as if there were no
comment between the two. -/
namespace IndentMarkup

open Text (isBlank)
open Source (ofChars ofText)

variable {α : Type}

/-! ## Lines -/

namespace Source

/-- The lines of a source, each with the line break that ends it; the last one may have none. -/
def lines : Source α → List (Source α)
  | [] => []
  | .char '\n' :: rest => [.char '\n'] :: lines rest
  | symbol :: rest =>
    match lines rest with
    | [] => [[symbol]]
    | line :: more => (symbol :: line) :: more

def allBlank (source : Source α) : Bool :=
  source.all fun
    | .char c => isBlank c || c == '\n'
    | .slot _ => false

def frontBlanks (line : Source α) : Blanks where
  chars := Parser.charsWhile isBlank line
  blank _ hc := Parser.of_mem_charsWhile hc

/-- Whether a line goes on with a comment above it: it is blank or deeper than the comment. -/
def goesOn (blanks : Blanks) (line : Source α) : Bool :=
  line.allBlank || decide (line.frontBlanks.Deeper blanks)

def firstLine : Source α → Source α
  | [] => []
  | .char '\n' :: _ => [.char '\n']
  | symbol :: rest => symbol :: firstLine rest

variable {source first second rest : Source α}

theorem lines_of_ne_nil (hne : source ≠ []) :
    source.lines = source.firstLine :: (Parser.skipLine source).lines := by
  fun_induction firstLine source with
  | case1 => contradiction
  | case2 rest => rfl
  | case3 symbol rest hsymbol ih =>
    rw [lines, Parser.skipLine]
    · by_cases hrest : rest = []
      · subst hrest
        rfl
      · rw [ih hrest]
    · exact hsymbol
    · exact hsymbol

theorem flatten_lines (source : Source α) : source.lines.flatten = source := by
  fun_induction lines source with
  | case1 => rfl
  | case2 rest ih => simp [ih]
  | case3 symbol rest hsymbol hnil ih =>
    rw [hnil] at ih
    simp [← ih]
  | case4 symbol rest hsymbol line more hlines ih =>
    rw [hlines] at ih
    simp [← ih]

/-- Behind complete lines there are further ones. -/
theorem lines_append (h : Parser.Lines first) :
    (first ++ second).lines = first.lines ++ second.lines := by
  fun_induction lines first with
  | case1 => rfl
  | case2 rest ih =>
    rw [List.cons_append, lines, ih (h.of_suffix (List.suffix_cons _ _))]
    rfl
  | case3 symbol rest hsymbol hnil ih =>
    obtain rfl : rest = [] := by rw [← flatten_lines rest, hnil, List.flatten_nil]
    rcases h with h | h
    · contradiction
    · exact absurd (Option.some.inj h) fun heq => hsymbol heq
  | case4 symbol rest hsymbol line more hlines ih =>
    have hmore := ih (h.of_suffix (List.suffix_cons _ _))
    rw [List.cons_append, lines, hmore]
    · rw [hlines]
      rfl
    · exact hsymbol

/-- The blanks at the front of a source are those of its first line. -/
theorem charsWhile_firstLine (source : Source α) :
    Parser.charsWhile isBlank source.firstLine = Parser.charsWhile isBlank source := by
  fun_induction firstLine source with
  | case1 => rfl
  | case2 rest => rfl
  | case3 symbol rest hsymbol ih =>
    cases symbol with
    | slot value => rfl
    | char c => simp only [Parser.charsWhile, ih]

theorem allBlank_firstLine (source : Source α) :
    source.firstLine.allBlank = true ↔ Parser.afterWhile isBlank source = [] ∨
      ∃ rest, Parser.afterWhile isBlank source = .char '\n' :: rest := by
  fun_induction firstLine source with
  | case1 => simp [allBlank, Parser.afterWhile]
  | case2 rest => simp [allBlank, Parser.afterWhile, isBlank]
  | case3 symbol rest hsymbol ih =>
    cases symbol with
    | slot value => simp [allBlank, Parser.afterWhile]
    | char c =>
      have hc : c ≠ '\n' := fun heq => hsymbol (congrArg Symbol.char heq)
      cases hblank : isBlank c with
      | true => simpa [allBlank, Parser.afterWhile, hblank] using ih
      | false => simp [allBlank, Parser.afterWhile, hblank, hc]

theorem allBlank_of_subset (h : source.allBlank = true)
    (hsubset : ∀ symbol ∈ rest, symbol ∈ source) : rest.allBlank = true :=
  List.all_eq_true.mpr fun symbol hmem => List.all_eq_true.mp h symbol (hsubset symbol hmem)

/-- There are no slots among blanks and line breaks. -/
theorem allBlank_eq_ofChars (h : source.allBlank = true) :
    ∃ text : List Char, (∀ c ∈ text, Text.isSpace c = true) ∧ source = ofChars text := by
  induction source with
  | nil => exact ⟨[], by simp, rfl⟩
  | cons symbol rest ih =>
    obtain ⟨text, htext, rfl⟩ := ih (allBlank_of_subset h fun _ => List.mem_cons_of_mem _)
    cases symbol with
    | slot value => simp [allBlank] at h
    | char c =>
      have hc : isBlank c = true ∨ c = '\n' := by
        simpa using List.all_eq_true.mp h _ List.mem_cons_self
      refine ⟨c :: text, List.forall_mem_cons.mpr ⟨?_, htext⟩, rfl⟩
      rcases hc with hc | rfl
      · exact Text.isSpace_of_isBlank hc
      · rfl

/-- All lines of blank lines are blank. -/
theorem goesOn_of_allBlank (blanks : Blanks) (h : source.allBlank = true) :
    ∀ line ∈ source.lines, line.goesOn blanks = true := by
  intro line hline
  rw [goesOn, Bool.or_eq_true]
  refine .inl (allBlank_of_subset h fun symbol hmem => ?_)
  rw [← flatten_lines source]
  exact List.mem_flatten.mpr ⟨line, hline, hmem⟩

end Source

namespace Parser

variable {source rest : Source α} {blanks : Blanks}

/-! ## The region of a comment -/

theorem blankLine?_isSome (hne : source ≠ []) :
    (blankLine? source).isSome = source.firstLine.allBlank := by
  rw [Bool.eq_iff_iff, Source.allBlank_firstLine, blankLine?]
  split <;> simp_all

theorem deeperIndent?_isSome (blanks : Blanks) (source : Source α) :
    (deeperIndent? blanks.chars source).isSome =
      decide (source.firstLine.frontBlanks.Deeper blanks) := by
  have hfront : source.firstLine.frontBlanks.chars = charsWhile isBlank source :=
    source.charsWhile_firstLine
  rw [Bool.eq_iff_iff, Option.isSome_iff_exists, decide_eq_true_iff, Blanks.Deeper, hfront]
  constructor
  · rintro ⟨⟨deeper, rest⟩, hdeeper⟩
    obtain ⟨gap, rfl, rfl, hstops⟩ := of_deeperIndent? hdeeper
    have hchars : charsWhile isBlank (ofChars (blanks.chars ++ gap.chars) ++ rest) =
        blanks.chars ++ gap.chars := charsWhile_append (blanks.below gap).blank hstops
    rw [hchars]
    exact ⟨List.prefix_append _ _, fun heq => gap.nonempty (by simpa using heq)⟩
  · rintro ⟨⟨gap, hgap⟩, hne⟩
    have hblank : ∀ c ∈ gap, isBlank c = true := by
      intro c hc
      have hmem : c ∈ charsWhile isBlank source := hgap ▸ List.mem_append_right _ hc
      exact of_mem_charsWhile hmem
    have hnonempty : gap ≠ [] := by
      rintro rfl
      exact hne (by simpa using hgap)
    rw [← charsWhile_append_afterWhile isBlank source, ← hgap]
    exact ⟨_, deeperIndent?_append _ hnonempty hblank (stops_afterWhile isBlank source)⟩

/-- Lines are skipped as long as they go on with the comment. -/
theorem skipDeeperLines_lines (blanks : Blanks) (source : Source α) :
    skipDeeperLines blanks.chars source = (source.lines.dropWhile (·.goesOn blanks)).flatten := by
  fun_induction skipDeeperLines blanks.chars source with
  | case1 source deeper rest hdeeper ih =>
    have hne : source ≠ [] := by
      rintro rfl
      rw [deeperIndent?_nil] at hdeeper
      contradiction
    have hskip : skipLine source = skipLine rest := by
      obtain ⟨gap, rfl, rfl, -⟩ := of_deeperIndent? hdeeper
      exact skipLine_ofChars (not_mem_append_gap gap (not_mem_blanks blanks)) rest
    have hgoes : source.firstLine.goesOn blanks = true := by
      rw [Source.goesOn, ← deeperIndent?_isSome, hdeeper, Option.isSome_some, Bool.or_true]
    rw [ih, Source.lines_of_ne_nil hne, List.dropWhile_cons_of_pos hgoes, hskip]
  | case2 source hdeeper found hblank ih =>
    have hne : source ≠ [] := by
      rintro rfl
      contradiction
    have hgoes : source.firstLine.goesOn blanks = true := by
      rw [Source.goesOn, ← blankLine?_isSome hne, hblank, Option.isSome_some, Bool.true_or]
    rw [ih, Source.lines_of_ne_nil hne, List.dropWhile_cons_of_pos hgoes]
  | case3 source hdeeper hblank =>
    by_cases hne : source = []
    · subst hne
      rfl
    · have hgoes : ¬ source.firstLine.goesOn blanks = true := by
        rw [Source.goesOn, ← deeperIndent?_isSome, ← blankLine?_isSome hne, hdeeper, hblank]
        exact Bool.false_ne_true
      rw [Source.lines_of_ne_nil hne, List.dropWhile_cons_of_neg hgoes,
        ← Source.lines_of_ne_nil hne, source.flatten_lines]

/-- A comment takes its line and the lines below it that go on with it. -/
theorem comment?_lines (blanks : Blanks) (source : Source α) :
    comment? blanks.chars (.char '/' :: source) =
      some ((Source.lines (.char '/' :: source)).tail.dropWhile (·.goesOn blanks)).flatten := by
  rw [Source.lines_of_ne_nil (List.cons_ne_nil _ _), List.tail_cons, comment?,
    skipDeeperLines_lines]
  rfl

theorem item_comment {indent : Indent} (h : comment? indent source = some rest) :
    item indent source = .ok (some ([], rest)) := by
  rw [item_eq, h]

/-! ## A comment between two items -/

theorem not_beginsItem (h : source.allBlank = true) : ¬ BeginsItem source := by
  intro hitem
  cases source with
  | nil => exact hitem
  | cons symbol rest =>
    cases symbol with
    | slot value => simp [Source.allBlank] at h
    | char c => simp [Source.allBlank, hitem.1, hitem.2] at h

theorem skipBlankLines_allBlank (h : source.allBlank = true) : skipBlankLines source = [] := by
  by_cases hne : skipBlankLines source = []
  · exact hne
  · have hitem := beginsItem_of_not_blank (blankLine?_skipBlankLines source) hne
    have hsuffix :=
      ((accounts_skipBlankLines source).skip (accounts_afterWhile isBlank _)).suffix
    exact absurd hitem
      (not_beginsItem (Source.allBlank_of_subset h fun _ hmem => hsuffix.subset hmem))

/-- A comment on lines of its own. -/
structure CommentLines (blanks : Blanks) (comment : Source α) : Prop where
  marker : comment.head? = some (.char '/')
  complete : EndsLine comment
  lower : ∀ line ∈ comment.lines.tail, line.goesOn blanks = true

/-- Two items of a block at an indent. The first one ends with a line break; the line of the second
one, which is no `else`, stands behind blank lines. -/
structure Neighbours (blanks : Blanks) (first gap second line : Source α) : Prop where
  begins : BeginsItem first
  complete : EndsLine first
  blank : gap.allBlank = true
  lines : Lines gap
  next : ItemLine blanks second line
  read : ∃ nodes, item blanks.chars (first ++ (gap ++ line)) = .ok (some (nodes, line))

theorem ItemLine.parted {place line : Source α} (h : ItemLine blanks place line) :
    Parted blanks.chars line := by
  refine ⟨blanks.blank, ?_⟩
  rw [skipBlankLines_of_not_blank h.notBlank]
  exact ⟨h.eq ▸ ends_same blanks.blank h.begins, h.elseMark? blanks⟩

namespace Neighbours

variable {first gap second line : Source α}

theorem skipGap (h : Neighbours blanks first gap second line) :
    skipBlankLines (gap ++ line) = line := by
  rw [(skipBlankLines_front h.next h.lines).1, skipBlankLines_allBlank h.blank, List.nil_append]

theorem ahead (h : Neighbours blanks first gap second line) :
    Ahead blanks second (gap ++ line) := by
  obtain ⟨text, htext, rfl⟩ := Source.allBlank_eq_ofChars h.blank
  refine ⟨⟨text ++ blanks.chars, fun c hc => ?_, ?_⟩, h.skipGap.symm ▸ h.next⟩
  · rcases List.mem_append.mp hc with hc | hc
    · exact htext c hc
    · exact Text.isSpace_of_isBlank (blanks.blank c hc)
  · rw [h.next.eq, Source.ofChars_append, List.append_assoc]

theorem parted (h : Neighbours blanks first gap second line) :
    Parted blanks.chars (gap ++ line) := by
  obtain ⟨hblank, hbeyond⟩ := h.next.parted
  rw [skipBlankLines_of_not_blank h.next.notBlank] at hbeyond
  exact ⟨hblank, h.skipGap.symm ▸ hbeyond⟩

/-- The first item stands on a line of its own, whatever is behind it. -/
theorem firstLine (h : Neighbours blanks first gap second line) {tail : Source α}
    {found : List (Node α) × Source α}
    (hitem : item blanks.chars (first ++ tail) = .ok (some found)) :
    ItemLine blanks (first ++ tail) (ofChars blanks.chars ++ (first ++ tail)) := by
  refine ⟨rfl, ?_, instructionWord?_of_item hitem⟩
  have hbegins := h.begins
  cases first with
  | nil => exact absurd rfl h.complete.ne_nil
  | cons symbol rest => cases symbol <;> exact hbegins

end Neighbours

namespace CommentLines

variable {first gap second line comment : Source α}

theorem eq_cons (h : CommentLines blanks comment) : ∃ body, comment = .char '/' :: body :=
  List.head?_eq_some_iff.mp h.marker

theorem itemLine (h : CommentLines blanks comment) (tail : Source α) :
    ItemLine blanks (comment ++ tail) (ofChars blanks.chars ++ (comment ++ tail)) := by
  obtain ⟨body, rfl⟩ := h.eq_cons
  exact ⟨rfl, ⟨rfl, by decide⟩, fun rest hword => by contradiction⟩

/-- The comment ends at the line of the second item. -/
theorem comment? (h : CommentLines blanks comment)
    (hnext : Neighbours blanks first gap second line) :
    Parser.comment? blanks.chars (comment ++ (gap ++ line)) = some line := by
  have hends : Ends blanks.chars line :=
    hnext.next.eq ▸ ends_same blanks.blank hnext.next.begins
  have hlast := skipDeeperLines_lines blanks line
  rw [skipDeeperLines_eq, hends.notDeeper, hends.notBlank] at hlast
  have hlines : (comment ++ (gap ++ line)).lines.tail =
      comment.lines.tail ++ (gap.lines ++ line.lines) := by
    rw [Source.lines_append (.inr h.complete), Source.lines_append hnext.lines,
      Source.lines_of_ne_nil h.complete.ne_nil]
    rfl
  obtain ⟨body, rfl⟩ := h.eq_cons
  rw [List.cons_append] at hlines ⊢
  rw [comment?_lines, hlines, List.dropWhile_append_of_pos h.lower,
    List.dropWhile_append_of_pos (Source.goesOn_of_allBlank blanks hnext.blank), ← hlast]

/-- Behind a comment the row of items goes on with the second item. -/
theorem siblings (h : CommentLines blanks comment)
    (hnext : Neighbours blanks first gap second line) :
    Parser.siblings blanks.chars (ofChars blanks.chars ++ (comment ++ (gap ++ line))) =
      Parser.siblings blanks.chars line := by
  have hitem := item_comment (h.comment? hnext)
  have hchars := charsWhile_of_stops (h.itemLine (gap ++ line)).begins.stops
  rw [siblings_eq, literal?_append]
  simp only [hchars, hitem, bind, Except.bind, List.isEmpty_nil, Bool.not_true, Bool.false_eq_true,
    if_false]
  cases Parser.siblings blanks.chars line <;> rfl

/-- The first item is read in front of the comment as it is read in front of the second item. -/
theorem item (h : CommentLines blanks comment)
    (hnext : Neighbours blanks first gap second line) {nodes : List (Node α)}
    (hitem : Parser.item blanks.chars (first ++ (gap ++ line)) = .ok (some (nodes, line))) :
    Parser.item blanks.chars (first ++ (ofChars blanks.chars ++ (comment ++ (gap ++ line)))) =
      .ok (some (nodes, ofChars blanks.chars ++ (comment ++ (gap ++ line)))) := by
  have hline := h.itemLine (gap ++ line)
  have hother := item_elsewhere hnext.ahead hnext.complete hnext.begins hnext.parted hline.parted
    hnext.skipGap (reads_item hitem)
  rw [skipBlankLines_of_not_blank hline.notBlank] at hother
  exact hother.gives

/-- So the document is the same with the comment between the two. -/
theorem document (h : CommentLines blanks comment)
    (hnext : Neighbours blanks first gap second line) {before : Source α} (hbefore : Lines before)
    (hvisited : ⟨.item, first ++ (gap ++ line)⟩ ∈ (Traced.document
      (before ++ (ofChars blanks.chars ++ (first ++ (gap ++ line))))).events) :
    Parser.document (before ++ (ofChars blanks.chars ++ (first ++ (gap ++ line)))) =
      Parser.document (before ++ (ofChars blanks.chars ++
        (first ++ (ofChars blanks.chars ++ (comment ++ (gap ++ line)))))) := by
  obtain ⟨nodes, hitem⟩ := hnext.read
  have hitem' := h.item hnext hitem
  refine document_exchange ⟨hnext.firstLine hitem, hnext.firstLine hitem'⟩ ?_ hbefore hvisited
  rw [block_eq, block_eq, hitem, hitem']
  simp only [bind, Except.bind, h.siblings hnext]

end CommentLines

end Parser

/-- **The region of a comment.** At a slash there is a comment: it does not fail and gives no nodes,
and it takes its line and the lines below it that are blank or deeper, whatever is on them. So whole
lines of a comment between two items of a block, in front of the line of the second one or among the
blank lines above it, make no difference to the document. -/
theorem comment_region (blanks : Blanks) :
    (∀ source : Source α, ∃ rest,
      Parser.comment? blanks.chars (.char '/' :: source) = some rest ∧
        Parser.item blanks.chars (.char '/' :: source) = .ok (some ([], rest)) ∧
          rest = ((Source.lines (.char '/' :: source)).tail.dropWhile (·.goesOn blanks)).flatten) ∧
      ∀ before first gap second line comment : Source α, Parser.Lines before →
        Parser.Neighbours blanks first gap second line → Parser.CommentLines blanks comment →
          ⟨.item, first ++ (gap ++ line)⟩ ∈ (Parser.Traced.document
            (before ++ (ofChars blanks.chars ++ (first ++ (gap ++ line))))).events →
            ∀ document, parse (before ++ (ofChars blanks.chars ++ (first ++ (gap ++ line)))) =
                .ok document ↔
              parse (before ++ (ofChars blanks.chars ++ (first ++
                (ofChars blanks.chars ++ (comment ++ (gap ++ line)))))) = .ok document := by
  refine ⟨fun source => ?_, fun before first gap second line comment hbefore hnext hcomment hitem
    document => ?_⟩
  · have hregion := Parser.comment?_lines blanks source
    exact ⟨_, hregion, Parser.item_comment hregion, rfl⟩
  · rw [parse_eq_ok, parse_eq_ok, hcomment.document hnext hbefore hitem]

/-- A comment over several lines, with an open bracket and a slot in it. -/
def Source.remark : Source Nat :=
  interleave ["/ it's (\n\n     [", "\n\t\n"] [0]

theorem comment_region_remark :
    Parser.item [' ', ' '] (Source.remark ++ ofText "  q") = .ok (some ([], ofText "  q")) ∧
      ∃ document, parse (ofText "ul\n  li: p\n    | one\n\n  q" : Source Nat) = .ok document ∧
        parse (ofText "ul\n  li: p\n    | one\n  " ++ (Source.remark ++ ofText "\n  q")) =
          .ok document := by
  let blanks : Blanks := ⟨[' ', ' '], List.all_eq_true.mp rfl⟩
  let first : Source Nat := ofText "li: p\n    | one\n"
  obtain ⟨hregion, hinsert⟩ := comment_region (α := Nat) blanks
  have hcomment : Parser.CommentLines blanks Source.remark :=
    ⟨by rfl, by rfl, by decide +kernel⟩
  have hcounts : ((Parser.item blanks.chars (first ++ (ofText "\n" ++ ofText "  q"))).toOption.map
        (·.map Prod.snd),
      (parse (ofText "ul\n  li: p\n    | one\n\n  q" : Source Nat)).toOption.map
        (·.children.length)) = (some (some (ofText "  q")), some 1) := by
    decide +kernel
  have hlog : (.item, first ++ (ofText "\n" ++ ofText "  q")) ∈ (Parser.Traced.document
      (ofText "ul\n  li: p\n    | one\n\n  q" : Source Nat)).events.map fun event =>
        (event.kind, event.rest) := by
    decide +kernel
  obtain ⟨hread, hparsed⟩ := Prod.mk.inj hcounts
  have hvisited := Parser.Event.mem_of_parts hlog
  have hnext : Parser.Neighbours blanks first (ofText "\n") (ofText "q") (ofText "  q") := by
    refine ⟨⟨rfl, by decide⟩, rfl, rfl, .inr rfl, ⟨rfl, ⟨rfl, by decide⟩, fun rest hword => ?_⟩, ?_⟩
    · contradiction
    · cases hitem : Parser.item blanks.chars (first ++ (ofText "\n" ++ ofText "  q")) with
      | error failure =>
        rw [hitem] at hread
        contradiction
      | ok found =>
        rw [hitem] at hread
        obtain ⟨⟨nodes, rest⟩, rfl, rfl⟩ := Option.map_eq_some_iff.mp (Option.some.inj hread)
        exact ⟨nodes, rfl⟩
  refine ⟨?_, ?_⟩
  · obtain ⟨rest, -, hitem, hrest⟩ := hregion (Source.remark.tail ++ ofText "  q")
    have hlines : rest = ofText "  q" := hrest.trans (by decide +kernel)
    exact hlines ▸ hitem
  · have hsame := hinsert (ofText "ul\n") first (ofText "\n") (ofText "q") (ofText "  q")
      Source.remark (.inr rfl) hnext hcomment hvisited
    cases hparse : parse (ofText "ul\n  li: p\n    | one\n\n  q" : Source Nat) with
    | error error =>
      rw [hparse] at hparsed
      contradiction
    | ok document => exact ⟨document, rfl, (hsame document).mp hparse⟩

end IndentMarkup

import IndentMarkup.Proofs.BareHeader
import IndentMarkup.Proofs.FailurePlaces
import IndentMarkup.Proofs.Visited

/-! One blank behind a header. A line that holds nothing but the header of an element may end with a
blank or a tab: the block below it is read in the same way, and so is the rest of the source. Of
more blanks the first is dropped and the others are text of the element. -/
namespace IndentMarkup

open Text (isBlank)
open Source (ofChars ofText)

variable {α : Type}

/-! ## Ends of headers -/

/-- The source does not end with a blank. -/
def Source.EndsDark (source : Source α) : Prop :=
  ∀ c, source.getLast? = some (.char c) → isBlank c = false

namespace Source.EndsDark

variable {first second : Source α}

theorem nil : EndsDark ([] : Source α) := fun _ h => by contradiction

theorem append (hfirst : first.EndsDark) (hsecond : second.EndsDark) :
    (first ++ second).EndsDark := by
  intro c h
  rw [List.getLast?_append] at h
  cases hlast : second.getLast? with
  | none =>
    rw [hlast] at h
    exact hfirst c h
  | some symbol =>
    rw [hlast] at h
    exact hsecond c (hlast.trans h)

theorem ofChars {text : List Char} (h : ∀ c ∈ text, isBlank c = false) :
    (Source.ofChars text : Source α).EndsDark := by
  intro c hc
  obtain ⟨d, hd, heq⟩ := List.mem_map.mp (List.mem_of_getLast? hc)
  exact Symbol.char.inj heq ▸ h d hd

/-- Where a suffix that is not empty does not end with a blank, nothing does. -/
theorem of_suffix (hsuffix : second <:+ first) (hne : second ≠ []) (h : second.EndsDark) :
    first.EndsDark := by
  obtain ⟨front, rfl⟩ := hsuffix
  intro c hc
  rw [List.getLast?_append, List.getLast?_eq_some_getLast hne, Option.some_or] at hc
  exact h c ((List.getLast?_eq_some_getLast hne).trans hc)

end Source.EndsDark

theorem Word.endsDark {word : Word α} {property : String → Prop} (hword : word.Literally property)
    (hproperty : ∀ text, property text → ∀ c ∈ text.toList, isBlank c = false) :
    word.printed.EndsDark := by
  cases word with
  | slot value =>
    intro c hc
    exact absurd (Option.some.inj hc : Symbol.slot value = _) (by simp)
  | text content => exact .ofChars (hproperty content hword)

/-- There is no blank in a literal identifier. -/
theorem Word.endsDark_of_identifier {word : Word α} (hword : word.Literally IsIdentifier) :
    word.printed.EndsDark :=
  Word.endsDark hword fun _ hname c hc => Parser.not_isBlank_of_isTagChar
    (Parser.isTagChar_of_isIdentifierChar (hname.chars c hc))

theorem Attribute.WrittenShorthands.endsDark {short : List (Attribute α)} {text : Source α}
    (h : Attribute.WrittenShorthands short text) : text.EndsDark := by
  induction h with
  | nil => exact .nil
  | @cons mark name value more rest hmark hvalue _ ih =>
    have hfirst : (ofChars [mark] : Source α).EndsDark := by
      refine .ofChars fun c hc => ?_
      rw [List.mem_singleton.mp hc]
      rcases Parser.of_shorthandName? hmark with rfl | rfl <;> rfl
    exact hfirst.append ((Word.endsDark_of_identifier hvalue).append ih)

theorem Parser.Naming.Written.endsDark {named : Parser.Naming α} {text : Source α}
    (h : named.Written text) : text.EndsDark := by
  cases h with
  | base hbase hshort =>
    exact .append (Word.endsDark hbase fun _ hname c hc =>
      Parser.not_isBlank_of_isTagChar (hname.chars c hc)) hshort.endsDark
  | noBase _ hshort => exact hshort.endsDark

/-- A list ends with its bracket. -/
theorem Attribute.Bracketed.endsDark {entries : List (Attribute α)} {text : Source α}
    (h : Attribute.Bracketed entries text) : text.EndsDark := by
  cases h with
  | none => exact .nil
  | @list blanks opening close _ inside hclose hinside =>
    have hlast : (ofChars [close] : Source α).EndsDark := by
      refine .ofChars fun c hc => ?_
      rw [List.mem_singleton.mp hc]
      rcases Parser.of_closing? hclose with ⟨-, rfl⟩ | ⟨-, rfl⟩ | ⟨-, rfl⟩ <;> rfl
    have hbracket := (Parser.suffix_of_wrappedAttributes hinside).trans
      (List.suffix_cons (.char opening) inside)
    have hsuffix := hbracket.trans (List.suffix_append (ofChars blanks.chars) _)
    exact .of_suffix hsuffix (List.cons_ne_nil _ _) hlast

theorem Word.WrittenRef.endsDark {name : Option (Word α)} {text : Source α}
    (h : Word.WrittenRef name text) : text.EndsDark := by
  cases h with
  | none => exact .nil
  | @name blanks name hname =>
    have hne : name.printed ≠ [] := by
      cases name with
      | slot value => exact List.cons_ne_nil _ _
      | text content => simpa [Word.printed, ofText, ofChars] using hname.nonempty
    have hsuffix := (List.suffix_cons (.char '@') name.printed).trans
      (List.suffix_append (ofChars blanks.chars) _)
    exact .of_suffix hsuffix hne (Word.endsDark_of_identifier hname)

section Headers

variable {header : Header α} {text : Source α}

theorem Header.Written.ne_nil (h : header.Written text) : text ≠ [] := by
  have hbegins := Parser.beginsItem_header h []
  rw [List.append_nil] at hbegins
  exact hbegins.ne_nil

/-- A header ends with the character of a word, with a slot or with a bracket. -/
theorem Header.Written.endsDark (h : header.Written text) : text.EndsDark := by
  cases h with
  | parts hnamed hlist href => exact hnamed.endsDark.append (hlist.endsDark.append href.endsDark)

end Headers

/-! ## Where a failure is -/

namespace Position

/-- The same segment and the same line, whatever the offset. -/
def SameLine (first second : Position) : Prop :=
  first.segment = second.segment ∧ first.line = second.line

theorem SameLine.foldl {first second : Position} (h : first.SameLine second) (taken : Source α) :
    (taken.foldl advance first).SameLine (taken.foldl advance second) := by
  induction taken generalizing first second with
  | nil => exact h
  | cons symbol taken ih =>
    refine ih ?_
    cases symbol with
    | slot value => exact ⟨congrArg (· + 1) h.1, rfl⟩
    | char c => simp [advance, SameLine, h.1, h.2]

/-- One more character on a line does not change which line it is. -/
theorem sameLine_ofRest {c : Char} (hc : c ≠ '\n') (front : Source α) {tail rest : Source α}
    (hrest : rest <:+ tail) :
    (ofRest (front ++ .char c :: tail) rest).SameLine (ofRest (front ++ tail) rest) := by
  obtain ⟨taken, rfl⟩ := hrest
  have hlonger : front ++ .char c :: (taken ++ rest) = (front ++ .char c :: taken) ++ rest := by
    simp
  rw [hlonger, ofRest_append, ← List.append_assoc, ofRest_append, behind, behind,
    List.foldl_append, List.foldl_append, List.foldl_cons]
  refine SameLine.foldl ?_ taken
  simp [advance, hc, SameLine]

end Position

/-- What is left of two sources that differ by a blank begins behind it, if nothing blank stands in
front of it. -/
theorem Source.suffix_of_both {front tail rest : Source α} {c : Char} (hfront : front.EndsDark)
    (hc : isBlank c = true) (hrest : rest <:+ front ++ tail)
    (hother : rest <:+ front ++ .char c :: tail) : rest <:+ tail := by
  rcases List.suffix_or_suffix_of_suffix hrest (List.suffix_append front tail) with h | ⟨more, rfl⟩
  · exact h
  · have hmore : more <:+ front := List.suffix_append_self_iff.mp hrest
    have hboth : more ++ tail <:+ front ++ [.char c] ++ tail := by simpa using hother
    obtain ⟨before, hbefore⟩ := List.suffix_append_self_iff.mp hboth
    by_cases hne : more = []
    · rw [hne]
      exact List.suffix_rfl
    · obtain ⟨start, rfl⟩ := hmore
      have hlast : more.getLast? = some (.char c) := by
        have hends := congrArg List.getLast? hbefore
        rwa [List.getLast?_append, List.getLast?_eq_some_getLast hne, Option.some_or,
          List.getLast?_concat, ← List.getLast?_eq_some_getLast hne] at hends
      have hdark := hfront c (by
        rw [List.getLast?_append, hlast]
        rfl)
      rw [hc] at hdark
      contradiction

namespace Parser

variable {header : Header α} {text tail rest : Source α} {c : Char}

/-! ## The content behind the blanks -/

/-- One blank in front of a line break is dropped. -/
theorem content_blank (indent : Indent) (hc : isBlank c = true) (h : LineBreak tail rest) :
    content indent (.char c :: tail) = content indent tail := by
  have hskip : skipOneBlank (.char c :: tail) = tail := if_pos hc
  have hsame : skipOneBlank tail = tail := by
    cases h <;> rfl
  rw [content_eq, content_eq, hskip, hsame]

theorem item_blank (indent : Indent) (hheader : header.Written text) (hc : isBlank c = true)
    (h : LineBreak tail rest) :
    item indent (text ++ .char c :: tail) = item indent (text ++ tail) := by
  rw [item_header indent hheader (.of_blank hc h), item_header indent hheader (.of_lineBreak h),
    content_blank indent hc h]

theorem block_blank (indent : Indent) (hheader : header.Written text) (hc : isBlank c = true)
    (h : LineBreak tail rest) :
    block indent (text ++ tail) = block indent (text ++ .char c :: tail) := by
  rw [block_eq, block_eq, item_blank indent hheader hc h]

/-- A node that is no line break stays when the line breaks behind it are dropped. -/
theorem dropTrailingNewLines_cons {node : Node α} (hnode : node.isNewLine = false)
    (nodes : List (Node α)) :
    dropTrailingNewLines (node :: nodes) = node :: dropTrailingNewLines nodes := by
  rw [dropTrailingNewLines, dropTrailingNewLines, List.reverse_cons, List.dropWhile_append]
  split
  · rename_i hempty
    rw [List.isEmpty_iff.mp hempty]
    simp [hnode]
  · simp

/-- Of more blanks all but the first are text of the element, and deeper lines go on with it. -/
theorem content_blanks (indent : Indent) (hc : isBlank c = true) (gap : Gap)
    (h : LineBreak tail rest) :
    ∃ nodes after, content indent (.char c :: (ofChars gap.chars ++ tail)) =
        .ok (.text (String.ofList gap.chars) :: nodes, after) ∧
      lineText indent (ofChars gap.chars ++ tail) =
        (some (.text (String.ofList gap.chars) :: nodes), after) := by
  have hskip : skipOneBlank (.char c :: (ofChars gap.chars ++ tail)) = ofChars gap.chars ++ tail :=
    if_pos hc
  have hcolon : expansion? (ofChars gap.chars ++ tail) = none := by
    rw [expansion?, afterWhile_append gap.blank (h.stops rfl)]
    cases h <;> rfl
  have hbreak : '\n' ∉ gap.chars := fun hmem => by
    have := gap.blank _ hmem
    contradiction
  obtain ⟨count, hline⟩ := textLine_text gap.nonempty hbreak h
  have hnode : (Node.text (String.ofList gap.chars) : Node α).isNewLine = false := rfl
  have htext : ∃ nodes after, lineText indent (ofChars gap.chars ++ tail) =
      (some (.text (String.ofList gap.chars) :: nodes), after) := by
    simp only [lineText, hline, List.all_cons, hnode, Bool.false_and, Bool.false_eq_true, if_false]
    cases nestedText? indent (skipBlankLines rest) <;>
      simp only [List.cons_append, dropTrailingNewLines_cons hnode] <;>
      exact ⟨_, _, rfl⟩
  obtain ⟨nodes, after, htext⟩ := htext
  refine ⟨nodes, after, ?_, htext⟩
  rw [content_eq, hskip]
  simp only [hcolon, htext]

/-- A line with a header is a line with an item. -/
theorem itemLine_header (blanks : Blanks) (hheader : header.Written text) (source : Source α) :
    ItemLine blanks (text ++ source) (ofChars blanks.chars ++ (text ++ source)) where
  eq := rfl
  begins := beginsItem_header hheader source
  noElse word := by
    rw [instructionWord?_of_stops (stops_dash_header hheader source)]
    exact (Option.some_ne_none _).symm

end Parser

variable {header : Header α} {text before tail rest : Source α} {blanks : Blanks} {c : Char}

/-- A failure that two sources share is shown alike if they differ by a blank behind a header. -/
theorem Failure.locate_blank (hheader : header.Written text) (hc : isBlank c = true)
    {failure : Failure α} (hwithin : failure.rest <:+ before ++ (text ++ tail))
    (hother : failure.rest <:+ before ++ (text ++ .char c :: tail)) :
    failure.locate (before ++ (text ++ .char c :: tail)) =
      failure.locate (before ++ (text ++ tail)) := by
  have hfront : (before ++ text).EndsDark :=
    hheader.endsDark.of_suffix (List.suffix_append before text) hheader.ne_nil
  have hbreak : c ≠ '\n' := by
    rintro rfl
    contradiction
  rw [← List.append_assoc] at hwithin hother ⊢
  rw [← List.append_assoc]
  have hrest := Source.suffix_of_both hfront hc hwithin hother
  obtain ⟨hsegment, hline⟩ := Position.sameLine_ofRest hbreak (before ++ text) hrest
  simp only [Failure.locate, hsegment, hline]

/-- One blank behind the header of an element line makes no difference. -/
theorem parse_blank (hheader : header.Written text) (hbefore : Parser.Lines before)
    (hline : Parser.LineBreak tail rest) (hc : isBlank c = true)
    (hitem : ⟨.item, text ++ tail⟩ ∈ (Parser.Traced.document
      (before ++ (ofChars blanks.chars ++ (text ++ tail)))).events) :
    parse (before ++ (ofChars blanks.chars ++ (text ++ .char c :: tail))) =
      parse (before ++ (ofChars blanks.chars ++ (text ++ tail))) := by
  have hlines : Parser.Exchange blanks (text ++ tail) _ (text ++ .char c :: tail) _ :=
    ⟨Parser.itemLine_header blanks hheader tail, Parser.itemLine_header blanks hheader _⟩
  have hsame := Parser.document_exchange hlines
    (Parser.block_blank blanks.chars hheader hc hline) hbefore hitem
  have hwithin := Parser.document_failsWithin
    (before ++ (ofChars blanks.chars ++ (text ++ tail)))
  have hother := Parser.document_failsWithin
    (before ++ (ofChars blanks.chars ++ (text ++ .char c :: tail)))
  rw [← hsame] at hother
  rw [parse, parse, ← hsame]
  cases hfound : Parser.document (before ++ (ofChars blanks.chars ++ (text ++ tail))) with
  | ok found => rfl
  | error failure =>
    have hwithin := hwithin failure hfound
    have hother := hother failure hfound
    rw [← List.append_assoc] at hwithin hother
    have hshown := Failure.locate_blank hheader hc hwithin hother
    rw [List.append_assoc, List.append_assoc] at hshown
    exact congrArg Except.error hshown

/-- One blank or tab behind the header of an element line makes no difference: parsing gives the same
document or the same error, whatever stands before the line and below it. Of a longer run the first
blank is dropped and the others are text of the element; what stands below the line is read on as
this text is, not as a block of the element. -/
theorem trailing_blanks (hheader : header.Written text) (hline : Parser.LineBreak tail rest)
    (hc : isBlank c = true) :
    (∀ (before : Source α) (blanks : Blanks), Parser.Lines before →
      ⟨.item, text ++ tail⟩ ∈ (Parser.Traced.document
        (before ++ (ofChars blanks.chars ++ (text ++ tail)))).events →
      parse (before ++ (ofChars blanks.chars ++ (text ++ .char c :: tail))) =
        parse (before ++ (ofChars blanks.chars ++ (text ++ tail)))) ∧
      ∀ (indent : Indent) (gap : Gap), ∃ nodes after,
        Parser.item indent (text ++ .char c :: (ofChars gap.chars ++ tail)) =
            .ok (some ([.element header (.text (String.ofList gap.chars) :: nodes)], after)) ∧
          Parser.lineText indent (ofChars gap.chars ++ tail) =
            (some (.text (String.ofList gap.chars) :: nodes), after) := by
  refine ⟨fun before blanks hbefore hitem => parse_blank hheader hbefore hline hc hitem,
    fun indent gap => ?_⟩
  obtain ⟨nodes, after, hcontent, htext⟩ := Parser.content_blanks indent hc gap hline
  let run : Blanks := ⟨c :: gap.chars, by simpa [hc] using gap.blank⟩
  have hends : Parser.EndsHeader (.char c :: (ofChars gap.chars ++ tail)) :=
    @Parser.EndsHeader.line _ run tail rest hline
  refine ⟨nodes, after, ?_, htext⟩
  rw [Parser.item_header indent hheader hends, hcontent]
  rfl

theorem trailing_blanks_nested :
    parse (ofText "q\n  .a\t\n    b" : Source Nat) = parse (ofText "q\n  .a\n    b") ∧
      ∃ nodes after, Parser.item [] (ofText ".a\t  \n    b" : Source Nat) =
        .ok (some ([.element ⟨.text Parser.defaultTag, [.pair (.text "class") (.text "a")], none⟩
          (.text "  " :: nodes)], after)) := by
  have hheader : Header.Written
      ⟨.text Parser.defaultTag, [.pair (.text "class") (.text "a")], none⟩
      (ofText ".a" : Source Nat) := by
    have hshort : Attribute.WrittenShorthands [.pair (.text "class") (.text "a")]
        (ofText ".a" : Source Nat) := .cons (by rfl) (by decide) .nil
    exact .parts (.noBase (by simp) hshort) .none .none
  obtain ⟨hone, hmore⟩ := trailing_blanks hheader (.newline (ofText "    b")) (by decide : isBlank '\t')
  have hitem : ⟨.item, ofText ".a\n    b"⟩ ∈
      (Parser.Traced.document (ofText "q\n  .a\n    b" : Source Nat)).events := by
    have hlog : (.item, ofText ".a\n    b") ∈
        (Parser.Traced.document (ofText "q\n  .a\n    b" : Source Nat)).events.map fun event =>
          (event.kind, event.rest) := by
      decide +kernel
    obtain ⟨event, hevent, hparts⟩ := List.mem_map.mp hlog
    obtain ⟨hkind, hrest⟩ := Prod.mk.inj hparts
    rwa [← hkind, ← hrest]
  obtain ⟨nodes, after, hitems, -⟩ := hmore [] ⟨⟨[' ', ' '], List.all_eq_true.mp rfl⟩, by decide⟩
  exact ⟨hone (ofText "q\n") ⟨[' ', ' '], List.all_eq_true.mp rfl⟩ (.inr rfl) hitem,
    nodes, after, hitems⟩

/-- A second blank matters: the block below turns into text. -/
theorem trailing_blanks_differ :
    parse (ofText "p  \n  b\n" : Source Nat) ≠ parse (ofText "p\n  b\n") := by
  intro hsame
  have htexts : (parse (ofText "p  \n  b\n" : Source Nat)).toOption.map Document.texts ≠
      (parse (ofText "p\n  b\n" : Source Nat)).toOption.map Document.texts := by
    decide +kernel
  exact htexts (congrArg (fun parsed => parsed.toOption.map Document.texts) hsame)

end IndentMarkup

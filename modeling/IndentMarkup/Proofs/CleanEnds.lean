import IndentMarkup.Proofs.FailurePlaces
import IndentMarkup.Proofs.IndentOrder
import IndentMarkup.Proofs.InsetBlocks
import IndentMarkup.Proofs.Visited
import Mathlib.Logic.Relation

/-! Items end cleanly. Whatever an item is and wherever it stands, it leaves the input at the front
of a line or at its end, with no blank line ahead. What is called next relies on that: no item is
looked for on a blank line, and a block goes on exactly where its indent is. So there are answers
that the parser allows for and never gives. -/
namespace IndentMarkup

namespace Parser

open Text (isBlank)
open Source (ofChars)

variable {α : Type}

/-! ## Fronts of lines -/

section

variable {whole source rest : Source α} {indent : Indent} {nodes : List (Node α)}

/-- Nothing is left of a source, or what is left follows a line break of it. -/
def LineStart (whole rest : Source α) : Prop :=
  rest = [] ∨ ∃ front, EndsLine front ∧ whole = front ++ rest

theorem LineStart.suffix (h : LineStart whole rest) : rest <:+ whole := by
  rcases h with rfl | ⟨front, -, rfl⟩
  · exact List.nil_suffix
  · exact List.suffix_append front rest

theorem LineStart.of_suffix (h : LineStart source rest) (hsource : source <:+ whole) :
    LineStart whole rest := by
  rcases h with rfl | ⟨front, hends, rfl⟩
  · exact .inl rfl
  · obtain ⟨before, rfl⟩ := hsource
    refine .inr ⟨before ++ front, ?_, by rw [List.append_assoc]⟩
    unfold EndsLine at hends ⊢
    rw [List.getLast?_append, hends, Option.some_or]

theorem lineStart_newline (rest : Source α) : LineStart (.char '\n' :: rest) rest :=
  .inr ⟨[.char '\n'], rfl, rfl⟩

theorem lineStart_skipLine (source : Source α) : LineStart source (skipLine source) := by
  fun_induction skipLine source with
  | case1 => exact .inl rfl
  | case2 rest => exact lineStart_newline rest
  | case3 symbol rest _ ih => exact ih.of_suffix (List.suffix_cons _ rest)

theorem lineStart_textLine (source : Source α) : LineStart source (textLine source).2 := by
  fun_induction textLine source with
  | case1 => exact .inl rfl
  | case2 value rest nodes after hline ih =>
    rw [hline] at ih
    exact ih.of_suffix (List.suffix_cons _ rest)
  | case3 rest => exact lineStart_newline rest
  | case4 c rest hc nodes after hline ih =>
    rw [hline] at ih
    exact ih.of_suffix ((accounts_afterWhile inLine rest).suffix.trans (List.suffix_cons _ rest))

theorem lineStart_blankLine? {lineEnd : LineEnd}
    (h : blankLine? source = some (lineEnd, rest)) : LineStart source rest := by
  have hblanks := (accounts_afterWhile isBlank source).suffix
  unfold blankLine? at h
  split at h
  · rename_i after hbreak
    obtain ⟨-, rfl⟩ := Prod.mk.inj (Option.some.inj h)
    exact (lineStart_newline after).of_suffix (hbreak ▸ hblanks)
  · split at h
    · contradiction
    · obtain ⟨-, rfl⟩ := Prod.mk.inj (Option.some.inj h)
      exact .inl rfl
  · contradiction

theorem LineStart.skipBlankLines (h : LineStart whole source) :
    LineStart whole (skipBlankLines source) := by
  fun_induction Parser.skipBlankLines source with
  | case1 source lineEnd rest found ih =>
    exact ih ((lineStart_blankLine? found).of_suffix h.suffix)
  | case2 => exact h

/-! ## Comments and texts -/

theorem LineStart.skipDeeperLines (indent : Indent) (h : LineStart whole source) :
    LineStart whole (skipDeeperLines indent source) := by
  fun_induction Parser.skipDeeperLines indent source with
  | case1 source deeper rest hdeeper ih =>
    have hrest := (accounts_deeperIndent? hdeeper).suffix.trans h.suffix
    exact ih ((lineStart_skipLine rest).of_suffix hrest)
  | case2 source _ _ _ ih => exact ih ((lineStart_skipLine source).of_suffix h.suffix)
  | case3 => exact h

theorem lineStart_comment? (h : comment? indent source = some rest) : LineStart source rest := by
  unfold comment? at h
  split at h
  · rename_i line
    obtain rfl := Option.some.inj h
    have hline := (lineStart_skipLine line).skipDeeperLines indent
    exact hline.of_suffix (List.suffix_cons _ line)
  · contradiction

theorem LineStart.continuedText (indent trimmed : Indent) (h : LineStart whole source) :
    LineStart whole (continuedText indent trimmed source).2 := by
  fun_induction Parser.continuedText indent trimmed source with
  | case1 source rest nodes after hmore _ hblank ih =>
    rw [hmore] at ih
    exact ih ((lineStart_blankLine? hblank).of_suffix h.suffix)
  | case2 source rest nodes after hmore _ hblank ih =>
    rw [hmore] at ih
    exact ih ((lineStart_blankLine? hblank).of_suffix h.suffix)
  | case3 => exact h
  | case4 source _ deeper rest hdeeper line nodes after hmore ih =>
    have hrest := (accounts_deeperIndent? hdeeper).suffix.trans h.suffix
    rw [hmore] at ih
    exact ih ((lineStart_textLine rest).of_suffix hrest)

theorem lineStart_nestedText? (h : nestedText? indent source = some (nodes, rest)) :
    LineStart source rest := by
  simp only [nestedText?, Option.bind_eq_bind, Option.bind_eq_some_iff, Option.pure_def,
    Option.some.injEq, Prod.mk.injEq, Prod.exists] at h
  obtain ⟨deeper, after, hdeeper, -, rfl⟩ := h
  have hmore := (lineStart_textLine after).continuedText indent deeper
  exact hmore.of_suffix (accounts_deeperIndent? hdeeper).suffix

theorem lineStart_textBody (indent : Indent) (source : Source α) :
    LineStart source (textBody indent source).2 := by
  have hstart := (accounts_textStart indent source).suffix
  have hline := (lineStart_textLine (textStart indent source).2).of_suffix hstart
  unfold textBody
  dsimp only
  split
  · split
    · rename_i found
      exact (lineStart_nestedText? found).of_suffix hline.skipBlankLines.suffix
    · exact hline.skipBlankLines
  · exact hline.continuedText indent _

theorem lineStart_textItem? (h : textItem? indent source = some (nodes, rest)) :
    LineStart source rest := by
  unfold textItem? at h
  split at h
  · rename_i marker after
    have hbody : LineStart (.char marker :: after) _ :=
      (lineStart_textBody indent after).of_suffix (List.suffix_cons _ after)
    split at h
    · split at h
      · rename_i hfound
        obtain ⟨-, rfl⟩ := Prod.mk.inj (Option.some.inj h)
        rwa [hfound] at hbody
      · rename_i hfound
        obtain ⟨-, rfl⟩ := Prod.mk.inj (Option.some.inj h)
        rwa [hfound] at hbody
    · contradiction
  · contradiction

theorem lineStart_lineText (indent : Indent) (source : Source α) :
    LineStart source (lineText indent source).2 := by
  have hline := (lineStart_textLine source).skipBlankLines
  unfold lineText
  dsimp only
  split
  · exact hline
  · split
    · rename_i found
      exact (lineStart_nestedText? found).of_suffix hline.suffix
    · exact hline

/-! ## Control flow lines -/

theorem lineStart_endOfLine {part : LinePart} (h : endOfLine part source = .ok rest) :
    LineStart source rest := by
  unfold endOfLine at h
  split at h
  · rename_i found
    obtain rfl := Except.ok.inj h
    exact lineStart_blankLine? found
  · split at h
    · rename_i hempty
      obtain rfl := Except.ok.inj h
      exact .inl (List.isEmpty_iff.mp hempty)
    · contradiction

theorem lineStart_instructionRest {word : String} {found : Instruction α}
    (h : instructionRest word source = .ok (found, rest)) : LineStart source rest := by
  have hblank := (accounts_afterWhile isBlank source).suffix
  unfold instructionRest at h
  split at h
  · unfold ifLine at h
    split at h
    · contradiction
    · rename_i condition after hslot
      obtain ⟨behind, hend, h⟩ := of_bind_ok h
      obtain ⟨-, rfl⟩ := Prod.mk.inj (Except.ok.inj h)
      exact (lineStart_endOfLine hend).of_suffix ((accounts_slot? hslot).suffix.trans hblank)
  · unfold forLine at h
    split at h
    · contradiction
    · rename_i hname
      split at h
      · contradiction
      · rename_i hof
        split at h
        · contradiction
        · rename_i hslot
          obtain ⟨behind, hend, h⟩ := of_bind_ok h
          obtain ⟨-, rfl⟩ := Prod.mk.inj (Except.ok.inj h)
          have hslot := (accounts_slot? hslot).suffix.trans (accounts_ofMark? hof).suffix
          have hname := (accounts_run? hname).suffix.trans hblank
          exact (lineStart_endOfLine hend).of_suffix (hslot.trans hname)
  · contradiction

/-! ## What a production leaves -/

/-- What a production leaves begins a line, if the production has begun one itself where it may read
nothing. -/
theorem Reads.lineStart {production : Production}
    (h : Reads production indent source nodes rest) (hsource : source <:+ whole)
    (hopens : production ∈ [.children, .otherwise, .siblings] → LineStart whole source) :
    LineStart whole rest := by
  induction h with
  | comment hcomment => exact (lineStart_comment? hcomment).of_suffix hsource
  | text _ htext => exact (lineStart_textItem? htext).of_suffix hsource
  | elementItem _ _ _ ih => exact ih hsource (by simp)
  | instructionItem _ _ _ _ ih => exact ih hsource (by simp)
  | blankLine _ _ _ _ hblank => exact (lineStart_blankLine? hblank).of_suffix hsource
  | element hnaming hopening _ ih =>
    obtain ⟨_, hheader, -⟩ := accounts_openingRest hopening
    have hinner := hheader.suffix.trans (accounts_naming hnaming).suffix
    exact ih (hinner.trans hsource) (by simp)
  | @expansion _ source _ _ _ hcolon _ ih =>
    have hinner := (accounts_expansion? hcolon).suffix.trans (accounts_skipOneBlank source).suffix
    exact ih (hinner.trans hsource) (by simp)
  | @lineText indent source _ _ _ hline =>
    have hblank := (accounts_skipOneBlank source).suffix.trans hsource
    have hends := lineStart_lineText indent (skipOneBlank source)
    rw [hline] at hends
    exact hends.of_suffix hblank
  | @lower indent source _ _ _ _ hline _ ih =>
    have hblank := (accounts_skipOneBlank source).suffix.trans hsource
    have hends := lineStart_lineText indent (skipOneBlank source)
    rw [hline] at hends
    have hinner := hends.of_suffix hblank
    exact ih hinner.suffix fun _ => hinner
  | childless => exact (hopens (by simp)).skipBlankLines
  | deeper hdeeper _ ih =>
    have hstart := (hopens (by simp)).skipBlankLines
    exact ih ((accounts_deeperIndent? hdeeper).suffix.trans hstart.suffix) (by simp)
  | noBlock _ hblock => exact .inl (of_block_none hblock)
  | ifThen hname hline _ _ ihthen ihelse =>
    have hstart := (accounts_instructionName hname).suffix.trans hsource
    have hinner := (lineStart_instructionRest hline).of_suffix hstart
    have hafter := ihthen hinner.suffix fun _ => hinner
    exact ihelse hafter.suffix fun _ => hafter
  | forEach hname hline _ ih =>
    have hstart := (accounts_instructionName hname).suffix.trans hsource
    have hinner := (lineStart_instructionRest hline).of_suffix hstart
    exact ih hinner.suffix fun _ => hinner
  | noElse => exact hopens (by simp)
  | elseMark hmark hend _ ih =>
    have hstart := (accounts_elseMark? hmark).suffix.trans hsource
    have hinner := (lineStart_endOfLine hend).of_suffix hstart
    exact ih hinner.suffix fun _ => hinner
  | outside => exact hopens (by simp)
  | noItem => exact hopens (by simp)
  | sibling hindent _ _ _ ihitem ihmore =>
    have hinner := ihitem ((accounts_literal? hindent).suffix.trans hsource) (by simp)
    exact ihmore hinner.suffix fun _ => hinner
  | block _ _ ihitem ihmore =>
    have hinner := ihitem hsource (by simp)
    exact ihmore hinner.suffix fun _ => hinner

end

/-! ## Calls -/

/-- A call of a production. -/
structure Call (α : Type) where
  production : Production
  indent : Indent
  source : Source α

/-- A call makes another call on its way, whether or not it comes to a result itself. -/
inductive Call.Makes : Call α → Call α → Prop
  | elementItem {indent : Indent} {source : Source α} :
      comment? indent source = none → textItem? indent source = none →
        Makes ⟨.item, indent, source⟩ ⟨.element, indent, source⟩
  | instructionItem {indent : Indent} {source : Source α} :
      comment? indent source = none → textItem? indent source = none →
        element indent source = .ok none →
          Makes ⟨.item, indent, source⟩ ⟨.instruction, indent, source⟩
  | element {indent : Indent} {source start inner : Source α} {named : Naming α}
      {opening : Opening α} :
      naming source = .ok (some (named, start)) → openingRest named start = .ok (opening, inner) →
        Makes ⟨.element, indent, source⟩ ⟨.content, indent, inner⟩
  | expansion {indent : Indent} {source inner : Source α} :
      expansion? (skipOneBlank source) = some inner →
        Makes ⟨.content, indent, source⟩ ⟨.element, indent, inner⟩
  | lower {indent : Indent} {source inner : Source α} :
      expansion? (skipOneBlank source) = none →
        lineText indent (skipOneBlank source) = (none, inner) →
          Makes ⟨.content, indent, source⟩ ⟨.children, indent, inner⟩
  | deeper {indent deeper : Indent} {source inner : Source α} :
      deeperIndent? indent (skipBlankLines source) = some (deeper, inner) →
        Makes ⟨.children, indent, source⟩ ⟨.block, deeper, inner⟩
  | instruction {indent : Indent} {source start inner : Source α} {word : String}
      {found : Instruction α} :
      instructionName source = .ok (some (word, start)) →
        instructionRest word start = .ok (found, inner) →
          Makes ⟨.instruction, indent, source⟩ ⟨.children, indent, inner⟩
  | otherwise {indent : Indent} {source start inner after : Source α} {word : String}
      {condition : α} {nodes : List (Node α)} :
      instructionName source = .ok (some (word, start)) →
        instructionRest word start = .ok (.ifThen condition, inner) →
          children indent inner = .ok (nodes, after) →
            Makes ⟨.instruction, indent, source⟩ ⟨.otherwise, indent, after⟩
  | elseMark {indent : Indent} {source start inner : Source α} :
      elseMark? indent source = some start → endOfLine .elseMark start = .ok inner →
        Makes ⟨.otherwise, indent, source⟩ ⟨.children, indent, inner⟩
  | sibling {indent : Indent} {source start : Source α} :
      literal? indent source = some start → charsWhile isBlank start = [] →
        Makes ⟨.siblings, indent, source⟩ ⟨.item, indent, start⟩
  | siblings {indent : Indent} {source start inner : Source α} {nodes : List (Node α)} :
      literal? indent source = some start → charsWhile isBlank start = [] →
        item indent start = .ok (some (nodes, inner)) →
          Makes ⟨.siblings, indent, source⟩ ⟨.siblings, indent, inner⟩
  | first {indent : Indent} {source : Source α} :
      Makes ⟨.block, indent, source⟩ ⟨.item, indent, source⟩
  | later {indent : Indent} {source inner : Source α} {nodes : List (Node α)} :
      item indent source = .ok (some (nodes, inner)) →
        Makes ⟨.block, indent, source⟩ ⟨.siblings, indent, inner⟩

/-- The call that the parsing of a source begins with. -/
def Call.start (source : Source α) : Call α :=
  ⟨.block, baseIndent source, firstItem source⟩

/-- A call is made while a source is parsed. -/
def Call.MadeFor (source : Source α) (call : Call α) : Prop :=
  Relation.ReflTransGen Call.Makes (Call.start source) call

/-- What is looked for is looked for by a call. -/
theorem Visits.makes {production : Production} {indent : Indent} {source place : Source α}
    (h : Visits production indent source place) :
    ∃ inner, Relation.ReflTransGen Call.Makes ⟨production, indent, source⟩
      ⟨.item, inner, place⟩ := by
  induction h with
  | here => exact ⟨_, .refl⟩
  | elementItem hcomment htext _ ih => exact ih.imp fun _ => .head (.elementItem hcomment htext)
  | instructionItem hcomment htext helement _ ih =>
    exact ih.imp fun _ => .head (.instructionItem hcomment htext helement)
  | element hnaming hopening _ ih => exact ih.imp fun _ => .head (.element hnaming hopening)
  | expansion hcolon _ ih => exact ih.imp fun _ => .head (.expansion hcolon)
  | lower hcolon hline _ ih => exact ih.imp fun _ => .head (.lower hcolon hline)
  | deeper hdeeper _ ih => exact ih.imp fun _ => .head (.deeper hdeeper)
  | thenBranch hname hline _ ih | forEach hname hline _ ih =>
    exact ih.imp fun _ => .head (.instruction hname hline)
  | elseBranch hname hline hthen _ ih =>
    exact ih.imp fun _ => .head (.otherwise hname hline hthen.gives)
  | elseMark hmark hend _ ih => exact ih.imp fun _ => .head (.elseMark hmark hend)
  | sibling hindent hchars _ ih => exact ih.imp fun _ => .head (.sibling hindent hchars)
  | siblings hindent hchars hitem _ ih =>
    exact ih.imp fun _ => .head (.siblings hindent hchars hitem.gives)
  | first _ ih => exact ih.imp fun _ => .head .first
  | later hitem _ ih => exact ih.imp fun _ => .head (.later hitem.gives)

/-- Every item in the log of a source is looked for by a call. -/
theorem exists_call {source place : Source α}
    (h : ⟨.item, place⟩ ∈ (Traced.document source).events) :
    ∃ indent, Call.MadeFor source ⟨.item, indent, place⟩ := by
  rw [log_document] at h
  exact (visits_block h).makes

/-! ## What stands in front of a call -/

/-- A call comes to the front of an item, or of a line that is not blank. -/
structure Call.Ready (whole : Source α) (call : Call α) : Prop where
  suffix : call.source <:+ whole
  blank : ∀ c ∈ call.indent, isBlank c = true
  notBlank : call.production ∈ [.item, .otherwise, .siblings, .block] →
    blankLine? call.source = none
  lineStart : call.production ∈ [.children, .otherwise, .siblings] →
    LineStart whole call.source

/-- What is left of a source begins a line, and that line is not blank. -/
structure CleanEnd (whole rest : Source α) : Prop where
  lineStart : LineStart whole rest
  notBlank : blankLine? rest = none

section

variable {whole : Source α} {call next : Call α}

theorem Call.Ready.cleanEnd (h : call.Ready whole) {nodes : List (Node α)} {rest : Source α}
    (hreads : Reads call.production call.indent call.source nodes rest) : CleanEnd whole rest :=
  ⟨hreads.lineStart h.suffix h.lineStart, hreads.notBlank h.blank h.notBlank⟩

/-- A call that begins behind a clean end. -/
theorem CleanEnd.ready {production : Production} {indent : Indent} {source : Source α}
    (h : CleanEnd whole source) (hblank : ∀ c ∈ indent, isBlank c = true) :
    Call.Ready whole ⟨production, indent, source⟩ :=
  ⟨h.lineStart.suffix, hblank, fun _ => h.notBlank, fun _ => h.lineStart⟩

theorem LineStart.ready {indent : Indent} {source : Source α}
    (h : LineStart whole source) (hblank : ∀ c ∈ indent, isBlank c = true) :
    Call.Ready whole ⟨.children, indent, source⟩ :=
  ⟨h.suffix, hblank, by simp, fun _ => h⟩

namespace Call.Ready

variable {indent : Indent} {source start inner : Source α} {nodes : List (Node α)}

theorem sibling (h : Ready whole ⟨.siblings, indent, source⟩)
    (hindent : literal? indent source = some start) : Ready whole ⟨.item, indent, start⟩ := by
  have hline := h.notBlank (by simp)
  rw [literal?_eq_some.mp hindent] at hline
  exact ⟨(accounts_literal? hindent).suffix.trans h.suffix, h.blank,
    fun _ => notBlank_of_blanks h.blank hline, by simp⟩

theorem first (h : Ready whole ⟨.block, indent, source⟩) : Ready whole ⟨.item, indent, source⟩ :=
  ⟨h.suffix, h.blank, fun _ => h.notBlank (by simp), by simp⟩

/-- Behind an item its siblings are ready. -/
theorem siblings (h : Ready whole ⟨.item, indent, source⟩)
    (hitem : item indent source = .ok (some (nodes, inner))) :
    Ready whole ⟨.siblings, indent, inner⟩ :=
  (h.cleanEnd (reads_item hitem)).ready h.blank

end Call.Ready

/-- Whatever call is ready, so are the calls that it makes. -/
theorem Call.Makes.ready (h : call.Makes next) (hcall : call.Ready whole) : next.Ready whole := by
  have hsource := hcall.suffix
  have hblank := hcall.blank
  cases h with
  | elementItem | instructionItem => exact ⟨hsource, hblank, by simp, by simp⟩
  | element hnaming hopening =>
    obtain ⟨_, hheader, -⟩ := accounts_openingRest hopening
    have hinner := hheader.suffix.trans (accounts_naming hnaming).suffix
    exact ⟨hinner.trans hsource, hblank, by simp, by simp⟩
  | @expansion _ source _ hcolon =>
    have hinner := (accounts_expansion? hcolon).suffix.trans (accounts_skipOneBlank source).suffix
    exact ⟨hinner.trans hsource, hblank, by simp, by simp⟩
  | @lower indent source _ _ hline =>
    have hends := lineStart_lineText indent (skipOneBlank source)
    rw [hline] at hends
    exact (hends.of_suffix ((accounts_skipOneBlank source).suffix.trans hsource)).ready hblank
  | deeper hdeeper =>
    have hstart := (hcall.lineStart (by simp)).skipBlankLines
    obtain ⟨hdeep, hinner⟩ := notBlank_deeper (blankLine?_skipBlankLines _) hblank hdeeper
    exact ⟨(accounts_deeperIndent? hdeeper).suffix.trans hstart.suffix, hdeep, fun _ => hinner,
      by simp⟩
  | instruction hname hline =>
    have hbehind := (accounts_instructionName hname).suffix.trans hsource
    exact ((lineStart_instructionRest hline).of_suffix hbehind).ready hblank
  | otherwise hname hline hthen =>
    have hbehind := (accounts_instructionName hname).suffix.trans hsource
    have hinner := (lineStart_instructionRest hline).of_suffix hbehind
    exact ((hinner.ready hblank).cleanEnd (reads_children hthen)).ready hblank
  | elseMark hmark hend =>
    have hbehind := (accounts_elseMark? hmark).suffix.trans hsource
    exact ((lineStart_endOfLine hend).of_suffix hbehind).ready hblank
  | sibling hindent => exact hcall.sibling hindent
  | siblings hindent _ hitem => exact (hcall.sibling hindent).siblings hitem
  | first => exact hcall.first
  | later hitem => exact hcall.first.siblings hitem

theorem ready_start (source : Source α) : (Call.start source).Ready source := by
  have hblank : ∀ c ∈ baseIndent source, isBlank c = true := fun c hc => of_mem_charsWhile hc
  have hline := blankLine?_skipBlankLines source
  rw [← charsWhile_append_afterWhile isBlank (skipBlankLines source)] at hline
  exact ⟨(accounts_afterWhile isBlank _).suffix.trans (accounts_skipBlankLines source).suffix,
    hblank, fun _ => notBlank_of_blanks hblank hline, by simp [Call.start]⟩

/-- Every call that is made for a source is ready. -/
theorem Call.MadeFor.ready (h : call.MadeFor whole) : call.Ready whole := by
  induction h with
  | refl => exact ready_start whole
  | tail _ hmakes ih => exact hmakes.ready ih

/-! ## Where a block ends -/

variable {indent : Indent} {source start rest : Source α} {nodes : List (Node α)}

/-- Where no item follows an indent, the indent is empty, and so is the input. -/
theorem Call.Ready.nothing_left (h : Call.Ready whole ⟨.siblings, indent, source⟩)
    (hindent : literal? indent source = some start) (hitem : item indent start = .ok none) :
    indent = [] ∧ source = [] := by
  obtain rfl := of_item_none hitem
  obtain rfl := literal?_eq_some.mp hindent
  cases indent with
  | nil => exact ⟨rfl, rfl⟩
  | cons c indent =>
    -- blanks up to the end of the input would be a blank line
    have hline : blankLine? (ofChars (c :: indent) ++ ([] : Source α)) = none :=
      h.notBlank (by simp)
    have hafter : afterWhile isBlank (ofChars (c :: indent) ++ ([] : Source α)) = [] :=
      afterWhile_ofChars h.blank []
    unfold blankLine? at hline
    rw [hafter] at hline
    contradiction

/-- A block ends with the input, or where its indent is not. -/
theorem Reads.ended {production : Production}
    (h : Reads production indent source nodes rest)
    (hcall : Call.Ready whole ⟨production, indent, source⟩)
    (hproduction : production ∈ [.siblings, .block]) : rest = [] ∨ literal? indent rest = none := by
  induction h with
  | outside hindent => exact .inr hindent
  | noItem hindent hitem => exact .inl (hcall.nothing_left hindent hitem).2
  | sibling hindent _ hitem _ _ ih =>
    exact ih ((hcall.sibling hindent).siblings hitem.gives) (by simp)
  | block hitem _ _ ih => exact ih (hcall.first.siblings hitem.gives) (by simp)
  | _ => simp at hproduction

end

/-- What does not begin with the indent of the document is malformed. -/
theorem leftover_of_outside {base : Indent} {rest : Source α}
    (hbase : ∀ c ∈ base, isBlank c = true) (h : literal? base rest = none) :
    leftover base rest = ⟨.malformedIndent, afterWhile isBlank rest⟩ := by
  have hfront : ¬ base <+: charsWhile isBlank rest := by
    rintro ⟨gap, hgap⟩
    have hrest := charsWhile_append_afterWhile isBlank rest
    rw [← hgap, Source.ofChars_append, List.append_assoc] at hrest
    rw [← hrest, literal?_append] at h
    contradiction
  have hcompare : Indent.compare (charsWhile isBlank rest) base = .shallower ∨
      Indent.compare (charsWhile isBlank rest) base = .incomparable := by
    apply Indent.compare_of_not_front
    rwa [Indent.leading_of_blank hbase, Indent.leading_of_blank fun c hc => of_mem_charsWhile hc]
  unfold leftover
  rcases hcompare with hcompare | hcompare <;> rw [hcompare]

/-- Input left over behind a document is malformed. -/
theorem document_of_leftover {source rest : Source α} {nodes : List (Node α)}
    (h : block (baseIndent source) (firstItem source) = .ok (some (nodes, rest)))
    (hrest : rest ≠ []) :
    document source = .error ⟨.malformedIndent, afterWhile isBlank rest⟩ := by
  have hstart := ready_start source
  have hended := (reads_block h).ended hstart (by simp)
  have hleftover := leftover_of_outside hstart.blank (hended.resolve_left hrest)
  have hempty : rest.isEmpty = false := by simp [hrest]
  rw [document_eq, h]
  show finish (baseIndent source) nodes rest = _
  rw [finish, hempty, ← hleftover]
  rfl

theorem document_ne_leftoverInput {source : Source α} {failure : Failure α}
    (h : document source = .error failure) : failure.cause ≠ .leftoverInput := by
  rcases of_document_error h with hblock | ⟨nodes, rest, hblock, hfinish⟩
  · exact (block_failsInside _ _ _ hblock).2
  · by_cases hrest : rest = []
    · subst hrest
      contradiction
    · rw [document_of_leftover hblock hrest] at h
      obtain rfl := Except.error.inj h
      exact Cause.noConfusion

/-- No other cause is worded like this one. -/
theorem eq_leftoverInput_of_message {cause : Cause}
    (h : cause.message = "incomparable indent found") : cause = .leftoverInput := by
  have hfront : ∀ front back : String, front ++ back = "incomparable indent found" →
      front.toList <+: "incomparable indent found".toList := fun front back h =>
    ⟨back.toList, by rw [← String.toList_append, h]⟩
  cases cause with
  | leftoverInput => rfl
  | newlineExpected part => cases part <;> exact absurd h (by decide)
  | identifierExpected mark => exact absurd (hfront "ident expected after " _ h) (by decide)
  | unknownInstruction word => exact absurd (hfront "invalid instruction: " _ h) (by decide)
  | _ => exact absurd h (by decide)

/-- **Items end cleanly.** Whatever item is read while a source is parsed, it leaves the front of a
line that is not blank, or nothing. So no item is looked for on a blank line, no indent is put back
that is not empty, and what is left over behind a document is always malformed. -/
theorem items_end_cleanly (source : Source α) :
    (∀ indent place nodes rest, Call.MadeFor source ⟨.item, indent, place⟩ →
      item indent place = .ok (some (nodes, rest)) → CleanEnd source rest) ∧
    (∀ place, ⟨.item, place⟩ ∈ (Traced.document source).events →
      ∃ indent, Call.MadeFor source ⟨.item, indent, place⟩) ∧
    (∀ indent place, Call.MadeFor source ⟨.item, indent, place⟩ → blankLine? place = none) ∧
    (∀ indent place start, Call.MadeFor source ⟨.siblings, indent, place⟩ →
      literal? indent place = some start → item indent start = .ok none → indent = []) ∧
    (∀ nodes rest, block (baseIndent source) (firstItem source) = .ok (some (nodes, rest)) →
      rest ≠ [] → parse source =
        .error (Failure.locate source ⟨.malformedIndent, afterWhile isBlank rest⟩)) ∧
    (∀ error, parse source = .error error → error.cause.message ≠ "incomparable indent found") := by
  refine ⟨fun indent place nodes rest hcall hitem => hcall.ready.cleanEnd (reads_item hitem),
    fun place => exists_call, fun indent place hcall => hcall.ready.notBlank (by simp),
    fun indent place start hcall hindent hitem => (hcall.ready.nothing_left hindent hitem).1,
    fun nodes rest hblock hrest => ?_, fun error herror hmessage => ?_⟩
  · rw [parse, document_of_leftover hblock hrest]
    rfl
  · obtain ⟨failure, hfailure, rfl⟩ := parse_eq_error.mp herror
    exact document_ne_leftoverInput hfailure (eq_leftoverInput_of_message hmessage)

/-- A list with a comment in it, two blank lines and a paragraph. -/
def loose : Source Nat :=
  Source.ofText "ul\n  / x\n\n  li a\n  \n\np"

theorem items_end_cleanly_loose :
    ∃ nodes, item [] loose = .ok (some (nodes, Source.ofText "p")) ∧
      CleanEnd loose (Source.ofText "p") := by
  have hstart : (baseIndent loose, firstItem loose) = ([], loose) := by decide +kernel
  have hread : (item [] loose).toOption.map (·.map Prod.snd) =
      some (some (Source.ofText "p")) := by
    decide +kernel
  obtain ⟨hbase, hfirst⟩ := Prod.mk.inj hstart
  have hcall : Call.MadeFor loose ⟨.item, baseIndent loose, firstItem loose⟩ := .single .first
  rw [hbase, hfirst] at hcall
  cases hitem : item [] loose with
  | error failure =>
    rw [hitem] at hread
    contradiction
  | ok found =>
    rw [hitem] at hread
    obtain ⟨⟨nodes, rest⟩, rfl, rfl⟩ := Option.map_eq_some_iff.mp (Option.some.inj hread)
    exact ⟨nodes, rfl, (items_end_cleanly loose).1 [] loose nodes _ hcall hitem⟩

end Parser

end IndentMarkup

import IndentMarkup.Proofs.Logged
import IndentMarkup.Proofs.ProlongedLines

/-! Parsing is compositional. Behind complete lines more lines may follow: every production then
reads the same nodes as before and stops at the first further line that is not blank, provided that
this line stands at the indent of the document and is no `else`. Only the outermost row of items
goes on there, so the document of both parts has the children of the one and those of the other.

A last line that is not complete may take its line break from what follows. It is read in the same
way, but for an apostrophe at the end of the input, whose space is lost. -/
namespace IndentMarkup

open Text (isBlank)
open Source (ofChars)

variable {α : Type}

/-! ## The number of texts -/

mutual

def Node.texts : Node α → Nat
  | .element _ children => Node.textsOfAll children
  | .text _ => 1
  | .newLine | .slot _ => 0
  | .ifBlock _ thenBranch elseBranch => Node.textsOfAll thenBranch + Node.textsOfAll elseBranch
  | .forBlock _ _ body => Node.textsOfAll body

def Node.textsOfAll : List (Node α) → Nat
  | [] => 0
  | node :: rest => Node.texts node + Node.textsOfAll rest

end

def Document.texts (document : Document α) : Nat :=
  Node.textsOfAll document.children

theorem Node.textsOfAll_append (front back : List (Node α)) :
    Node.textsOfAll (front ++ back) = Node.textsOfAll front + Node.textsOfAll back := by
  induction front with
  | nil => simp [Node.textsOfAll]
  | cons node front ih => simp [Node.textsOfAll, ih, Nat.add_assoc]

namespace Parser

variable {indent : Indent} {source start rest tail : Source α} {nodes : List (Node α)}

/-! ## Where there is no item -/

theorem Reads.item_ne_nil (h : Reads .item indent source nodes rest) : source ≠ [] := by
  rintro rfl
  cases h with
  | comment hcomment => contradiction
  | text _ htext => contradiction
  | elementItem _ _ helement =>
    cases helement with
    | element hnaming => exact absurd (length_of_naming hnaming) (Nat.not_lt_zero _)
  | instructionItem _ _ _ hinstruction =>
    cases hinstruction with
    | ifThen hname => exact absurd (length_of_instructionName hname) (Nat.not_lt_zero _)
    | forEach hname => exact absurd (length_of_instructionName hname) (Nat.not_lt_zero _)
  | blankLine _ _ _ _ hblank => contradiction

/-! ## Apostrophes at the end of the input -/

def Event.isBare (event : Event α) : Bool :=
  decide (event.kind = .textItem) && bareApostrophe event.rest

/-- How many apostrophes a production reads at the end of the input. -/
def Production.bares (indent : Indent) (source : Source α) (production : Production) : Nat :=
  (production.log indent source).countP Event.isBare

theorem not_bareApostrophe (h : EndsLine source) : bareApostrophe source = false := by
  unfold bareApostrophe
  split
  · simp [EndsLine] at h
  · simp [EndsLine] at h
  · rfl

/-- There are none where the last line is complete. -/
theorem Within.not_bare {events : List (Event α)} (h : Within source events)
    (hends : EndsLine source) : events.countP Event.isBare = 0 := by
  refine List.countP_eq_zero.mpr fun event hevent hbare => ?_
  have happostrophe : bareApostrophe event.rest = true := (Bool.and_eq_true_iff.mp hbare).2
  have hne : event.rest ≠ [] := by
    intro hnil
    rw [hnil] at happostrophe
    contradiction
  rw [not_bareApostrophe (hends.of_suffix (h event hevent) hne)] at happostrophe
  contradiction

/-- Nodes that have lost `count` texts, and nothing else. -/
structure Shorn (count : Nat) (before after : List (Node α)) : Prop where
  same : count = 0 → after = before
  texts : Node.textsOfAll after + count = Node.textsOfAll before

namespace Shorn

variable {count other : Nat} {before after first last : List (Node α)}

theorem refl (nodes : List (Node α)) : Shorn 0 nodes nodes :=
  ⟨fun _ => rfl, rfl⟩

theorem append (h : Shorn count before after) (hmore : Shorn other first last) :
    Shorn (count + other) (before ++ first) (after ++ last) := by
  refine ⟨fun hnone => ?_, ?_⟩
  · rw [h.same (by omega), hmore.same (by omega)]
  · have := h.texts
    have := hmore.texts
    simp only [Node.textsOfAll_append]
    omega

theorem opening (h : Shorn count before after) (written : Opening α) :
    Shorn count (written.nodes before) (written.nodes after) := by
  refine ⟨fun hnone => by rw [h.same hnone], ?_⟩
  have := h.texts
  simp only [Opening.nodes, Node.textsOfAll_append, Node.textsOfAll, Node.texts]
  omega

theorem ifBlock (h : Shorn count before after) (helse : Shorn other first last) (condition : α) :
    Shorn (count + other) [.ifBlock condition before first] [.ifBlock condition after last] := by
  refine ⟨fun hnone => ?_, ?_⟩
  · rw [h.same (by omega), helse.same (by omega)]
  · have := h.texts
    have := helse.texts
    simp only [Node.textsOfAll, Node.texts]
    omega

theorem forBlock (h : Shorn count before after) (variableName : String) (iterable : α) :
    Shorn count [.forBlock variableName iterable before]
      [.forBlock variableName iterable after] := by
  refine ⟨fun hnone => by rw [h.same hnone], ?_⟩
  have := h.texts
  simp only [Node.textsOfAll, Node.texts]
  omega

end Shorn

/-- A text item has lost its space if it is such an apostrophe. -/
theorem shorn_textItem (hbare : bareApostrophe source = true → nodes = [.text " "]) :
    Shorn ([⟨.item, source⟩, ⟨.textItem, source⟩].countP Event.isBare) nodes
      (if bareApostrophe source then [] else nodes) := by
  cases happostrophe : bareApostrophe source with
  | false =>
    have hnone : [(⟨.item, source⟩ : Event α), ⟨.textItem, source⟩].countP Event.isBare = 0 := by
      simp [Event.isBare, happostrophe]
    rw [hnone]
    exact .refl nodes
  | true =>
    have hone : [(⟨.item, source⟩ : Event α), ⟨.textItem, source⟩].countP Event.isBare = 1 := by
      simp [Event.isBare, happostrophe]
    rw [hone, hbare happostrophe]
    exact ⟨fun hnone => by contradiction, rfl⟩

/-! ## One production after another -/

/-- Where a production begins when a line ends between its input and further input: an item behind
its indent, a row of further items and the look for an `else` at the front of a line. -/
def Opens (source tail : Source α) : Production → Prop
  | .item | .block => LineBetween source tail ∧ BeginsItem source
  | .element | .content | .instruction => LineBetween source tail
  | .children => WholeLines source tail
  | .otherwise | .siblings => AtLine source tail

/-- What a production reads when more lines follow, with the blank lines in front of these lines.
A block may be looked for behind any of the blank lines above it, and a row of items goes on with
the siblings it finds. -/
def Continues (tail : Source α) (indent : Indent) (source : Source α) (nodes : List (Node α))
    (rest : Source α) : Production → Prop
  | .children =>
    ∀ inner, skipBlankLines inner = joined source tail →
      Reads .children indent inner nodes (joined rest tail)
  | .otherwise => Reads .otherwise indent (joined source tail) nodes (joined rest tail)
  | .siblings =>
    (rest ≠ [] → literal? indent rest = none) ∧
      ∀ more last, Reads .siblings indent (joined rest tail) more last →
        Reads .siblings indent (joined source tail) (nodes ++ more) last
  | .block =>
    (rest ≠ [] → literal? indent rest = none) ∧
      ∀ more last, Reads .siblings indent (joined rest tail) more last →
        Reads .block indent (source ++ tail) (nodes ++ more) last
  | production => Reads production indent (source ++ tail) nodes (joined rest tail)

/-- More lines may follow that do not belong to what stands at an indent. -/
structure Parted (indent : Indent) (tail : Source α) : Prop where
  blank : ∀ c ∈ indent, isBlank c = true
  beyond : Beyond indent (skipBlankLines tail)

namespace Parted

theorem noBreak (h : Parted indent tail) : '\n' ∉ indent := by
  intro hmem
  have := h.blank _ hmem
  contradiction

theorem ends (h : Parted indent tail) : Ends indent (skipBlankLines tail) :=
  h.beyond.toEnds

/-- They do not belong to a deeper block either. -/
theorem below (h : Parted indent tail) (gap : Gap) : Parted (indent ++ gap.chars) tail := by
  let outer : Blanks := ⟨indent, h.blank⟩
  have hends : Ends outer.chars (skipBlankLines tail) := h.ends
  exact ⟨(outer.below gap).blank, (hends.beyondBlock gap).toBeyond⟩

theorem noComment (h : Parted indent tail) (hsource : LineBetween source tail)
    (hcomment : comment? indent source = none) : comment? indent (source ++ tail) = none := by
  rw [(comment?_prolong tail h.noBreak h.ends hsource).1, hcomment]
  rfl

theorem lineText (h : Parted indent tail) (hsource : LineBetween source tail)
    {found : Option (List (Node α))}
    (hline : Parser.lineText indent (skipOneBlank source) = (found, rest)) :
    Parser.lineText indent (skipOneBlank (source ++ tail)) = (found, joined rest tail) ∧
      AtLine rest tail := by
  obtain ⟨hskip, hstart⟩ := skipOneBlank_prolong tail hsource
  obtain ⟨htext, hat⟩ := lineText_prolong tail h.noBreak h.ends hstart
  rw [hline] at htext hat
  exact ⟨hskip ▸ htext, hat⟩

/-- The next line that is not blank is deeper where it was. -/
theorem look (h : Parted indent tail) (hsource : WholeLines source tail) :
    deeperIndent? indent (joined source tail) =
      (deeperIndent? indent (skipBlankLines source)).map (prolong tail) := by
  obtain ⟨hskip, hat⟩ := skipBlankLines_prolong tail hsource
  rw [joined, hskip, hat.look_deeper tail h.noBreak h.ends]

/-- A deeper block has no more siblings there. -/
theorem outside (h : Parted indent tail) (gap : Gap) (hrest : AtLine rest tail)
    (houtside : rest ≠ [] → literal? (indent ++ gap.chars) rest = none) :
    literal? (indent ++ gap.chars) (joined rest tail) = none := by
  by_cases hne : rest = []
  · subst hne
    exact h.ends.literal?_gap gap.nonempty gap.blank
  · obtain ⟨hbetween, hjoined⟩ := hrest.joined tail hne
    rw [hjoined, literal?_prolong tail hbetween (h.below gap).noBreak, houtside hne]
    rfl

end Parted

/-- The block below a line begins with an item, behind a gap. -/
theorem opens_deeper {deeper : Indent} {inner : Source α} (hparted : Parted indent tail)
    (h : WholeLines source tail)
    (hdeeper : deeperIndent? indent (skipBlankLines source) = some (deeper, inner)) :
    (∃ gap : Gap, deeper = indent ++ gap.chars) ∧ Opens inner tail .block := by
  have hat := (skipBlankLines_prolong tail h).2
  have hbetween := hat.wholeLines.lineBetween_of_deeper tail hdeeper
  obtain ⟨gap, rfl, hsource, hstops⟩ := of_deeperIndent? hdeeper
  have hne : skipBlankLines source ≠ [] := by
    intro hnil
    rw [hnil, deeperIndent?_nil] at hdeeper
    contradiction
  exact ⟨⟨gap, rfl⟩, hbetween.of_deeperIndent? tail hparted.noBreak hdeeper,
    beginsItem_of_line (hparted.below gap).blank hstops hsource hat.notBlank hne⟩

/-- A further item begins behind the indent of its block. -/
theorem opens_sibling (hparted : Parted indent tail) (h : AtLine source tail)
    (hindent : literal? indent source = some start) (hchars : charsWhile isBlank start = [])
    (hne : start ≠ []) : source ≠ [] ∧ Opens start tail .item := by
  have hsource := literal?_eq_some.mp hindent
  have hnonempty : source ≠ [] := by
    rw [hsource]
    exact List.append_ne_nil_of_right_ne_nil _ hne
  have hbetween := h.wholeLines.resolve_left hnonempty
  have hstops : Stops isBlank start := by
    have hstart := charsWhile_append_afterWhile isBlank start
    rw [hchars, Source.ofChars_nil, List.nil_append] at hstart
    exact hstart ▸ stops_afterWhile isBlank start
  exact ⟨hnonempty, hbetween.of_literal? hparted.noBreak hindent,
    beginsItem_of_line hparted.blank hstops hsource h.notBlank hnonempty⟩

/-- A production goes on in the same way, but for the apostrophes at the end of the input, and stops
at the front of a line. -/
theorem Reads.continues {production : Production} (h : Reads production indent source nodes rest)
    (hparted : Parted indent tail) (hopens : Opens source tail production) :
    AtLine rest tail ∧ ∃ found, Shorn (production.bares indent source) nodes found ∧
      Continues tail indent source found rest production := by
  induction h with
  | comment hcomment =>
    obtain ⟨hsame, hat⟩ := comment?_prolong tail hparted.noBreak hparted.ends hopens.1
    rw [hcomment] at hsame
    rw [Production.bares, log_item_comment hcomment]
    exact ⟨hat _ hcomment, [], .refl [], .comment hsame⟩
  | text hcomment htext =>
    obtain ⟨hat, hsame, hbare⟩ := textItem?_prolong tail hparted.noBreak hparted.ends hopens.1 htext
    have hcomment' := hparted.noComment hopens.1 hcomment
    rw [Production.bares, log_item_text hcomment htext]
    exact ⟨hat, _, shorn_textItem hbare, .text hcomment' hsame⟩
  | elementItem hcomment htext helement ih =>
    obtain ⟨hat, found, hshorn, hread⟩ := ih hparted hopens.1
    rw [Production.bares, log_item_element hcomment htext helement.gives]
    have hcomment := hparted.noComment hopens.1 hcomment
    have htext := textItem?_prolong_none tail hopens.1 htext
    exact ⟨hat, found, hshorn, .elementItem hcomment htext hread⟩
  | instructionItem hcomment htext helement _ ih =>
    obtain ⟨hat, found, hshorn, hread⟩ := ih hparted hopens.1
    rw [Production.bares, log_item_instruction hcomment htext helement]
    have hcomment := hparted.noComment hopens.1 hcomment
    have htext := textItem?_prolong_none tail hopens.1 htext
    have hnaming := (naming_prolong tail hopens.1 (of_element_none helement)).1
    exact ⟨hat, found, hshorn, .instructionItem hcomment htext (element_of_naming hnaming) hread⟩
  | blankLine _ _ _ _ hline =>
    rw [hopens.2.not_blank] at hline
    contradiction
  | element hnaming hopening _ ih =>
    obtain ⟨hnaming', hstart⟩ := naming_prolong tail hopens hnaming
    obtain ⟨hopening', hinner⟩ := openingRest_prolong tail (hstart _ _ rfl) hopening
    obtain ⟨hat, found, hshorn, hread⟩ := ih hparted hinner
    rw [Production.bares, log_element hnaming hopening]
    exact ⟨hat, _, hshorn.opening _, .element hnaming' hopening' hread⟩
  | expansion hcolon _ ih =>
    obtain ⟨hsame, hinner⟩ := expansion?_prolong tail hopens
    obtain ⟨hat, found, hshorn, hread⟩ := ih hparted (hinner _ hcolon)
    rw [Production.bares, log_content_expansion hcolon]
    rw [hcolon] at hsame
    exact ⟨hat, found, hshorn, .expansion hsame hread⟩
  | lineText hcolon hline =>
    obtain ⟨hsame, -⟩ := expansion?_prolong tail hopens
    obtain ⟨htext, hat⟩ := hparted.lineText hopens hline
    rw [Production.bares, log_content_lineText hcolon hline]
    rw [hcolon] at hsame
    exact ⟨hat, _, .refl _, .lineText hsame htext⟩
  | lower hcolon hline _ ih =>
    obtain ⟨hsame, -⟩ := expansion?_prolong tail hopens
    obtain ⟨htext, hat⟩ := hparted.lineText hopens hline
    obtain ⟨hrest, found, hshorn, hread⟩ := ih hparted hat.wholeLines
    rw [Production.bares, log_content_lower hcolon hline]
    rw [hcolon] at hsame
    -- the text has skipped the blank lines in front of the block already
    exact ⟨hrest, found, hshorn, .lower hsame htext (hread _ (skipBlankLines_skipBlankLines _))⟩
  | childless hdeeper =>
    obtain ⟨hskip, hat⟩ := skipBlankLines_prolong tail hopens
    have hlook := hparted.look hopens
    rw [Production.bares, log_children_none hdeeper]
    rw [hdeeper] at hlook
    refine ⟨hat, [], .refl [], fun inner hinner => ?_⟩
    rw [← hinner] at hlook
    rw [← hskip, ← joined, ← hinner]
    exact .childless hlook
  | deeper hdeeper _ ih =>
    have hlook := hparted.look hopens
    obtain ⟨⟨gap, rfl⟩, hstart⟩ := opens_deeper hparted hopens hdeeper
    obtain ⟨hrest, found, hshorn, houtside, hmore⟩ := ih (hparted.below gap) hstart
    rw [Production.bares, log_children_deeper hdeeper]
    rw [hdeeper] at hlook
    refine ⟨hrest, found, hshorn, fun inner hinner => ?_⟩
    rw [← hinner] at hlook
    -- the further lines are no siblings in this block
    have hblock := hmore [] _ (.outside (hparted.outside gap hrest houtside))
    rw [List.append_nil] at hblock
    exact .deeper hlook hblock
  | noBlock hdeeper hblock =>
    obtain ⟨-, -, hitem⟩ := opens_deeper hparted hopens hdeeper
    exact absurd (of_block_none hblock) hitem.ne_nil
  | ifThen hname hline hthen _ ihthen ihelse =>
    obtain ⟨hname', ⟨_, hline', hleaves⟩, hinner⟩ :=
      instructionLine_prolong tail hopens hname hline
    obtain ⟨hat, _, hshorn, hthen'⟩ := ihthen hparted hinner
    obtain ⟨hrest, _, hshorn', helse'⟩ := ihelse hparted hat
    have hblock := hthen' _ hleaves.skipBlankLines
    rw [Production.bares, log_ifThen hname hline hthen.gives,
      List.countP_cons_of_neg (by simp [Event.isBare]), List.countP_append]
    exact ⟨hrest, _, hshorn.ifBlock hshorn' _, .ifThen hname' hline' hblock helse'⟩
  | forEach hname hline _ ih =>
    obtain ⟨hname', ⟨_, hline', hleaves⟩, hinner⟩ :=
      instructionLine_prolong tail hopens hname hline
    obtain ⟨hrest, _, hshorn, hbody⟩ := ih hparted hinner
    rw [Production.bares, log_forEach hname hline]
    exact ⟨hrest, _, hshorn.forBlock _ _,
      .forEach hname' hline' (hbody _ hleaves.skipBlankLines)⟩
  | noElse hmark =>
    obtain ⟨hsame, -⟩ := elseMark?_prolong tail hparted.noBreak hparted.beyond.noElse hopens
    rw [Production.bares, log_otherwise_none hmark]
    rw [hmark] at hsame
    exact ⟨hopens, [], .refl [], .noElse hsame⟩
  | elseMark hmark hend _ ih =>
    obtain ⟨hsame, hstart⟩ := elseMark?_prolong tail hparted.noBreak hparted.beyond.noElse hopens
    have hstart := hstart _ hmark
    obtain ⟨_, hend', hleaves⟩ := endOfLine_prolong tail hstart hend
    obtain ⟨hrest, found, hshorn, hread⟩ :=
      ih hparted (hstart.wholeLines (accounts_endOfLine hend).suffix)
    rw [Production.bares, log_otherwise hmark hend]
    rw [hmark] at hsame
    exact ⟨hrest, found, hshorn, .elseMark hsame hend' (hread _ hleaves.skipBlankLines)⟩
  | outside hindent =>
    rw [Production.bares, log_siblings_outside hindent]
    exact ⟨hopens, [], .refl [], fun _ => hindent, fun _ _ hmore => hmore⟩
  | noItem hindent hitem =>
    obtain rfl := of_item_none hitem
    rw [Production.bares, log_siblings_nil hindent]
    refine ⟨hopens, [], .refl [], fun hne => ?_, fun _ _ hmore => hmore⟩
    -- nothing but the indent would be left, and the line would be blank
    have hitem := beginsItem_of_line hparted.blank (stops_nil isBlank)
      (literal?_eq_some.mp hindent) hopens.notBlank hne
    exact absurd rfl hitem.ne_nil
  | sibling hindent hchars hitem _ ihitem ihmore =>
    obtain ⟨hne, hstart⟩ := opens_sibling hparted hopens hindent hchars hitem.item_ne_nil
    obtain ⟨hbetween, hjoined⟩ := hopens.joined tail hne
    have hindent' := literal?_prolong tail hbetween hparted.noBreak
    rw [hindent, ← hjoined] at hindent'
    have hheld : Held isBlank (afterWhile isBlank _) tail :=
      .inl (afterWhile_of_stops hstart.2.stops ▸ hstart.2.ne_nil)
    have hchars' := (charsWhile_prolong tail hheld).trans hchars
    obtain ⟨hinner, _, hshorn, hitem'⟩ := ihitem hparted hstart
    obtain ⟨hrest, _, hshorn', houtside, hmore⟩ := ihmore hparted hinner
    rw [Production.bares, log_siblings hindent hchars hitem.gives, List.countP_append]
    refine ⟨hrest, _, hshorn.append hshorn', houtside, fun more last hlast => ?_⟩
    rw [List.append_assoc]
    exact .sibling hindent' hchars' hitem' (hmore more last hlast)
  | block hitem _ ihitem ihmore =>
    obtain ⟨hinner, _, hshorn, hitem'⟩ := ihitem hparted hopens
    obtain ⟨hrest, _, hshorn', houtside, hmore⟩ := ihmore hparted hinner
    rw [Production.bares, log_block hitem.gives, List.countP_append]
    refine ⟨hrest, _, hshorn.append hshorn', houtside, fun more last hlast => ?_⟩
    rw [List.append_assoc]
    exact .block hitem' (hmore more last hlast)

/-! ## Documents -/

/-- The source from its first line that is not blank. -/
theorem baseIndent_append_firstItem (source : Source α) :
    ofChars (baseIndent source) ++ firstItem source = skipBlankLines source :=
  charsWhile_append_afterWhile isBlank (skipBlankLines source)

/-- A document that has a line with an item is a block that takes all of the source. -/
theorem block_of_document {document : Document α} (h : Parser.document source = .ok document)
    (hne : skipBlankLines source ≠ []) :
    block (baseIndent source) (firstItem source) = .ok (some (document.children, [])) := by
  have hitem := beginsItem_of_not_blank (blankLine?_skipBlankLines source) hne
  rw [document_eq] at h
  obtain ⟨found, hblock, h⟩ := of_bind_ok h
  cases found with
  | none => exact absurd (of_block_none hblock) hitem.ne_nil
  | some found =>
    obtain ⟨nodes, rest⟩ := found
    obtain ⟨rfl, rfl⟩ := of_finish h
    exact hblock

/-- Without such a line it is empty. -/
theorem children_of_document {document : Document α} (h : Parser.document source = .ok document)
    (hnil : skipBlankLines source = []) : document = ⟨[]⟩ := by
  rw [← document_skipBlankLines, hnil, document_nil] at h
  exact (Except.ok.inj h).symm

/-- A line that begins with the indent of a block, with the block behind it, is read as siblings. -/
theorem Reads.siblings_of_block (hstops : Stops isBlank source)
    (h : Reads .block indent source nodes rest) :
    Reads .siblings indent (ofChars indent ++ source) nodes rest := by
  cases h with
  | block hitem hmore =>
    exact .sibling (literal?_append indent source) (charsWhile_of_stops hstops) hitem hmore

/-- An `else` is no item. -/
theorem instructionWord?_of_item {found : List (Node α) × Source α}
    (h : item indent source = .ok (some found)) (rest : Source α) :
    instructionWord? source ≠ some ("else", rest) := by
  intro hword
  cases source with
  | nil => contradiction
  | cons symbol after =>
    by_cases hsymbol : symbol = .char '-'
    · subst hsymbol
      have hcomment : comment? indent (.char '-' :: after) = none := rfl
      have htext : textItem? indent (.char '-' :: after) = none := textItem?_of_stops indent rfl
      have hname : instructionName (.char '-' :: after) = .ok (some ("else", rest)) := by
        simp only [instructionName, hword]
      have hinstruction : instruction indent (.char '-' :: after) =
          .error ⟨.unknownInstruction "else", rest⟩ := by
        rw [instruction_eq, hname]
        rfl
      rw [item_eq, hcomment, htext] at h
      simp only [element_dash, hinstruction, bind, Except.bind] at h
      contradiction
    · rw [instructionWord?_of_stops (stops_cons hsymbol after)] at hword
      contradiction

section Following

variable {document : Document α} (h : Parser.document source = .ok document)
  (hindent : skipBlankLines source ≠ [] → baseIndent source = indent)

include h hindent

/-- The lines of a document are siblings at its indent. -/
theorem siblings_document :
    Reads .siblings indent (skipBlankLines source) document.children [] := by
  by_cases hne : skipBlankLines source = []
  · rw [children_of_document h hne, hne]
    exact reads_siblings (siblings_nil indent)
  · have hstops : Stops isBlank (firstItem source) := stops_afterWhile isBlank _
    have hread := (reads_block (block_of_document h hne)).siblings_of_block hstops
    rwa [baseIndent_append_firstItem, hindent hne] at hread

/-- The first line of a document does not belong to another document in front of it at the same
indent. -/
theorem beyond_document : Beyond indent (skipBlankLines source) := by
  by_cases hne : skipBlankLines source = []
  · rw [hne]
    exact (beyondBlock_nil indent).toBeyond
  · have hitem := beginsItem_of_not_blank (blankLine?_skipBlankLines source) hne
    have hblank : ∀ c ∈ baseIndent source, isBlank c = true := fun c hc => of_mem_charsWhile hc
    have hends := ends_same hblank hitem
    have hblock := block_of_document h hne
    rw [block_eq] at hblock
    obtain ⟨found, hfound, hblock⟩ := of_bind_ok hblock
    cases found with
    | none => exact absurd hblock (pure_none_ne _)
    | some found =>
      rw [← hindent hne, ← baseIndent_append_firstItem source]
      refine ⟨hends, ?_⟩
      rw [elseMark?, literal?_append]
      have hword := instructionWord?_of_item hfound
      simp only [Option.bind_eq_bind, Option.bind_some]

end Following

/-- The log of a document is that of its block. -/
theorem log_document (source : Source α) :
    (Traced.document source).events =
      Production.log (baseIndent source) (firstItem source) .block := by
  refine Traced.events_bind_silent _ fun found => ?_
  cases found <;> rfl

/-- Behind a document another one goes on, if it stands at the same indent and a line ends between
them. -/
theorem document_append_shorn {first second : Source α} {front back : Document α}
    (hbetween : LineBetween first second)
    (hindent : skipBlankLines first ≠ [] → skipBlankLines second ≠ [] →
      baseIndent first = baseIndent second)
    (hfirst : Parser.document first = .ok front) (hsecond : Parser.document second = .ok back) :
    ∃ nodes, Shorn ((Traced.document first).events.countP Event.isBare) front.children nodes ∧
      Parser.document (first ++ second) = .ok ⟨nodes ++ back.children⟩ := by
  obtain ⟨hskip, hat⟩ := skipBlankLines_prolong second (hbetween.wholeLines List.suffix_rfl)
  rw [log_document]
  by_cases hne : skipBlankLines first = []
  · have hitem : firstItem first = [] := by
      rw [firstItem, hne]
      rfl
    obtain rfl := children_of_document hfirst hne
    rw [hitem, log_block_nil]
    refine ⟨[], .refl [], ?_⟩
    rw [← document_skipBlankLines, hskip, hne, joined_nil, document_skipBlankLines, hsecond]
    rfl
  · have hsame : skipBlankLines second ≠ [] → baseIndent second = baseIndent first :=
      fun hback => (hindent hne hback).symm
    obtain ⟨hline, hjoined⟩ := hat.joined second hne
    have hblank : ∀ c ∈ baseIndent first, isBlank c = true := fun c hc => of_mem_charsWhile hc
    have hitem := beginsItem_of_not_blank (blankLine?_skipBlankLines first) hne
    have hheld := hline.held (p := isBlank) rfl
    have hbase : baseIndent (first ++ second) = baseIndent first := by
      rw [baseIndent, hskip, hjoined, charsWhile_prolong second hheld, baseIndent]
    have hrest : firstItem (first ++ second) = firstItem first ++ second := by
      rw [firstItem, hskip, hjoined, afterWhile_prolong second hheld, firstItem]
    have hparted : Parted (baseIndent first) second := ⟨hblank, beyond_document hsecond hsame⟩
    obtain ⟨-, nodes, hshorn, -, hmore⟩ :=
      (reads_block (block_of_document hfirst hne)).continues hparted
        ⟨hline.afterWhile rfl, hitem⟩
    have hblock := hmore back.children [] (siblings_document hsecond hsame)
    have hgives : block (baseIndent first) (firstItem first ++ second) =
        .ok (some (nodes ++ back.children, [])) := hblock.gives
    refine ⟨nodes, hshorn, ?_⟩
    rw [document_eq, hbase, hrest, hgives]
    rfl

/-- All events of a document happened within its source. -/
theorem within_document {document : Document α} (h : Parser.document source = .ok document) :
    Within source (Traced.document source).events := by
  have hfirst : firstItem source <:+ source :=
    ((accounts_skipBlankLines source).skip (accounts_afterWhile isBlank _)).suffix
  rw [log_document]
  by_cases hne : skipBlankLines source = []
  · have hitem : firstItem source = [] := by
      rw [firstItem, hne]
      rfl
    rw [hitem, log_block_nil]
    exact .cons (List.nil_suffix) .nil
  · exact (reads_block (block_of_document h hne)).within.of_suffix hfirst

/-- Behind a document of complete lines another one goes on, if it stands at the same indent. -/
theorem document_append {first second : Source α} {front back : Document α} (hends : EndsLine first)
    (hindent : skipBlankLines first ≠ [] → skipBlankLines second ≠ [] →
      baseIndent first = baseIndent second)
    (hfirst : Parser.document first = .ok front) (hsecond : Parser.document second = .ok back) :
    Parser.document (first ++ second) = .ok ⟨front.children ++ back.children⟩ := by
  obtain ⟨nodes, hshorn, hboth⟩ := document_append_shorn (.inl hends) hindent hfirst hsecond
  rw [hboth, hshorn.same ((within_document hfirst).not_bare hends)]

end Parser

/-! ## Sources -/

namespace Source

def firstIndentFrom (front : Indent) : Source α → Option Indent
  | [] => none
  | .slot _ :: _ => some front
  | .char c :: rest =>
    if c = '\n' then firstIndentFrom [] rest
    else if isBlank c then firstIndentFrom (front ++ [c]) rest
    else some front

/-- The blanks in front of the first line that has anything else on it, if there is one. -/
def firstIndent? (source : Source α) : Option Indent :=
  firstIndentFrom [] source

theorem firstIndentFrom_blanks {text : List Char} (hblank : ∀ c ∈ text, isBlank c = true)
    (front : Indent) (rest : Source α) :
    firstIndentFrom front (ofChars text ++ rest) = firstIndentFrom (front ++ text) rest := by
  induction text generalizing front with
  | nil => rw [List.append_nil]; rfl
  | cons c text ih =>
    have hc : isBlank c = true := hblank c List.mem_cons_self
    have hbreak : c ≠ '\n' := by
      rintro rfl
      contradiction
    rw [ofChars_cons, List.cons_append, firstIndentFrom, if_neg hbreak, if_pos hc,
      ih (fun d hd => hblank d (List.mem_cons_of_mem _ hd)), List.append_assoc]
    rfl

theorem firstIndentFrom_item {rest : Source α} (h : Parser.BeginsItem rest) (front : Indent) :
    firstIndentFrom front rest = some front := by
  cases rest with
  | nil => contradiction
  | cons symbol rest =>
    cases symbol with
    | slot value => rfl
    | char c =>
      obtain ⟨hblank, hbreak⟩ := h
      simp [firstIndentFrom, hblank, hbreak]

/-- A line that is blank is passed over. -/
theorem firstIndent?_blankLine {source rest : Source α} {lineEnd : Parser.LineEnd}
    (h : Parser.blankLine? source = some (lineEnd, rest)) :
    source.firstIndent? = rest.firstIndent? := by
  have hblank : ∀ c ∈ Parser.charsWhile isBlank source, isBlank c = true := fun c hc =>
    Parser.of_mem_charsWhile hc
  have hsource := Parser.charsWhile_append_afterWhile isBlank source
  unfold firstIndent?
  rw [← hsource, firstIndentFrom_blanks hblank]
  unfold Parser.blankLine? at h
  split at h
  · rename_i hbreak
    obtain ⟨-, rfl⟩ := Prod.mk.inj (Option.some.inj h)
    rw [hbreak]
    rfl
  · rename_i hnil
    rw [hnil]
    split at h
    · contradiction
    · obtain ⟨-, rfl⟩ := Prod.mk.inj (Option.some.inj h)
      rfl
  · contradiction

/-- The indent of the first line is where the parser finds it. -/
theorem firstIndent?_eq (source : Source α) :
    source.firstIndent? =
      if Parser.skipBlankLines source = [] then none else some (Parser.baseIndent source) := by
  unfold Parser.baseIndent
  fun_induction Parser.skipBlankLines source with
  | case1 source lineEnd rest hblank ih => rw [firstIndent?_blankLine hblank, ih]
  | case2 source hblank =>
    by_cases hne : source = []
    · subst hne
      rfl
    · have hitem := Parser.beginsItem_of_not_blank hblank hne
      have hfront : ∀ c ∈ Parser.charsWhile isBlank source, isBlank c = true := fun c hc =>
        Parser.of_mem_charsWhile hc
      have hsource := Parser.charsWhile_append_afterWhile isBlank source
      rw [if_neg hne, firstIndent?, ← hsource, firstIndentFrom_blanks hfront, hsource]
      exact firstIndentFrom_item hitem _

end Source

/-! ## Segments -/

namespace Source

theorem ofChars_firstSegment {source : Source α} (h : source.laterSegments = []) :
    source = ofChars source.firstSegment := by
  induction source with
  | nil => rfl
  | cons symbol rest ih =>
    cases symbol with
    | slot value => contradiction
    | char c => exact congrArg (.char c :: ·) (ih h)

/-- The last segment stands at the end. -/
theorem exists_append_segment {source : Source α} {text : String}
    (h : source.segments.getLast? = some text) : ∃ front, source = front ++ ofText text := by
  induction source generalizing text with
  | nil =>
    obtain rfl := Option.some.inj h
    exact ⟨[], rfl⟩
  | cons symbol rest ih =>
    cases symbol with
    | slot value =>
      obtain ⟨front, hfront⟩ := @ih text h
      exact ⟨.slot value :: front, by rw [hfront, List.cons_append]⟩
    | char c =>
      cases hlater : laterSegments rest with
      | nil =>
        have htext : text = String.ofList (c :: firstSegment rest) := by
          simp only [segments, laterSegments, hlater] at h
          exact (Option.some.inj h).symm
        refine ⟨[], ?_⟩
        rw [htext, ofText, String.toList_ofList, ofChars_cons, ← ofChars_firstSegment hlater]
        rfl
      | cons segment more =>
        have hrest : (segments rest).getLast? = some text := by
          simp only [segments, laterSegments, hlater, List.map_cons] at h ⊢
          exact h
        obtain ⟨front, hfront⟩ := ih hrest
        refine ⟨.char c :: front, ?_⟩
        rw [List.cons_append, ← hfront]

end Source

/-- **Parsing is compositional.** Two sources with the same first indent, the first of complete
lines, are read as one: the children of the one document and then those of the other. -/
theorem parse_append {first second : Source α} {front back : Document α}
    (hends : ∃ text, first.segments.getLast? = some text ∧ text.toList.getLast? = some '\n')
    (hindent : ∀ indent other, first.firstIndent? = some indent →
      second.firstIndent? = some other → indent = other)
    (hfirst : parse first = .ok front) (hsecond : parse second = .ok back) :
    parse (first ++ second) = .ok ⟨front.children ++ back.children⟩ := by
  have hlast : Parser.EndsLine first := by
    obtain ⟨text, hsegment, hbreak⟩ := hends
    obtain ⟨start, rfl⟩ := Source.exists_append_segment hsegment
    simp [Parser.EndsLine, Source.ofText, ofChars, List.getLast?_append, hbreak]
  rw [parse_eq_ok] at hfirst hsecond ⊢
  refine Parser.document_append hlast (fun hne hne' => ?_) hfirst hsecond
  refine hindent _ _ ?_ ?_
  · rw [Source.firstIndent?_eq, if_neg hne]
  · rw [Source.firstIndent?_eq, if_neg hne']

/-- A text and a condition that waits for an `else`. -/
def Source.upper : Source Nat :=
  interleave ["  p\n    | one\n\n  - if ", "\n    | yes\n\t\n"] [0]

/-- A loop behind a blank line, without a line break at its end. -/
def Source.lower : Source Nat :=
  interleave [" \n  - for x of ", "\n   | two"] [1]

example : Source.upper ++ Source.lower =
    Source.interleave ["  p\n    | one\n\n  - if ", "\n    | yes\n\t\n \n  - for x of ",
      "\n   | two"] [0, 1] := by
  rfl

theorem parse_append_upper_lower :
    ∃ front back, parse Source.upper = .ok front ∧ parse Source.lower = .ok back ∧
      front.children.length = 2 ∧ back.children.length = 1 ∧
      parse (Source.upper ++ Source.lower) = .ok ⟨front.children ++ back.children⟩ := by
  have hcounts : ((parse Source.upper).toOption.map (·.children.length),
      (parse Source.lower).toOption.map (·.children.length)) = (some 2, some 1) := by
    decide +kernel
  have hends : ∃ text, Source.upper.segments.getLast? = some text ∧
      text.toList.getLast? = some '\n' := ⟨_, rfl, by decide⟩
  have hindent : ∀ indent other, Source.upper.firstIndent? = some indent →
      Source.lower.firstIndent? = some other → indent = other := by
    intro indent other hupper hlower
    exact (Option.some.inj hupper).symm.trans (Option.some.inj hlower)
  obtain ⟨hfront, hback⟩ := Prod.mk.inj hcounts
  cases hupper : parse Source.upper with
  | error error =>
    rw [hupper] at hfront
    contradiction
  | ok front =>
    cases hlower : parse Source.lower with
    | error error =>
      rw [hlower] at hback
      contradiction
    | ok back =>
      rw [hupper] at hfront
      rw [hlower] at hback
      exact ⟨front, back, rfl, rfl, Option.some.inj hfront, Option.some.inj hback,
        parse_append hends hindent hupper hlower⟩

end IndentMarkup

import IndentMarkup.Proofs.InsetLines
import IndentMarkup.Proofs.ProlongedLines
import IndentMarkup.Proofs.WrittenHeader
import Mathlib.Data.List.DropRight

/-! The layout of texts that go over several lines. What such a text comes to is told from its lines
alone: `layout` puts them below one another, each without the indent that the text has, and drops
the line breaks at its end. A text that begins on the line of its mark has the indent of the column
behind the mark; one that begins below has that of its first line that is not blank. -/
namespace IndentMarkup

open Text (isBlank)
open Source (ofChars ofText)

variable {α : Type}

/-! ## Lines and their texts -/

/-- What stands on a line behind its indent. -/
structure LineBody where
  chars : List Char
  nonempty : chars ≠ []
  begins : ∀ c ∈ chars.head?, isBlank c = false
  unbroken : '\n' ∉ chars

/-- A line below a text: it is blank, or it goes on deeper than the text, by a gap. -/
inductive LowerLine where
  | blank (blanks : Blanks)
  | filled (gap : Gap) (body : LineBody)

/-- An indent without another one: what is behind the other, nothing if the other is deeper, and the
indent itself if the two are incomparable. -/
def Indent.without (indent other : Indent) : List Char :=
  if other <+: indent then indent.drop other.length
  else if indent <+: other then []
  else indent

/-- Texts below one another, without line breaks at the end. -/
def layout (texts : List (List Char)) : List Char :=
  (List.intercalate ['\n'] texts).rdropWhile (· == '\n')

namespace LowerLine

def isBlank : LowerLine → Bool
  | .blank _ => true
  | .filled _ _ => false

/-- A line as it is written below a text at an indent. -/
def written (indent : Blanks) : LowerLine → Source α
  | .blank blanks => ofChars blanks.chars
  | .filled gap body => ofChars (indent.chars ++ gap.chars) ++ ofChars body.chars

/-- Lines as they are written, from the end of the line above the first. -/
def writtenBelow (indent : Blanks) (tail : Source α) : List LowerLine → Source α
  | [] => tail
  | line :: more => .char '\n' :: (line.written indent ++ writtenBelow indent tail more)

def text (indent : Blanks) (trimmed : Indent) : LowerLine → List Char
  | .blank _ => []
  | .filled gap body => Indent.without (indent.chars ++ gap.chars) trimmed ++ body.chars

def firstIndent (indent : Blanks) : List LowerLine → Indent
  | [] => []
  | .blank _ :: more => firstIndent indent more
  | .filled gap _ :: _ => indent.chars ++ gap.chars

/-- The texts of the lines from the first one that is not blank, which gives the indent. -/
def nestedTexts (indent : Blanks) (lines : List LowerLine) : List (List Char) :=
  (lines.dropWhile isBlank).map (text indent (firstIndent indent lines))

end LowerLine

/-- The nodes are texts and line breaks, and spell these characters. -/
inductive Spells : List (Node α) → List Char → Prop
  | nil : Spells [] []
  | newLine {nodes : List (Node α)} {chars : List Char} :
      Spells nodes chars → Spells (.newLine :: nodes) ('\n' :: chars)
  | text {nodes : List (Node α)} {front chars : List Char} :
      front ≠ [] → '\n' ∉ front → Spells nodes chars →
        Spells (.text (String.ofList front) :: nodes) (front ++ chars)

namespace Spells

variable {nodes more : List (Node α)} {chars others : List Char}

theorem append (h : Spells nodes chars) (hmore : Spells more others) :
    Spells (nodes ++ more) (chars ++ others) := by
  induction h with
  | nil => exact hmore
  | newLine _ ih => exact .newLine ih
  | text hne hline _ ih =>
    rw [List.append_assoc]
    exact .text hne hline ih

theorem single (hne : chars ≠ []) (hline : '\n' ∉ chars) :
    Spells [(.text (String.ofList chars) : Node α)] chars := by
  have h := Spells.text hne hline (.nil : Spells ([] : List (Node α)) [])
  rwa [List.append_nil] at h

theorem replicate (count : Nat) :
    Spells (List.replicate count (.newLine : Node α)) (List.replicate count '\n') := by
  induction count with
  | zero => exact .nil
  | succ count ih => exact .newLine ih

/-- What several nodes spell is what the first of them spell, and then the others. -/
theorem of_append (h : Spells (nodes ++ more) chars) :
    ∃ front back, chars = front ++ back ∧ Spells nodes front ∧ Spells more back := by
  induction nodes generalizing chars with
  | nil => exact ⟨[], chars, rfl, .nil, h⟩
  | cons node nodes ih =>
    cases h with
    | newLine h =>
      obtain ⟨front, back, rfl, hfront, hback⟩ := ih h
      exact ⟨'\n' :: front, back, rfl, .newLine hfront, hback⟩
    | @text _ text _ hne hline h =>
      obtain ⟨front, back, rfl, hfront, hback⟩ := ih h
      exact ⟨text ++ front, back, (List.append_assoc _ _ _).symm, .text hne hline hfront, hback⟩

/-- Line breaks at the end are dropped from the nodes and from what they spell. -/
theorem dropTrailing (h : Spells nodes chars) :
    Spells (Parser.dropTrailingNewLines nodes) (chars.rdropWhile (· == '\n')) := by
  show Spells (nodes.rdropWhile Node.isNewLine) _
  induction nodes using List.reverseRecOn generalizing chars with
  | nil =>
    cases h
    exact .nil
  | append_singleton nodes node ih =>
    obtain ⟨front, back, rfl, hfront, hback⟩ := h.of_append
    cases hback with
    | newLine hnil =>
      cases hnil
      rw [List.rdropWhile_concat_pos _ _ _ rfl, List.rdropWhile_concat_pos _ _ _ rfl]
      exact ih hfront
    | @text _ text _ hne hline hnil =>
      cases hnil
      rw [List.append_nil]
      have hlast : (front ++ text).rdropWhile (· == '\n') = front ++ text := by
        refine List.rdropWhile_eq_self_iff.mpr fun hl hbreak => hline ?_
        rw [List.getLast_append_of_ne_nil _ hne, beq_iff_eq] at hbreak
        exact hbreak ▸ List.getLast_mem hne
      rw [List.rdropWhile_concat_neg _ _ _ (by simp [Node.isNewLine]), hlast]
      exact hfront.append (.single hne hline)

end Spells

/-! ## Line breaks between texts -/

/-- The nodes spell texts below one another, and line breaks behind the last. -/
def SpellsLines (nodes : List (Node α)) (texts : List (List Char)) : Prop :=
  ∃ count, Spells nodes (List.intercalate ['\n'] texts ++ List.replicate count '\n')

namespace SpellsLines

variable {nodes front : List (Node α)} {text : List Char} {texts : List (List Char)}

theorem nil : SpellsLines ([] : List (Node α)) [] := ⟨0, .nil⟩

/-- A text above others, with a line break behind it if there are any. -/
theorem cons {breaks : Nat} (hfront : Spells front text) (hbreaks : texts ≠ [] → breaks = 1)
    (h : SpellsLines nodes texts) :
    SpellsLines (front ++ (List.replicate breaks .newLine ++ nodes)) (text :: texts) := by
  obtain ⟨count, hnodes⟩ := h
  have hall := hfront.append ((Spells.replicate breaks).append hnodes)
  cases texts with
  | nil => exact ⟨breaks + count, by simpa using hall⟩
  | cons next more =>
    rw [hbreaks (List.cons_ne_nil next more)] at hall ⊢
    exact ⟨count, by simpa using hall⟩

/-- Without the line breaks at the end the texts are laid out. -/
theorem dropTrailing (h : SpellsLines nodes texts) :
    Spells (Parser.dropTrailingNewLines nodes) (layout texts) := by
  obtain ⟨count, hnodes⟩ := h
  have hlayout : (List.intercalate ['\n'] texts ++ List.replicate count '\n').rdropWhile
      (· == '\n') = layout texts := by
    clear hnodes
    induction count with
    | zero => rw [List.replicate_zero, List.append_nil, layout]
    | succ count ih =>
      rw [List.replicate_succ', ← List.append_assoc, List.rdropWhile_concat_pos _ _ _ (by simp),
        ih]
  rw [← hlayout]
  exact hnodes.dropTrailing

end SpellsLines

namespace Parser

variable {source rest tail : Source α} {indent : Blanks}

/-! ## Indents -/

/-- An indent is taken off another as far as the two can be compared. -/
theorem trim_eq_without {inner outer : Indent} (hinner : ∀ c ∈ inner, isBlank c = true)
    (houter : ∀ c ∈ outer, isBlank c = true) : Indent.trim inner outer = inner.without outer := by
  have hnone : inner.dropWhile isBlank = [] := List.dropWhile_eq_nil_iff.mpr hinner
  unfold Indent.trim Indent.compare Indent.without
  rw [Indent.leading_of_blank hinner, Indent.leading_of_blank houter]
  by_cases hsame : inner = outer
  · simp [hsame]
  · by_cases hdeeper : outer <+: inner
    · simp [hsame, hdeeper]
    · by_cases hshallower : inner <+: outer <;> simp [hsame, hdeeper, hshallower, hnone]

theorem without_self (indent : Indent) : indent.without indent = [] := by
  simp [Indent.without]

theorem spells_indentText {text : List Char} (hblank : ∀ c ∈ text, isBlank c = true) :
    Spells (indentText text : List (Node α)) text := by
  unfold indentText
  cases text with
  | nil => exact .nil
  | cons c text =>
    have hline : '\n' ∉ c :: text := fun hbreak => absurd (hblank '\n' hbreak) (by decide)
    exact .single (List.cons_ne_nil c text) hline

theorem isBlank_without {inner outer : Indent} (hinner : ∀ c ∈ inner, isBlank c = true) :
    ∀ c ∈ inner.without outer, isBlank c = true := by
  unfold Indent.without
  split
  · exact fun c hc => hinner c (List.mem_of_mem_drop hc)
  · split
    · exact fun _ hc => by contradiction
    · exact hinner

/-! ## Lines of a text -/

theorem beginsItem_body (body : LineBody) (source : Source α) :
    BeginsItem (ofChars body.chars ++ source) := by
  obtain ⟨chars, hne, hbegins, hunbroken⟩ := body
  cases chars with
  | nil => exact absurd rfl hne
  | cons c chars => exact ⟨hbegins c rfl, fun e => hunbroken (e ▸ List.mem_cons_self)⟩

/-- Lines from the front of the first one, or what is behind them. -/
def frontOf (indent : Blanks) (tail rest : Source α) : List LowerLine → Source α
  | [] => rest
  | line :: more => line.written indent ++ LowerLine.writtenBelow indent tail more

/-- Where a line ends, the lines below it begin. -/
theorem lineBreak_writtenBelow (indent : Blanks) (h : LineBreak tail rest)
    (lines : List LowerLine) :
    LineBreak (LowerLine.writtenBelow indent tail lines) (frontOf indent tail rest lines) := by
  cases lines with
  | nil => exact h
  | cons line more => exact .newline _

/-- There is a line break between any two lines. -/
theorem textLine_writtenBelow (indent : Blanks) (h : LineBreak tail rest)
    (lines : List LowerLine) :
    ∃ breaks, textLine (LowerLine.writtenBelow indent tail lines) =
        (List.replicate breaks .newLine, frontOf indent tail rest lines) ∧
      (lines ≠ [] → breaks = 1) := by
  cases lines with
  | nil =>
    obtain ⟨breaks, hbreaks⟩ := textLine_lineBreak h
    exact ⟨breaks, hbreaks, fun hne => absurd rfl hne⟩
  | cons line more =>
    refine ⟨1, ?_, fun _ => rfl⟩
    rw [LowerLine.writtenBelow, textLine, if_pos rfl]
    rfl

/-- A blank line leaves its line break to the text. -/
theorem continuedText_blank (indent trimmed : Indent) (blanks : Blanks)
    (h : LineBreak source rest) :
    continuedText indent trimmed (ofChars blanks.chars ++ source) =
      ((textLine source).1 ++ (continuedText indent trimmed rest).1,
        (continuedText indent trimmed rest).2) := by
  have hafter : afterWhile isBlank (ofChars blanks.chars ++ source) = source :=
    afterWhile_append blanks.blank (h.stops rfl)
  cases h with
  | newline =>
    have hline : blankLine? (ofChars blanks.chars ++ .char '\n' :: rest) =
        some (.newline, rest) := by
      simp [blankLine?, hafter]
    rw [continuedText_eq, hline]
    simp [textLine]
  | endOfInput =>
    cases hchars : blanks.chars with
    | nil => simp [continuedText_nil, textLine]
    | cons c chars =>
      rw [hchars] at hafter
      have hline : blankLine? (ofChars (c :: chars) ++ ([] : Source α)) =
          some (.endOfInput, []) := by
        unfold blankLine?
        rw [hafter]
        simp
      rw [continuedText_eq, hline]
      simp [textLine]

theorem deeperIndent?_filled (indent : Blanks) (gap : Gap) (body : LineBody) (source : Source α) :
    deeperIndent? indent.chars (LowerLine.written indent (.filled gap body) ++ source) =
      some (indent.chars ++ gap.chars, ofChars body.chars ++ source) := by
  rw [LowerLine.written, List.append_assoc]
  exact deeperIndent?_append indent.chars gap.nonempty gap.blank (beginsItem_body body source).stops

theorem blankLine?_filled (indent : Blanks) (gap : Gap) (body : LineBody) (source : Source α) :
    blankLine? (LowerLine.written indent (.filled gap body) ++ source) = none := by
  rw [LowerLine.written, List.append_assoc]
  exact blankLine?_item (indent.below gap).blank (beginsItem_body body source)

/-- A line that is not blank leaves what is left of its indent, its body and its line break. -/
theorem continuedText_filled (trimmed : Indent) (gap : Gap) (body : LineBody)
    (h : LineBreak source rest) :
    continuedText indent.chars trimmed (LowerLine.written indent (.filled gap body) ++ source) =
      (indentText (Indent.trim (indent.chars ++ gap.chars) trimmed) ++
          (.text (String.ofList body.chars) :: (textLine source).1) ++
          (continuedText indent.chars trimmed (textLine source).2).1,
        (continuedText indent.chars trimmed (textLine source).2).2) := by
  rw [continuedText_eq, blankLine?_filled, deeperIndent?_filled]
  simp only [textLine_ofChars body.nonempty body.unbroken (h.stops rfl)]

/-- The lines of a text spell their texts. The line breaks between the lines are all there; how many
are behind the last line depends on how that line ends. -/
theorem spellsLines_continuedText (hbreak : LineBreak tail rest) (hends : Ends indent.chars rest)
    {trimmed : Indent} (htrimmed : ∀ c ∈ trimmed, isBlank c = true) (lines : List LowerLine) :
    ∃ nodes, continuedText indent.chars trimmed (frontOf indent tail rest lines) = (nodes, rest) ∧
      SpellsLines nodes (lines.map (LowerLine.text indent trimmed)) := by
  induction lines with
  | nil =>
    refine ⟨[], ?_, .nil⟩
    rw [frontOf, continuedText_eq, hends.notBlank, hends.notDeeper]
  | cons line more ih =>
    obtain ⟨nodes, hmore, hspells⟩ := ih
    obtain ⟨breaks, hline, hbreaks⟩ := textLine_writtenBelow indent hbreak more
    have hnext := lineBreak_writtenBelow indent hbreak more
    have hbreaks' : more.map (LowerLine.text indent trimmed) ≠ [] → breaks = 1 := fun hne =>
      hbreaks (mt (congrArg _) hne)
    cases line with
    | blank blanks =>
      refine ⟨_, ?_, .cons .nil hbreaks' hspells⟩
      rw [frontOf, LowerLine.written, continuedText_blank _ _ _ hnext, hline, hmore]
      rfl
    | filled gap body =>
      have hindent : ∀ c ∈ indent.chars ++ gap.chars, isBlank c = true := (indent.below gap).blank
      have hgap : Spells (indentText (Indent.without (indent.chars ++ gap.chars) trimmed) :
          List (Node α)) _ := spells_indentText (isBlank_without hindent)
      refine ⟨_, ?_, .cons (hgap.append (.single body.nonempty body.unbroken)) hbreaks' hspells⟩
      rw [frontOf, continuedText_filled _ _ _ hnext, hline, hmore,
        trim_eq_without hindent htrimmed]
      simp

/-! ## Texts below a line -/

theorem skipBlankLines_frontOf (hbreak : LineBreak tail rest) (hends : Ends indent.chars rest)
    (lines : List LowerLine) :
    skipBlankLines (frontOf indent tail rest lines) =
      frontOf indent tail rest (lines.dropWhile LowerLine.isBlank) := by
  induction lines with
  | nil => exact skipBlankLines_of_not_blank hends.notBlank
  | cons line more ih =>
    cases line with
    | blank blanks =>
      rw [frontOf, LowerLine.written, List.dropWhile_cons_of_pos rfl, ← ih]
      exact skipBlankLines_blank blanks.blank (lineBreak_writtenBelow indent hbreak more)
    | filled gap body =>
      rw [List.dropWhile_cons_of_neg (by simp [LowerLine.isBlank])]
      exact skipBlankLines_of_not_blank (blankLine?_filled indent gap body _)

theorem firstIndent_dropWhile (indent : Blanks) (lines : List LowerLine) :
    LowerLine.firstIndent indent (lines.dropWhile LowerLine.isBlank) =
      LowerLine.firstIndent indent lines := by
  induction lines with
  | nil => rfl
  | cons line more ih =>
    cases line with
    | blank blanks => rw [List.dropWhile_cons_of_pos rfl, LowerLine.firstIndent, ih]
    | filled gap body => rw [List.dropWhile_cons_of_neg (by simp [LowerLine.isBlank])]

/-- A text that begins below a line spells the texts of the lines from the first that is not blank;
without such a line there is none. -/
theorem spellsLines_nestedText (hbreak : LineBreak tail rest) (hends : Ends indent.chars rest)
    (lines : List LowerLine) :
    (nestedText? indent.chars (skipBlankLines (frontOf indent tail rest lines)) = none ∧
        skipBlankLines (frontOf indent tail rest lines) = rest ∧
        LowerLine.nestedTexts indent lines = []) ∨
      ∃ nodes,
        nestedText? indent.chars (skipBlankLines (frontOf indent tail rest lines)) =
            some (nodes, rest) ∧
          SpellsLines nodes (LowerLine.nestedTexts indent lines) := by
  rw [skipBlankLines_frontOf hbreak hends, LowerLine.nestedTexts, ← firstIndent_dropWhile]
  cases hlines : lines.dropWhile LowerLine.isBlank with
  | nil =>
    refine .inl ⟨?_, rfl, rfl⟩
    rw [frontOf, nestedText?, hends.notDeeper]
    rfl
  | cons line more =>
    cases line with
    | blank blanks =>
      have hhead := List.head?_dropWhile_not LowerLine.isBlank lines
      simp [hlines, LowerLine.isBlank] at hhead
    | filled gap body =>
      right
      have hindent : ∀ c ∈ indent.chars ++ gap.chars, isBlank c = true := (indent.below gap).blank
      obtain ⟨nodes, hmore, hspells⟩ := spellsLines_continuedText hbreak hends hindent more
      obtain ⟨breaks, hline, hbreaks⟩ := textLine_writtenBelow indent hbreak more
      have hnext := lineBreak_writtenBelow indent hbreak more
      have hbelow := SpellsLines.cons (.single body.nonempty body.unbroken)
        (fun hne => hbreaks (mt (congrArg _) hne)) hspells
      rw [LowerLine.firstIndent, List.map_cons, LowerLine.text, without_self, List.nil_append]
      refine ⟨_, ?_, hbelow⟩
      rw [frontOf, nestedText?, deeperIndent?_filled]
      simp only [Option.bind_eq_bind, Option.bind_some,
        textLine_ofChars body.nonempty body.unbroken (hnext.stops rfl), hline, hmore]
      rfl

/-! ## Text items -/

theorem item_bar (indent : Indent) {found : Option (List (Node α))}
    (h : textBody indent source = (found, rest)) :
    item indent (.char '|' :: source) =
      .ok (some (dropTrailingNewLines (found.getD []), rest)) := by
  have htext : textItem? indent (.char '|' :: source) =
      some (dropTrailingNewLines (found.getD []), rest) := by
    cases found <;> simp [textItem?, isTextMarker, h, dropTrailingNewLines]
  rw [item_eq, comment?_of_stops indent (by simp), htext]

theorem textStart_of_stops (indent : Indent) (h : Stops (· == ' ') source) :
    textStart indent source = (indent ++ [' '], source) := by
  unfold textStart
  split
  · exact absurd h (by simp)
  · rfl

/-- A bar with no text behind it: the text begins below. -/
theorem spells_bar_empty (hbreak : LineBreak tail rest) (hends : Ends indent.chars rest)
    (lines : List LowerLine) {mark : List Char} (hmark : mark = [] ∨ mark = [' ']) :
    ∃ nodes, item indent.chars
        (ofChars ('|' :: mark) ++ LowerLine.writtenBelow indent tail lines) =
          .ok (some (nodes, rest)) ∧
      Spells nodes (layout (LowerLine.nestedTexts indent lines)) := by
  obtain ⟨breaks, hline, hbreaks⟩ := textLine_writtenBelow indent hbreak lines
  have hnext := lineBreak_writtenBelow indent hbreak lines
  have hstart : (textStart indent.chars
      (ofChars mark ++ LowerLine.writtenBelow indent tail lines)).2 =
        LowerLine.writtenBelow indent tail lines := by
    rcases hmark with rfl | rfl
    · exact congrArg Prod.snd (textStart_of_stops indent.chars (hnext.stops rfl))
    · rfl
  suffices h : ∃ found, textBody indent.chars
      (ofChars mark ++ LowerLine.writtenBelow indent tail lines) = (found, rest) ∧
        SpellsLines (found.getD []) (LowerLine.nestedTexts indent lines) by
    obtain ⟨found, hbody, hspells⟩ := h
    exact ⟨_, item_bar indent.chars hbody, hspells.dropTrailing⟩
  simp only [textBody, hstart, hline]
  by_cases hone : breaks = 1
  · subst hone
    rw [if_pos (show isLineBreak (List.replicate 1 (.newLine : Node α)) = true from rfl)]
    rcases spellsLines_nestedText hbreak hends lines with ⟨hnone, hrest, htexts⟩ | ⟨nodes, hsome, h⟩
    · rw [hnone, hrest, htexts]
      exact ⟨none, rfl, .nil⟩
    · rw [hsome]
      exact ⟨some nodes, rfl, h⟩
  · -- The input ends behind the mark, and the text goes on with nothing.
    obtain rfl : lines = [] := by_contra fun hne => hone (hbreaks hne)
    have hmore : ∀ trimmed, continuedText indent.chars trimmed rest = ([], rest) := fun trimmed => by
      rw [continuedText_eq, hends.notBlank, hends.notDeeper]
    have hline : isLineBreak (List.replicate breaks (.newLine : Node α)) = false := by
      rcases breaks with _ | _ | breaks
      · rfl
      · exact absurd rfl hone
      · rfl
    refine ⟨some (List.replicate breaks .newLine), ?_, breaks, .replicate breaks⟩
    rw [hline, frontOf, hmore]
    simp

/-- A bar with a text behind it, which gives the text its indent. -/
theorem spells_bar_text (hbreak : LineBreak tail rest) (hends : Ends indent.chars rest)
    (lines : List LowerLine) {text : List Char} {trimmed : Indent}
    (hne : text ≠ []) (hunbroken : '\n' ∉ text) (htrimmed : ∀ c ∈ trimmed, isBlank c = true)
    (hstart : textStart indent.chars source =
      (trimmed, ofChars text ++ LowerLine.writtenBelow indent tail lines)) :
    ∃ nodes, item indent.chars (.char '|' :: source) = .ok (some (nodes, rest)) ∧
      Spells nodes (layout (text :: lines.map (LowerLine.text indent trimmed))) := by
  obtain ⟨breaks, hline, hbreaks⟩ := textLine_writtenBelow indent hbreak lines
  have hnext := lineBreak_writtenBelow indent hbreak lines
  obtain ⟨nodes, hmore, hspells⟩ := spellsLines_continuedText hbreak hends htrimmed lines
  have hbody : textBody indent.chars source =
      (some ([.text (String.ofList text)] ++ (List.replicate breaks .newLine ++ nodes)), rest) := by
    simp only [textBody, hstart, textLine_ofChars hne hunbroken (hnext.stops rfl), hline, hmore]
    rfl
  exact ⟨_, item_bar indent.chars hbody,
    (SpellsLines.cons (.single hne hunbroken) (fun h => hbreaks (mt (congrArg _) h))
      hspells).dropTrailing⟩

/-! ## Texts of elements -/

/-- A text on the line of an element goes on with the text below. -/
theorem spells_lineText (hbreak : LineBreak tail rest) (hends : Ends indent.chars rest)
    (lines : List LowerLine) {text : List Char} (hne : text ≠ []) (hunbroken : '\n' ∉ text) :
    ∃ nodes, lineText indent.chars (ofChars text ++ LowerLine.writtenBelow indent tail lines) =
        (some nodes, rest) ∧
      Spells nodes (layout (text :: LowerLine.nestedTexts indent lines)) := by
  obtain ⟨breaks, hline, hbreaks⟩ := textLine_writtenBelow indent hbreak lines
  have hnext := lineBreak_writtenBelow indent hbreak lines
  simp only [lineText, textLine_ofChars hne hunbroken (hnext.stops rfl), hline, List.all_cons,
    Node.isNewLine, Bool.false_and, Bool.false_eq_true, if_false]
  have hfirst : Spells [(.text (String.ofList text) : Node α)] text := .single hne hunbroken
  rcases spellsLines_nestedText hbreak hends lines with ⟨hnone, hrest, htexts⟩ | ⟨nodes, hsome, h⟩
  · have hall := @SpellsLines.cons _ _ _ _ _ breaks hfirst (fun hne => absurd rfl hne) .nil
    rw [hnone, hrest, htexts]
    refine ⟨_, rfl, ?_⟩
    simpa using hall.dropTrailing
  · have hnested : LowerLine.nestedTexts indent lines ≠ [] → breaks = 1 := fun hne =>
      hbreaks (by rintro rfl; exact hne rfl)
    have hall := SpellsLines.cons hfirst hnested h
    rw [hsome]
    exact ⟨_, rfl, hall.dropTrailing⟩

/-- An element line, up to the text behind its header. One blank in front of the text belongs to
neither. -/
def Carries (line : Source α) (opening : Opening α) (text : Source α) : Prop :=
  ∃ named start behind, naming line = .ok (some (named, start)) ∧
    openingRest named start = .ok (opening, behind) ∧ skipOneBlank behind = text

/-- Text that does not begin with a colon is no block expansion. -/
theorem expansion?_text {text : List Char} (hcolon : (text.dropWhile isBlank).head? ≠ some ':')
    (hbreak : LineBreak source rest) : expansion? (ofChars text ++ source) = none := by
  have hfront : ∀ c ∈ text.takeWhile isBlank, isBlank c = true := fun _ => List.mem_takeWhile_imp
  have hafter : afterWhile isBlank (ofChars text ++ source) =
      afterWhile isBlank (ofChars (text.dropWhile isBlank) ++ source) := by
    conv_lhs => rw [← List.takeWhile_append_dropWhile (p := isBlank) (l := text)]
    rw [Source.ofChars_append, List.append_assoc, afterWhile_ofChars hfront]
  have hstops : Stops (· == ':') (afterWhile isBlank (ofChars text ++ source)) := by
    rw [hafter]
    cases htext : text.dropWhile isBlank with
    | nil =>
      rw [Source.ofChars_nil, List.nil_append, afterWhile_of_stops (hbreak.stops rfl)]
      exact hbreak.stops rfl
    | cons c more =>
      have hblank : isBlank c = false := by
        have hhead := List.head?_dropWhile_not isBlank text
        rwa [htext, List.head?_cons] at hhead
      have hstop : Stops isBlank (ofChars (c :: more) ++ source) := hblank
      rw [afterWhile_of_stops hstop]
      rw [htext] at hcolon
      simpa using hcolon
  unfold expansion?
  split
  · rename_i hfound
    rw [hfound] at hstops
    exact absurd hstops (by simp)
  · rfl

/-- An element with a text on its line has that text, with the text below it. -/
theorem spells_element {line : Source α} {opening : Opening α} {text : List Char}
    (hbreak : LineBreak tail rest) (hends : Ends indent.chars rest)
    (lines : List LowerLine) (hne : text ≠ []) (hunbroken : '\n' ∉ text)
    (hcolon : (text.dropWhile isBlank).head? ≠ some ':')
    (hline : Carries line opening (ofChars text ++ LowerLine.writtenBelow indent tail lines)) :
    ∃ nodes, element indent.chars line = .ok (some (opening.nodes nodes, rest)) ∧
      Spells nodes (layout (text :: LowerLine.nestedTexts indent lines)) := by
  obtain ⟨named, start, behind, hnaming, hopening, hbehind⟩ := hline
  obtain ⟨nodes, htext, hspells⟩ := spells_lineText hbreak hends lines hne hunbroken
  have hexpansion := expansion?_text hcolon (lineBreak_writtenBelow indent hbreak lines)
  refine ⟨nodes, ?_, hspells⟩
  rw [element_eq, hnaming]
  simp only [bind, Except.bind, hopening, content_eq, hbehind, hexpansion, htext]
  rfl

end Parser

/-- The layout of texts over several lines. Below a line at an indent, the lines that are blank or
deeper make up one text with what stands on the line. Behind an empty bar the text begins with the
first line that is not blank, and has its indent. A text on the line of a bar goes on with all of
the lines, and has the indent of its column. A text on the line of an element goes on with what a
text behind an empty bar would be. -/
theorem text_layout (indent : Blanks) (lines : List LowerLine) {tail rest : Source α}
    (hbreak : Parser.LineBreak tail rest) (hends : Parser.Ends indent.chars rest) :
    let below := LowerLine.writtenBelow indent tail lines
    let nested := LowerLine.nestedTexts indent lines
    (∀ mark, mark = [] ∨ mark = [' '] →
      ∃ nodes, Parser.item indent.chars (ofChars ('|' :: mark) ++ below) =
          .ok (some (nodes, rest)) ∧
        Spells nodes (layout nested)) ∧
    (∀ text, text ≠ [] → '\n' ∉ text →
      ∃ nodes, Parser.item indent.chars (ofChars ('|' :: ' ' :: text) ++ below) =
          .ok (some (nodes, rest)) ∧
        Spells nodes (layout (text :: lines.map (LowerLine.text indent (indent.chars ++ [' ', ' ']))))) ∧
    (∀ text, text ≠ [] → '\n' ∉ text → text.head? ≠ some ' ' →
      ∃ nodes, Parser.item indent.chars (ofChars ('|' :: text) ++ below) =
          .ok (some (nodes, rest)) ∧
        Spells nodes (layout (text :: lines.map (LowerLine.text indent (indent.chars ++ [' ']))))) ∧
    ∀ text, text ≠ [] → '\n' ∉ text → (text.dropWhile isBlank).head? ≠ some ':' →
      ∀ line opening, Parser.Carries line opening (ofChars text ++ below) →
        ∃ nodes, Parser.element indent.chars line = .ok (some (opening.nodes nodes, rest)) ∧
          Spells nodes (layout (text :: nested)) := by
  have hcolumn : ∀ spaces : List Char, (∀ c ∈ spaces, isBlank c = true) →
      ∀ c ∈ indent.chars ++ spaces, isBlank c = true := fun spaces hspaces =>
    List.forall_mem_append.mpr ⟨indent.blank, hspaces⟩
  refine ⟨fun mark hmark => Parser.spells_bar_empty hbreak hends lines hmark, ?_, ?_, ?_⟩
  · intro text hne hunbroken
    exact Parser.spells_bar_text hbreak hends lines hne hunbroken
      (hcolumn [' ', ' '] (List.all_eq_true.mp rfl)) rfl
  · intro text hne hunbroken hspace
    have hstop : Parser.Stops (· == ' ')
        (ofChars text ++ LowerLine.writtenBelow indent tail lines) := by
      cases text with
      | nil => exact absurd rfl hne
      | cons c text => simpa using hspace
    exact Parser.spells_bar_text hbreak hends lines hne hunbroken
      (hcolumn [' '] (List.all_eq_true.mp rfl)) (Parser.textStart_of_stops indent.chars hstop)
  · intro text hne hunbroken hcolon line opening hline
    exact Parser.spells_element hbreak hends lines hne hunbroken hcolon hline

/-- The lines of a text at all kinds of indents: deeper than the first line that is not blank,
shallower than it, and incomparable with it. -/
theorem text_layout_mixed :
    (∃ nodes, Parser.item [' '] (ofText "|\n\n    a\n  b\n \tc\n\n p" : Source Empty) =
        .ok (some (nodes, ofText " p")) ∧
      Spells nodes "a\nb\n \tc".toList) ∧
    (∃ nodes, Parser.item [' '] (ofText "| x\n\n    a\n  b\n \tc\n\n p" : Source Empty) =
        .ok (some (nodes, ofText " p")) ∧
      Spells nodes "x\n\n a\nb\n \tc".toList) ∧
    (∃ nodes, Parser.item [' '] (ofText "|x\n\n    a\n  b\n \tc\n\n p" : Source Empty) =
        .ok (some (nodes, ofText " p")) ∧
      Spells nodes "x\n\n  a\nb\n \tc".toList) ∧
    ∃ nodes, Parser.element [' '] (ofText "q x\n\n    a\n  b\n \tc\n\n p" : Source Empty) =
        .ok (some ([.element ⟨.text "q", [], none⟩ nodes], ofText " p")) ∧
      Spells nodes "x\na\nb\n \tc".toList := by
  have hends : Parser.Ends [' '] (ofText " p" : Source Empty) :=
    @Parser.ends_same _ (ofText "p") [' '] (List.all_eq_true.mp rfl) ⟨by decide, by decide⟩
  have h := text_layout ⟨[' '], List.all_eq_true.mp rfl⟩
    [.blank ⟨[], List.all_eq_true.mp rfl⟩,
      .filled ⟨⟨[' ', ' ', ' '], List.all_eq_true.mp rfl⟩, by decide⟩
        ⟨['a'], by decide, by simp [isBlank], by decide⟩,
      .filled ⟨⟨[' '], List.all_eq_true.mp rfl⟩, by decide⟩
        ⟨['b'], by decide, by simp [isBlank], by decide⟩,
      .filled ⟨⟨['\t'], List.all_eq_true.mp rfl⟩, by decide⟩
        ⟨['c'], by decide, by simp [isBlank], by decide⟩,
      .blank ⟨[], List.all_eq_true.mp rfl⟩]
    (.newline _) hends
  have hcarries : Parser.Carries (ofText "q x\n\n    a\n  b\n \tc\n\n p" : Source Empty)
      ⟨⟨.text "q", [], none⟩, false, false⟩ (ofText "x\n\n    a\n  b\n \tc\n\n p") := by
    let behind : Source Empty := ofText " x\n\n    a\n  b\n \tc\n\n p"
    have hnone : Parser.attribute? .inline behind = .ok none :=
      Parser.attribute?_inline_of_none rfl rfl
    have hlist : Parser.attributes behind = .ok ([], behind) := by
      show Parser.inlineAttributes behind = _
      rw [Parser.inlineAttributes_eq, hnone]
      rfl
    have hnamed : Parser.Naming.Written ⟨some (.text "q"), []⟩ (ofText "q" : Source Empty) :=
      @Parser.Naming.Written.base _ (.text "q") [] [] (by decide) .nil
    refine ⟨_, behind, behind, Parser.naming_written hnamed rfl rfl, ?_, rfl⟩
    show (Parser.attributes behind >>= _) = _
    rw [hlist]
    rfl
  exact ⟨h.1 [] (.inl rfl), h.2.1 ['x'] (by decide) (by decide),
    h.2.2.1 ['x'] (by decide) (by decide) (by decide),
    h.2.2.2 ['x'] (by decide) (by decide) (by decide) _ _ hcarries⟩

end IndentMarkup

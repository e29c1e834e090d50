import IndentMarkup.Parser.Token
import IndentMarkup.Proofs.OutlineLines

/-! Reading outlines. A text is read as nested tags by a reader that knows nothing of documents: it
takes the text apart at its angle brackets, keeps a stack of the tags that are open, and undoes the
escapes in the text of each tag. Of an outline it makes the tree of the document, with every text as
it was before it was escaped. -/
namespace IndentMarkup.Outline

open Text (isSpace)

/-! ## Escapes -/

def escapeChar (c : Char) : List Char :=
  match c with
  | '&' => "&amp;".toList
  | '<' => "&lt;".toList
  | '>' => "&gt;".toList
  | '"' => "&quot;".toList
  | '\'' => "&apos;".toList
  | _ => [c]

/-- The ampersand is replaced first, so no replacement is replaced again. -/
theorem escape_eq (text : String) :
    escape text = String.ofList (text.toList.flatMap escapeChar) := by
  have hchar : ∀ c, ((((Text.replaced '&' "&amp;" c).flatMap (Text.replaced '<' "&lt;")).flatMap
      (Text.replaced '>' "&gt;")).flatMap (Text.replaced '"' "&quot;")).flatMap
      (Text.replaced '\'' "&apos;") = escapeChar c := by
    intro c
    unfold escapeChar
    split
    · rfl
    · rfl
    · rfl
    · rfl
    · rfl
    · rename_i hamp hlt hgt hquote hapos
      rw [Text.replaced_of_ne _ hamp, List.flatMap_singleton, Text.replaced_of_ne _ hlt,
        List.flatMap_singleton, Text.replaced_of_ne _ hgt, List.flatMap_singleton,
        Text.replaced_of_ne _ hquote, List.flatMap_singleton, Text.replaced_of_ne _ hapos]
  rw [escape, Text.replace.eq_def '&']
  simp only [Text.replace_ofList_flatMap, hchar]

/-- A text whose escapes are undone, if every ampersand in it begins one. -/
def unescape : List Char → Option (List Char)
  | '&' :: 'a' :: 'm' :: 'p' :: ';' :: rest => (unescape rest).map ('&' :: ·)
  | '&' :: 'l' :: 't' :: ';' :: rest => (unescape rest).map ('<' :: ·)
  | '&' :: 'g' :: 't' :: ';' :: rest => (unescape rest).map ('>' :: ·)
  | '&' :: 'q' :: 'u' :: 'o' :: 't' :: ';' :: rest => (unescape rest).map ('"' :: ·)
  | '&' :: 'a' :: 'p' :: 'o' :: 's' :: ';' :: rest => (unescape rest).map ('\'' :: ·)
  | '&' :: _ => none
  | c :: rest => (unescape rest).map (c :: ·)
  | [] => some []

theorem unescape_escapeChar (c : Char) (rest : List Char) :
    unescape (escapeChar c ++ rest) = (unescape rest).map (c :: ·) := by
  unfold escapeChar
  split
  · rfl
  · rfl
  · rfl
  · rfl
  · rfl
  · rename_i hamp _ _ _ _
    rw [List.singleton_append, unescape]
    all_goals
      intros
      subst_vars
      exact hamp rfl

/-- An escaped text can be had back. -/
theorem unescape_escape (text : String) : unescape (escape text).toList = some text.toList := by
  rw [escape_eq, String.toList_ofList]
  induction text.toList with
  | nil => rfl
  | cons c rest ih => rw [List.flatMap_cons, unescape_escapeChar, ih, Option.map_some]

/-- Whether a character is no angle bracket. -/
def isPlain (c : Char) : Bool :=
  c != '<' && c != '>'

theorem isPlain_escapeChar (c : Char) : (escapeChar c).all isPlain = true := by
  unfold escapeChar
  split
  · rfl
  · rfl
  · rfl
  · rfl
  · rfl
  · rename_i hlt hgt _ _
    simp [isPlain]
    exact ⟨hlt, hgt⟩

/-- Nothing in an escaped text can be taken for a tag. -/
theorem isPlain_escape (text : String) : (escape text).toList.all isPlain = true := by
  rw [escape_eq, String.toList_ofList, List.all_flatMap, List.all_eq_true]
  exact fun c _ => isPlain_escapeChar c

/-! ## Tags -/

/-- A tag with the text in it and the tags in it. The tag of a line break has nothing in it. -/
inductive Tag where
  | newLine
  | named (name text : String) (inside : List Tag)

/-- A text taken apart at its angle brackets: what stands before the first, and each bracket with
what stands behind it. -/
def runs : List Char → List Char × List (Char × List Char)
  | [] => ([], [])
  | c :: rest =>
    let (first, others) := runs rest
    if isPlain c then (c :: first, others) else ([], (c, first) :: others)

/-- Brackets that stand in pairs, as tags: what is between the two, and the text behind them. -/
def paired : List (Char × List Char) → Option (List (List Char × List Char))
  | [] => some []
  | ('<', tag) :: ('>', text) :: rest => (paired rest).map ((tag, text) :: ·)
  | _ => none

/-- A text taken apart into tags: what stands before the first, and each tag with what stands behind
it. A bracket that belongs to no tag is not allowed. -/
def scan (text : List Char) : Option (List Char × List (List Char × List Char)) :=
  (paired (runs text).2).map ((runs text).1, ·)

/-- A tag that has been opened, with the text before the first tag in it and these tags. -/
structure Opened where
  name : List Char
  text : List Char
  inside : List Tag

/-- The part of a text that stands before a line break and spaces at its end. -/
def beforeLineBreak? (text : List Char) : Option (List Char) :=
  match text.reverse.dropWhile (· == ' ') with
  | '\n' :: rest => some rest.reverse
  | _ => none

namespace Opened

/-- More text in a tag. Behind a tag in it there can only be white space. -/
def write (opened : Opened) (text : List Char) : Option Opened :=
  if opened.inside.isEmpty then some { opened with text := opened.text ++ text }
  else if text.all isSpace then some opened
  else none

/-- One more tag in a tag. The first stands on a line of its own. -/
def add (opened : Opened) (tag : Tag) : Option Opened :=
  if opened.inside.isEmpty then
    (beforeLineBreak? opened.text).map fun text => { opened with text, inside := [tag] }
  else some { opened with inside := opened.inside ++ [tag] }

def close (opened : Opened) : Option Tag :=
  (unescape opened.text).map fun text =>
    .named (String.ofList opened.name) (String.ofList text) opened.inside

end Opened

/-- Nests tags: `current` is open, and in it stands what comes next; `outer` are those around it,
the innermost first. The text ends where the outermost tag is closed. -/
def nest : List (List Char × List Char) → Opened → List Opened → Option Tag
  | [], _, _ => none
  | ('/' :: name, text) :: rest, current, outer =>
    if name = current.name then do
      let closed ← current.close
      match outer with
      | [] => if text.isEmpty && rest.isEmpty then some closed else none
      | parent :: outer => nest rest (← (← parent.add closed).write text) outer
    else none
  | (tag, text) :: rest, current, outer =>
    if tag = "newline/".toList then do
      nest rest (← (← current.add .newLine).write text) outer
    else nest rest ⟨tag, text, []⟩ (current :: outer)

/-- The tag that a text is, if it is one. -/
def Tag.read (text : String) : Option Tag :=
  match scan text.toList with
  | some ([], (tag, first) :: rest) => nest rest ⟨tag, first, []⟩ []
  | _ => none

/-- Labels and texts are read back, also if they look like tags or escapes. -/
example : Tag.read "<a>&lt;b&gt; \n  <c>&amp;lt;</c>\n  <newline/>\n</a>" =
    some (.named "a" "<b> " [.named "c" "&lt;" [], .newLine]) := by
  rfl

/-! ## Reading on -/

/-- Reads on within open tags. -/
def follow (text : List Char) (current : Opened) (outer : List Opened) : Option Tag := do
  let (first, tags) ← scan text
  nest tags (← current.write first) outer

theorem runs_plain {text : List Char} (h : text.all isPlain = true) (rest : List Char) :
    runs (text ++ rest) = (text ++ (runs rest).1, (runs rest).2) := by
  induction text with
  | nil => rfl
  | cons c text ih =>
    obtain ⟨hc, htext⟩ := Bool.and_eq_true_iff.mp h
    rw [List.cons_append, runs, ih htext]
    simp only [if_pos hc, List.cons_append]

theorem scan_plain {text : List Char} (h : text.all isPlain = true) (rest : List Char) :
    scan (text ++ rest) = (scan rest).map fun (first, tags) => (text ++ first, tags) := by
  rw [scan, runs_plain h, scan, Option.map_map]
  rfl

/-- A tag is scanned as one, with what stands behind it. -/
theorem scan_tag {tag : List Char} (h : tag.all isPlain = true) (rest : List Char) :
    scan ('<' :: (tag ++ '>' :: rest)) = (scan rest).map fun (first, tags) =>
      ([], (tag, first) :: tags) := by
  have hruns : runs ('<' :: (tag ++ '>' :: rest)) =
      ([], ('<', tag) :: ('>', (runs rest).1) :: (runs rest).2) := by
    have hclose : runs ('>' :: rest) = ([], ('>', (runs rest).1) :: (runs rest).2) := rfl
    rw [runs, runs_plain h, hclose]
    simp [isPlain]
  rw [scan, hruns, scan, paired, Option.map_map, Option.map_map]
  rfl

namespace Opened

theorem write_nil (opened : Opened) : opened.write [] = some opened := by
  unfold write
  split
  · rw [List.append_nil]
  · rfl

theorem write_append (opened : Opened) (first second : List Char) :
    opened.write (first ++ second) = (opened.write first).bind (·.write second) := by
  obtain ⟨name, text, inside⟩ := opened
  cases inside with
  | nil =>
    have hwrite : ∀ text' more, write ⟨name, text', []⟩ more = some ⟨name, text' ++ more, []⟩ :=
      fun _ _ => rfl
    rw [hwrite, hwrite, Option.bind_some, hwrite, List.append_assoc]
  | cons tag inside =>
    have hwrite : ∀ more, write ⟨name, text, tag :: inside⟩ more =
        if more.all isSpace then some ⟨name, text, tag :: inside⟩ else none := fun _ => rfl
    rw [hwrite, hwrite first, List.all_append]
    cases first.all isSpace <;> rfl

end Opened

theorem follow_plain {text : List Char} (h : text.all isPlain = true) (rest : List Char)
    (current : Opened) (outer : List Opened) :
    follow (text ++ rest) current outer =
      (current.write text).bind fun current => follow rest current outer := by
  unfold follow
  rw [scan_plain h]
  cases hscan : scan rest with
  | none => cases current.write text <;> simp
  | some scanned => simp [Opened.write_append, Option.bind_assoc]

def isTagName (name : String) : Bool :=
  name.toList.all isPlain && name.toList.head? != some '/' && name.toList != "newline/".toList

theorem isPlain_of_isTagName {name : String} (h : isTagName name = true) :
    name.toList.all isPlain = true := by
  simp only [isTagName, Bool.and_eq_true] at h
  exact h.1.1

theorem nest_opening {name : String} (h : isTagName name = true) (text : List Char)
    (rest : List (List Char × List Char)) (current : Opened) (outer : List Opened) :
    nest ((name.toList, text) :: rest) current outer =
      nest rest ⟨name.toList, text, []⟩ (current :: outer) := by
  simp only [isTagName, Bool.and_eq_true, bne_iff_ne, ne_eq] at h
  obtain ⟨⟨-, hslash⟩, hnewLine⟩ := h
  rw [nest, if_neg hnewLine]
  intro other hother
  rw [hother] at hslash
  exact hslash rfl

theorem follow_opening {name : String} (h : isTagName name = true) (rest : List Char)
    (current : Opened) (outer : List Opened) :
    follow ('<' :: (name.toList ++ '>' :: rest)) current outer =
      follow rest ⟨name.toList, [], []⟩ (current :: outer) := by
  unfold follow
  rw [scan_tag (isPlain_of_isTagName h)]
  cases scan rest with
  | none => rfl
  | some scanned => simp [nest_opening h, Opened.write]

theorem follow_closing {name : String} (h : name.toList.all isPlain = true) {current : Opened}
    (hname : current.name = name.toList) {closed : Tag} (hclosed : current.close = some closed)
    {parent parent' : Opened} (hadd : parent.add closed = some parent') (rest : List Char)
    (outer : List Opened) :
    follow ('<' :: (('/' :: name.toList) ++ '>' :: rest)) current (parent :: outer) =
      follow rest parent' outer := by
  have hplain : ('/' :: name.toList).all isPlain = true := by simpa [isPlain] using h
  unfold follow
  rw [scan_tag hplain]
  cases scan rest with
  | none => rfl
  | some scanned => simp [Opened.write_nil, nest, hname, hclosed, hadd]

theorem follow_newLine {current current' : Opened} (hadd : current.add .newLine = some current')
    (rest : List Char) (outer : List Opened) :
    follow ('<' :: ("newline/".toList ++ '>' :: rest)) current outer =
      follow rest current' outer := by
  have hplain : "newline/".toList.all isPlain = true := by rfl
  unfold follow
  rw [scan_tag hplain]
  cases scan rest with
  | none => rfl
  | some scanned => simp [Opened.write_nil, nest, hadd]

/-! ## Lines -/

/-- Lines behind others. -/
def onLines (lines : List String) : List Char :=
  lines.flatMap fun line => '\n' :: line.toList

def lineStart (level : Nat) : List Char :=
  '\n' :: List.replicate (2 * level) ' '

theorem isPlain_lineStart (level : Nat) : (lineStart level).all isPlain = true := by
  rw [lineStart, List.all_cons, List.all_eq_true.mpr fun c hc => by
    rw [List.eq_of_mem_replicate hc]; rfl]
  rfl

theorem isSpace_lineStart (level : Nat) : (lineStart level).all isSpace = true := by
  rw [lineStart, List.all_cons, List.all_eq_true.mpr fun c hc => by
    rw [List.eq_of_mem_replicate hc]; rfl]
  rfl

theorem beforeLineBreak?_lineStart (text : List Char) (level : Nat) :
    beforeLineBreak? (text ++ lineStart level) = some text := by
  have hreverse : (text ++ lineStart level).reverse =
      List.replicate (2 * level) ' ' ++ '\n' :: text.reverse := by
    simp [lineStart]
  rw [beforeLineBreak?, hreverse, List.dropWhile_append_of_pos fun c hc => by
    rw [List.eq_of_mem_replicate hc]; rfl]
  simp

namespace Opened

def push (opened : Opened) (tags : List Tag) : Opened :=
  { opened with inside := opened.inside ++ tags }

theorem push_nil (opened : Opened) : opened.push [] = opened := by
  simp [push]

theorem push_push (opened : Opened) (first second : List Tag) :
    (opened.push first).push second = opened.push (first ++ second) := by
  simp [push]

/-- On a new line there is room for a tag. -/
theorem newLine (opened : Opened) (level : Nat) :
    ∃ opened', opened.write (lineStart level) = some opened' ∧
      ∀ tag, opened'.add tag = some (opened.push [tag]) := by
  obtain ⟨name, text, inside⟩ := opened
  cases inside with
  | nil => exact ⟨⟨name, text ++ lineStart level, []⟩, rfl, fun tag => by
      simp [add, push, beforeLineBreak?_lineStart]⟩
  | cons tag inside => exact ⟨⟨name, text, tag :: inside⟩, by
      simp only [write, isSpace_lineStart]; rfl, fun _ => rfl⟩

/-- Behind a tag the front of a line does not matter. -/
theorem write_lineStart {opened : Opened} (h : opened.inside ≠ []) (level : Nat) :
    opened.write (lineStart level) = some opened := by
  rw [write, if_neg (by simpa using h), isSpace_lineStart]
  rfl

end Opened

/-- Lines are read as tags, whatever they stand in and whatever follows. -/
structure ReadAs (lines : List String) (tags : List Tag) : Prop where
  follow_lines : ∀ (rest : List Char) (current : Opened) (outer : List Opened),
    follow (onLines lines ++ rest) current outer = follow rest (current.push tags) outer
  empty : lines = [] ↔ tags = []

theorem readAs_nil : ReadAs [] [] := by
  refine ⟨fun rest current outer => ?_, by simp⟩
  rw [Opened.push_nil]
  rfl

theorem ReadAs.append {first second : List String} {tags more : List Tag} (h : ReadAs first tags)
    (hmore : ReadAs second more) : ReadAs (first ++ second) (tags ++ more) := by
  refine ⟨fun rest current outer => ?_, ?_⟩
  · have hlines : onLines (first ++ second) = onLines first ++ onLines second := List.flatMap_append
    rw [hlines, List.append_assoc, h.follow_lines, hmore.follow_lines, Opened.push_push]
  · rw [List.append_eq_nil_iff, List.append_eq_nil_iff, h.empty, hmore.empty]

/-- Each of several lines is a tag. -/
theorem readAs_map {β : Type} {line : β → String} {tag : β → Tag}
    (h : ∀ item, ReadAs [line item] [tag item]) (items : List β) :
    ReadAs (items.map line) (items.map tag) := by
  induction items with
  | nil => exact readAs_nil
  | cons item items ih => exact (h item).append ih

theorem onLines_line (level : Nat) (text : String) :
    onLines [line level text] = lineStart level ++ text.toList := by
  simp [onLines, line, lineStart]

/-- A line is read as a tag that is added to what it stands in. -/
theorem readAs_line {level : Nat} {text : String} {tag : Tag}
    (h : ∀ (rest : List Char) (current current' : Opened) (outer : List Opened),
      current.add tag = some current' →
        follow (text.toList ++ rest) current outer = follow rest current' outer) :
    ReadAs [line level text] [tag] := by
  refine ⟨fun rest current outer => ?_, by simp⟩
  obtain ⟨current', hwrite, hadd⟩ := current.newLine level
  rw [onLines_line, List.append_assoc, follow_plain (isPlain_lineStart level), hwrite]
  exact h rest current' _ outer (hadd tag)

theorem readAs_newLine (level : Nat) : ReadAs [line level "<newline/>"] [.newLine] :=
  readAs_line fun rest _ _ outer hadd => follow_newLine hadd rest outer

/-- A text between tags. -/
theorem follow_escape (text : String) (rest : List Char) (name : List Char)
    (outer : List Opened) :
    follow ((escape text).toList ++ rest) ⟨name, [], []⟩ outer =
      follow rest ⟨name, (escape text).toList, []⟩ outer := by
  have hwrite : (Opened.mk name [] []).write (escape text).toList =
      some ⟨name, (escape text).toList, []⟩ := by
    simp [Opened.write]
  rw [follow_plain (isPlain_escape text), hwrite, Option.bind_some]

theorem close_escape (name text : String) (inside : List Tag) :
    (Opened.mk name.toList (escape text).toList inside).close = some (.named name text inside) := by
  simp [Opened.close, unescape_escape]

/-- A tag with a text on a line of its own. -/
theorem readAs_leaf (level : Nat) {tag : String} (htag : isTagName tag = true) (text : String) :
    ReadAs [leafLine level tag text] [.named tag text []] := by
  refine readAs_line fun rest current current' outer hadd => ?_
  have htext : (s!"<{tag}>{escape text}</{tag}>").toList ++ rest =
      '<' :: (tag.toList ++ '>' :: ((escape text).toList ++
        '<' :: (('/' :: tag.toList) ++ '>' :: rest))) := by
    simp [toString]
  rw [htext, follow_opening htag, follow_escape]
  exact follow_closing (isPlain_of_isTagName htag) rfl (close_escape tag text []) hadd rest outer

/-- A tag with a label and other tags in it, or with a text alone. -/
theorem readAs_container (level : Nat) {tag : String} (htag : isTagName tag = true)
    (label : String) {content : List String} {inside : List Tag} (h : ReadAs content inside) :
    ReadAs (containerLines level tag label content) [.named tag label inside] := by
  unfold containerLines
  split
  · rename_i hnone
    obtain rfl := h.empty.mp (List.isEmpty_iff.mp hnone)
    exact readAs_leaf level htag label
  · rename_i hsome
    have hinside : inside ≠ [] := fun hnone => hsome (List.isEmpty_iff.mpr (h.empty.mpr hnone))
    refine ⟨fun rest current outer => ?_, by simp⟩
    obtain ⟨current', hwrite, hadd⟩ := current.newLine level
    have hlines : onLines (line level s!"<{tag}>{escape label}" :: content ++
        [line level s!"</{tag}>"]) ++ rest =
        lineStart level ++ ('<' :: (tag.toList ++ '>' :: ((escape label).toList ++
          (onLines content ++ (lineStart level ++
            '<' :: (('/' :: tag.toList) ++ '>' :: rest)))))) := by
      simp [onLines, line, lineStart, toString]
    have hpush : (Opened.mk tag.toList (escape label).toList []).push inside =
        ⟨tag.toList, (escape label).toList, inside⟩ := by
      simp [Opened.push]
    rw [hlines, follow_plain (isPlain_lineStart level), hwrite, Option.bind_some,
      follow_opening htag, follow_escape, h.follow_lines, hpush,
      follow_plain (isPlain_lineStart level), Opened.write_lineStart hinside, Option.bind_some]
    exact follow_closing (isPlain_of_isTagName htag) rfl (close_escape tag label inside) (hadd _)
      rest outer

/-! ## The tree of a document -/

namespace Tag

def ofAttribute {ν : Type} (entry : Attribute (Value ν)) : Tag :=
  match entry.nameValue? with
  | some name => .named "attr" (nameLabel name ++ "=" ++ entry.assigned.display) []
  | none => .named "splat" entry.assigned.display []

/-- The tags of a header besides its base: the attributes in order, and the name behind them. -/
def ofHeader {ν : Type} (header : Header (Value ν)) : List Tag :=
  header.attributes.map ofAttribute ++
    (header.refName.map fun name => .named "ref" name.value.display []).toList

def ofBranch (name : String) (inside : List Tag) : List Tag :=
  if inside.isEmpty then [] else [.named name "" inside]

mutual

def ofNode {ν : Type} : Node (Value ν) → Tag
  | .element header children =>
    .named "element" (baseLabel header.base) (ofHeader header ++ ofNodes children)
  | .text content => .named "text" content []
  | .newLine => .newLine
  | .slot value => .named "slot" value.display []
  | .ifBlock condition thenBranch elseBranch =>
    .named "if" condition.display
      (ofBranch "then" (ofNodes thenBranch) ++ ofBranch "else" (ofNodes elseBranch))
  | .forBlock variableName iterable body =>
    .named "for" (variableName ++ " of " ++ iterable.display) (ofNodes body)

def ofNodes {ν : Type} : List (Node (Value ν)) → List Tag
  | [] => []
  | node :: rest => ofNode node :: ofNodes rest

end

/-- The tag of a document. One without nodes holds nothing but a line break. -/
def ofDocument {ν : Type} (document : Document (Value ν)) : Tag :=
  .named "document" (if document.isEmpty then "\n" else "") (ofNodes document.children)

end Tag

/-! ## Outlines -/

section

variable {ν : Type}

theorem readAs_attribute (level : Nat) (entry : Attribute (Value ν)) :
    ReadAs [attributeLine level entry] [Tag.ofAttribute entry] := by
  unfold attributeLine Tag.ofAttribute
  cases entry.nameValue? with
  | none => exact readAs_leaf level rfl _
  | some name => exact readAs_leaf level rfl _

theorem readAs_header (level : Nat) (header : Header (Value ν)) :
    ReadAs (headerLines level header) (Tag.ofHeader header) := by
  refine (readAs_map (readAs_attribute level) header.attributes).append ?_
  cases header.refName with
  | none => exact readAs_nil
  | some name => exact readAs_leaf level rfl _

theorem readAs_branch (level : Nat) {name : String} (hname : isTagName name = true)
    {content : List String} {inside : List Tag} (h : ReadAs content inside) :
    ReadAs (branchLines level name content) (Tag.ofBranch name inside) := by
  have hsame : content.isEmpty = inside.isEmpty := by
    rw [Bool.eq_iff_iff, List.isEmpty_iff, List.isEmpty_iff, h.empty]
  unfold branchLines Tag.ofBranch
  rw [hsame]
  split
  · exact readAs_nil
  · exact readAs_container level hname "" h

mutual

/-- The lines of a node are read as its tag. -/
theorem readAs_node (node : Node (Value ν)) (level : Nat) :
    ReadAs (nodeLines level node) [Tag.ofNode node] := by
  cases node with
  | element header children =>
    exact readAs_container level rfl _
      ((readAs_header (level + 1) header).append (readAs_nodes children (level + 1)))
  | text content => exact readAs_leaf level rfl content
  | newLine => exact readAs_newLine level
  | slot value => exact readAs_leaf level rfl _
  | ifBlock condition thenBranch elseBranch =>
    exact readAs_container level rfl _
      ((readAs_branch (level + 1) rfl (readAs_nodes thenBranch (level + 2))).append
        (readAs_branch (level + 1) rfl (readAs_nodes elseBranch (level + 2))))
  | forBlock variableName iterable body =>
    exact readAs_container level rfl _ (readAs_nodes body (level + 1))

/-- The lines of several nodes are read as their tags, in order. -/
theorem readAs_nodes (nodes : List (Node (Value ν))) (level : Nat) :
    ReadAs (allLines level nodes) (Tag.ofNodes nodes) := by
  cases nodes with
  | nil => exact readAs_nil
  | cons node rest => exact (readAs_node node level).append (readAs_nodes rest level)

end

/-- A text that begins with a tag is read on within it. -/
theorem read_eq_follow {text : String} {name rest : List Char} (hname : name.all isPlain = true)
    (htext : text.toList = '<' :: (name ++ '>' :: rest)) :
    Tag.read text = follow rest ⟨name, [], []⟩ [] := by
  unfold Tag.read follow
  rw [htext, scan_tag hname]
  cases scan rest with
  | none => rfl
  | some scanned => rfl

/-- The end of an outline closes the document. -/
theorem follow_end (inside : List Tag) :
    follow "\n</document>".toList ⟨"document".toList, [], inside⟩ [] =
      some (.named "document" (if inside.isEmpty then "\n" else "") inside) := by
  cases inside with
  | nil => rfl
  | cons tag inside => rfl

theorem toList_outline (document : Document (Value ν)) :
    document.outline.toList = '<' :: ("document".toList ++ '>' ::
      (onLines (allLines 1 document.children) ++ "\n</document>".toList)) := by
  have hbreaks : ∀ lines : List String,
      '\n' :: (ended lines).toList = onLines lines ++ ['\n'] := by
    intro lines
    induction lines with
    | nil => rfl
    | cons line rest ih =>
      have hline : onLines (line :: rest) = '\n' :: line.toList ++ onLines rest := rfl
      rw [hline, List.append_assoc, ← ih, ended]
      simp
  have htext : document.outline.toList = '<' :: ("document".toList ++ '>' ::
      (('\n' :: (ended (allLines 1 document.children)).toList) ++ "</document>".toList)) := by
    rw [outline_eq]
    simp
  rw [htext, hbreaks, List.append_assoc]
  rfl

/-- **Outlines can be read.** Every document, whatever its texts, names and slot values are, is told
by its outline: read as nested tags, the outline is one tag that has in it a tag for each node, with
the tags of what the node is made of in order, and the text of every tag, once its escapes are
undone, is the label or the text that was written there. -/
theorem read_outline (document : Document (Value ν)) :
    Tag.read document.outline = some (Tag.ofDocument document) := by
  rw [read_eq_follow rfl (toList_outline document),
    (readAs_nodes document.children 1).follow_lines]
  have hempty : document.isEmpty = (Tag.ofNodes document.children).isEmpty := by
    unfold Document.isEmpty
    cases document.children <;> rfl
  rw [Tag.ofDocument, hempty]
  exact follow_end (Tag.ofNodes document.children)

end

end IndentMarkup.Outline

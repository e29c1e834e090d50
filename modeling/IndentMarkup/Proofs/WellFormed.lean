import IndentMarkup.Proofs.Printed
import IndentMarkup.Proofs.SlotsTaken
import Mathlib.Data.List.DropRight

/-! Well-formed documents. Names written as literal text belong to their classes, no text is empty
or holds a line break, and no block begins or ends with one. Every production keeps this, whatever
the input, so every document that is parsed is well formed. -/
namespace IndentMarkup

variable {α : Type}

/-! ## What a well-formed document is -/

/-- Neither the first nor the last of these nodes is a line break. -/
structure Node.Trimmed (nodes : List (Node α)) : Prop where
  first : ∀ node ∈ nodes.head?, node.isNewLine = false
  last : ∀ node ∈ nodes.getLast?, node.isNewLine = false

/-- The literal name of an attribute belongs to its class. -/
def Attribute.WellFormed : Attribute α → Prop
  | .pair name _ | .bare name => name.Literally IsAttributeName
  | .splat _ => True

/-- The literal names of a header belong to their classes. -/
structure Header.WellFormed (header : Header α) : Prop where
  base : header.base.Literally IsTagName
  attributes : ∀ entry ∈ header.attributes, entry.WellFormed
  refName : ∀ name ∈ header.refName, name.Literally IsIdentifier

mutual

/-- The node is well formed, and so is all that it contains. -/
def Node.WellFormed : Node α → Prop
  | .element header children =>
    header.WellFormed ∧ Node.Trimmed children ∧ Node.AllWellFormed children
  | .text content => IsLine content
  | .newLine => True
  | .slot _ => True
  | .ifBlock _ thenBranch elseBranch =>
    (Node.Trimmed thenBranch ∧ Node.AllWellFormed thenBranch) ∧
      Node.Trimmed elseBranch ∧ Node.AllWellFormed elseBranch
  | .forBlock variableName _ body =>
    IsIdentifier variableName ∧ Node.Trimmed body ∧ Node.AllWellFormed body

def Node.AllWellFormed : List (Node α) → Prop
  | [] => True
  | node :: rest => Node.WellFormed node ∧ Node.AllWellFormed rest

end

/-- The nodes make a well-formed block. -/
structure Node.Block (nodes : List (Node α)) : Prop where
  trimmed : Node.Trimmed nodes
  nodes : Node.AllWellFormed nodes

def Document.WellFormed (document : Document α) : Prop :=
  Node.Block document.children

theorem Word.Literally.imp {property other : String → Prop} {word : Word α}
    (h : word.Literally property) (himp : ∀ name, property name → other name) :
    word.Literally other := by
  cases word with
  | text content => exact himp content h
  | slot value => trivial

namespace Node

theorem allWellFormed_iff {nodes : List (Node α)} :
    AllWellFormed nodes ↔ ∀ node ∈ nodes, node.WellFormed := by
  induction nodes with
  | nil => simp [AllWellFormed]
  | cons node rest ih => simp [AllWellFormed, ih]

theorem AllWellFormed.append {front back : List (Node α)} (hfront : AllWellFormed front)
    (hback : AllWellFormed back) : AllWellFormed (front ++ back) := by
  rw [allWellFormed_iff] at *
  intro node hnode
  rcases List.mem_append.mp hnode with hnode | hnode
  · exact hfront node hnode
  · exact hback node hnode

theorem Trimmed.append {front back : List (Node α)} (hfront : Trimmed front)
    (hback : Trimmed back) : Trimmed (front ++ back) := by
  constructor
  · intro node hnode
    cases front with
    | nil => exact hback.first node hnode
    | cons first more => exact hfront.first node hnode
  · intro node hnode
    rw [List.getLast?_append, Option.mem_def, Option.or_eq_some_iff] at hnode
    rcases hnode with hnode | ⟨-, hnode⟩
    · exact hback.last node hnode
    · exact hfront.last node hnode

theorem block_nil : Block ([] : List (Node α)) := by
  refine ⟨⟨?_, ?_⟩, trivial⟩ <;> simp

theorem block_singleton {node : Node α} (hline : node.isNewLine = false) (h : node.WellFormed) :
    Block [node] := by
  refine ⟨⟨?_, ?_⟩, h, trivial⟩ <;> simpa

theorem Block.append {front back : List (Node α)} (hfront : Block front) (hback : Block back) :
    Block (front ++ back) :=
  ⟨hfront.trimmed.append hback.trimmed, hfront.nodes.append hback.nodes⟩

end Node

namespace Parser

open Text (isBlank isSpace)

variable {source rest : Source α}

/-! ## Headers -/

/-- What a word of a class is, if it is not a slot. -/
theorem literally_of_word? {p : Char → Bool} {word : Word α}
    (h : word? p source = some (word, rest)) :
    word.Literally fun name => name.toList ≠ [] ∧ (∀ c ∈ name.toList, p c = true) ∧
      name.toList = charsWhile p source := by
  unfold word? at h
  split at h
  · obtain ⟨rfl, -⟩ := Prod.mk.inj (Option.some.inj h)
    trivial
  · simp only [Option.map_eq_some_iff, Prod.mk.injEq, Prod.exists] at h
    obtain ⟨text, _, hrun, rfl, rfl⟩ := h
    unfold run? at hrun
    split at hrun
    · contradiction
    · rename_i c cs hchars
      obtain ⟨rfl, -⟩ := Prod.mk.inj (Option.some.inj hrun)
      simp only [Word.Literally, String.toList_ofList]
      exact ⟨List.cons_ne_nil _ _, fun d hd => of_mem_charsWhile (hchars ▸ hd), hchars.symm⟩

theorem isIdentifier_of_word? {word : Word α} (h : word? isIdentifierChar source = some (word, rest)) :
    word.Literally IsIdentifier :=
  (literally_of_word? h).imp fun _ hname => ⟨hname.1, hname.2.1⟩

/-- The first character of a run is the first of its input. -/
theorem head?_charsWhile {p : Char → Bool} {c : Char} (hstops : Stops (· == c) source) :
    (charsWhile p source).head? ≠ some c := by
  unfold charsWhile
  split
  · rename_i d rest
    rw [stops_char, beq_eq_false_iff_ne] at hstops
    split
    · simpa using hstops
    · simp
  · simp

/-- The name of an entry that is no splat does not begin as a splat does. -/
theorem isAttributeName_of_word? {word : Word α} (hstar : Stops (· == '*') source)
    (h : word? isNameChar source = some (word, rest)) : word.Literally IsAttributeName := by
  refine (literally_of_word? h).imp fun _ hname => ⟨hname.1, hname.2.1, ?_⟩
  rw [hname.2.2]
  exact head?_charsWhile hstar

theorem isTagName_of_tagName? {name : String} (h : tagName? source = some (name, rest)) :
    IsTagName name := by
  unfold tagName? at h
  simp only at h
  split at h
  · contradiction
  · rename_i c cs hname
    have hfront : c :: cs <+: charsWhile isTagChar source := by
      rw [← hname]
      exact List.rdropWhile_prefix (· == ':') _
    have hlast : c :: cs = (charsWhile isTagChar source).rdropWhile (· == ':') := hname.symm
    split at h
    · contradiction
    · rename_i hdash
      obtain ⟨rfl, -⟩ := Prod.mk.inj (Option.some.inj h)
      constructor
      · simp
      · intro d hd
        rw [String.toList_ofList] at hd
        exact of_mem_charsWhile (hfront.subset hd)
      · simpa using hdash
      · rw [String.toList_ofList]
        intro hcolon
        have hne : (charsWhile isTagChar source).rdropWhile (· == ':') ≠ [] := by
          rw [← hlast]
          exact List.cons_ne_nil _ _
        have hnot := List.rdropWhile_last_not (· == ':') (charsWhile isTagChar source) hne
        rw [hlast, List.getLast?_eq_some_getLast hne] at hcolon
        exact hnot (by simp [Option.some.inj hcolon])

theorem isTagName_of_base? {word : Word α} (h : base? source = some (word, rest)) :
    word.Literally IsTagName := by
  unfold base? at h
  split at h
  · obtain ⟨rfl, -⟩ := Prod.mk.inj (Option.some.inj h)
    trivial
  · simp only [Option.map_eq_some_iff, Prod.mk.injEq, Prod.exists] at h
    obtain ⟨name, _, hname, rfl, rfl⟩ := h
    exact isTagName_of_tagName? hname

theorem isAttributeName_of_shorthandName? {mark : Char} {name : String}
    (h : shorthandName? mark = some name) : IsAttributeName name := by
  unfold shorthandName? at h
  split at h
  · obtain rfl := Option.some.inj h
    decide
  · obtain rfl := Option.some.inj h
    decide
  · contradiction

theorem wellFormed_of_shorthands {found : List (Attribute α)}
    (h : shorthands source = .ok (found, rest)) : ∀ entry ∈ found, entry.WellFormed := by
  fun_induction shorthands source generalizing found with
  | case1 =>
    obtain ⟨rfl, -⟩ := Prod.mk.inj (Except.ok.inj h)
    simp
  | case2 => contradiction
  | case3 mark after name hname value last hvalue ih =>
    obtain ⟨⟨more, final⟩, hmore, h⟩ := of_bind_ok h
    obtain ⟨rfl, rfl⟩ := Prod.mk.inj (Except.ok.inj h)
    exact List.forall_mem_cons.mpr ⟨isAttributeName_of_shorthandName? hname, ih hmore⟩
  | case4 =>
    obtain ⟨rfl, -⟩ := Prod.mk.inj (Except.ok.inj h)
    simp

theorem stops_of_splat? {layout : Layout} (h : splat? layout source = .ok none) :
    Stops (· == '*') (afterWhile layout.isGap source) := by
  unfold splat? at h
  split at h
  · split at h <;> simp at h
  · rename_i hstar
    cases hafter : afterWhile layout.isGap source with
    | nil => trivial
    | cons symbol after =>
      refine stops_cons ?_ after
      rintro rfl
      exact hstar after hafter

theorem wellFormed_of_pair? {layout : Layout} {entry : Attribute α}
    (hsplat : splat? layout source = .ok none)
    (h : pair? layout source = .ok (some (entry, rest))) : entry.WellFormed := by
  unfold pair? at h
  split at h
  · exact absurd h (pure_none_ne _)
  · rename_i name after hname
    obtain ⟨⟨value, last⟩, -, h⟩ := of_bind_ok h
    obtain ⟨rfl, -⟩ := Prod.mk.inj (Option.some.inj (Except.ok.inj h))
    simp only [pairName?, Option.bind_eq_bind, Option.bind_eq_some_iff, Prod.exists] at hname
    obtain ⟨word, behind, hword, hname⟩ := hname
    split at hname
    · obtain ⟨rfl, -⟩ := Prod.mk.inj (Option.some.inj hname)
      exact isAttributeName_of_word? (stops_of_splat? hsplat) hword
    · contradiction

theorem wellFormed_of_bareName? {layout : Layout} {entry : Attribute α}
    (hsplat : splat? layout source = .ok none)
    (h : bareName? layout source = some (entry, rest)) : entry.WellFormed := by
  unfold bareName? at h
  split at h
  · contradiction
  · simp only [Option.map_eq_some_iff, Prod.mk.injEq, Prod.exists] at h
    obtain ⟨word, _, hword, rfl, rfl⟩ := h
    exact isAttributeName_of_word? (stops_of_splat? hsplat) hword

theorem wellFormed_of_attribute? {layout : Layout} {entry : Attribute α}
    (h : attribute? layout source = .ok (some (entry, rest))) : entry.WellFormed := by
  obtain ⟨found, hsplat, h⟩ := of_bind_ok h
  cases found with
  | some found =>
    obtain rfl := Option.some.inj (Except.ok.inj h)
    unfold splat? at hsplat
    split at hsplat
    · split at hsplat
      · obtain ⟨rfl, -⟩ := Prod.mk.inj (Option.some.inj (Except.ok.inj hsplat))
        trivial
      · contradiction
    · exact absurd hsplat (pure_none_ne _)
  | none =>
    obtain ⟨found, hpair, h⟩ := of_bind_ok h
    cases found with
    | some found =>
      obtain rfl := Option.some.inj (Except.ok.inj h)
      exact wellFormed_of_pair? hsplat hpair
    | none => exact wellFormed_of_bareName? hsplat (Except.ok.inj h)

theorem wellFormed_of_inlineAttributes {found : List (Attribute α)}
    (h : inlineAttributes source = .ok (found, rest)) : ∀ entry ∈ found, entry.WellFormed := by
  fun_induction inlineAttributes source generalizing found with
  | case1 => contradiction
  | case2 =>
    obtain ⟨rfl, -⟩ := Prod.mk.inj (Except.ok.inj h)
    simp
  | case3 source entry after hentry ih =>
    obtain ⟨⟨more, last⟩, hmore, h⟩ := of_bind_ok h
    obtain ⟨rfl, rfl⟩ := Prod.mk.inj (Except.ok.inj h)
    exact List.forall_mem_cons.mpr ⟨wellFormed_of_attribute? hentry, ih hmore⟩

theorem wellFormed_of_wrappedAttributes {close : Char} {found : List (Attribute α)}
    (h : wrappedAttributes close source = .ok (found, rest)) :
    ∀ entry ∈ found, entry.WellFormed := by
  fun_induction wrappedAttributes close source generalizing found with
  | case1 => contradiction
  | case2 =>
    obtain ⟨rfl, -⟩ := Prod.mk.inj (Except.ok.inj h)
    simp
  | case3 => contradiction
  | case4 => contradiction
  | case5 source _ _ entry after hentry ih =>
    obtain ⟨⟨more, last⟩, hmore, h⟩ := of_bind_ok h
    obtain ⟨rfl, rfl⟩ := Prod.mk.inj (Except.ok.inj h)
    exact List.forall_mem_cons.mpr ⟨wellFormed_of_attribute? hentry, ih hmore⟩

theorem wellFormed_of_attributes {found : List (Attribute α)}
    (h : attributes source = .ok (found, rest)) : ∀ entry ∈ found, entry.WellFormed := by
  unfold attributes at h
  split at h
  · split at h
    · exact wellFormed_of_wrappedAttributes h
    · exact wellFormed_of_inlineAttributes h
  · exact wellFormed_of_inlineAttributes h

theorem isIdentifier_of_refName {name : Option (Word α)} (h : refName source = .ok (name, rest)) :
    ∀ word ∈ name, word.Literally IsIdentifier := by
  unfold refName at h
  split at h
  · split at h
    · rename_i hword
      obtain ⟨rfl, -⟩ := Prod.mk.inj (Except.ok.inj h)
      simpa using isIdentifier_of_word? hword
    · contradiction
  · obtain ⟨rfl, -⟩ := Prod.mk.inj (Except.ok.inj h)
    simp

/-- The names of a header are well formed, those of its shorthands and the tag that it has without
a base included. -/
theorem wellFormed_header {start : Source α} {named : Naming α} {opening : Opening α}
    (hnaming : naming source = .ok (some (named, start)))
    (hopening : openingRest named start = .ok (opening, rest)) : opening.header.WellFormed := by
  have hnamed : (∀ base ∈ named.base, base.Literally IsTagName) ∧
      ∀ entry ∈ named.shorthands, entry.WellFormed := by
    unfold naming at hnaming
    cases hbase : base? source with
    | none =>
      simp only [hbase] at hnaming
      obtain ⟨⟨found, after⟩, hshort, hnaming⟩ := of_bind_ok hnaming
      simp only at hnaming
      split at hnaming
      · exact absurd hnaming (pure_none_ne _)
      · obtain ⟨rfl, -⟩ := Prod.mk.inj (Option.some.inj (Except.ok.inj hnaming))
        exact ⟨by simp, wellFormed_of_shorthands hshort⟩
    | some base =>
      simp only [hbase] at hnaming
      obtain ⟨⟨found, after⟩, hshort, hnaming⟩ := of_bind_ok hnaming
      simp only at hnaming
      split at hnaming
      · exact absurd hnaming (pure_none_ne _)
      · obtain ⟨rfl, -⟩ := Prod.mk.inj (Option.some.inj (Except.ok.inj hnaming))
        exact ⟨by simpa using isTagName_of_base? hbase, wellFormed_of_shorthands hshort⟩
  obtain ⟨⟨written, behind⟩, hwritten, h⟩ := of_bind_ok hopening
  obtain ⟨⟨name, last⟩, hname, h⟩ := of_bind_ok h
  obtain ⟨rfl, -⟩ := Prod.mk.inj (Except.ok.inj h)
  constructor
  · show (named.base.getD (.text defaultTag)).Literally IsTagName
    cases hbase : named.base with
    | none => exact (by decide : IsTagName defaultTag)
    | some base => exact hnamed.1 base hbase
  · intro entry hentry
    rcases List.mem_append.mp hentry with hentry | hentry
    · exact hnamed.2 entry hentry
    · exact wellFormed_of_attributes hwritten entry hentry
  · exact isIdentifier_of_refName hname

/-! ## Texts -/

/-- The nodes of a line: unless the line is empty, the first is no line break. -/
theorem head?_textLine (source : Source α) :
    (textLine source).1 = [.newLine] ∨ ∀ node ∈ (textLine source).1.head?, node.isNewLine = false := by
  fun_induction textLine source with
  | case1 => exact .inr (by simp)
  | case2 => exact .inr (by simp [Node.isNewLine])
  | case3 => exact .inl rfl
  | case4 => exact .inr (by simp [Node.isNewLine])

theorem wellFormed_textLine (source : Source α) : Node.AllWellFormed (textLine source).1 := by
  fun_induction textLine source with
  | case1 => trivial
  | case2 value rest nodes after hline ih =>
    rw [hline] at ih
    exact ⟨trivial, ih⟩
  | case3 => exact ⟨trivial, trivial⟩
  | case4 c rest hc nodes after hline ih =>
    rw [hline] at ih
    refine ⟨⟨by simp, ?_⟩, ih⟩
    rw [String.toList_ofList, List.mem_cons, not_or]
    refine ⟨fun e => hc e.symm, fun hmem => ?_⟩
    have hinline := of_mem_charsWhile hmem
    exact absurd hinline (by decide)

/-- What is left of an indent is part of it. -/
theorem mem_of_mem_trim {text indent : List Char} {c : Char} (h : c ∈ Indent.trim text indent) :
    c ∈ text := by
  unfold Indent.trim at h
  split at h
  · exact List.mem_of_mem_drop h
  · exact List.mem_of_mem_drop h
  · exact (List.dropWhile_suffix _).subset h
  · exact h

theorem wellFormed_indentText {text : List Char} (h : '\n' ∉ text) :
    Node.AllWellFormed (indentText text : List (Node α)) := by
  unfold indentText
  split
  · trivial
  · rename_i hne
    refine ⟨⟨?_, ?_⟩, trivial⟩
    · simpa using hne
    · simpa using h

/-- A deeper indent consists of blanks where the indent does. -/
theorem blank_deeperIndent? {indent deeper : Indent} (hindent : ∀ c ∈ indent, isBlank c = true)
    (h : deeperIndent? indent source = some (deeper, rest)) : ∀ c ∈ deeper, isBlank c = true := by
  obtain ⟨gap, rfl, -, -⟩ := of_deeperIndent? h
  intro c hc
  rcases List.mem_append.mp hc with hc | hc
  · exact hindent c hc
  · exact gap.blank c hc

theorem wellFormed_continuedText {indent : Indent} (hindent : ∀ c ∈ indent, isBlank c = true)
    (trimmed : Indent) (source : Source α) :
    Node.AllWellFormed (continuedText indent trimmed source).1 := by
  fun_induction continuedText indent trimmed source with
  | case1 source after nodes last hmore _ _ ih =>
    rw [hmore] at ih
    exact ⟨trivial, ih⟩
  | case2 source after nodes last hmore _ _ ih =>
    rw [hmore] at ih
    exact ih
  | case3 => trivial
  | case4 source _ deeper after hdeeper line nodes last hmore ih =>
    rw [hmore] at ih
    refine ((wellFormed_indentText fun hmem => ?_).append (wellFormed_textLine after)).append ih
    have hblank := blank_deeperIndent? hindent hdeeper _ (mem_of_mem_trim hmem)
    exact absurd hblank (by decide)

theorem trimmed_dropTrailingNewLines {nodes : List (Node α)}
    (h : ∀ node ∈ nodes.head?, node.isNewLine = false) :
    Node.Trimmed (dropTrailingNewLines nodes) := by
  have hdrop : dropTrailingNewLines nodes = nodes.rdropWhile Node.isNewLine := rfl
  rw [hdrop]
  constructor
  · intro node hnode
    obtain ⟨dropped, hdropped⟩ := List.rdropWhile_prefix Node.isNewLine nodes
    refine h node ?_
    rw [← hdropped, List.head?_append, Option.mem_def.mp hnode]
    rfl
  · intro node hnode
    cases hne : nodes.rdropWhile Node.isNewLine with
    | nil => simp [hne] at hnode
    | cons first more =>
      have hnil : nodes.rdropWhile Node.isNewLine ≠ [] := by simp [hne]
      have hnot := List.rdropWhile_last_not Node.isNewLine nodes hnil
      rw [List.getLast?_eq_some_getLast hnil, Option.mem_def, Option.some.injEq] at hnode
      rwa [hnode, Bool.not_eq_true] at hnot

theorem block_dropTrailingNewLines {nodes : List (Node α)} (hnodes : Node.AllWellFormed nodes)
    (h : ∀ node ∈ nodes.head?, node.isNewLine = false) :
    Node.Block (dropTrailingNewLines nodes) := by
  refine ⟨trimmed_dropTrailingNewLines h, ?_⟩
  rw [Node.allWellFormed_iff] at *
  exact fun node hnode => hnodes node ((List.rdropWhile_prefix Node.isNewLine nodes).subset hnode)

/-- Nested text begins on a line that is not blank. -/
theorem nestedText?_wellFormed {indent : Indent} {nodes : List (Node α)}
    (hindent : ∀ c ∈ indent, isBlank c = true) (hblank : blankLine? source = none)
    (h : nestedText? indent source = some (nodes, rest)) :
    Node.AllWellFormed nodes ∧ ∀ node ∈ nodes.head?, node.isNewLine = false := by
  simp only [nestedText?, Option.bind_eq_bind, Option.bind_eq_some_iff, Option.pure_def,
    Option.some.injEq, Prod.mk.injEq, Prod.exists] at h
  obtain ⟨deeper, after, hdeeper, rfl, rfl⟩ := h
  refine ⟨(wellFormed_textLine after).append (wellFormed_continuedText hindent _ _), ?_⟩
  have hblanks := blank_deeperIndent? hindent hdeeper
  obtain ⟨gap, -, hsource, hstops⟩ := of_deeperIndent? hdeeper
  have hne : source ≠ [] := by
    rintro rfl
    obtain ⟨hnil, -⟩ := List.append_eq_nil_iff.mp hsource.symm
    have hlength := congrArg List.length hnil
    have hdeep := length_of_deeperIndent? hdeeper
    exact absurd hdeep (Nat.not_lt_zero _)
  have hitem := beginsItem_of_line hblanks hstops hsource hblank hne
  -- An item begins with a slot or with a character of its line, so the line has a first node.
  cases after with
  | nil => contradiction
  | cons symbol after =>
    cases symbol with
    | slot value => simp [textLine, Node.isNewLine]
    | char c =>
      have hc : ¬ c = '\n' := hitem.2
      simp [textLine, hc, Node.isNewLine]

/-- The text of an item begins with no line break. -/
theorem textBody_wellFormed {indent : Indent} {nodes : List (Node α)}
    (hindent : ∀ c ∈ indent, isBlank c = true)
    (h : textBody indent source = (some nodes, rest)) :
    Node.AllWellFormed nodes ∧ ∀ node ∈ nodes.head?, node.isNewLine = false := by
  simp only [textBody] at h
  generalize (textStart indent source).2 = start at h
  split at h
  · split at h
    · rename_i found hnested
      obtain ⟨heq, -⟩ := Prod.mk.inj h
      obtain rfl := Option.some.inj heq
      exact nestedText?_wellFormed hindent (blankLine?_skipBlankLines _) hnested
    · simp at h
  · rename_i hline
    obtain ⟨heq, -⟩ := Prod.mk.inj h
    obtain rfl := Option.some.inj heq
    refine ⟨(wellFormed_textLine start).append (wellFormed_continuedText hindent _ _), ?_⟩
    rcases head?_textLine start with hbreak | hfirst
    · simp [hbreak, isLineBreak] at hline
    · cases hnodes : (textLine start).1 with
      | cons first more => simpa [hnodes] using hfirst
      | nil =>
        -- Only at the end of the input does a line give no nodes, and then nothing follows it.
        have hstart : start = [] := by
          fun_cases textLine start with
          | case1 => rfl
          | _ => simp_all [textLine]
        subst hstart
        have hends := ends_nil (α := α) indent
        simp [textLine, continuedText_eq, hends.notBlank, hends.notDeeper]

theorem block_textItem? {indent : Indent} {nodes : List (Node α)}
    (hindent : ∀ c ∈ indent, isBlank c = true)
    (h : textItem? indent source = some (nodes, rest)) : Node.Block nodes := by
  unfold textItem? at h
  split at h
  · rename_i marker after
    split at h
    · split at h
      · obtain ⟨rfl, -⟩ := Prod.mk.inj (Option.some.inj h)
        exact Node.block_nil
      · rename_i body behind hbody
        obtain ⟨rfl, -⟩ := Prod.mk.inj (Option.some.inj h)
        obtain ⟨hnodes, hfirst⟩ := textBody_wellFormed hindent hbody
        refine (block_dropTrailingNewLines hnodes hfirst).append ?_
        split
        · exact Node.block_singleton rfl (by decide : IsLine " ")
        · exact Node.block_nil
    · contradiction
  · contradiction

theorem block_lineText {indent : Indent} {nodes : List (Node α)}
    (hindent : ∀ c ∈ indent, isBlank c = true)
    (h : lineText indent source = (some nodes, rest)) : Node.Block nodes := by
  simp only [lineText] at h
  split at h
  · simp at h
  · rename_i hline
    have hfirst : ∀ node ∈ (textLine source).1.head?, node.isNewLine = false := by
      rcases head?_textLine source with hbreak | hfirst
      · simp [hbreak, Node.isNewLine] at hline
      · exact hfirst
    split at h
    · rename_i more after hnested
      obtain ⟨heq, -⟩ := Prod.mk.inj h
      obtain rfl := Option.some.inj heq
      obtain ⟨hmore, -⟩ := nestedText?_wellFormed hindent (blankLine?_skipBlankLines _) hnested
      refine block_dropTrailingNewLines ((wellFormed_textLine source).append hmore) ?_
      cases hnodes : (textLine source).1 with
      | nil => simp [hnodes] at hline
      | cons first others => simpa [hnodes] using hfirst
    · obtain ⟨heq, -⟩ := Prod.mk.inj h
      obtain rfl := Option.some.inj heq
      exact block_dropTrailingNewLines (wellFormed_textLine source) hfirst

/-! ## Blocks -/

theorem isIdentifier_of_instructionRest {word variableName : String} {iterable : α}
    (h : instructionRest word source = .ok (.forEach variableName iterable, rest)) :
    IsIdentifier variableName := by
  unfold instructionRest at h
  split at h
  · unfold ifLine at h
    split at h
    · contradiction
    · obtain ⟨_, -, h⟩ := of_bind_ok h
      obtain ⟨hcontra, -⟩ := Prod.mk.inj (Except.ok.inj h)
      contradiction
  · unfold forLine at h
    split at h
    · contradiction
    · rename_i name after hrun
      have hname : word? isIdentifierChar (afterWhile isBlank source) =
          some (.text (String.ofList name), after) := by
        have hslot : slot? (afterWhile isBlank source) = none := by
          unfold slot?
          split
          · rename_i hslot
            rw [hslot] at hrun
            contradiction
          · rfl
        simp [word?, hslot, hrun]
      split at h
      · contradiction
      · split at h
        · contradiction
        · obtain ⟨_, -, h⟩ := of_bind_ok h
          obtain ⟨heq, -⟩ := Prod.mk.inj (Except.ok.inj h)
          obtain ⟨rfl, -⟩ := Instruction.forEach.inj heq
          exact isIdentifier_of_word? hname
  · contradiction

theorem block_nodes {opening : Opening α} {children : List (Node α)}
    (hheader : opening.header.WellFormed) (hchildren : Node.Block children) :
    Node.Block (opening.nodes children) := by
  have hspace : ∀ wanted : Bool, Node.Block (if wanted then [.text " "] else [] : List (Node α)) := by
    intro wanted
    cases wanted with
    | true => exact Node.block_singleton rfl (by decide : IsLine " ")
    | false => exact Node.block_nil
  have helement : Node.Block [Node.element opening.header children] :=
    Node.block_singleton rfl ⟨hheader, hchildren.trimmed, hchildren.nodes⟩
  exact (hspace opening.spaceBefore).append (helement.append (hspace opening.spaceAfter))

/-- What any production reads makes a well-formed block. -/
theorem Reads.block_wellFormed {production : Production} {indent : Indent} {nodes : List (Node α)}
    (h : Reads production indent source nodes rest) (hindent : ∀ c ∈ indent, isBlank c = true) :
    Node.Block nodes := by
  induction h with
  | comment | blankLine | childless | noBlock | noElse | outside | noItem => exact Node.block_nil
  | text _ htext => exact block_textItem? hindent htext
  | elementItem _ _ _ ih => exact ih hindent
  | instructionItem _ _ _ _ ih => exact ih hindent
  | element hnaming hopening _ ih => exact block_nodes (wellFormed_header hnaming hopening) (ih hindent)
  | expansion _ _ ih => exact ih hindent
  | lineText _ hline => exact block_lineText hindent hline
  | lower _ _ _ ih => exact ih hindent
  | deeper hdeeper _ ih => exact ih (blank_deeperIndent? hindent hdeeper)
  | ifThen _ _ _ _ ihthen ihelse =>
    have hthen := ihthen hindent
    have helse := ihelse hindent
    exact Node.block_singleton rfl ⟨⟨hthen.trimmed, hthen.nodes⟩, helse.trimmed, helse.nodes⟩
  | forEach _ hline _ ih =>
    have hbody := ih hindent
    exact Node.block_singleton rfl
      ⟨isIdentifier_of_instructionRest hline, hbody.trimmed, hbody.nodes⟩
  | elseMark _ _ _ ih => exact ih hindent
  | sibling _ _ _ _ ihitem ihmore => exact (ihitem hindent).append (ihmore hindent)
  | block _ _ ihitem ihmore => exact (ihitem hindent).append (ihmore hindent)

end Parser

/-- Every document that is parsed is well formed at every depth. -/
theorem wellFormed_of_parse {source : Source α} {document : Document α}
    (h : parse source = .ok document) : document.WellFormed := by
  rw [parse_eq_ok, Parser.document_eq] at h
  obtain ⟨found, hblock, h⟩ := of_bind_ok h
  cases found with
  | none =>
    obtain ⟨-, rfl⟩ := Parser.of_finish h
    exact Node.block_nil
  | some found =>
    obtain ⟨nodes, rest⟩ := found
    obtain ⟨-, rfl⟩ := Parser.of_finish h
    exact (Parser.reads_block hblock).block_wellFormed fun _ hc => Parser.of_mem_charsWhile hc

/-- A source with text of every kind, a block expansion and blocks of control flow. -/
def Source.varied : Source Nat :=
  ofText "svg:g.a>(k='x'\n on) @n: b one\n    two\n\n" ++
    (ofText "- for x of " ++ .slot 0 :: (ofText "\n  ' \n    deep\n\n  - if " ++
      .slot 1 :: ofText "\n    |\n\n      late\n      later\n"))

theorem wellFormed_of_parse_varied :
    ∃ document, parse Source.varied = .ok document ∧ document.WellFormed := by
  have hok : (parse Source.varied).isOk = true := by decide +kernel
  cases hparsed : parse Source.varied with
  | error failure =>
    rw [hparsed] at hok
    contradiction
  | ok document => exact ⟨document, rfl, wellFormed_of_parse hparsed⟩

end IndentMarkup

import IndentMarkup.Proofs.Reads

/-! The slots that a production takes. Every production takes the slots of its input from the front
and puts them into its nodes in the order in which a document is read; only a comment skips slots.
`Accounts` says so of the input, the slots taken and the rest, and is carried through a derivation
by transitivity. -/
namespace IndentMarkup

open Text (isBlank isSpace)
open Source (ofChars ofText)

variable {α : Type}

/-! ## The slots of a source -/

namespace Source

theorem slots_append (front back : Source α) :
    (front ++ back).slots = front.slots ++ back.slots := by
  induction front with
  | nil => rfl
  | cons symbol front ih => cases symbol <;> simp [slots, ih]

@[simp] theorem slots_ofChars (text : List Char) : (ofChars text : Source α).slots = [] := by
  induction text with
  | nil => rfl
  | cons c text ih => exact ih

theorem firstSegment_ofChars_append (text : List Char) (rest : Source α) :
    firstSegment (ofChars text ++ rest) = text ++ firstSegment rest := by
  induction text with
  | nil => rfl
  | cons c text ih => exact congrArg (c :: ·) ih

theorem laterSegments_ofChars_append (text : List Char) (rest : Source α) :
    laterSegments (ofChars text ++ rest) = laterSegments rest := by
  induction text with
  | nil => rfl
  | cons c text ih => exact ih

/-- A character of a source is a character of one of its segments. -/
theorem mem_segments_of_mem {source : Source α} {c : Char} (h : .char c ∈ source) :
    ∃ text ∈ source.segments, c ∈ text.toList := by
  have hchars : c ∈ source.firstSegment ∨ ∃ text ∈ source.laterSegments, c ∈ text := by
    induction source with
    | nil => contradiction
    | cons symbol rest ih =>
      cases symbol with
      | char d =>
        rcases List.mem_cons.mp h with heq | hrest
        · obtain rfl := Symbol.char.inj heq
          exact .inl (by simp [firstSegment])
        · rcases ih hrest with hfirst | hlater
          · exact .inl (by simp [firstSegment, hfirst])
          · exact .inr hlater
      | slot value =>
        have hrest : .char c ∈ rest := by simpa using h
        rcases ih hrest with hfirst | ⟨text, hmem, hc⟩
        · exact .inr ⟨firstSegment rest, by simp [laterSegments], hfirst⟩
        · exact .inr ⟨text, by simp [laterSegments, hmem], hc⟩
  have hsegment : ∃ text ∈ source.firstSegment :: source.laterSegments, c ∈ text := by
    rcases hchars with hfirst | ⟨text, hmem, hc⟩
    · exact ⟨_, List.mem_cons_self, hfirst⟩
    · exact ⟨text, List.mem_cons_of_mem _ hmem, hc⟩
  obtain ⟨text, hmem, hc⟩ := hsegment
  exact ⟨String.ofList text, List.mem_map_of_mem hmem, by simpa using hc⟩

end Source

/-! ## The slots of a document -/

def Word.slots : Word α → List α
  | .text _ => []
  | .slot value => [value]

/-- The slots of an attribute, its name before its value. -/
def Attribute.slots : Attribute α → List α
  | .pair name value => name.slots ++ value.slots
  | .bare name => name.slots
  | .splat value => [value]

/-- The slots of a header: base, attributes, name. -/
def Header.slots (header : Header α) : List α :=
  header.base.slots ++ (header.attributes.flatMap Attribute.slots ++
    header.refName.toList.flatMap Word.slots)

mutual

/-- The slots of a node, in the order in which a document is read. -/
def Node.slots : Node α → List α
  | .element header children => header.slots ++ Node.slotsOfAll children
  | .text _ => []
  | .newLine => []
  | .slot value => [value]
  | .ifBlock condition thenBranch elseBranch =>
    condition :: (Node.slotsOfAll thenBranch ++ Node.slotsOfAll elseBranch)
  | .forBlock _ iterable body => iterable :: Node.slotsOfAll body

def Node.slotsOfAll : List (Node α) → List α
  | [] => []
  | node :: rest => Node.slots node ++ Node.slotsOfAll rest

end

def Document.slots (document : Document α) : List α :=
  Node.slotsOfAll document.children

theorem Node.slotsOfAll_append (front back : List (Node α)) :
    Node.slotsOfAll (front ++ back) = Node.slotsOfAll front ++ Node.slotsOfAll back := by
  induction front with
  | nil => rfl
  | cons node front ih => simp [Node.slotsOfAll, ih]

/-! ## What is taken from an input -/

namespace Parser

/-- These slots have been taken from `source`, in order, and `rest` is left. Slots are skipped only
where the source has a slash. -/
structure Accounts (source : Source α) (values : List α) (rest : Source α) : Prop where
  suffix : rest <:+ source
  ordered : (values ++ rest.slots).Sublist source.slots
  complete : .char '/' ∉ source → values ++ rest.slots = source.slots

variable {source middle rest : Source α} {values more : List α}

theorem Accounts.refl (source : Source α) : Accounts source [] source :=
  ⟨List.suffix_rfl, List.Sublist.refl _, fun _ => rfl⟩

theorem Accounts.trans (first : Accounts source values middle) (last : Accounts middle more rest) :
    Accounts source (values ++ more) rest := by
  refine ⟨last.suffix.trans first.suffix, ?_, fun hslash => ?_⟩
  · rw [List.append_assoc]
    exact (last.ordered.append_left values).trans first.ordered
  · have hmiddle : .char '/' ∉ middle := fun h => hslash (first.suffix.subset h)
    rw [List.append_assoc, last.complete hmiddle, first.complete hslash]

/-- What a front of the input holds has been taken. -/
theorem accounts_append (front rest : Source α) : Accounts (front ++ rest) front.slots rest := by
  have hslots := Source.slots_append front rest
  exact ⟨List.suffix_append front rest, hslots ▸ List.Sublist.refl _, fun _ => hslots.symm⟩

theorem accounts_ofChars (text : List Char) (rest : Source α) :
    Accounts (ofChars text ++ rest) [] rest := by
  have hfront := accounts_append (ofChars text) rest
  rwa [Source.slots_ofChars] at hfront

theorem accounts_char (c : Char) (rest : Source α) : Accounts (.char c :: rest) [] rest :=
  accounts_append [.char c] rest

theorem accounts_slot (value : α) (rest : Source α) : Accounts (.slot value :: rest) [value] rest :=
  accounts_append [.slot value] rest

/-- Nothing is taken before a step that skips text. -/
theorem Accounts.skip (first : Accounts source [] middle) (last : Accounts middle values rest) :
    Accounts source values rest :=
  first.trans last

/-- Nothing is taken after a step either, if text is skipped there. -/
theorem Accounts.before (first : Accounts source values middle) (last : Accounts middle [] rest) :
    Accounts source values rest := by
  have htrans := first.trans last
  rwa [List.append_nil] at htrans

/-! ## Tokens -/

theorem accounts_afterWhile (p : Char → Bool) (source : Source α) :
    Accounts source [] (afterWhile p source) := by
  have htaken := accounts_ofChars (charsWhile p source) (afterWhile p source)
  rwa [charsWhile_append_afterWhile] at htaken

/-- Within a run, any number of characters can be dropped. -/
theorem accounts_drop {p : Char → Bool} {count : Nat}
    (h : count ≤ (charsWhile p source).length) : Accounts source [] (source.drop count) := by
  have hlength : count ≤ (ofChars (charsWhile p source) : Source α).length := by
    simpa [ofChars] using h
  have htake : source.take count = ofChars ((charsWhile p source).take count) := by
    have hrun := congrArg (List.take count) (charsWhile_append_afterWhile p source)
    rw [List.take_append_of_le_length hlength, ofChars, ← List.map_take] at hrun
    exact hrun.symm
  have htaken := accounts_ofChars ((charsWhile p source).take count) (source.drop count)
  rwa [← htake, List.take_append_drop] at htaken

theorem accounts_run? {p : Char → Bool} {text : List Char} (h : run? p source = some (text, rest)) :
    Accounts source [] rest := by
  unfold run? at h
  split at h
  · contradiction
  · obtain ⟨-, rfl⟩ := Prod.mk.inj (Option.some.inj h)
    exact accounts_afterWhile p source

theorem accounts_literal? {text : List Char} (h : literal? text source = some rest) :
    Accounts source [] rest := by
  rw [literal?_eq_some] at h
  rw [h]
  exact accounts_ofChars text rest

theorem accounts_slot? {value : α} (h : slot? source = some (value, rest)) :
    Accounts source [value] rest := by
  unfold slot? at h
  split at h
  · obtain ⟨rfl, rfl⟩ := Prod.mk.inj (Option.some.inj h)
    exact accounts_slot _ _
  · contradiction

theorem accounts_blankLine? {lineEnd : LineEnd} (h : blankLine? source = some (lineEnd, rest)) :
    Accounts source [] rest := by
  have hblank := accounts_afterWhile isBlank source
  unfold blankLine? at h
  split at h
  · rename_i after heq
    obtain ⟨-, rfl⟩ := Prod.mk.inj (Option.some.inj h)
    rw [heq] at hblank
    exact hblank.skip (accounts_char _ _)
  · rename_i heq
    split at h
    · contradiction
    · obtain ⟨-, rfl⟩ := Prod.mk.inj (Option.some.inj h)
      rwa [heq] at hblank
  · contradiction

theorem accounts_skipBlankLines (source : Source α) :
    Accounts source [] (skipBlankLines source) := by
  fun_induction skipBlankLines source with
  | case1 source lineEnd rest found ih => exact (accounts_blankLine? found).skip ih
  | case2 source => exact .refl source

theorem accounts_deeperIndent? {indent deeper : Indent}
    (h : deeperIndent? indent source = some (deeper, rest)) : Accounts source [] rest := by
  simp only [deeperIndent?, Option.bind_eq_bind, Option.bind_eq_some_iff, Option.pure_def,
    Option.some.injEq, Prod.mk.injEq, Prod.exists] at h
  obtain ⟨_, hliteral, _, _, hrun, _, rfl⟩ := h
  exact (accounts_literal? hliteral).skip (accounts_run? hrun)

/-! ## Headers -/

theorem accounts_word? {p : Char → Bool} {word : Word α} (h : word? p source = some (word, rest)) :
    Accounts source word.slots rest := by
  unfold word? at h
  split at h
  · rename_i hslot
    obtain ⟨rfl, rfl⟩ := Prod.mk.inj (Option.some.inj h)
    exact accounts_slot? hslot
  · simp only [Option.map_eq_some_iff, Prod.mk.injEq, Prod.exists] at h
    obtain ⟨_, _, hrun, rfl, rfl⟩ := h
    exact accounts_run? hrun

/-- A tag name without the colons at its end is no longer than the run that it is taken from. -/
theorem length_tagName_le (source : Source α) :
    (((charsWhile isTagChar source).reverse.dropWhile (· == ':')).reverse).length ≤
      (charsWhile isTagChar source).length := by
  have hsuffix := (List.dropWhile_suffix (· == ':')
    (l := (charsWhile isTagChar source).reverse)).length_le
  simpa using hsuffix

theorem accounts_tagName? {name : String} (h : tagName? source = some (name, rest)) :
    Accounts source [] rest := by
  have hshorter := length_tagName_le source
  unfold tagName? at h
  simp only at h
  split at h
  · contradiction
  · split at h
    · contradiction
    · obtain ⟨-, rfl⟩ := Prod.mk.inj (Option.some.inj h)
      exact accounts_drop hshorter

theorem accounts_base? {word : Word α} (h : base? source = some (word, rest)) :
    Accounts source word.slots rest := by
  unfold base? at h
  split at h
  · rename_i hslot
    obtain ⟨rfl, rfl⟩ := Prod.mk.inj (Option.some.inj h)
    exact accounts_slot? hslot
  · simp only [Option.map_eq_some_iff, Prod.mk.injEq, Prod.exists] at h
    obtain ⟨_, _, hname, rfl, rfl⟩ := h
    exact accounts_tagName? hname

theorem accounts_shorthands {found : List (Attribute α)}
    (h : shorthands source = .ok (found, rest)) :
    Accounts source (found.flatMap Attribute.slots) rest := by
  fun_induction shorthands source generalizing found with
  | case1 =>
    obtain ⟨rfl, rfl⟩ := Prod.mk.inj (Except.ok.inj h)
    exact .refl _
  | case2 => contradiction
  | case3 mark after name hname value last hvalue ih =>
    obtain ⟨⟨more, final⟩, hmore, h⟩ := of_bind_ok h
    obtain ⟨rfl, rfl⟩ := Prod.mk.inj (Except.ok.inj h)
    exact (accounts_char mark after).skip ((accounts_word? hvalue).trans (ih hmore))
  | case4 =>
    obtain ⟨rfl, rfl⟩ := Prod.mk.inj (Except.ok.inj h)
    exact .refl _

theorem accounts_naming {named : Naming α} (h : naming source = .ok (some (named, rest))) :
    Accounts source (named.base.toList.flatMap Word.slots ++
      named.shorthands.flatMap Attribute.slots) rest := by
  unfold naming at h
  cases hbase : base? source with
  | none =>
    simp only [hbase] at h
    obtain ⟨⟨found, after⟩, hshort, h⟩ := of_bind_ok h
    simp only at h
    split at h
    · exact absurd h (pure_none_ne _)
    · obtain ⟨rfl, rfl⟩ := Prod.mk.inj (Option.some.inj (Except.ok.inj h))
      exact accounts_shorthands hshort
  | some base =>
    simp only [hbase] at h
    obtain ⟨⟨found, after⟩, hshort, h⟩ := of_bind_ok h
    simp only at h
    split at h
    · exact absurd h (pure_none_ne _)
    · obtain ⟨rfl, rfl⟩ := Prod.mk.inj (Option.some.inj (Except.ok.inj h))
      simpa using (accounts_base? hbase).trans (accounts_shorthands hshort)

theorem accounts_splat? {layout : Layout} {entry : Attribute α}
    (h : splat? layout source = .ok (some (entry, rest))) :
    Accounts source entry.slots rest := by
  have hgap := accounts_afterWhile layout.isGap source
  unfold splat? at h
  split at h
  · rename_i after heq
    rw [heq] at hgap
    split at h
    · rename_i value last hslot
      obtain ⟨rfl, rfl⟩ := Prod.mk.inj (Option.some.inj (Except.ok.inj h))
      have hstar := (accounts_char '*' after).skip (accounts_afterWhile layout.isGap after)
      exact hgap.skip (hstar.skip (accounts_slot? hslot))
    · contradiction
  · exact absurd h (pure_none_ne _)

theorem accounts_pairName? {layout : Layout} {name : Word α}
    (h : pairName? layout source = some (name, rest)) : Accounts source name.slots rest := by
  simp only [pairName?, Option.bind_eq_bind, Option.bind_eq_some_iff, Prod.exists] at h
  obtain ⟨_, after, hword, h⟩ := h
  have hgap := accounts_afterWhile layout.isGap source
  have hmore := accounts_afterWhile layout.isGap after
  split at h
  · rename_i last heq
    obtain ⟨rfl, rfl⟩ := Prod.mk.inj (Option.some.inj h)
    rw [heq] at hmore
    have hequals := (accounts_char '=' last).skip (accounts_afterWhile layout.isGap last)
    exact hgap.skip ((accounts_word? hword).before (hmore.skip hequals))
  · contradiction

theorem accounts_quotedRest {quote : Char} {word : Word α}
    (h : quotedRest quote source = .ok (word, rest)) : Accounts source word.slots rest := by
  have hinside := accounts_afterWhile (fun c => c != '\n' && c != quote) source
  unfold quotedRest at h
  simp only at h
  split at h
  · rename_i c after heq
    rw [heq] at hinside
    split at h
    · obtain ⟨rfl, rfl⟩ := Prod.mk.inj (Except.ok.inj h)
      exact hinside.skip (accounts_char c _)
    · contradiction
  · contradiction

theorem accounts_attributeValue {layout : Layout} {word : Word α}
    (h : attributeValue layout source = .ok (word, rest)) : Accounts source word.slots rest := by
  unfold attributeValue at h
  split at h
  · obtain ⟨rfl, rfl⟩ := Prod.mk.inj (Except.ok.inj h)
    exact accounts_slot _ _
  · exact (accounts_char '"' _).skip (accounts_quotedRest h)
  · exact (accounts_char '\'' _).skip (accounts_quotedRest h)
  · obtain ⟨rfl, rfl⟩ := Prod.mk.inj (Except.ok.inj h)
    refine accounts_drop (p := isValueChar) ?_
    unfold unquoted
    cases layout with
    | inline => exact Nat.le_refl _
    | wrapped close => exact (List.takeWhile_prefix _).length_le

theorem accounts_pair? {layout : Layout} {entry : Attribute α}
    (h : pair? layout source = .ok (some (entry, rest))) : Accounts source entry.slots rest := by
  unfold pair? at h
  split at h
  · exact absurd h (pure_none_ne _)
  · rename_i name after hname
    obtain ⟨⟨value, last⟩, hvalue, h⟩ := of_bind_ok h
    obtain ⟨rfl, rfl⟩ := Prod.mk.inj (Option.some.inj (Except.ok.inj h))
    exact (accounts_pairName? hname).trans (accounts_attributeValue hvalue)

theorem accounts_bareName? {layout : Layout} {entry : Attribute α}
    (h : bareName? layout source = some (entry, rest)) : Accounts source entry.slots rest := by
  unfold bareName? at h
  split at h
  · contradiction
  · simp only [Option.map_eq_some_iff, Prod.mk.injEq, Prod.exists] at h
    obtain ⟨_, _, hword, rfl, rfl⟩ := h
    exact (accounts_afterWhile _ source).skip (accounts_word? hword)

/-- An attempt that is given up takes nothing: the next one begins where it began. -/
theorem accounts_attribute? {layout : Layout} {entry : Attribute α}
    (h : attribute? layout source = .ok (some (entry, rest))) :
    Accounts source entry.slots rest := by
  obtain ⟨found, hsplat, h⟩ := of_bind_ok h
  cases found with
  | some found =>
    obtain rfl := Option.some.inj (Except.ok.inj h)
    exact accounts_splat? hsplat
  | none =>
    obtain ⟨found, hpair, h⟩ := of_bind_ok h
    cases found with
    | some found =>
      obtain rfl := Option.some.inj (Except.ok.inj h)
      exact accounts_pair? hpair
    | none => exact accounts_bareName? (Except.ok.inj h)

theorem accounts_inlineAttributes {found : List (Attribute α)}
    (h : inlineAttributes source = .ok (found, rest)) :
    Accounts source (found.flatMap Attribute.slots) rest := by
  fun_induction inlineAttributes source generalizing found with
  | case1 => contradiction
  | case2 =>
    obtain ⟨rfl, rfl⟩ := Prod.mk.inj (Except.ok.inj h)
    exact .refl _
  | case3 source entry after hentry ih =>
    obtain ⟨⟨more, last⟩, hmore, h⟩ := of_bind_ok h
    obtain ⟨rfl, rfl⟩ := Prod.mk.inj (Except.ok.inj h)
    exact (accounts_attribute? hentry).trans (ih hmore)

theorem accounts_wrappedAttributes {close : Char} {found : List (Attribute α)}
    (h : wrappedAttributes close source = .ok (found, rest)) :
    Accounts source (found.flatMap Attribute.slots) rest := by
  fun_induction wrappedAttributes close source generalizing found with
  | case1 => contradiction
  | case2 source _ after hclose =>
    obtain ⟨rfl, rfl⟩ := Prod.mk.inj (Except.ok.inj h)
    exact (accounts_afterWhile isSpace source).skip (accounts_literal? hclose)
  | case3 => contradiction
  | case4 => contradiction
  | case5 source _ _ entry after hentry ih =>
    obtain ⟨⟨more, last⟩, hmore, h⟩ := of_bind_ok h
    obtain ⟨rfl, rfl⟩ := Prod.mk.inj (Except.ok.inj h)
    exact (accounts_attribute? hentry).trans (ih hmore)

theorem accounts_attributes {found : List (Attribute α)}
    (h : attributes source = .ok (found, rest)) :
    Accounts source (found.flatMap Attribute.slots) rest := by
  have hblank := accounts_afterWhile isBlank source
  unfold attributes at h
  split at h
  · rename_i opening after heq
    rw [heq] at hblank
    split at h
    · exact hblank.skip ((accounts_char opening after).skip (accounts_wrappedAttributes h))
    · exact accounts_inlineAttributes h
  · exact accounts_inlineAttributes h

theorem accounts_refName {name : Option (Word α)} (h : refName source = .ok (name, rest)) :
    Accounts source (name.toList.flatMap Word.slots) rest := by
  have hblank := accounts_afterWhile isBlank source
  unfold refName at h
  split at h
  · rename_i after heq
    rw [heq] at hblank
    split at h
    · rename_i word last hword
      obtain ⟨rfl, rfl⟩ := Prod.mk.inj (Except.ok.inj h)
      simpa using hblank.skip ((accounts_char '@' after).skip (accounts_word? hword))
    · contradiction
  · obtain ⟨rfl, rfl⟩ := Prod.mk.inj (Except.ok.inj h)
    exact .refl _

theorem accounts_openingRest {named : Naming α} {opening : Opening α}
    (h : openingRest named source = .ok (opening, rest)) :
    ∃ taken, Accounts source taken rest ∧
      opening.header.slots = named.base.toList.flatMap Word.slots ++
        named.shorthands.flatMap Attribute.slots ++ taken := by
  obtain ⟨⟨written, start⟩, hwritten, h⟩ := of_bind_ok h
  obtain ⟨⟨name, last⟩, hname, h⟩ := of_bind_ok h
  obtain ⟨rfl, rfl⟩ := Prod.mk.inj (Except.ok.inj h)
  have hspacers := accounts_afterWhile isSpacer source
  refine ⟨_, hspacers.skip ((accounts_attributes hwritten).trans (accounts_refName hname)), ?_⟩
  cases named.base <;> simp [Header.slots, Word.slots]

/-- The spaces around an element hold no slots. -/
theorem slotsOfAll_nodes (opening : Opening α) (children : List (Node α)) :
    Node.slotsOfAll (opening.nodes children) =
      opening.header.slots ++ Node.slotsOfAll children := by
  obtain ⟨header, spaceBefore, spaceAfter⟩ := opening
  cases spaceBefore <;> cases spaceAfter <;>
    simp [Opening.nodes, Node.slotsOfAll, Node.slots]

/-! ## Comments and texts -/

theorem suffix_skipLine (source : Source α) : skipLine source <:+ source := by
  fun_induction skipLine source with
  | case1 => exact List.suffix_rfl
  | case2 rest => exact List.suffix_cons _ rest
  | case3 symbol rest _ ih => exact ih.trans (List.suffix_cons symbol rest)

theorem suffix_skipDeeperLines (indent : Indent) (source : Source α) :
    skipDeeperLines indent source <:+ source := by
  fun_induction skipDeeperLines indent source with
  | case1 source _ rest found ih =>
    exact ih.trans ((suffix_skipLine rest).trans (accounts_deeperIndent? found).suffix)
  | case2 source _ _ _ ih => exact ih.trans (suffix_skipLine source)
  | case3 source => exact List.suffix_rfl

/-- A comment begins with a slash, so it may skip slots. -/
theorem accounts_comment? {indent : Indent} (h : comment? indent source = some rest) :
    Accounts source [] rest := by
  unfold comment? at h
  split at h
  · rename_i after
    obtain rfl := Option.some.inj h
    have hsuffix : skipDeeperLines indent (skipLine after) <:+ .char '/' :: after :=
      (suffix_skipDeeperLines indent _).trans
        ((suffix_skipLine after).trans (List.suffix_cons _ after))
    refine ⟨hsuffix, ?_, fun hslash => absurd List.mem_cons_self hslash⟩
    obtain ⟨front, hfront⟩ := hsuffix
    rw [← hfront, Source.slots_append]
    exact List.sublist_append_right _ _
  · contradiction

theorem accounts_textLine (source : Source α) :
    Accounts source (Node.slotsOfAll (textLine source).1) (textLine source).2 := by
  fun_induction textLine source with
  | case1 => exact .refl _
  | case2 value rest nodes after line ih =>
    rw [line] at ih
    exact (accounts_slot value rest).trans ih
  | case3 => exact accounts_char _ _
  | case4 c rest hc nodes after line ih =>
    rw [line] at ih
    exact (accounts_char c rest).skip ((accounts_afterWhile inLine rest).skip ih)

theorem accounts_continuedText (indent trimmed : Indent) (source : Source α) :
    Accounts source (Node.slotsOfAll (continuedText indent trimmed source).1)
      (continuedText indent trimmed source).2 := by
  fun_induction continuedText indent trimmed source with
  | case1 source after nodes last more _ found ih =>
    rw [more] at ih
    exact (accounts_blankLine? found).skip ih
  | case2 source after nodes last more _ found ih =>
    rw [more] at ih
    exact (accounts_blankLine? found).skip ih
  | case3 source => exact .refl source
  | case4 source _ deeper rest found line nodes after run ih =>
    rw [run] at ih
    have hline := accounts_textLine rest
    have hindent : Node.slotsOfAll (indentText (Indent.trim deeper trimmed) : List (Node α)) = [] := by
      unfold indentText
      split <;> rfl
    simp only [Node.slotsOfAll_append, hindent, List.nil_append]
    exact (accounts_deeperIndent? found).skip (hline.trans ih)

theorem accounts_nestedText? {indent : Indent} {nodes : List (Node α)}
    (h : nestedText? indent source = some (nodes, rest)) :
    Accounts source (Node.slotsOfAll nodes) rest := by
  simp only [nestedText?, Option.bind_eq_bind, Option.bind_eq_some_iff, Option.pure_def,
    Option.some.injEq, Prod.mk.injEq, Prod.exists] at h
  obtain ⟨deeper, after, hdeeper, rfl, rfl⟩ := h
  rw [Node.slotsOfAll_append]
  exact (accounts_deeperIndent? hdeeper).skip
    ((accounts_textLine after).trans (accounts_continuedText indent deeper _))

theorem accounts_textStart (indent : Indent) (source : Source α) :
    Accounts source [] (textStart indent source).2 := by
  unfold textStart
  split
  · exact accounts_char ' ' _
  · exact .refl _

/-- A line break is all that is taken where no text is found. -/
theorem accounts_textBody {indent : Indent} {nodes : Option (List (Node α))}
    (h : textBody indent source = (nodes, rest)) :
    Accounts source (nodes.elim [] Node.slotsOfAll) rest := by
  have hstart := accounts_textStart indent source
  have hline := accounts_textLine (textStart indent source).2
  unfold textBody at h
  simp only at h
  split at h
  · rename_i hbreak
    have hnone : Node.slotsOfAll (textLine (textStart indent source).2).1 = [] := by
      unfold isLineBreak at hbreak
      split at hbreak
      · rename_i heq
        rw [heq]
        rfl
      · contradiction
    rw [hnone] at hline
    have hskip := hstart.skip (hline.skip (accounts_skipBlankLines _))
    split at h
    · rename_i found last hnested
      obtain ⟨rfl, rfl⟩ := Prod.mk.inj h
      exact hskip.skip (accounts_nestedText? hnested)
    · obtain ⟨rfl, rfl⟩ := Prod.mk.inj h
      exact hskip
  · obtain ⟨rfl, rfl⟩ := Prod.mk.inj h
    simp only [Option.elim, Node.slotsOfAll_append]
    exact hstart.skip (hline.trans (accounts_continuedText indent _ _))

/-- Line breaks hold no slots. -/
theorem slotsOfAll_newLines {nodes : List (Node α)} (h : ∀ node ∈ nodes, node.isNewLine = true) :
    Node.slotsOfAll nodes = [] := by
  induction nodes with
  | nil => rfl
  | cons node nodes ih =>
    have hmore := ih fun other hother => h other (List.mem_cons_of_mem _ hother)
    cases node with
    | newLine => exact hmore
    | _ => exact absurd (h _ List.mem_cons_self) (by simp [Node.isNewLine])

/-- No slot is lost with the line breaks at the end of a text. -/
theorem slotsOfAll_dropTrailingNewLines (nodes : List (Node α)) :
    Node.slotsOfAll (dropTrailingNewLines nodes) = Node.slotsOfAll nodes := by
  have hnodes : dropTrailingNewLines nodes ++ (nodes.reverse.takeWhile Node.isNewLine).reverse =
      nodes := by
    rw [dropTrailingNewLines, ← List.reverse_append, List.takeWhile_append_dropWhile,
      List.reverse_reverse]
  have hdropped : Node.slotsOfAll (nodes.reverse.takeWhile Node.isNewLine).reverse = [] := by
    refine slotsOfAll_newLines fun node hnode => ?_
    exact List.all_eq_true.mp List.all_takeWhile node (List.mem_reverse.mp hnode)
  have hslots := congrArg Node.slotsOfAll hnodes
  rwa [Node.slotsOfAll_append, hdropped, List.append_nil] at hslots

theorem accounts_textItem? {indent : Indent} {nodes : List (Node α)}
    (h : textItem? indent source = some (nodes, rest)) :
    Accounts source (Node.slotsOfAll nodes) rest := by
  unfold textItem? at h
  split at h
  · rename_i marker after
    have hmarker := accounts_char marker after
    split at h
    · split at h
      · rename_i last hbody
        obtain ⟨rfl, rfl⟩ := Prod.mk.inj (Option.some.inj h)
        exact hmarker.skip (accounts_textBody hbody)
      · rename_i found last hbody
        obtain ⟨rfl, rfl⟩ := Prod.mk.inj (Option.some.inj h)
        have hspace : Node.slotsOfAll
            (if marker = '\'' then [.text " "] else [] : List (Node α)) = [] := by
          split <;> rfl
        rw [Node.slotsOfAll_append, hspace, List.append_nil, slotsOfAll_dropTrailingNewLines]
        exact hmarker.skip (accounts_textBody hbody)
    · contradiction
  · contradiction

/-- Where an element has no text on its line, that line holds no slots. -/
theorem accounts_lineText {indent : Indent} {nodes : Option (List (Node α))}
    (h : lineText indent source = (nodes, rest)) :
    Accounts source (nodes.elim [] Node.slotsOfAll) rest := by
  have hline := accounts_textLine source
  have hskip := accounts_skipBlankLines (textLine source).2
  unfold lineText at h
  simp only at h
  split at h
  · rename_i hbreaks
    obtain ⟨rfl, rfl⟩ := Prod.mk.inj h
    have hnone : Node.slotsOfAll (textLine source).1 = [] := slotsOfAll_newLines (List.all_eq_true.mp hbreaks)
    rw [hnone] at hline
    exact hline.skip hskip
  · split at h
    · rename_i more last hnested
      obtain ⟨rfl, rfl⟩ := Prod.mk.inj h
      simp only [Option.elim, slotsOfAll_dropTrailingNewLines, Node.slotsOfAll_append]
      exact hline.trans (hskip.skip (accounts_nestedText? hnested))
    · obtain ⟨rfl, rfl⟩ := Prod.mk.inj h
      simp only [Option.elim, slotsOfAll_dropTrailingNewLines]
      exact hline.before hskip

/-! ## Control flow -/

theorem accounts_instructionWord? {word : String} (h : instructionWord? source = some (word, rest)) :
    Accounts source [] rest := by
  unfold instructionWord? at h
  split at h
  · rename_i after
    simp only [Option.map_eq_some_iff, Prod.mk.injEq, Prod.exists] at h
    obtain ⟨_, _, hrun, _, rfl⟩ := h
    exact (accounts_char '-' after).skip
      ((accounts_afterWhile isBlank after).skip (accounts_run? hrun))
  · contradiction

theorem accounts_instructionName {word : String}
    (h : instructionName source = .ok (some (word, rest))) : Accounts source [] rest := by
  unfold instructionName at h
  split at h
  · split at h
    · contradiction
    · rename_i found hword
      obtain rfl := Option.some.inj (Except.ok.inj h)
      exact accounts_instructionWord? hword
  · exact absurd h (pure_none_ne _)

theorem accounts_endOfLine {part : LinePart} (h : endOfLine part source = .ok rest) :
    Accounts source [] rest := by
  unfold endOfLine at h
  split at h
  · rename_i lineEnd after hblank
    obtain rfl := Except.ok.inj h
    exact accounts_blankLine? hblank
  · split at h
    · obtain rfl := Except.ok.inj h
      exact .refl _
    · contradiction

theorem accounts_elseMark? {indent : Indent} (h : elseMark? indent source = some rest) :
    Accounts source [] rest := by
  simp only [elseMark?, Option.bind_eq_bind, Option.bind_eq_some_iff] at h
  obtain ⟨after, hliteral, h⟩ := h
  split at h
  · rename_i last hword
    obtain rfl := Option.some.inj h
    exact (accounts_literal? hliteral).skip (accounts_instructionWord? hword)
  · contradiction

theorem accounts_ofMark? (h : ofMark? source = some rest) : Accounts source [] rest := by
  simp only [ofMark?, Option.bind_eq_bind, Option.bind_eq_some_iff, Option.pure_def,
    Option.some.injEq, Prod.exists] at h
  obtain ⟨_, _, hrun, after, hliteral, rfl⟩ := h
  exact (accounts_run? hrun).skip
    ((accounts_literal? hliteral).skip (accounts_afterWhile isBlank after))

def Instruction.slot : Instruction α → α
  | .ifThen condition => condition
  | .forEach _ iterable => iterable

theorem accounts_ifLine {found : Instruction α} (h : ifLine source = .ok (found, rest)) :
    Accounts source [found.slot] rest := by
  unfold ifLine at h
  split at h
  · contradiction
  · rename_i condition after hslot
    obtain ⟨last, hend, h⟩ := of_bind_ok h
    obtain ⟨rfl, rfl⟩ := Prod.mk.inj (Except.ok.inj h)
    exact (accounts_slot? hslot).before (accounts_endOfLine hend)

theorem accounts_forLine {found : Instruction α} (h : forLine source = .ok (found, rest)) :
    Accounts source [found.slot] rest := by
  unfold forLine at h
  split at h
  · contradiction
  · rename_i name after hname
    split at h
    · contradiction
    · rename_i start hmark
      split at h
      · contradiction
      · rename_i iterable inner hslot
        obtain ⟨last, hend, h⟩ := of_bind_ok h
        obtain ⟨rfl, rfl⟩ := Prod.mk.inj (Except.ok.inj h)
        have hvalue := (accounts_slot? hslot).before (accounts_endOfLine hend)
        exact (accounts_run? hname).skip ((accounts_ofMark? hmark).skip hvalue)

theorem accounts_instructionRest {word : String} {found : Instruction α}
    (h : instructionRest word source = .ok (found, rest)) : Accounts source [found.slot] rest := by
  have hblank := accounts_afterWhile isBlank source
  unfold instructionRest at h
  split at h
  · exact hblank.skip (accounts_ifLine h)
  · exact hblank.skip (accounts_forLine h)
  · contradiction

/-! ## Derivations -/

theorem accounts_skipOneBlank (source : Source α) : Accounts source [] (skipOneBlank source) := by
  unfold skipOneBlank
  split
  · split
    · exact accounts_char _ _
    · exact .refl _
  · exact .refl _

theorem accounts_expansion? (h : expansion? source = some rest) : Accounts source [] rest := by
  have hblank := accounts_afterWhile isBlank source
  unfold expansion? at h
  split at h
  · rename_i after heq
    obtain rfl := Option.some.inj h
    rw [heq] at hblank
    exact hblank.skip ((accounts_char ':' after).skip (accounts_afterWhile isBlank after))
  · contradiction

/-- What a production reads holds the slots it has taken. -/
theorem Reads.accounts {production : Production} {indent : Indent} {nodes : List (Node α)}
    (h : Reads production indent source nodes rest) :
    Accounts source (Node.slotsOfAll nodes) rest := by
  induction h with
  | comment hcomment => exact accounts_comment? hcomment
  | text _ htext => exact accounts_textItem? htext
  | elementItem _ _ _ ih => exact ih
  | instructionItem _ _ _ _ ih => exact ih
  | blankLine _ _ _ _ hblank => exact accounts_blankLine? hblank
  | element hnaming hopening _ ih =>
    obtain ⟨taken, htaken, hslots⟩ := accounts_openingRest hopening
    rw [slotsOfAll_nodes, hslots]
    exact ((accounts_naming hnaming).trans htaken).trans ih
  | @expansion _ source _ _ _ hcolon _ ih =>
    exact (accounts_skipOneBlank source).skip ((accounts_expansion? hcolon).skip ih)
  | @lineText _ source _ _ _ hline =>
    exact (accounts_skipOneBlank source).skip (accounts_lineText hline)
  | @lower _ source _ _ _ _ hline _ ih =>
    have hinner := accounts_lineText hline
    exact (accounts_skipOneBlank source).skip (Accounts.skip hinner ih)
  | @childless _ source _ => exact accounts_skipBlankLines source
  | @deeper _ _ source _ _ _ hdeeper _ ih =>
    exact (accounts_skipBlankLines source).skip ((accounts_deeperIndent? hdeeper).skip ih)
  | @noBlock _ _ source _ hdeeper _ =>
    exact (accounts_skipBlankLines source).skip (accounts_deeperIndent? hdeeper)
  | ifThen hname hline _ _ ihthen ihelse =>
    have hstart := (accounts_instructionName hname).skip (accounts_instructionRest hline)
    simpa [Node.slotsOfAll, Node.slots, Instruction.slot] using hstart.trans (ihthen.trans ihelse)
  | forEach hname hline _ ih =>
    have hstart := (accounts_instructionName hname).skip (accounts_instructionRest hline)
    simpa [Node.slotsOfAll, Node.slots, Instruction.slot] using hstart.trans ih
  | noElse => exact .refl _
  | elseMark hmark hend _ ih =>
    exact (accounts_elseMark? hmark).skip ((accounts_endOfLine hend).skip ih)
  | outside => exact .refl _
  | noItem => exact .refl _
  | sibling hindent _ _ _ ihitem ihmore =>
    rw [Node.slotsOfAll_append]
    exact (accounts_literal? hindent).skip (ihitem.trans ihmore)
  | block _ _ ihitem ihmore =>
    rw [Node.slotsOfAll_append]
    exact ihitem.trans ihmore

/-- A document is finished where no input is left. -/
theorem of_finish {base : Indent} {nodes : List (Node α)} {document : Document α}
    (h : finish base nodes source = .ok document) : source = [] ∧ document = ⟨nodes⟩ := by
  unfold finish at h
  split at h
  · rename_i hrest
    obtain rfl := Except.ok.inj h
    exact ⟨List.isEmpty_iff.mp hrest, rfl⟩
  · contradiction

/-- The document of a source accounts for all of it. -/
theorem accounts_document {document : Document α} (h : Parser.document source = .ok document) :
    Accounts source document.slots [] := by
  have hfirst : Accounts source [] (firstItem source) :=
    (accounts_skipBlankLines source).skip (accounts_afterWhile isBlank _)
  rw [document_eq] at h
  obtain ⟨found, hblock, h⟩ := of_bind_ok h
  cases found with
  | none =>
    obtain ⟨hrest, rfl⟩ := of_finish h
    rwa [hrest] at hfirst
  | some found =>
    obtain ⟨nodes, rest⟩ := found
    obtain ⟨rfl, rfl⟩ := of_finish h
    exact hfirst.skip (reads_block hblock).accounts

end Parser

end IndentMarkup

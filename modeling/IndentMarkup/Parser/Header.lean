import IndentMarkup.Document.Basic
import IndentMarkup.Parser.Failure
import IndentMarkup.Parser.Token

/-! Element headers: the base with its shorthands, the spacers, the attribute list and the name
under which the element is bound. A production answers `none` where it does not apply; then it has
taken nothing. -/
namespace IndentMarkup.Parser

open Text (isBlank isSpace)

variable {α : Type}

/-! ## Character classes -/

/-- Characters of a word: letters, digits and the underscore. -/
def isWordChar (c : Char) : Bool :=
  c.isAlphanum || c == '_'

/-- Characters of an identifier: those of a word, and the dash. -/
def isIdentifierChar (c : Char) : Bool :=
  isWordChar c || c == '-'

/-- Characters of a tag name: those of an identifier, and the colon. -/
def isTagChar (c : Char) : Bool :=
  isIdentifierChar c || c == ':'

/-- Characters that end an attribute name, besides white space. -/
def isNameStop (c : Char) : Bool :=
  ['"', '\'', '<', '>', '=', '(', ')', '{', '}', '[', ']', '/'].contains c

def isNameChar (c : Char) : Bool :=
  !isSpace c && !isNameStop c

/-- Characters that end a value without quotes, besides white space. -/
def isValueStop (c : Char) : Bool :=
  ['"', '\'', '<', '>', '=', '/'].contains c

def isValueChar (c : Char) : Bool :=
  !isSpace c && !isValueStop c

/-! ## Words -/

/-- A slot, or a run of characters of a class. -/
def word? (p : Char → Bool) (source : Source α) : Option (Word α × Source α) :=
  match slot? source with
  | some (value, rest) => some (.slot value, rest)
  | none => (run? p source).map fun (text, rest) => (.text (String.ofList text), rest)

theorem length_of_word? {p : Char → Bool} {source rest : Source α} {word : Word α}
    (h : word? p source = some (word, rest)) : rest.length < source.length := by
  unfold word? at h
  split at h
  · rename_i found
    obtain ⟨-, rfl⟩ := Prod.mk.inj (Option.some.inj h)
    exact length_of_slot? found
  · simp only [Option.map_eq_some_iff, Prod.mk.injEq, Prod.exists] at h
    obtain ⟨_, _, found, _, rfl⟩ := h
    exact length_of_run? found

/-- A literal tag name. It may hold colons but not end with one, and it does not begin with a
dash. -/
def tagName? (source : Source α) : Option (String × Source α) :=
  let name := ((charsWhile isTagChar source).reverse.dropWhile (· == ':')).reverse
  match name with
  | [] => none
  | c :: cs => if c = '-' then none else some (String.ofList (c :: cs), source.drop name.length)

theorem length_of_tagName? {source rest : Source α} {name : String}
    (h : tagName? source = some (name, rest)) : rest.length < source.length := by
  have hname := (List.dropWhile_suffix (· == ':')
    (l := (charsWhile isTagChar source).reverse)).length_le
  have hrun := length_afterWhile isTagChar source
  unfold tagName? at h
  dsimp only at h
  split at h
  · contradiction
  · rename_i c cs hcons
    split at h
    · contradiction
    · obtain ⟨-, rfl⟩ := Prod.mk.inj (Option.some.inj h)
      have hlength := congrArg List.length hcons
      rw [List.length_reverse] at hname hlength
      rw [List.length_cons] at hlength
      rw [List.length_drop, List.length_reverse]
      omega

def base? (source : Source α) : Option (Word α × Source α) :=
  match slot? source with
  | some (value, rest) => some (.slot value, rest)
  | none => (tagName? source).map fun (name, rest) => (.text name, rest)

theorem length_of_base? {source rest : Source α} {word : Word α}
    (h : base? source = some (word, rest)) : rest.length < source.length := by
  unfold base? at h
  split at h
  · rename_i found
    obtain ⟨-, rfl⟩ := Prod.mk.inj (Option.some.inj h)
    exact length_of_slot? found
  · simp only [Option.map_eq_some_iff, Prod.mk.injEq, Prod.exists] at h
    obtain ⟨_, _, found, _, rfl⟩ := h
    exact length_of_tagName? found

/-! ## Shorthands and spacers -/

/-- The attribute that a shorthand mark stands for. -/
def shorthandName? : Char → Option String
  | '.' => some "class"
  | '#' => some "id"
  | _ => none

/-- The class and identifier shorthands at the front of the input, as attributes. -/
def shorthands (source : Source α) : Except (Failure α) (List (Attribute α) × Source α) :=
  match source with
  | .char mark :: rest =>
    match shorthandName? mark with
    | none => .ok ([], source)
    | some name =>
      match _found : word? isIdentifierChar rest with
      | none => .error ⟨.identifierExpected mark, rest⟩
      | some (value, rest) => do
        let (more, rest) ← shorthands rest
        return (.pair (.text name) value :: more, rest)
  | _ => .ok ([], source)
termination_by source.length
decreasing_by
  have := length_of_word? _found
  grind

/-- What names an element: its base, if one is written, and its shorthands. -/
structure Naming (α : Type) where
  base : Option (Word α)
  shorthands : List (Attribute α)

/-- The base and the shorthands of an element; there must be one or the other. -/
def naming (source : Source α) :
    Except (Failure α) (Option (Naming α × Source α)) := do
  let (base, rest) :=
    match base? source with
    | some (base, rest) => (some base, rest)
    | none => (none, source)
  let (attributes, rest) ← shorthands rest
  if base.isNone && attributes.isEmpty then return none
  return some (⟨base, attributes⟩, rest)

def isSpacer (c : Char) : Bool :=
  c == '<' || c == '>'

/-! ## Attributes -/

/-- How an attribute list is laid out: on the line of its element, or between brackets and over
any number of lines. -/
inductive Layout where
  | inline
  | wrapped (close : Char)
  deriving DecidableEq, Repr

/-- The white space that may stand between the parts of an entry. -/
def Layout.isGap : Layout → Char → Bool
  | .inline => isBlank
  | .wrapped _ => isSpace

/-- The bracket that closes a list opened by this one. -/
def closing? : Char → Option Char
  | '(' => some ')'
  | '[' => some ']'
  | '{' => some '}'
  | _ => none

def splat? (layout : Layout) (source : Source α) :
    Except (Failure α) (Option (Attribute α × Source α)) :=
  match afterWhile layout.isGap source with
  | .char '*' :: rest =>
    match slot? (afterWhile layout.isGap rest) with
    | some (value, rest) => .ok (some (.splat value, rest))
    | none => .error ⟨.splatExpected, afterWhile layout.isGap rest⟩
  | _ => .ok none

/-- The name of a pair and the equals sign, with the space around them. -/
def pairName? (layout : Layout) (source : Source α) : Option (Word α × Source α) := do
  let (name, rest) ← word? isNameChar (afterWhile layout.isGap source)
  match afterWhile layout.isGap rest with
  | .char '=' :: rest => some (name, afterWhile layout.isGap rest)
  | _ => none

/-- The rest of a text in quotes, from behind the opening quote. It ends on its line. -/
def quotedRest (quote : Char) (source : Source α) : Except (Failure α) (Word α × Source α) :=
  let inside (c : Char) : Bool := c != '\n' && c != quote
  match afterWhile inside source with
  | .char c :: rest =>
    if c = quote then .ok (.text (String.ofList (charsWhile inside source)), rest)
    else .error ⟨.unclosedQuotation, source⟩
  | _ => .error ⟨.unclosedQuotation, source⟩

/-- A value without quotes, which may be empty. In a wrapped list it ends before the closing
bracket. -/
def unquoted (layout : Layout) (source : Source α) : List Char :=
  let text := charsWhile isValueChar source
  match layout with
  | .inline => text
  | .wrapped close => text.takeWhile (· != close)

/-- The value of a pair: a slot, a text in quotes, or a text without. -/
def attributeValue (layout : Layout) (source : Source α) :
    Except (Failure α) (Word α × Source α) :=
  match source with
  | .slot value :: rest => .ok (.slot value, rest)
  | .char '"' :: rest => quotedRest '"' rest
  | .char '\'' :: rest => quotedRest '\'' rest
  | _ =>
    let text := unquoted layout source
    .ok (.text (String.ofList text), source.drop text.length)

def pair? (layout : Layout) (source : Source α) :
    Except (Failure α) (Option (Attribute α × Source α)) :=
  match pairName? layout source with
  | none => .ok none
  | some (name, rest) => do
    let (value, rest) ← attributeValue layout rest
    return some (.pair name value, rest)

/-- A name alone, which only a wrapped list may hold. -/
def bareName? (layout : Layout) (source : Source α) : Option (Attribute α × Source α) :=
  match layout with
  | .inline => none
  | .wrapped _ =>
    (word? isNameChar (afterWhile layout.isGap source)).map fun (name, rest) => (.bare name, rest)

def attribute? (layout : Layout) (source : Source α) :
    Except (Failure α) (Option (Attribute α × Source α)) := do
  if let some found ← splat? layout source then return some found
  if let some found ← pair? layout source then return some found
  return bareName? layout source

theorem length_of_splat? {layout : Layout} {source rest : Source α} {entry : Attribute α}
    (h : splat? layout source = .ok (some (entry, rest))) :
    rest.length < source.length := by
  have hgap := length_afterWhile_le layout.isGap source
  unfold splat? at h
  split at h
  · rename_i after hstar
    have hinner := length_afterWhile_le layout.isGap after
    rw [hstar, List.length_cons] at hgap
    split at h
    · rename_i found
      obtain ⟨-, rfl⟩ := Prod.mk.inj (Option.some.inj (Except.ok.inj h))
      have hslot := length_of_slot? found
      omega
    · contradiction
  · exact absurd h (pure_none_ne _)

theorem length_of_pairName? {layout : Layout} {source rest : Source α} {name : Word α}
    (h : pairName? layout source = some (name, rest)) : rest.length < source.length := by
  simp only [pairName?, Option.bind_eq_bind, Option.bind_eq_some_iff, Prod.exists] at h
  obtain ⟨_, after, found, h⟩ := h
  have hgap := length_afterWhile_le layout.isGap source
  have hword := length_of_word? found
  have hafter := length_afterWhile_le layout.isGap after
  split at h
  · rename_i last hequals
    obtain ⟨-, rfl⟩ := Prod.mk.inj (Option.some.inj h)
    have hlast := length_afterWhile_le layout.isGap last
    rw [hequals, List.length_cons] at hafter
    omega
  · contradiction

theorem length_of_quotedRest {quote : Char} {source rest : Source α} {word : Word α}
    (h : quotedRest quote source = .ok (word, rest)) : rest.length < source.length := by
  have hinside := length_afterWhile_le (fun c => c != '\n' && c != quote) source
  unfold quotedRest at h
  dsimp only at h
  split at h
  · rename_i c after hquote
    rw [hquote, List.length_cons] at hinside
    split at h
    · obtain ⟨-, rfl⟩ := Prod.mk.inj (Except.ok.inj h)
      exact hinside
    · contradiction
  · contradiction

theorem length_of_attributeValue {layout : Layout} {source rest : Source α} {word : Word α}
    (h : attributeValue layout source = .ok (word, rest)) : rest.length ≤ source.length := by
  unfold attributeValue at h
  split at h
  · obtain ⟨-, rfl⟩ := Prod.mk.inj (Except.ok.inj h)
    exact Nat.le_succ _
  · exact Nat.le_succ_of_le (Nat.le_of_lt (length_of_quotedRest h))
  · exact Nat.le_succ_of_le (Nat.le_of_lt (length_of_quotedRest h))
  · obtain ⟨-, rfl⟩ := Prod.mk.inj (Except.ok.inj h)
    rw [List.length_drop]
    exact Nat.sub_le _ _

theorem length_of_pair? {layout : Layout} {source rest : Source α} {entry : Attribute α}
    (h : pair? layout source = .ok (some (entry, rest))) : rest.length < source.length := by
  unfold pair? at h
  split at h
  · exact absurd h (pure_none_ne _)
  · rename_i after hname
    obtain ⟨⟨value, last⟩, hvalue, h⟩ := of_bind_ok h
    obtain ⟨-, rfl⟩ := Prod.mk.inj (Option.some.inj (Except.ok.inj h))
    exact Nat.lt_of_le_of_lt (length_of_attributeValue hvalue) (length_of_pairName? hname)

theorem length_of_bareName? {layout : Layout} {source rest : Source α} {entry : Attribute α}
    (h : bareName? layout source = some (entry, rest)) : rest.length < source.length := by
  unfold bareName? at h
  split at h
  · contradiction
  · simp only [Option.map_eq_some_iff, Prod.mk.injEq, Prod.exists] at h
    obtain ⟨_, _, found, _, rfl⟩ := h
    have := length_of_word? found
    have := length_afterWhile_le (Layout.wrapped ‹Char›).isGap source
    omega

theorem length_of_attribute? {layout : Layout} {source rest : Source α} {entry : Attribute α}
    (h : attribute? layout source = .ok (some (entry, rest))) :
    rest.length < source.length := by
  unfold attribute? at h
  obtain ⟨found, hsplat, h⟩ := of_bind_ok h
  cases found with
  | some found =>
    obtain rfl := Option.some.inj (Except.ok.inj h)
    exact length_of_splat? hsplat
  | none =>
    obtain ⟨found, hpair, h⟩ := of_bind_ok h
    cases found with
    | some found =>
      obtain rfl := Option.some.inj (Except.ok.inj h)
      exact length_of_pair? hpair
    | none => exact length_of_bareName? (Except.ok.inj h)

/-- The entries of a list on the line of its element: as many as there are. -/
def inlineAttributes (source : Source α) :
    Except (Failure α) (List (Attribute α) × Source α) :=
  match _found : attribute? .inline source with
  | .error failure => .error failure
  | .ok none => .ok ([], source)
  | .ok (some (entry, rest)) => do
    let (more, rest) ← inlineAttributes rest
    return (entry :: more, rest)
termination_by source.length
decreasing_by exact length_of_attribute? _found

/-- The entries of a wrapped list up to its closing bracket. -/
def wrappedAttributes (close : Char) (source : Source α) :
    Except (Failure α) (List (Attribute α) × Source α) :=
  if source.isEmpty then .error ⟨.unclosedAttributes, source⟩
  else
    match literal? [close] (afterWhile isSpace source) with
    | some rest => .ok ([], rest)
    | none =>
      match _found : attribute? (.wrapped close) source with
      | .error failure => .error failure
      | .ok none => .error ⟨.attributeNameExpected, source⟩
      | .ok (some (entry, rest)) => do
        let (more, rest) ← wrappedAttributes close rest
        return (entry :: more, rest)
termination_by source.length
decreasing_by exact length_of_attribute? _found

def attributes (source : Source α) : Except (Failure α) (List (Attribute α) × Source α) :=
  match afterWhile isBlank source with
  | .char opening :: rest =>
    match closing? opening with
    | some close => wrappedAttributes close rest
    | none => inlineAttributes source
  | _ => inlineAttributes source

def refName (source : Source α) : Except (Failure α) (Option (Word α) × Source α) :=
  match afterWhile isBlank source with
  | .char '@' :: rest =>
    match word? isIdentifierChar rest with
    | some (name, rest) => .ok (some name, rest)
    | none => .error ⟨.identifierExpected '@', rest⟩
  | _ => .ok (none, source)

/-! ## The whole header -/

/-- A header and the spacers written in it. -/
structure Opening (α : Type) where
  header : Header α
  spaceBefore : Bool
  spaceAfter : Bool

/-- The base of an element that has only shorthands. -/
def defaultTag : String := "div"

/-- What follows the naming of an element, up to its content. -/
def openingRest (naming : Naming α) (source : Source α) :
    Except (Failure α) (Opening α × Source α) := do
  let spacers := charsWhile isSpacer source
  let (written, rest) ← attributes (afterWhile isSpacer source)
  let (name, rest) ← refName rest
  let header := ⟨naming.base.getD (.text defaultTag), naming.shorthands ++ written, name⟩
  return (⟨header, spacers.contains '<', spacers.contains '>'⟩, rest)

/-- An element with the spaces that its spacers put around it. -/
def Opening.nodes (opening : Opening α) (children : List (Node α)) : List (Node α) :=
  let space (wanted : Bool) : List (Node α) := if wanted then [.text " "] else []
  space opening.spaceBefore ++ .element opening.header children :: space opening.spaceAfter

/-! ## The equations of the lists -/

theorem shorthands_eq (source : Source α) :
    shorthands source =
      match source with
      | .char mark :: rest =>
        match shorthandName? mark with
        | none => .ok ([], source)
        | some name =>
          match word? isIdentifierChar rest with
          | none => .error ⟨.identifierExpected mark, rest⟩
          | some (value, rest) => do
            let (more, rest) ← shorthands rest
            return (.pair (.text name) value :: more, rest)
      | _ => .ok ([], source) := by
  cases source with
  | nil => rw [shorthands]; simp
  | cons symbol rest =>
    cases symbol with
    | slot value => rw [shorthands]; simp
    | char mark =>
      rw [shorthands]
      split
      · simp only [*]
      · split <;> simp only [*]

theorem inlineAttributes_eq (source : Source α) :
    inlineAttributes source = do
      match ← attribute? .inline source with
      | none => return ([], source)
      | some (entry, rest) =>
        let (more, rest) ← inlineAttributes rest
        return (entry :: more, rest) := by
  rw [inlineAttributes]
  split <;> simp only [*] <;> rfl

theorem wrappedAttributes_eq (close : Char) (source : Source α) :
    wrappedAttributes close source =
      if source.isEmpty then .error ⟨.unclosedAttributes, source⟩
      else
        match literal? [close] (afterWhile isSpace source) with
        | some rest => .ok ([], rest)
        | none => do
          match ← attribute? (.wrapped close) source with
          | none => throw ⟨.attributeNameExpected, source⟩
          | some (entry, rest) =>
            let (more, rest) ← wrappedAttributes close rest
            return (entry :: more, rest) := by
  rw [wrappedAttributes]
  split
  · rfl
  · split
    · simp only [*]
    · split <;> simp only [*] <;> rfl

/-! ## Lengths -/

theorem length_of_shorthands {source rest : Source α} {found : List (Attribute α)}
    (h : shorthands source = .ok (found, rest)) :
    rest.length ≤ source.length ∧ (found ≠ [] → rest.length < source.length) := by
  fun_induction shorthands source generalizing found with
  | case1 =>
    obtain ⟨rfl, rfl⟩ := Prod.mk.inj (Except.ok.inj h)
    exact ⟨Nat.le_refl _, fun hne => absurd rfl hne⟩
  | case2 => contradiction
  | case3 mark after name hname value last hvalue ih =>
    obtain ⟨⟨more, behind⟩, hmore, h⟩ := of_bind_ok h
    obtain ⟨-, rfl⟩ := Prod.mk.inj (Except.ok.inj h)
    have hlonger := length_of_word? hvalue
    have hrest := (ih hmore).1
    rw [List.length_cons]
    omega
  | case4 =>
    obtain ⟨rfl, rfl⟩ := Prod.mk.inj (Except.ok.inj h)
    exact ⟨Nat.le_refl _, fun hne => absurd rfl hne⟩

theorem length_of_naming {source rest : Source α} {found : Naming α}
    (h : naming source = .ok (some (found, rest))) : rest.length < source.length := by
  unfold naming at h
  cases hbase : base? source with
  | none =>
    rw [hbase] at h
    obtain ⟨⟨short, after⟩, hshort, h⟩ := of_bind_ok h
    cases short with
    | nil => exact absurd h (pure_none_ne _)
    | cons entry more =>
      obtain ⟨-, rfl⟩ := Prod.mk.inj (Option.some.inj (Except.ok.inj h))
      exact (length_of_shorthands hshort).2 (List.cons_ne_nil _ _)
  | some base =>
    rw [hbase] at h
    obtain ⟨⟨short, after⟩, hshort, h⟩ := of_bind_ok h
    obtain ⟨-, rfl⟩ := Prod.mk.inj (Option.some.inj (Except.ok.inj h))
    exact Nat.lt_of_le_of_lt (length_of_shorthands hshort).1 (length_of_base? hbase)

theorem length_of_inlineAttributes {source rest : Source α} {found : List (Attribute α)}
    (h : inlineAttributes source = .ok (found, rest)) : rest.length ≤ source.length := by
  fun_induction inlineAttributes source generalizing found with
  | case1 => contradiction
  | case2 =>
    obtain ⟨-, rfl⟩ := Prod.mk.inj (Except.ok.inj h)
    exact Nat.le_refl _
  | case3 source entry after hentry ih =>
    obtain ⟨⟨more, last⟩, hmore, h⟩ := of_bind_ok h
    obtain ⟨-, rfl⟩ := Prod.mk.inj (Except.ok.inj h)
    exact Nat.le_trans (ih hmore) (Nat.le_of_lt (length_of_attribute? hentry))

theorem length_of_wrappedAttributes {close : Char} {source rest : Source α}
    {found : List (Attribute α)} (h : wrappedAttributes close source = .ok (found, rest)) :
    rest.length ≤ source.length := by
  fun_induction wrappedAttributes close source generalizing found with
  | case1 => contradiction
  | case2 source _ after hclose =>
    obtain ⟨-, rfl⟩ := Prod.mk.inj (Except.ok.inj h)
    have hbracket := length_of_literal? hclose
    have hspace := length_afterWhile_le isSpace source
    omega
  | case3 => contradiction
  | case4 => contradiction
  | case5 source _ _ entry after hentry ih =>
    obtain ⟨⟨more, last⟩, hmore, h⟩ := of_bind_ok h
    obtain ⟨-, rfl⟩ := Prod.mk.inj (Except.ok.inj h)
    exact Nat.le_trans (ih hmore) (Nat.le_of_lt (length_of_attribute? hentry))

theorem length_of_attributes {source rest : Source α} {found : List (Attribute α)}
    (h : attributes source = .ok (found, rest)) : rest.length ≤ source.length := by
  have hblanks := length_afterWhile_le isBlank source
  unfold attributes at h
  split at h
  · rename_i opening after hopening
    split at h
    · have hwrapped := length_of_wrappedAttributes h
      rw [hopening, List.length_cons] at hblanks
      omega
    · exact length_of_inlineAttributes h
  · exact length_of_inlineAttributes h

theorem length_of_refName {source rest : Source α} {found : Option (Word α)}
    (h : refName source = .ok (found, rest)) : rest.length ≤ source.length := by
  have hblanks := length_afterWhile_le isBlank source
  unfold refName at h
  split at h
  · rename_i after hmark
    split at h
    · rename_i found
      obtain ⟨-, rfl⟩ := Prod.mk.inj (Except.ok.inj h)
      have hword := length_of_word? found
      rw [hmark, List.length_cons] at hblanks
      omega
    · contradiction
  · obtain ⟨-, rfl⟩ := Prod.mk.inj (Except.ok.inj h)
    exact Nat.le_refl _

theorem length_of_openingRest {naming : Naming α} {source rest : Source α} {found : Opening α}
    (h : openingRest naming source = .ok (found, rest)) : rest.length ≤ source.length := by
  unfold openingRest at h
  obtain ⟨⟨written, behind⟩, hwritten, h⟩ := of_bind_ok h
  obtain ⟨⟨name, after⟩, hname, h⟩ := of_bind_ok h
  obtain ⟨-, rfl⟩ := Prod.mk.inj (Except.ok.inj h)
  calc after.length
      ≤ behind.length := length_of_refName hname
    _ ≤ (afterWhile isSpacer source).length := length_of_attributes hwritten
    _ ≤ source.length := length_afterWhile_le isSpacer source

end IndentMarkup.Parser

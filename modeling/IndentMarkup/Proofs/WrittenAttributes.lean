import IndentMarkup.Proofs.Printed

/-! Written attribute lists. An attribute can be written in many ways: its value in quotes of either
kind or without, the list on one line or in brackets of three kinds, with free white space between
the entries and around their equals signs. Whichever way is taken, the list is read back entry by
entry; `wrappedAttributes_written` and `inlineAttributes_written` say so of the two layouts. -/
namespace IndentMarkup

open Source (ofChars ofText)

variable {α : Type}

/-! ## Ways to write a list -/

/-- Characters of a value without quotes. In a wrapped list the closing bracket is none of them. -/
def Parser.Layout.isPlain : Parser.Layout → Char → Bool
  | .inline, c => Parser.isValueChar c
  | .wrapped close, c => Parser.isValueChar c && c != close

/-- The source is a way to write the value: a slot, a text in quotes, or a text without. -/
inductive Word.WrittenValue (layout : Parser.Layout) : Word α → Source α → Prop
  | slot (value : α) : WrittenValue layout (.slot value) [.slot value]
  | quoted {quote : Char} {content : String} : quote = '"' ∨ quote = '\'' →
      quote ∉ content.toList → '\n' ∉ content.toList →
        WrittenValue layout (.text content) (.char quote :: (ofText content ++ [.char quote]))
  | plain {content : String} : content.toList ≠ [] →
      (∀ c ∈ content.toList, layout.isPlain c = true) →
        WrittenValue layout (.text content) (ofText content)

/-- The source is a way to write the attribute. Only a wrapped list holds names alone. -/
inductive Attribute.Written (layout : Parser.Layout) : Attribute α → Source α → Prop
  | pair {name value : Word α} {before after : List Char} {text : Source α} :
      name.Literally IsAttributeName → (∀ c ∈ before, layout.isGap c = true) →
        (∀ c ∈ after, layout.isGap c = true) → value.WrittenValue layout text →
          Written layout (.pair name value)
            (name.printed ++ (ofChars before ++ .char '=' :: (ofChars after ++ text)))
  | bare {name : Word α} {close : Char} : layout = .wrapped close →
      name.Literally IsAttributeName → Written layout (.bare name) name.printed
  | splat (value : α) : Written layout (.splat value) [.char '*', .slot value]

/-- The source is a way to write the attributes one after another, each behind white space. -/
inductive Attribute.WrittenRow (layout : Parser.Layout) : List (Attribute α) → Source α → Prop
  | nil : WrittenRow layout [] []
  | cons {entry : Attribute α} {more : List (Attribute α)} {gap : List Char}
      {text rest : Source α} :
      gap ≠ [] → (∀ c ∈ gap, layout.isGap c = true) → entry.Written layout text →
        WrittenRow layout more rest →
          WrittenRow layout (entry :: more) (ofChars gap ++ (text ++ rest))

/-- The source is a way to write an attribute list. In brackets there may be white space on both
ends of it. -/
inductive Attribute.WrittenList : List (Attribute α) → Source α → Prop
  | inline {entries : List (Attribute α)} {text : Source α} :
      WrittenRow .inline entries text → WrittenList entries text
  | empty {opening close : Char} {blanks : Blanks} {inside : List Char} :
      Parser.closing? opening = some close → (∀ c ∈ inside, Text.isSpace c = true) →
        WrittenList [] (ofChars blanks.chars ++ .char opening :: (ofChars inside ++ [.char close]))
  | wrapped {opening close : Char} {blanks : Blanks} {front back : List Char}
      {entry : Attribute α} {more : List (Attribute α)} {text rest : Source α} :
      Parser.closing? opening = some close → (∀ c ∈ front, Text.isSpace c = true) →
        entry.Written (.wrapped close) text → WrittenRow (.wrapped close) more rest →
          (∀ c ∈ back, Text.isSpace c = true) →
            WrittenList (entry :: more) (ofChars blanks.chars ++ .char opening ::
              (ofChars front ++ (text ++ (rest ++ (ofChars back ++ [.char close])))))

namespace Parser

open Text (isBlank isSpace)

variable {source rest : Source α}

/-! ## Characters -/

theorem toNat_lt_of_isTagChar {c : Char} (h : isTagChar c = true) : c.toNat < 128 := by
  simp only [isTagChar, isIdentifierChar, isWordChar, Char.isAlphanum, Char.isDigit,
    Bool.or_eq_true, beq_iff_eq] at h
  delta Char.isAlpha Char.isUpper Char.isLower at h
  simp only [Bool.or_eq_true, Bool.and_eq_true, decide_eq_true_eq] at h
  rcases h with ((((⟨-, h⟩ | ⟨-, h⟩) | ⟨-, h⟩) | rfl) | rfl) | rfl
  · exact Nat.lt_of_le_of_lt (UInt32.le_iff_toNat_le.mp h) (by decide)
  · exact Nat.lt_of_le_of_lt (UInt32.le_iff_toNat_le.mp h) (by decide)
  · exact Nat.lt_of_le_of_lt (UInt32.le_iff_toNat_le.mp h) (by decide)
  · decide
  · decide
  · decide

/-- Characters of tags are all ASCII, so that they are characters of names can be looked up. -/
theorem isNameChar_of_isTagChar {c : Char} (h : isTagChar c = true) : isNameChar c = true := by
  have hascii : ∀ n : Fin 128, isTagChar (Char.ofNat n) = true → isNameChar (Char.ofNat n) = true :=
    by decide
  have hc := hascii ⟨c.toNat, toNat_lt_of_isTagChar h⟩
  rw [Char.ofNat_toNat] at hc
  exact hc h

theorem isTagChar_of_isIdentifierChar {c : Char} (h : isIdentifierChar c = true) :
    isTagChar c = true := by
  simp [isTagChar, h]

/-- A character outside of a class differs from every character of the class. -/
theorem beq_of_class {p : Char → Bool} {stop : Char} (hstop : p stop = false) (c : Char)
    (h : p c = true) : (c == stop) = false := by
  rw [beq_eq_false_iff_ne]
  rintro rfl
  rw [hstop] at h
  exact Bool.noConfusion h

theorem not_isSpace_of_isNameChar (c : Char) (h : isNameChar c = true) : isSpace c = false := by
  simp only [isNameChar, Bool.and_eq_true, Bool.not_eq_true'] at h
  exact h.1

theorem not_isBlank_of_isTagChar {c : Char} (h : isTagChar c = true) : isBlank c = false := by
  have hspace := not_isSpace_of_isNameChar c (isNameChar_of_isTagChar h)
  cases hblank : isBlank c with
  | false => rfl
  | true =>
    rw [Text.isSpace_of_isBlank hblank] at hspace
    contradiction

/-- The gaps of a list are white space in either layout. -/
theorem isSpace_of_isGap {layout : Layout} {c : Char} (h : layout.isGap c = true) :
    isSpace c = true := by
  cases layout with
  | inline => exact Text.isSpace_of_isBlank h
  | wrapped close => exact h

/-- No name and no value without quotes goes on over white space. -/
theorem not_isName_of_isSpace {c : Char} (h : isSpace c = true) : isNameChar c = false := by
  simp [isNameChar, h]

theorem not_isPlain_of_isSpace {c : Char} (h : isSpace c = true) (layout : Layout) :
    layout.isPlain c = false := by
  cases layout <;> simp [Layout.isPlain, isValueChar, h]

/-- There are three kinds of brackets. -/
theorem of_closing? {opening close : Char} (h : closing? opening = some close) :
    opening = '(' ∧ close = ')' ∨ opening = '[' ∧ close = ']' ∨ opening = '\x7b' ∧ close = '\x7d' := by
  unfold closing? at h
  split at h
  · exact .inl ⟨rfl, (Option.some.inj h).symm⟩
  · exact .inr (.inl ⟨rfl, (Option.some.inj h).symm⟩)
  · exact .inr (.inr ⟨rfl, (Option.some.inj h).symm⟩)
  · contradiction

/-- Where a class stops, every part of it stops. -/
theorem Stops.imp {p q : Char → Bool} (h : Stops p source) (himp : ∀ c, q c = true → p c = true) :
    Stops q source := by
  cases source with
  | nil => trivial
  | cons symbol rest =>
    cases symbol with
    | slot value => trivial
    | char c =>
      rw [stops_char] at h ⊢
      cases hq : q c with
      | false => rfl
      | true => rw [himp c hq] at h; contradiction

/-- A text that is not empty begins with its first character. -/
theorem stops_ofChars {p : Char → Bool} {text : List Char} (hne : text ≠ [])
    (htext : ∀ c ∈ text, p c = false) (rest : Source α) : Stops p (ofChars text ++ rest) := by
  cases text with
  | nil => exact absurd rfl hne
  | cons c text => exact htext c (by simp)

/-! ## Words -/

/-- Where a literal text begins, a class stops if its first character is outside. -/
theorem stops_ofText {p : Char → Bool} {text : String} (hne : text.toList ≠ [])
    (hfirst : ∀ c ∈ text.toList.head?, p c = false) (rest : Source α) :
    Stops p (ofText text ++ rest) := by
  cases hchars : text.toList with
  | nil => exact absurd hchars hne
  | cons c cs =>
    have hc : p c = false := hfirst c (by simp [hchars])
    simpa [ofText, hchars] using hc

/-- No slot stands where a literal text begins. -/
theorem slot?_ofText {text : String} (hne : text.toList ≠ []) (source : Source α) :
    slot? (ofText text ++ source) = none := by
  cases hchars : text.toList with
  | nil => exact absurd hchars hne
  | cons c cs => simp [ofText, hchars, slot?]

theorem word?_text {p : Char → Bool} {text : String} (hne : text.toList ≠ [])
    (htext : ∀ c ∈ text.toList, p c = true) (hstop : Stops p source) :
    word? p (ofText text ++ source) = some (.text text, source) := by
  have hrun : run? p (ofText text ++ source) = some (text.toList, source) :=
    run?_append hne htext hstop
  simp [word?, slot?_ofText hne, hrun]

/-- A word of a class is read back. -/
theorem word?_printed {p : Char → Bool} {property : String → Prop} {word : Word α}
    (hword : word.Literally property)
    (hproperty : ∀ text, property text → text.toList ≠ [] ∧ ∀ c ∈ text.toList, p c = true)
    (hstop : Stops p source) : word? p (word.printed ++ source) = some (word, source) := by
  cases word with
  | slot value => rfl
  | text content =>
    obtain ⟨hne, htext⟩ := hproperty content hword
    exact word?_text hne htext hstop

theorem word?_name {name : Word α} (hname : name.Literally IsAttributeName)
    (hstop : Stops isNameChar source) :
    word? isNameChar (name.printed ++ source) = some (name, source) :=
  word?_printed hname (fun _ h => ⟨h.nonempty, h.chars⟩) hstop

/-- A class without characters of names stops where a name begins. -/
theorem stops_name {p : Char → Bool} (hp : ∀ c, isNameChar c = true → p c = false)
    {name : Word α} (hname : name.Literally IsAttributeName) (rest : Source α) :
    Stops p (name.printed ++ rest) := by
  cases name with
  | slot value => trivial
  | text content =>
    refine stops_ofText hname.nonempty (fun c hc => hp c ?_) rest
    exact hname.chars c (List.mem_of_head? hc)

theorem stops_star {name : Word α} (hname : name.Literally IsAttributeName)
    (rest : Source α) : Stops (· == '*') (name.printed ++ rest) := by
  cases name with
  | slot value => trivial
  | text content =>
    refine stops_ofText hname.nonempty (fun c hc => ?_) rest
    have hfirst := hname.first
    rw [Option.mem_def.mp hc] at hfirst
    simpa using hfirst

/-! ## Values -/

/-- In either layout, a value without quotes is a run of its class. -/
theorem unquoted_eq (layout : Layout) (source : Source α) :
    unquoted layout source = charsWhile layout.isPlain source := by
  cases layout with
  | inline => rfl
  | wrapped close =>
    simp only [unquoted]
    fun_induction charsWhile isValueChar source with
    | case1 c rest hc ih =>
      rw [charsWhile, List.takeWhile_cons]
      simp only [Layout.isPlain, hc, Bool.true_and]
      rw [ih]
    | case2 c rest hc => simp [charsWhile, Layout.isPlain, hc]
    | case3 source hsource =>
      rw [charsWhile]
      · rfl
      · exact hsource

/-- What may follow an entry of a list: no more of a value or of a name, and no equals sign behind
the white space. -/
structure EndsEntry (layout : Layout) (source : Source α) : Prop where
  noValue : Stops layout.isPlain source
  noName : Stops isNameChar source
  noEquals : Stops (· == '=') (afterWhile layout.isGap source)

variable {layout : Layout}

theorem quotedRest_written {quote : Char} {content : String} (hquote : quote ∉ content.toList)
    (hline : '\n' ∉ content.toList) (source : Source α) :
    quotedRest quote (ofText content ++ .char quote :: source) = .ok (.text content, source) := by
  have hinside : ∀ c ∈ content.toList, (c != '\n' && c != quote) = true := by
    intro c hc
    have hne : c ≠ quote := fun e => hquote (e ▸ hc)
    have hbreak : c ≠ '\n' := fun e => hline (e ▸ hc)
    simp [hne, hbreak]
  have hstop : Stops (fun c => c != '\n' && c != quote) (.char quote :: source) := by
    simp
  have hchars := charsWhile_append hinside hstop
  have hafter := afterWhile_append hinside hstop
  simp [quotedRest, ofText, hchars, hafter]

/-- A value is read back from each of its written forms. -/
theorem attributeValue_written {value : Word α} {text : Source α}
    (hvalue : value.WrittenValue layout text) (hends : EndsEntry layout source) :
    attributeValue layout (text ++ source) = .ok (value, source) := by
  cases hvalue with
  | slot value => rfl
  | quoted hkind hquote hline =>
    have hread := quotedRest_written hquote hline source
    rcases hkind with rfl | rfl
    · simpa [attributeValue] using hread
    · simpa [attributeValue] using hread
  | @plain content hne hplain =>
    have hchars : charsWhile layout.isPlain (ofText content ++ source) = content.toList :=
      charsWhile_append hplain hends.noValue
    have hdrop : (ofText content ++ source).drop content.toList.length = source := by
      have hlength : (ofText content : Source α).length = content.toList.length :=
        Source.length_ofChars _
      rw [← hlength, List.drop_left]
    have hquotes : ∀ c : Char, isValueChar c = false → layout.isPlain c = false := by
      intro c hc
      cases layout <;> simp [Layout.isPlain, hc]
    unfold attributeValue
    split
    · rename_i hslot
      have hnone := slot?_ofText hne source
      rw [hslot] at hnone
      contradiction
    · rename_i heq
      have hstops : Stops layout.isPlain (ofText content ++ source) := by
        rw [heq]
        exact hquotes '"' rfl
      rw [charsWhile_of_stops hstops] at hchars
      exact absurd hchars.symm hne
    · rename_i heq
      have hstops : Stops layout.isPlain (ofText content ++ source) := by
        rw [heq]
        exact hquotes '\'' rfl
      rw [charsWhile_of_stops hstops] at hchars
      exact absurd hchars.symm hne
    · simp only [unquoted_eq, hchars, String.ofList_toList, hdrop]

/-! ## Entries -/

theorem splat?_of_stops (h : Stops (· == '*') (afterWhile layout.isGap source)) :
    splat? layout source = .ok none := by
  unfold splat?
  split
  · rename_i heq
    rw [heq] at h
    exact absurd h (by simp)
  · rfl

/-- A name begins no pair if no equals sign follows it. -/
theorem pairName?_of_stops {name : Word α}
    (hword : word? isNameChar (afterWhile layout.isGap source) = some (name, rest))
    (hrest : Stops (· == '=') (afterWhile layout.isGap rest)) : pairName? layout source = none := by
  simp only [pairName?, hword, Option.bind_eq_bind, Option.bind_some]
  split
  · rename_i heq
    rw [heq] at hrest
    exact absurd hrest (by simp)
  · rfl

theorem attribute?_inline_of_none (hstar : Stops (· == '*') (afterWhile isBlank source))
    (hpair : pairName? .inline source = none) : attribute? .inline source = .ok none := by
  have hsplat : splat? .inline source = .ok none := splat?_of_stops hstar
  simp [attribute?, hsplat, pair?, hpair, bareName?, bind, Except.bind, pure, Except.pure]

/-- A class without characters of names stops where a written entry begins. -/
theorem stops_written {p : Char → Bool} (hp : ∀ c, isNameChar c = true → p c = false)
    {entry : Attribute α} {text : Source α} (hentry : entry.Written layout text)
    (rest : Source α) : Stops p (text ++ rest) := by
  cases hentry with
  | pair hname => rw [List.append_assoc]; exact stops_name hp hname _
  | bare _ hname => exact stops_name hp hname rest
  | splat value => exact hp '*' rfl

/-- The white space before a written entry is passed over. -/
theorem afterWhile_written {gap : List Char} (hgap : ∀ c ∈ gap, layout.isGap c = true)
    {entry : Attribute α} {text : Source α} (hentry : entry.Written layout text)
    (rest : Source α) : afterWhile layout.isGap (ofChars gap ++ (text ++ rest)) = text ++ rest := by
  refine afterWhile_append hgap (stops_written (fun c hc => ?_) hentry rest)
  cases hspace : layout.isGap c with
  | false => rfl
  | true =>
    rw [not_isName_of_isSpace (isSpace_of_isGap hspace)] at hc
    contradiction

/-- The equals sign of a written pair, with the white space around it, goes with its name. -/
theorem pairName?_written {name : Word α} {gap before after : List Char} {value : Word α}
    {text : Source α} (hname : name.Literally IsAttributeName)
    (hgap : ∀ c ∈ gap, layout.isGap c = true) (hbefore : ∀ c ∈ before, layout.isGap c = true)
    (hafter : ∀ c ∈ after, layout.isGap c = true) (hvalue : value.WrittenValue layout text)
    (source : Source α) :
    pairName? layout (ofChars gap ++ (name.printed ++ (ofChars before ++ .char '=' ::
      (ofChars after ++ text)) ++ source)) = some (name, text ++ source) := by
  have hstart := afterWhile_written hgap (.pair hname hbefore hafter hvalue) source
  have hequals : Stops layout.isGap (.char '=' :: (ofChars after ++ (text ++ source))) := by
    cases layout <;> rfl
  have hword : word? isNameChar (name.printed ++ (ofChars before ++ .char '=' ::
      (ofChars after ++ text)) ++ source) =
        some (name, ofChars before ++ .char '=' :: (ofChars after ++ (text ++ source))) := by
    have hstop : Stops isNameChar
        (ofChars before ++ .char '=' :: (ofChars after ++ (text ++ source))) := by
      cases before with
      | nil => rfl
      | cons c before => exact not_isName_of_isSpace (isSpace_of_isGap (hbefore c (by simp)))
    simpa using word?_name hname hstop
  have hvalueStart : Stops layout.isGap (text ++ source) := by
    cases hvalue with
    | slot value => trivial
    | quoted hkind => rcases hkind with rfl | rfl <;> cases layout <;> rfl
    | plain hne hplain =>
      refine stops_ofText hne (fun c hc => ?_) source
      cases hspace : layout.isGap c with
      | false => rfl
      | true =>
        have hc := hplain c (List.mem_of_head? hc)
        rw [not_isPlain_of_isSpace (isSpace_of_isGap hspace)] at hc
        contradiction
  simp only [pairName?, hstart, hword, Option.bind_eq_bind, Option.bind_some,
    afterWhile_append hbefore hequals, afterWhile_append hafter hvalueStart]

/-- A written entry is read back, with the white space before it. -/
theorem attribute?_written {entry : Attribute α} {gap : List Char} {text : Source α}
    (hentry : entry.Written layout text) (hgap : ∀ c ∈ gap, layout.isGap c = true)
    (hends : EndsEntry layout source) :
    attribute? layout (ofChars gap ++ (text ++ source)) = .ok (some (entry, source)) := by
  have hstart := afterWhile_written hgap hentry source
  cases hentry with
  | splat value =>
    have hsplat : splat? layout (ofChars gap ++ ([.char '*', .slot value] ++ source)) =
        .ok (some (.splat value, source)) := by
      unfold splat?
      rw [hstart]
      rfl
    simp only [attribute?, hsplat, bind, Except.bind]
    rfl
  | @pair name value before after inner hname hbefore hafter hvalue =>
    have hstar : Stops (· == '*') (afterWhile layout.isGap (ofChars gap ++
        (name.printed ++ (ofChars before ++ .char '=' :: (ofChars after ++ inner)) ++ source))) := by
      rw [hstart, List.append_assoc]
      exact stops_star hname _
    have hsplat := splat?_of_stops hstar
    have hpair := pairName?_written hname hgap hbefore hafter hvalue source
    have hread := attributeValue_written hvalue hends
    simp only [attribute?, hsplat, pair?, hpair, hread, bind, Except.bind]
    rfl
  | @bare name close hlayout hname =>
    subst hlayout
    have hsplat := splat?_of_stops (hstart ▸ stops_star hname source)
    have hword := word?_name hname hends.noName
    have hpair := pairName?_of_stops (hstart ▸ hword) hends.noEquals
    simp only [attribute?, hsplat, pair?, hpair, bareName?, hstart, hword, bind, Except.bind]
    rfl

/-! ## Rows -/

/-- What may follow an entry may also stand behind the entries after it. -/
theorem endsEntry_row {entries : List (Attribute α)} {text : Source α}
    (hrow : Attribute.WrittenRow layout entries text) (hends : EndsEntry layout source) :
    EndsEntry layout (text ++ source) := by
  cases hrow with
  | nil => exact hends
  | @cons entry more gap text rest hne hgap hentry _ =>
    have hstart := afterWhile_written hgap hentry (rest ++ source)
    rw [List.append_assoc, List.append_assoc]
    constructor
    · exact stops_ofChars hne
        (fun c hc => not_isPlain_of_isSpace (isSpace_of_isGap (hgap c hc)) layout) _
    · exact stops_ofChars hne (fun c hc => not_isName_of_isSpace (isSpace_of_isGap (hgap c hc))) _
    · rw [hstart]
      exact stops_written (beq_of_class rfl) hentry _

/-- The entries on a line are read back, up to where no other entry begins. -/
theorem inlineAttributes_written {entries : List (Attribute α)} {text : Source α}
    (hrow : Attribute.WrittenRow .inline entries text) (hends : EndsEntry .inline source)
    (hlast : attribute? .inline source = .ok none) :
    inlineAttributes (text ++ source) = .ok (entries, source) := by
  induction hrow with
  | nil =>
    rw [List.nil_append, inlineAttributes_eq, hlast]
    rfl
  | cons _ hgap hentry hmore ih =>
    have hread := attribute?_written hentry hgap (endsEntry_row hmore hends)
    rw [List.append_assoc, List.append_assoc, inlineAttributes_eq, hread]
    simp only [ih, bind, Except.bind]
    rfl

variable {close : Char}

/-- The closing bracket, with the white space before it, may follow an entry. -/
theorem endsEntry_close {opening : Char} (hclose : closing? opening = some close)
    {back : List Char} (hback : ∀ c ∈ back, isSpace c = true) (source : Source α) :
    EndsEntry (.wrapped close) (ofChars back ++ .char close :: source) := by
  obtain ⟨hname, hspace, hequals⟩ :
      isNameChar close = false ∧ isSpace close = false ∧ (close == '=') = false := by
    rcases of_closing? hclose with ⟨-, rfl⟩ | ⟨-, rfl⟩ | ⟨-, rfl⟩ <;> decide
  have hstart : afterWhile isSpace (ofChars back ++ .char close :: source) = .char close :: source :=
    afterWhile_append hback hspace
  refine ⟨?_, ?_, ?_⟩
  · cases back with
    | nil => simp [Layout.isPlain]
    | cons c back => exact not_isPlain_of_isSpace (hback c (by simp)) _
  · cases back with
    | nil => exact hname
    | cons c back => exact not_isName_of_isSpace (hback c (by simp))
  · show Stops (· == '=') (afterWhile isSpace (ofChars back ++ .char close :: source))
    rw [hstart]
    exact hequals

/-- The closing bracket ends the list. -/
theorem wrappedAttributes_close {opening : Char} (hclose : closing? opening = some close)
    {back : List Char} (hback : ∀ c ∈ back, isSpace c = true) (source : Source α) :
    wrappedAttributes close (ofChars back ++ .char close :: source) = .ok ([], source) := by
  have hspace : isSpace close = false := by
    rcases of_closing? hclose with ⟨-, rfl⟩ | ⟨-, rfl⟩ | ⟨-, rfl⟩ <;> decide
  have hstart : afterWhile isSpace (ofChars back ++ .char close :: source) = .char close :: source :=
    afterWhile_append hback hspace
  have hliteral : literal? [close] (.char close :: source) = some source :=
    literal?_append [close] source
  rw [wrappedAttributes_eq, hstart, hliteral]
  cases back <;> rfl

/-- An entry of a wrapped list is followed by the entries behind it. -/
theorem wrappedAttributes_entry {opening : Char} (hclose : closing? opening = some close)
    {entry : Attribute α} {more : List (Attribute α)} {gap : List Char} {text : Source α}
    (hgap : ∀ c ∈ gap, isSpace c = true) (hentry : entry.Written (.wrapped close) text)
    (hends : EndsEntry (.wrapped close) source)
    (hmore : wrappedAttributes close source = .ok (more, rest)) :
    wrappedAttributes close (ofChars gap ++ (text ++ source)) = .ok (entry :: more, rest) := by
  have hname : isNameChar close = false := by
    rcases of_closing? hclose with ⟨-, rfl⟩ | ⟨-, rfl⟩ | ⟨-, rfl⟩ <;> decide
  have hread := attribute?_written hentry hgap hends
  have hstart : afterWhile isSpace (ofChars gap ++ (text ++ source)) = text ++ source :=
    @afterWhile_written _ (.wrapped close) gap hgap entry text hentry source
  have hnone : literal? [close] (text ++ source) = none :=
    literal?_of_stops (stops_written (beq_of_class hname) hentry source) []
  have hlength := length_of_attribute? hread
  rw [wrappedAttributes_eq, if_neg, hstart, hnone]
  · simp only [hread, hmore, bind, Except.bind]
    rfl
  · intro hnil
    rw [List.isEmpty_iff.mp hnil] at hlength
    exact absurd hlength (Nat.not_lt_zero _)

/-- The entries of a wrapped list are read back, up to the closing bracket. -/
theorem wrappedAttributes_written {opening : Char} (hclose : closing? opening = some close)
    {entries : List (Attribute α)} {text : Source α} {back : List Char}
    (hrow : Attribute.WrittenRow (.wrapped close) entries text)
    (hback : ∀ c ∈ back, isSpace c = true) :
    wrappedAttributes close (text ++ (ofChars back ++ .char close :: source)) =
      .ok (entries, source) := by
  induction hrow with
  | nil => exact wrappedAttributes_close hclose hback source
  | cons _ hgap hentry hmore ih =>
    have hends := endsEntry_row hmore (endsEntry_close hclose hback source)
    rw [List.append_assoc, List.append_assoc]
    exact wrappedAttributes_entry hclose hgap hentry hends ih

/-! ## Lists -/

/-- What may follow a list on its line so that nothing more of it is read. -/
theorem endsEntry_lineBreak (h : LineBreak source rest) : EndsEntry .inline source := by
  refine ⟨h.stops rfl, h.stops rfl, ?_⟩
  show Stops (· == '=') (afterWhile isBlank source)
  rw [afterWhile_of_stops (h.stops rfl)]
  exact h.stops rfl

/-- No entry begins at the end of a line. -/
theorem attribute?_lineBreak (h : LineBreak source rest) : attribute? .inline source = .ok none := by
  have hblank : afterWhile isBlank source = source := afterWhile_of_stops (h.stops rfl)
  have hrun : run? isNameChar source = none := run?_of_stops (h.stops rfl)
  have hword : word? isNameChar source = none := by
    cases h <;> simp [word?, slot?, hrun]
  refine attribute?_inline_of_none ?_ ?_
  · rw [hblank]
    exact h.stops rfl
  · simp [pairName?, Layout.isGap, hblank, hword]

/-- No bracket opens a list that is written on the line: its entries begin with names, stars or
slots. -/
theorem stops_closing?_row {entries : List (Attribute α)} {text : Source α}
    (hrow : Attribute.WrittenRow .inline entries text) (h : LineBreak source rest) :
    Stops (fun c => (closing? c).isSome) (afterWhile isBlank (text ++ source)) := by
  cases hrow with
  | nil =>
    rw [List.nil_append, afterWhile_of_stops (h.stops rfl)]
    exact h.stops rfl
  | @cons entry more gap inner last _ hgap hentry =>
    have hstart : afterWhile isBlank (ofChars gap ++ (inner ++ (last ++ source))) =
        inner ++ (last ++ source) := @afterWhile_written _ .inline gap hgap entry inner hentry _
    rw [List.append_assoc, List.append_assoc, hstart]
    refine stops_written (fun c hc => ?_) hentry _
    cases hclose : closing? c with
    | none => rfl
    | some close =>
      rcases of_closing? hclose with ⟨rfl, -⟩ | ⟨rfl, -⟩ | ⟨rfl, -⟩ <;> contradiction

/-- A list is read back from each of its written forms, where the line ends behind it. -/
theorem attributes_written {entries : List (Attribute α)} {text : Source α}
    (hlist : Attribute.WrittenList entries text) (h : LineBreak source rest) :
    attributes (text ++ source) = .ok (entries, source) := by
  have hbracket : ∀ {opening close : Char}, closing? opening = some close → ∀ blanks : Blanks,
      ∀ inside : Source α, attributes (ofChars blanks.chars ++ .char opening :: inside) =
        wrappedAttributes close inside := by
    intro opening close hclose blanks inside
    have hblank : isBlank opening = false := by
      rcases of_closing? hclose with ⟨rfl, -⟩ | ⟨rfl, -⟩ | ⟨rfl, -⟩ <;> decide
    have hstops : Stops isBlank (.char opening :: inside) := hblank
    unfold attributes
    rw [afterWhile_append blanks.blank hstops]
    simp only [hclose]
  cases hlist with
  | empty hclose hinside =>
    rw [List.append_assoc, List.cons_append, List.append_assoc, hbracket hclose]
    exact wrappedAttributes_close hclose hinside source
  | wrapped hclose hfront hentry hrow hback =>
    simp only [List.append_assoc, List.cons_append, List.nil_append]
    rw [hbracket hclose]
    have hmore := @wrappedAttributes_written _ source _ _ hclose _ _ _ hrow hback
    have hends := endsEntry_row hrow (endsEntry_close hclose hback source)
    exact wrappedAttributes_entry hclose hfront hentry hends hmore
  | inline hrow =>
    have hread := inlineAttributes_written hrow (endsEntry_lineBreak h) (attribute?_lineBreak h)
    have hstops := stops_closing?_row hrow h
    rw [← hread]
    unfold attributes
    split
    · rename_i opening tail heq
      rw [heq, stops_char, Option.isSome_eq_false_iff, Option.isNone_iff_eq_none] at hstops
      rw [hstops]
    · rfl

end Parser

end IndentMarkup

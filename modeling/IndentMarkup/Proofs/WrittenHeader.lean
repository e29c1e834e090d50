import IndentMarkup.Proofs.SlotsTaken
import IndentMarkup.Proofs.WrittenAttributes

/-! Written headers. An element line with a base and shorthands, spacers and an attribute list in
any of its written forms is read as the element with exactly these attributes, wherever it stands
and whatever stands below it. -/
namespace IndentMarkup

open Source (ofChars ofText)

variable {α : Type}

/-- The source is a way to write the attributes as shorthands. -/
inductive Attribute.WrittenShorthands : List (Attribute α) → Source α → Prop
  | nil : WrittenShorthands [] []
  | cons {mark : Char} {name : String} {value : Word α} {more : List (Attribute α)}
      {rest : Source α} :
      Parser.shorthandName? mark = some name → value.Literally IsIdentifier →
        WrittenShorthands more rest →
          WrittenShorthands (.pair (.text name) value :: more)
            (.char mark :: (value.printed ++ rest))

/-- The source is a way to write what names an element. -/
inductive Parser.Naming.Written : Parser.Naming α → Source α → Prop
  | base {base : Word α} {short : List (Attribute α)} {text : Source α} :
      base.Literally IsTagName → Attribute.WrittenShorthands short text →
        Written ⟨some base, short⟩ (base.printed ++ text)
  | noBase {short : List (Attribute α)} {text : Source α} :
      short ≠ [] → Attribute.WrittenShorthands short text → Written ⟨none, short⟩ text

namespace Parser

open Text (isBlank isSpace)

variable {source rest : Source α}

/-! ## Bases -/

/-- Trimming colons takes nothing from a tag name. -/
private theorem trimColons_eq {name : String} (hname : IsTagName name) :
    (name.toList.reverse.dropWhile (· == ':')).reverse = name.toList := by
  cases hrev : name.toList.reverse with
  | nil => simpa using hrev.symm
  | cons c cs =>
    have hlast : name.toList.getLast? = some c := by
      rw [List.getLast?_eq_head?_reverse, hrev]
      rfl
    have hc : (c == ':') = false := by
      have hne := hname.last
      rw [hlast] at hne
      simpa using hne
    rw [List.dropWhile_cons_of_neg (by simp [hc]), ← hrev, List.reverse_reverse]

/-- Where no character of a tag stands behind the colons at the front, the run of such characters
is one of colons. -/
theorem charsWhile_colons (hstop : Stops isTagChar (afterWhile (· == ':') source)) :
    charsWhile isTagChar source = charsWhile (· == ':') source := by
  fun_induction afterWhile (· == ':') source with
  | case1 c rest hc ih =>
    obtain rfl : c = ':' := by simpa using hc
    have htag : isTagChar ':' = true := rfl
    simp only [charsWhile, htag, ih hstop, beq_self_eq_true]
  | case2 c rest hc =>
    rw [charsWhile_of_stops hstop, charsWhile_of_stops (by simpa using hc)]
  | case3 source hsource =>
    rw [charsWhile_of_stops hstop]
    cases source with
    | nil => rfl
    | cons symbol rest =>
      cases symbol with
      | slot value => rfl
      | char c => exact absurd rfl (hsource c rest)

/-- Where the run of characters of a tag ends there are no colons. -/
theorem stops_colons (hstop : Stops isTagChar source) :
    Stops isTagChar (afterWhile (· == ':') source) := by
  have hcolon : Stops (· == ':') source := by
    cases source with
    | nil => trivial
    | cons symbol rest =>
      cases symbol with
      | slot value => trivial
      | char c =>
        rw [stops_char, beq_eq_false_iff_ne]
        rintro rfl
        contradiction
  rwa [afterWhile_of_stops hcolon]

/-- A tag name ends in front of the colons behind it. -/
theorem tagName?_text {name : String} (hname : IsTagName name)
    (hstop : Stops isTagChar (afterWhile (· == ':') source)) :
    tagName? (ofText name ++ source) = some (name, source) := by
  have hchars : charsWhile isTagChar (ofText name ++ source) =
      name.toList ++ charsWhile (· == ':') source := by
    rw [← charsWhile_colons hstop]
    exact charsWhile_ofChars hname.chars source
  have htrim : ((name.toList ++ charsWhile (· == ':') source).reverse.dropWhile
      (· == ':')).reverse = name.toList := by
    have hcolons : ∀ c ∈ (charsWhile (· == ':') source).reverse, (c == ':') = true :=
      fun c hc => of_mem_charsWhile (p := (· == ':')) (List.mem_reverse.mp hc)
    rw [List.reverse_append, List.dropWhile_append_of_pos hcolons, trimColons_eq hname]
  unfold tagName?
  simp only [hchars, htrim]
  have hdrop : (ofText name ++ source).drop name.toList.length = source := by
    have hlength : (ofText name : Source α).length = name.toList.length :=
      Source.length_ofChars _
    rw [← hlength, List.drop_left]
  have hfirst := hname.first
  split
  · rename_i hnil
    exact absurd hnil hname.nonempty
  · rename_i c cs hcons
    have hc : c ≠ '-' := by
      rw [hcons] at hfirst
      simpa using hfirst
    rw [if_neg hc, ← hcons, hdrop, String.ofList_toList]

theorem base?_printed {base : Word α} (hbase : base.Literally IsTagName)
    (hstop : Stops isTagChar (afterWhile (· == ':') source)) :
    base? (base.printed ++ source) = some (base, source) := by
  cases base with
  | slot value => rfl
  | text name =>
    have hslot := slot?_ofText hbase.nonempty source
    simp [base?, Word.printed, hslot, tagName?_text hbase hstop]

theorem base?_of_stops {c : Char} (h : isTagChar c = false) (rest : Source α) :
    base? (.char c :: rest) = none := by
  have hchars : charsWhile isTagChar (.char c :: rest) = [] := charsWhile_of_stops h
  simp [base?, slot?, tagName?, hchars]

/-! ## Shorthands -/

/-- There are two marks of shorthands. -/
theorem of_shorthandName? {mark : Char} {name : String} (h : shorthandName? mark = some name) :
    mark = '.' ∨ mark = '#' := by
  unfold shorthandName? at h
  split at h
  · exact .inl rfl
  · exact .inr rfl
  · contradiction

/-- A class without the marks of shorthands stops where a shorthand begins. -/
theorem stops_shorthands {p : Char → Bool} (hdot : p '.' = false) (hhash : p '#' = false)
    {short : List (Attribute α)} {text : Source α} (hshort : Attribute.WrittenShorthands short text)
    (hstop : Stops p source) : Stops p (text ++ source) := by
  cases hshort with
  | nil => exact hstop
  | cons hmark =>
    rcases of_shorthandName? hmark with rfl | rfl
    · exact hdot
    · exact hhash

theorem shorthands_of_stops (h : Stops (fun c => (shorthandName? c).isSome) source) :
    shorthands source = .ok ([], source) := by
  rw [shorthands_eq]
  split
  · rw [stops_char, Option.isSome_eq_false_iff, Option.isNone_iff_eq_none] at h
    rw [h]
  · rfl

theorem shorthands_written {short : List (Attribute α)} {text : Source α}
    (hshort : Attribute.WrittenShorthands short text) (hname : Stops isIdentifierChar source)
    (hmark : Stops (fun c => (shorthandName? c).isSome) source) :
    shorthands (text ++ source) = .ok (short, source) := by
  induction hshort with
  | nil => exact shorthands_of_stops hmark
  | @cons mark name value more rest hfirst hvalue hmore ih =>
    have hstop : Stops isIdentifierChar (rest ++ source) := stops_shorthands rfl rfl hmore hname
    have hword : word? isIdentifierChar (value.printed ++ (rest ++ source)) =
        some (value, rest ++ source) :=
      word?_printed hvalue (fun _ h => ⟨h.nonempty, h.chars⟩) hstop
    rw [List.cons_append, List.append_assoc, shorthands_eq]
    simp only [hfirst, hword, ih, bind, Except.bind]
    rfl

/-! ## What names an element -/

/-- What names an element is read back, up to where neither goes on. Colons at its end belong to
what follows. -/
theorem naming_colons {named : Naming α} {text : Source α} (hnamed : named.Written text)
    (htag : Stops isTagChar (afterWhile (· == ':') source))
    (hname : Stops isIdentifierChar source)
    (hmark : Stops (fun c => (shorthandName? c).isSome) source) :
    naming (text ++ source) = .ok (some (named, source)) := by
  cases hnamed with
  | @base base short text hbase hshort =>
    have hread := shorthands_written hshort hname hmark
    have htext : Stops isTagChar (afterWhile (· == ':') (text ++ source)) := by
      cases hshort with
      | nil => exact htag
      | cons hfirst =>
        rcases of_shorthandName? hfirst with rfl | rfl
        · exact stops_colons rfl
        · exact stops_colons rfl
    rw [List.append_assoc]
    simp only [naming, base?_printed hbase htext, hread, bind, Except.bind]
    rfl
  | @noBase short _ hne hshort =>
    have hread := shorthands_written hshort hname hmark
    have hbase : base? (text ++ source) = none := by
      cases hshort with
      | nil => exact absurd rfl hne
      | cons hfirst =>
        rcases of_shorthandName? hfirst with rfl | rfl
        · exact base?_of_stops rfl _
        · exact base?_of_stops rfl _
    cases short with
    | nil => exact absurd rfl hne
    | cons entry more =>
      simp only [naming, hbase, hread, bind, Except.bind]
      rfl

/-- The same where no colon stands behind it either. -/
theorem naming_written {named : Naming α} {text : Source α} (hnamed : named.Written text)
    (htag : Stops isTagChar source) (hmark : Stops (fun c => (shorthandName? c).isSome) source) :
    naming (text ++ source) = .ok (some (named, source)) :=
  naming_colons hnamed (stops_colons htag) (htag.imp fun _ => isTagChar_of_isIdentifierChar) hmark

/-- The symbol at which a naming begins is a slot, or a character of a tag or of a shorthand. -/
theorem stops_naming {p : Char → Bool} (htag : ∀ c, isTagChar c = true → p c = false)
    (hdot : p '.' = false) (hhash : p '#' = false) {named : Naming α} {text : Source α}
    (hnamed : named.Written text) (source : Source α) : Stops p (text ++ source) := by
  cases hnamed with
  | @base base _ text hbase =>
    rw [List.append_assoc]
    cases base with
    | slot value => trivial
    | text name =>
      exact stops_ofText hbase.nonempty (fun c hc => htag c (hbase.chars c (List.mem_of_head? hc))) _
  | noBase hne hshort =>
    cases hshort with
    | nil => exact absurd rfl hne
    | cons hfirst =>
      rcases of_shorthandName? hfirst with rfl | rfl
      · exact hdot
      · exact hhash

theorem beginsItem_naming {named : Naming α} {text : Source α} (hnamed : named.Written text)
    (source : Source α) : BeginsItem (text ++ source) := by
  have hne : text ++ source ≠ [] := by
    cases hnamed with
    | @base base _ _ hbase =>
      cases base with
      | slot value => simp [Word.printed]
      | text name => simp [Word.printed, ofText, ofChars, hbase.nonempty]
    | noBase hne hshort =>
      cases hshort with
      | nil => exact absurd rfl hne
      | cons => simp
  exact beginsItem_of_stops (stops_naming (fun _ => not_isBlank_of_isTagChar) rfl rfl hnamed source)
    (stops_naming (beq_of_class rfl) rfl rfl hnamed source) hne

/-- A literal tag is neither blank nor a line break. -/
theorem beginsItem_tagName {name : String} (hname : IsTagName name) (rest : Source α) :
    BeginsItem (ofText name ++ rest) := by
  have hbase : Word.Literally IsTagName (.text name : Word α) := hname
  simpa [Word.printed] using beginsItem_naming (.base hbase .nil) rest

/-! ## Where something is named -/

/-- Where neither a character of a tag nor the mark of a shorthand stands, nothing is named. -/
theorem naming_char {c : Char} (htag : isTagChar c = false) (hmark : shorthandName? c = none)
    (rest : Source α) : naming (.char c :: rest) = .ok none := by
  have hshort : shorthands (.char c :: rest) = .ok ([], .char c :: rest) :=
    shorthands_of_stops (by rw [stops_char, hmark]; rfl)
  simp only [naming, base?_of_stops htag rest, hshort, bind, Except.bind]
  rfl

/-- What names an element begins with a slot, a character of a tag or the mark of a shorthand. -/
theorem stops_of_naming {p : Char → Bool} (htag : ∀ c, isTagChar c = true → p c = false)
    (hdot : p '.' = false) (hhash : p '#' = false) {found : Naming α × Source α}
    (h : naming source = .ok (some found)) : Stops p source := by
  cases source with
  | nil => trivial
  | cons symbol after =>
    cases symbol with
    | slot value => trivial
    | char c =>
      rw [stops_char]
      by_cases hc : isTagChar c = true
      · exact htag c hc
      · cases hmark : shorthandName? c with
        | some name => rcases of_shorthandName? hmark with rfl | rfl <;> assumption
        | none =>
          rw [naming_char (Bool.eq_false_iff.mpr hc) hmark after] at h
          exact absurd (Except.ok.inj h).symm (Option.some_ne_none _)

theorem beginsItem_of_naming {found : Naming α × Source α}
    (h : naming source = .ok (some found)) : BeginsItem source := by
  have hne : source ≠ [] := by
    rintro rfl
    rw [naming_nil] at h
    exact absurd (Except.ok.inj h).symm (Option.some_ne_none _)
  exact beginsItem_of_stops (stops_of_naming (fun _ => not_isBlank_of_isTagChar) rfl rfl h)
    (stops_of_naming (beq_of_class rfl) rfl rfl h) hne

/-- No text item begins with a character of a tag. -/
theorem not_isTextMarker_of_isTagChar {c : Char} (h : isTagChar c = true) :
    isTextMarker c = false := by
  have hbar : (c == '|') = false := beq_of_class rfl c h
  have hquote : (c == '\'') = false := beq_of_class rfl c h
  simp only [isTextMarker, hbar, hquote, Bool.or_false]

/-- Where neither a comment nor a text begins, the item is the element, or the failure of one. -/
theorem item_of_element_ne {indent : Indent} {source : Source α}
    (hcomment : comment? indent source = none) (htext : textItem? indent source = none)
    (hne : element indent source ≠ .ok none) : item indent source = element indent source := by
  rw [item_eq, hcomment, htext]
  cases helement : element indent source with
  | error failure => rfl
  | ok found =>
    cases found with
    | none => exact absurd helement hne
    | some found => rfl

/-- Where something is named, the item is the element, or the failure of one. -/
theorem item_of_naming (indent : Indent) {found : Naming α × Source α}
    (h : naming source = .ok (some found)) : item indent source = element indent source := by
  have hslash : Stops (· == '/') source := stops_of_naming (beq_of_class rfl) rfl rfl h
  have hmarker : Stops isTextMarker source :=
    stops_of_naming (fun _ => not_isTextMarker_of_isTagChar) rfl rfl h
  refine item_of_element_ne (comment?_of_stops indent hslash) (textItem?_of_stops indent hmarker) ?_
  intro hnone
  rw [of_element_none hnone] at h
  exact absurd (Except.ok.inj h).symm (Option.some_ne_none _)

/-! ## Classes without a few characters -/

/-- A class without the three opening brackets has none of them. -/
theorem of_isSome_closing? {p : Char → Bool} (hround : p '(' = false) (hsquare : p '[' = false)
    (hcurly : p '\x7b' = false) (c : Char) (hc : (closing? c).isSome = true) : p c = false := by
  obtain ⟨close, hclose⟩ := Option.isSome_iff_exists.mp hc
  rcases of_closing? hclose with ⟨rfl, -⟩ | ⟨rfl, -⟩ | ⟨rfl, -⟩ <;> assumption

theorem of_isBlank {p : Char → Bool} (hspace : p ' ' = false) (htab : p '\t' = false) (c : Char)
    (hc : isBlank c = true) : p c = false := by
  simp only [isBlank, Bool.or_eq_true, beq_iff_eq] at hc
  rcases hc with rfl | rfl <;> assumption

theorem of_isSpacer {p : Char → Bool} (hleft : p '<' = false) (hright : p '>' = false) (c : Char)
    (hc : isSpacer c = true) : p c = false := by
  simp only [isSpacer, Bool.or_eq_true, beq_iff_eq] at hc
  rcases hc with rfl | rfl <;> assumption

/-! ## The line -/

/-- A list begins with a blank, a bracket or the end of its line. -/
theorem stops_list {p : Char → Bool} (hblank : ∀ c, isBlank c = true → p c = false)
    (hopening : ∀ c, (closing? c).isSome = true → p c = false) (hbreak : p '\n' = false)
    {entries : List (Attribute α)} {text : Source α} (hlist : Attribute.WrittenList entries text)
    (h : LineBreak source rest) : Stops p (text ++ source) := by
  have hbracket : ∀ {opening close : Char}, closing? opening = some close → ∀ (blanks : Blanks)
      (inside : Source α), Stops p (ofChars blanks.chars ++ .char opening :: inside) := by
    intro opening close hclose blanks inside
    cases hchars : blanks.chars with
    | nil => exact hopening opening (by simp [hclose])
    | cons c more => exact hblank c (blanks.blank c (by simp [hchars]))
  cases hlist with
  | inline hrow =>
    cases hrow with
    | nil => exact h.stops hbreak
    | cons hne hgap =>
      rw [List.append_assoc]
      exact stops_ofChars hne (fun c hc => hblank c (hgap c hc)) _
  | empty hclose =>
    rw [List.append_assoc]
    exact hbracket hclose _ _
  | wrapped hclose =>
    rw [List.append_assoc]
    exact hbracket hclose _ _

variable {named : Naming α} {front text : Source α} {spacers : List Char}
  {entries : List (Attribute α)}

/-- Behind the naming of an element stands a spacer, or its list. -/
theorem stops_behind_naming {p : Char → Bool}
    (hchars : ['<', '>', ' ', '\t', '(', '[', '\x7b', '\n'].all (fun c => !p c) = true)
    (hspacers : ∀ c ∈ spacers, isSpacer c = true) (hlist : Attribute.WrittenList entries text)
    (h : LineBreak source rest) : Stops p (ofChars spacers ++ (text ++ source)) := by
  simp only [List.all_cons, List.all_nil, Bool.and_true, Bool.and_eq_true,
    Bool.not_eq_true'] at hchars
  obtain ⟨hleft, hright, hspace, htab, hround, hsquare, hcurly, hbreak⟩ := hchars
  cases spacers with
  | nil =>
    rw [Source.ofChars_nil, List.nil_append]
    exact stops_list (of_isBlank hspace htab) (of_isSome_closing? hround hsquare hcurly) hbreak
      hlist h
  | cons c spacers => exact of_isSpacer hleft hright c (hspacers c (by simp))

/-- The header of a naming with spacers and attributes, as it is read. -/
def Naming.opening (named : Naming α) (spacers : List Char) (entries : List (Attribute α)) :
    Opening α :=
  ⟨⟨named.base.getD (.text defaultTag), named.shorthands ++ entries, none⟩,
    spacers.contains '<', spacers.contains '>'⟩

theorem openingRest_written (named : Naming α) (hspacers : ∀ c ∈ spacers, isSpacer c = true)
    (hlist : Attribute.WrittenList entries text) (h : LineBreak source rest) :
    openingRest named (ofChars spacers ++ (text ++ source)) =
      .ok (named.opening spacers entries, source) := by
  have hstop : Stops isSpacer (text ++ source) :=
    stops_list (of_isBlank rfl rfl) (of_isSome_closing? rfl rfl rfl) rfl hlist h
  have hname : refName source = .ok (none, source) := by
    cases h <;> rfl
  simp only [openingRest, charsWhile_append hspacers hstop, afterWhile_append hspacers hstop,
    attributes_written hlist h, hname, bind, Except.bind]
  rfl

/-! ## The element -/

/-- Behind a header whose line ends, the content of the element is the block below. -/
theorem content_lineBreak (indent : Indent) (h : LineBreak source rest) :
    content indent source = children indent rest := by
  have hblank : skipOneBlank source = source := by
    cases h <;> rfl
  have hcolon : expansion? source = none := by
    cases h <;> rfl
  obtain ⟨count, hline⟩ := textLine_lineBreak h
  have htext : lineText indent source = (none, skipBlankLines rest) := by
    simp [lineText, hline, Node.isNewLine]
  simp only [content_eq, hblank, hcolon, htext]
  exact children_skipBlankLines indent rest

theorem naming_behind (hnamed : named.Written front)
    (hspacers : ∀ c ∈ spacers, isSpacer c = true) (hlist : Attribute.WrittenList entries text)
    (h : LineBreak source rest) :
    naming (front ++ (ofChars spacers ++ (text ++ source))) =
      .ok (some (named, ofChars spacers ++ (text ++ source))) :=
  naming_written hnamed (stops_behind_naming rfl hspacers hlist h)
    (stops_behind_naming rfl hspacers hlist h)

/-- A written header makes an element of the block below its line. -/
theorem element_written (indent : Indent) (hnamed : named.Written front)
    (hspacers : ∀ c ∈ spacers, isSpacer c = true) (hlist : Attribute.WrittenList entries text)
    (h : LineBreak source rest) :
    element indent (front ++ (ofChars spacers ++ (text ++ source))) = do
      let (nodes, after) ← children indent rest
      return some ((named.opening spacers entries).nodes nodes, after) := by
  rw [element_eq, naming_behind hnamed hspacers hlist h]
  simp only [bind, Except.bind, openingRest_written named hspacers hlist h,
    content_lineBreak indent h]

/-- No other item begins as a written header does. -/
theorem item_written (indent : Indent) (hnamed : named.Written front)
    (hspacers : ∀ c ∈ spacers, isSpacer c = true) (hlist : Attribute.WrittenList entries text)
    (h : LineBreak source rest) :
    item indent (front ++ (ofChars spacers ++ (text ++ source))) = do
      let (nodes, after) ← children indent rest
      return some ((named.opening spacers entries).nodes nodes, after) := by
  rw [item_of_naming indent (naming_behind hnamed hspacers hlist h),
    element_written indent hnamed hspacers hlist h]

/-- The document of a source that begins with a written header. -/
theorem document_written (indent : Blanks) (hnamed : named.Written front)
    (hspacers : ∀ c ∈ spacers, isSpacer c = true) (hlist : Attribute.WrittenList entries text)
    (h : LineBreak source rest) :
    document (ofChars indent.chars ++ (front ++ (ofChars spacers ++ (text ++ source)))) = (do
      let (below, after) ← children indent.chars rest
      let (more, after) ← siblings indent.chars after
      finish indent.chars ((named.opening spacers entries).nodes below ++ more) after) := by
  have hbegins := beginsItem_naming hnamed (ofChars spacers ++ (text ++ source))
  rw [document_eq, baseIndent_item indent hbegins, firstItem_item indent hbegins, block_eq,
    item_written indent.chars hnamed hspacers hlist h]
  cases hchildren : children indent.chars rest with
  | error failure => rfl
  | ok found =>
    simp only [bind, Except.bind, pure, Except.pure]
    cases siblings indent.chars found.2 <;> rfl

end Parser

/-- However an attribute list is written behind an element header, where the line ends behind it
the element has exactly these attributes, behind its shorthands: wherever an element may stand, in
every document that begins with the line, and for sure if nothing is written below. A name alone
is the attribute of this name whose value is true. -/
theorem attributes_of_written {named : Parser.Naming α} {front text source rest : Source α}
    {spacers : List Char} {entries : List (Attribute α)} (hnamed : named.Written front)
    (hspacers : ∀ c ∈ spacers, Parser.isSpacer c = true)
    (hlist : Attribute.WrittenList entries text) (hline : Parser.LineBreak source rest) :
    let line := front ++ (ofChars spacers ++ (text ++ source))
    let opening := named.opening spacers entries
    opening.header.attributes = named.shorthands ++ entries ∧
      (∀ indent, Parser.element indent line = do
        let (below, after) ← Parser.children indent rest
        return some (opening.nodes below, after)) ∧
      (∀ (indent : Blanks) (document : Document α),
        parse (ofChars indent.chars ++ line) = .ok document →
          ∃ below more, document.children = opening.nodes below ++ more) ∧
      ∀ indent : Blanks, Parser.skipBlankLines rest = [] →
        parse (ofChars indent.chars ++ line) = .ok ⟨opening.nodes []⟩ := by
  refine ⟨rfl, fun indent => Parser.element_written indent hnamed hspacers hlist hline, ?_, ?_⟩
  · intro indent document hparse
    rw [parse_eq_ok, Parser.document_written indent hnamed hspacers hlist hline] at hparse
    obtain ⟨⟨below, _⟩, -, hparse⟩ := of_bind_ok hparse
    obtain ⟨⟨more, _⟩, -, hparse⟩ := of_bind_ok hparse
    obtain ⟨-, rfl⟩ := Parser.of_finish hparse
    exact ⟨below, more, rfl⟩
  · intro indent hnil
    have hchildren : Parser.children indent.chars rest = .ok ([], []) := by
      rw [← Parser.children_skipBlankLines, hnil, Parser.children_nil]
    rw [parse_eq_ok, Parser.document_written indent hnamed hspacers hlist hline, hchildren]
    simp only [bind, Except.bind, Parser.siblings_nil, List.append_nil]
    rfl

/-- A list in square brackets over three lines, with values in quotes and without, a name alone
that looks like the name of an element, a splat, and a pair of two slots. -/
theorem attributes_of_written_varied :
    parse (ofText "  .x<[a = 'it\"s'\n\tb=v( *" ++ .slot 1 ::
        (ofText " @c " ++ .slot 2 :: (ofText "\n=\t" ++ .slot 3 :: ofText " ]\n"))) =
      .ok ⟨[.text " ", .element ⟨.text "div", [.pair (.text "class") (.text "x"),
        .pair (.text "a") (.text "it\"s"), .pair (.text "b") (.text "v("), .splat 1,
        .bare (.text "@c"), .pair (.slot 2) (.slot 3)], none⟩ []]⟩ := by
  have hnamed : @Parser.Naming.Written Nat ⟨none, [.pair (.text "class") (.text "x")]⟩
      (ofText ".x") :=
    .noBase (by simp) (.cons rfl (by decide) .nil)
  have hquoted : Attribute.Written (.wrapped ']') (.pair (.text "a") (.text "it\"s") : Attribute Nat)
      (ofText "a = 'it\"s'") :=
    @Attribute.Written.pair _ _ (.text "a") _ [' '] [' '] _ (by decide) (List.all_eq_true.mp rfl)
      (List.all_eq_true.mp rfl) (.quoted (.inr rfl) (by decide) (by decide))
  have hplain : Attribute.Written (.wrapped ']') (.pair (.text "b") (.text "v(") : Attribute Nat)
      (ofText "b=v(") :=
    @Attribute.Written.pair _ _ (.text "b") _ [] [] _ (by decide) (List.all_eq_true.mp rfl)
      (List.all_eq_true.mp rfl) (.plain (by decide) (List.all_eq_true.mp rfl))
  have hpair : Attribute.Written (.wrapped ']') (.pair (.slot 2) (.slot 3))
      (.slot 2 :: (ofText "\n=\t" ++ [.slot 3])) :=
    @Attribute.Written.pair _ _ (.slot 2) _ ['\n'] ['\t'] _ trivial (List.all_eq_true.mp rfl)
      (List.all_eq_true.mp rfl) (.slot 3)
  have hname : Attribute.Written (.wrapped ']') (.bare (.text "@c") : Attribute Nat) (ofText "@c") :=
    .bare rfl (by decide)
  have hspace : ∀ c ∈ [' '], (Parser.Layout.wrapped ']').isGap c = true :=
    List.all_eq_true.mp rfl
  have hbreak : ∀ c ∈ ['\n', '\t'], (Parser.Layout.wrapped ']').isGap c = true :=
    List.all_eq_true.mp rfl
  have hslots : Attribute.WrittenRow (.wrapped ']') [.pair (.slot 2) (.slot 3)] _ :=
    @Attribute.WrittenRow.cons Nat _ _ _ [' '] _ _ (by simp) hspace hpair .nil
  have hbare := @Attribute.WrittenRow.cons Nat _ _ _ [' '] _ _ (by simp) hspace hname hslots
  have hsplat := @Attribute.WrittenRow.cons Nat _ _ _ [' '] _ _ (by simp) hspace (.splat 1) hbare
  have hmore := @Attribute.WrittenRow.cons Nat _ _ _ ['\n', '\t'] _ _ (by simp) hbreak hplain hsplat
  have hlist := @Attribute.WrittenList.wrapped Nat '[' ']' ⟨[], by simp⟩ [] [' '] _ _ _ _ rfl
    (by simp) hquoted hmore hspace
  have hspacers : ∀ c ∈ ['<'], Parser.isSpacer c = true := List.all_eq_true.mp rfl
  have hread := (attributes_of_written hnamed hspacers hlist (.newline [])).2.2.2
  exact hread ⟨[' ', ' '], List.all_eq_true.mp rfl⟩ Parser.skipBlankLines_nil

end IndentMarkup

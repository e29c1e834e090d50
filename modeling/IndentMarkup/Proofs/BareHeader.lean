import IndentMarkup.Proofs.Delimited
import IndentMarkup.Proofs.WrittenHeader

/-! Headers that stand alone. An element line may hold nothing but a header: a base with its
shorthands, a list between brackets and a name. Such a header ends where its line ends, be it with
a blank in front of the line break, or at the colon of a block expansion; in each case it is read
as it is written, and what follows it is the content of its element. -/
namespace IndentMarkup

open Source (ofChars ofText)

variable {α : Type}

/-- The source is a way to write an attribute list between brackets, or to leave it out. -/
inductive Attribute.Bracketed : List (Attribute α) → Source α → Prop
  | none : Bracketed [] []
  | list {blanks : Blanks} {opening close : Char} {entries : List (Attribute α)}
      {inside : Source α} :
      Parser.closing? opening = some close →
        Parser.wrappedAttributes close inside = .ok (entries, []) →
          Bracketed entries (ofChars blanks.chars ++ .char opening :: inside)

/-- The source is a way to write the name under which an element is bound, or to leave it out. -/
inductive Word.WrittenRef : Option (Word α) → Source α → Prop
  | none : WrittenRef none []
  | name {blanks : Blanks} {name : Word α} : name.Literally IsIdentifier →
      WrittenRef (some name) (ofChars blanks.chars ++ .char '@' :: name.printed)

/-- The source is a way to write a header with neither spacers nor attributes on the line. -/
inductive Header.Written : Header α → Source α → Prop
  | parts {named : Parser.Naming α} {entries : List (Attribute α)} {name : Option (Word α)}
      {front list ref : Source α} :
      named.Written front → Attribute.Bracketed entries list → Word.WrittenRef name ref →
        Written ⟨named.base.getD (.text Parser.defaultTag), named.shorthands ++ entries, name⟩
          (front ++ (list ++ ref))

namespace Parser

open Text (isBlank isSpace)

variable {source rest : Source α}

/-! ## Where a header ends -/

/-- Blanks do not matter where a class without them stops. -/
theorem stops_blanks {p : Char → Bool} (hblank : ∀ c, isBlank c = true → p c = false)
    (blanks : Blanks) (hstop : Stops p source) : Stops p (ofChars blanks.chars ++ source) := by
  cases hchars : blanks.chars with
  | nil => exact hstop
  | cons d more => exact hblank d (blanks.blank d (by simp [hchars]))

/-- A header may end in front of this input: there is nothing but blanks up to the end of its line,
or the colon of a block expansion follows. -/
inductive EndsHeader : Source α → Prop
  | line {blanks : Blanks} {source rest : Source α} : LineBreak source rest →
      EndsHeader (ofChars blanks.chars ++ source)
  | colon {source : Source α} : Stops isBlank source → Stops (· == '=') source →
      EndsHeader (.char ':' :: .char ' ' :: source)

namespace EndsHeader

variable {p : Char → Bool}

theorem of_lineBreak (h : LineBreak source rest) : EndsHeader source :=
  @line _ ⟨[], fun _ hc => by contradiction⟩ _ _ h

theorem of_blank {c : Char} (hc : isBlank c = true) (h : LineBreak source rest) :
    EndsHeader (.char c :: source) :=
  @line _ ⟨[c], fun _ hd => List.mem_singleton.mp hd ▸ hc⟩ _ _ h

theorem stops (h : EndsHeader source) (hblank : ∀ c, isBlank c = true → p c = false)
    (hbreak : p '\n' = false) (hcolon : p ':' = false) : Stops p source := by
  cases h with
  | @line blanks _ _ hline => exact stops_blanks hblank blanks (hline.stops hbreak)
  | colon => exact hcolon

/-- The same behind the blanks at the front. -/
theorem stops_behind_blanks (h : EndsHeader source) (hbreak : p '\n' = false)
    (hcolon : p ':' = false) : Stops p (afterWhile isBlank source) := by
  cases h with
  | @line blanks _ _ hline =>
    rw [afterWhile_append blanks.blank (hline.stops rfl)]
    exact hline.stops hbreak
  | colon => exact hcolon

/-- The colon is no part of a tag name. -/
theorem stops_tag (h : EndsHeader source) : Stops isTagChar (afterWhile (· == ':') source) := by
  cases h with
  | @line blanks _ _ hline =>
    exact stops_colons (stops_blanks (of_isBlank rfl rfl) blanks (hline.stops rfl))
  | colon => rfl

/-- No name with an equals sign behind it goes on there. -/
theorem stops_equals (h : EndsHeader source) :
    Stops (· == '=') (afterWhile isBlank (afterWhile isNameChar source)) := by
  cases h with
  | @line blanks source _ hline =>
    have hname : Stops isNameChar (ofChars blanks.chars ++ source) :=
      stops_blanks (of_isBlank rfl rfl) blanks (hline.stops rfl)
    rw [afterWhile_of_stops hname, afterWhile_append blanks.blank (hline.stops rfl)]
    exact hline.stops rfl
  | @colon source hblank hequals =>
    have hafter : afterWhile isBlank (afterWhile isNameChar (.char ':' :: .char ' ' :: source)) =
        afterWhile isBlank source := rfl
    rwa [hafter, afterWhile_of_stops hblank]

end EndsHeader

/-! ## Reading a header -/

variable {entries : List (Attribute α)} {name : Option (Word α)} {list ref : Source α}

/-- A list or a name begins with a blank, a bracket or the mark of a name. -/
theorem stops_list_ref {p : Char → Bool} (hblank : ∀ c, isBlank c = true → p c = false)
    (hopening : ∀ c, (closing? c).isSome = true → p c = false) (hmark : p '@' = false)
    (hlist : Attribute.Bracketed entries list) (href : Word.WrittenRef name ref)
    (hstop : Stops p source) : Stops p (list ++ (ref ++ source)) := by
  cases hlist with
  | none =>
    cases href with
    | none => exact hstop
    | name hname =>
      rw [List.nil_append, List.append_assoc]
      exact stops_blanks hblank _ hmark
  | list hclose =>
    rw [List.append_assoc]
    exact stops_blanks hblank _ (hopening _ (by simp [hclose]))

/-- Behind the blanks at the front, the first symbol is the mark of a name, or none of its own. -/
theorem stops_ref {p : Char → Bool} (hmark : p '@' = false) (href : Word.WrittenRef name ref)
    (hstop : Stops p (afterWhile isBlank source)) :
    Stops p (afterWhile isBlank (ref ++ source)) := by
  cases href with
  | none => exact hstop
  | @name blanks name hname =>
    have hat : Stops isBlank (.char '@' :: (name.printed ++ source)) := rfl
    rw [List.append_assoc, List.cons_append, afterWhile_append blanks.blank hat]
    exact hmark

theorem pairName?_of_lineBreak {start : Source α} (hstart : afterWhile isBlank source = start)
    (h : LineBreak start rest) : pairName? .inline source = none := by
  have hword : word? isNameChar start = none := by
    have hrun : run? isNameChar start = none := run?_of_stops (h.stops rfl)
    cases h <;> simp [word?, slot?, hrun]
  simp [pairName?, Layout.isGap, hstart, hword]

/-- No attribute begins at a name, or where a header ends. -/
theorem attribute?_ref (href : Word.WrittenRef name ref) (hends : EndsHeader source) :
    attribute? .inline (ref ++ source) = .ok none := by
  have hstar : Stops (· == '*') (afterWhile isBlank (ref ++ source)) :=
    stops_ref rfl href (hends.stops_behind_blanks rfl rfl)
  refine attribute?_inline_of_none hstar ?_
  cases href with
  | none =>
    cases hends with
    | @line blanks _ _ hline =>
      exact pairName?_of_lineBreak (afterWhile_append blanks.blank (hline.stops rfl)) hline
    | @colon source hblank hequals =>
      have hword : word? isNameChar (afterWhile isBlank (.char ':' :: .char ' ' :: source)) =
          some (.text ":", .char ' ' :: source) := rfl
      refine pairName?_of_stops hword ?_
      have hafter : afterWhile isBlank (.char ' ' :: source) = afterWhile isBlank source := rfl
      show Stops (· == '=') (afterWhile isBlank (.char ' ' :: source))
      rwa [hafter, afterWhile_of_stops hblank]
  | @name blanks name hname =>
    have hat : Stops isBlank (.char '@' :: (name.printed ++ source)) := rfl
    have hstart : afterWhile isBlank (ofChars blanks.chars ++ .char '@' :: name.printed ++ source) =
        .char '@' :: (name.printed ++ source) := by
      rw [List.append_assoc, List.cons_append]
      exact afterWhile_append blanks.blank hat
    -- The mark and the literal name make one word, with the colon behind it; a slot ends it.
    obtain ⟨word, tail, hword, htail⟩ : ∃ word tail,
        word? isNameChar (.char '@' :: (name.printed ++ source)) = some (word, tail) ∧
          Stops (· == '=') (afterWhile isBlank tail) := by
      cases name with
      | slot value => exact ⟨_, _, rfl, trivial⟩
      | text content =>
        have hchars : ∀ c ∈ '@' :: content.toList, isNameChar c = true := by
          intro c hc
          rcases List.mem_cons.mp hc with rfl | hc
          · rfl
          · exact isNameChar_of_isTagChar (isTagChar_of_isIdentifierChar (hname.chars c hc))
        have hcons : (.char '@' :: ((Word.text content).printed ++ source) : Source α) =
            ofChars ('@' :: content.toList) ++ source := rfl
        refine ⟨.text (String.ofList ('@' :: content.toList ++ charsWhile isNameChar source)),
          afterWhile isNameChar source, ?_, hends.stops_equals⟩
        have hslot : slot? (ofChars ('@' :: content.toList) ++ source) = none := rfl
        rw [hcons, word?, hslot, run?, charsWhile_ofChars hchars, afterWhile_ofChars hchars]
        rfl
    rw [← hstart] at hword
    exact pairName?_of_stops hword htail

theorem attributes_bracketed (hlist : Attribute.Bracketed entries list)
    (href : Word.WrittenRef name ref) (hends : EndsHeader source) :
    attributes (list ++ (ref ++ source)) = .ok (entries, ref ++ source) := by
  cases hlist with
  | none =>
    have hstops : Stops (fun c => (closing? c).isSome) (afterWhile isBlank (ref ++ source)) :=
      stops_ref rfl href (hends.stops_behind_blanks rfl rfl)
    have hinline : inlineAttributes (ref ++ source) = .ok ([], ref ++ source) := by
      rw [inlineAttributes_eq, attribute?_ref href hends]
      rfl
    rw [List.nil_append, ← hinline]
    unfold attributes
    split
    · rename_i opening tail heq
      rw [heq, stops_char, Option.isSome_eq_false_iff, Option.isNone_iff_eq_none] at hstops
      rw [hstops]
    · rfl
  | @list blanks opening close _ inside hclose hinside =>
    have hstops : Stops isBlank (.char opening :: (inside ++ (ref ++ source))) :=
      of_isSome_closing? rfl rfl rfl opening (by simp [hclose])
    have hread := wrappedAttributes_delimited hinside (ref ++ source)
    rw [List.append_assoc, List.cons_append]
    unfold attributes
    rw [afterWhile_append blanks.blank hstops]
    simp only [hclose, hread]
    rfl

theorem refName_written (href : Word.WrittenRef name ref) (hends : EndsHeader source) :
    refName (ref ++ source) = .ok (name, source) := by
  cases href with
  | none =>
    have hstops : Stops (· == '@') (afterWhile isBlank source) := hends.stops_behind_blanks rfl rfl
    unfold refName
    split
    · rename_i after hmark
      rw [List.nil_append] at hmark
      rw [hmark] at hstops
      contradiction
    · rfl
  | @name blanks name hname =>
    have hat : Stops isBlank (.char '@' :: (name.printed ++ source)) := rfl
    have hword : word? isIdentifierChar (name.printed ++ source) = some (name, source) :=
      word?_printed hname (fun _ h => ⟨h.nonempty, h.chars⟩)
        (hends.stops (of_isBlank rfl rfl) rfl rfl)
    rw [List.append_assoc, List.cons_append]
    unfold refName
    rw [afterWhile_append blanks.blank hat]
    simp only [hword]

/-- A header is read as it is written, up to where it ends. -/
theorem openingRest_header (named : Naming α) (hlist : Attribute.Bracketed entries list)
    (href : Word.WrittenRef name ref) (hends : EndsHeader source) :
    openingRest named (list ++ (ref ++ source)) =
      .ok (⟨⟨named.base.getD (.text defaultTag), named.shorthands ++ entries, name⟩, false, false⟩,
        source) := by
  have hstops : Stops isSpacer (list ++ (ref ++ source)) :=
    stops_list_ref (of_isBlank rfl rfl) (of_isSome_closing? rfl rfl rfl) rfl hlist href
      (hends.stops (of_isBlank rfl rfl) rfl rfl)
  simp only [openingRest, charsWhile_of_stops hstops, afterWhile_of_stops hstops,
    attributes_bracketed hlist href hends, refName_written href hends, bind, Except.bind]
  rfl

theorem naming_header {named : Naming α} {front : Source α} (hnamed : named.Written front)
    (hlist : Attribute.Bracketed entries list) (href : Word.WrittenRef name ref)
    (hends : EndsHeader source) :
    naming (front ++ (list ++ (ref ++ source))) = .ok (some (named, list ++ (ref ++ source))) := by
  have hblank : ∀ c, isBlank c = true → isTagChar c = false := of_isBlank rfl rfl
  have hopening : ∀ c, (closing? c).isSome = true → isTagChar c = false :=
    of_isSome_closing? rfl rfl rfl
  -- a colon can stand directly behind the naming only where there is neither a list nor a name
  have htag : Stops isTagChar (afterWhile (· == ':') (list ++ (ref ++ source))) := by
    cases hlist with
    | none =>
      cases href with
      | none => exact hends.stops_tag
      | name =>
        rw [List.nil_append, List.append_assoc]
        exact stops_colons (stops_blanks hblank _ rfl)
    | list hclose =>
      rw [List.append_assoc]
      exact stops_colons (stops_blanks hblank _ (hopening _ (by simp [hclose])))
  refine naming_colons hnamed htag ?_ ?_
  · exact stops_list_ref (of_isBlank rfl rfl) (of_isSome_closing? rfl rfl rfl) rfl hlist href
      (hends.stops (of_isBlank rfl rfl) rfl rfl)
  · exact stops_list_ref (of_isBlank rfl rfl) (of_isSome_closing? rfl rfl rfl) rfl hlist href
      (hends.stops (of_isBlank rfl rfl) rfl rfl)

/-- A header makes an element of what follows it. -/
theorem element_header {header : Header α} {text : Source α} (indent : Indent)
    (hheader : header.Written text) (hends : EndsHeader source) :
    element indent (text ++ source) = do
      let (nodes, rest) ← content indent source
      return some ([.element header nodes], rest) := by
  cases hheader with
  | parts hnamed hlist href =>
    rw [List.append_assoc, List.append_assoc, element_eq, naming_header hnamed hlist href hends]
    simp only [bind, Except.bind, openingRest_header _ hlist href hends]
    rfl

/-- An item begins with a header, and it is an element. -/
theorem item_header {header : Header α} {text : Source α} (indent : Indent)
    (hheader : header.Written text) (hends : EndsHeader source) :
    item indent (text ++ source) = do
      let (nodes, rest) ← content indent source
      return some ([.element header nodes], rest) := by
  rw [← element_header indent hheader hends]
  cases hheader with
  | parts hnamed hlist href =>
    rw [List.append_assoc, List.append_assoc]
    exact item_of_naming indent (naming_header hnamed hlist href hends)

theorem beginsItem_header {header : Header α} {text : Source α} (hheader : header.Written text)
    (source : Source α) : BeginsItem (text ++ source) := by
  cases hheader with
  | parts hnamed =>
    rw [List.append_assoc]
    exact beginsItem_naming hnamed _

/-- A header does not begin with a dash. -/
theorem stops_dash_header {header : Header α} {text : Source α} (hheader : header.Written text)
    (source : Source α) : Stops (· == '-') (text ++ source) := by
  cases hheader with
  | parts hnamed =>
    rw [List.append_assoc]
    cases hnamed with
    | @base base _ _ hbase =>
      rw [List.append_assoc]
      cases base with
      | slot value => trivial
      | text name =>
        refine stops_ofText hbase.nonempty (fun c hc => ?_) _
        rw [beq_eq_false_iff_ne]
        rintro rfl
        exact hbase.first hc
    | noBase hne hshort =>
      cases hshort with
      | nil => exact absurd rfl hne
      | cons hfirst => rcases of_shorthandName? hfirst with rfl | rfl <;> rfl

end Parser

end IndentMarkup

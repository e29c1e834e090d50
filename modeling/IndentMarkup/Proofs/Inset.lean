import IndentMarkup.Proofs.Scanning

/-! Sources behind a margin. Putting a margin of blanks in front of every line but the first, and
filling the slots anew, is something that no production sees within a line: reading the changed
source gives what reading the source gives, with the slots of the result filled anew and the rest
changed in the same way; a failure stays the same failure. Attribute lists between brackets may go
over many lines, and skip the margin with all other white space. -/
namespace IndentMarkup

open Text (isBlank isSpace)
open Source (ofChars)

variable {α β : Type}

namespace Source

/-- The source with its slots filled anew and a margin behind every line break. -/
def inset (f : α → β) (margin : Blanks) : Source α → Source β
  | [] => []
  | .slot value :: rest => .slot (f value) :: inset f margin rest
  | .char c :: rest =>
    .char c :: ((if c = '\n' then ofChars margin.chars else []) ++ inset f margin rest)

/-- The source with a margin in front of every line. -/
def insetLines (f : α → β) (margin : Blanks) (source : Source α) : Source β :=
  ofChars margin.chars ++ inset f margin source

variable (f : α → β) (margin : Blanks)

@[simp] theorem inset_nil : inset f margin ([] : Source α) = [] := rfl

@[simp] theorem inset_slot (value : α) (rest : Source α) :
    inset f margin (.slot value :: rest) = .slot (f value) :: inset f margin rest := rfl

theorem inset_newline (rest : Source α) :
    inset f margin (.char '\n' :: rest) = .char '\n' :: insetLines f margin rest := rfl

theorem inset_char {c : Char} (hc : c ≠ '\n') (rest : Source α) :
    inset f margin (.char c :: rest) = .char c :: inset f margin rest := by
  simp [inset, hc]

/-- A symbol stays what it is, whatever comes behind it. -/
theorem inset_cons_char (c : Char) (rest : Source α) :
    ∃ more, inset f margin (.char c :: rest) = .char c :: more :=
  ⟨_, rfl⟩

theorem isEmpty_inset (source : Source α) : (inset f margin source).isEmpty = source.isEmpty := by
  cases source with
  | nil => rfl
  | cons symbol rest => cases symbol <;> rfl

end Source

def Failure.inset (f : α → β) (margin : Blanks) (failure : Failure α) : Failure β :=
  ⟨failure.cause, failure.rest.inset f margin⟩

theorem Node.mapAll_append (f : α → β) (front back : List (Node α)) :
    Node.mapAll f (front ++ back) = Node.mapAll f front ++ Node.mapAll f back := by
  induction front with
  | nil => rfl
  | cons node front ih => simp [Node.mapAll, ih]

theorem Node.mapAll_eq_map (f : α → β) (nodes : List (Node α)) :
    Node.mapAll f nodes = nodes.map (Node.map f) := by
  induction nodes with
  | nil => rfl
  | cons node nodes ih => simp [Node.mapAll, ih]

theorem Node.isNewLine_comp_map (f : α → β) :
    Node.isNewLine ∘ Node.map f = (Node.isNewLine : Node α → Bool) := by
  funext node
  cases node <;> rfl

namespace Parser

variable (f : α → β) (margin : Blanks)

/-- Fills the slots of a result with its rest anew. -/
def insetFound {γ δ : Type} (g : γ → δ) (found : γ × Source α) : δ × Source β :=
  (g found.1, found.2.inset f margin)

def insetOutcome {γ δ : Type} (g : γ → δ) : Except (Failure α) γ → Except (Failure β) δ
  | .error failure => .error (failure.inset f margin)
  | .ok value => .ok (g value)

/-- Steps can be taken one by one. -/
theorem insetOutcome_bind {γ γ' δ δ' : Type} {margin : Blanks} {f : α → β} {g : γ → γ'} {h : δ → δ'}
    {next : γ → Except (Failure α) δ} {next' : γ' → Except (Failure β) δ'}
    {first : Except (Failure α) γ}
    (hnext : ∀ value, first = .ok value → next' (g value) = insetOutcome f margin h (next value)) :
    (insetOutcome f margin g first >>= next') = insetOutcome f margin h (first >>= next) := by
  cases first with
  | error failure => rfl
  | ok value => exact hnext value rfl

/-! ## Tokens -/

section

variable {f margin} {p : Char → Bool}

/-- A run of characters ends with its line. -/
theorem charsWhile_inset (hp : p '\n' = false) (source : Source α) :
    charsWhile p (source.inset f margin) = charsWhile p source := by
  induction source with
  | nil => rfl
  | cons symbol rest ih =>
    cases symbol with
    | slot value => rfl
    | char c =>
      by_cases hc : c = '\n'
      · subst hc
        simp [Source.inset_newline, charsWhile, hp]
      · simp [Source.inset_char f margin hc, charsWhile, ih]

/-- A class of characters that reaches over line breaks skips margins as well. -/
def SkipsMargin (p : Char → Bool) (margin : Blanks) : Prop :=
  p '\n' = true → ∀ c ∈ margin.chars, p c = true

theorem afterWhile_inset (hp : SkipsMargin p margin) (source : Source α) :
    afterWhile p (source.inset f margin) = (afterWhile p source).inset f margin := by
  induction source with
  | nil => rfl
  | cons symbol rest ih =>
    cases symbol with
    | slot value => rfl
    | char c =>
      by_cases hc : c = '\n'
      · subst hc
        by_cases hbreak : p '\n' = true
        · rw [Source.inset_newline, afterWhile, if_pos hbreak, Source.insetLines,
            afterWhile_ofChars (hp hbreak), ih, afterWhile, if_pos hbreak]
        · rw [Source.inset_newline, afterWhile, if_neg hbreak, afterWhile, if_neg hbreak,
            Source.inset_newline]
      · by_cases hin : p c = true
        · simp [Source.inset_char f margin hc, afterWhile, hin, ih]
        · simp [Source.inset_char f margin hc, afterWhile, hin]

/-- What a run ends with a line keeps out of the margin. -/
theorem skipsMargin_of_false (hp : p '\n' = false) : SkipsMargin p margin := by
  intro hbreak
  rw [hp] at hbreak
  contradiction

theorem skipsMargin_isSpace : SkipsMargin isSpace margin :=
  fun _ c hc => Text.isSpace_of_isBlank (margin.blank c hc)

theorem skipsMargin_isGap (layout : Layout) : SkipsMargin layout.isGap margin := by
  cases layout with
  | inline => exact skipsMargin_of_false rfl
  | wrapped close => exact skipsMargin_isSpace

theorem run?_inset (hp : p '\n' = false) (source : Source α) :
    run? p (source.inset f margin) = (run? p source).map (insetFound f margin id) := by
  unfold run?
  rw [charsWhile_inset hp, afterWhile_inset (skipsMargin_of_false hp)]
  cases charsWhile p source <;> rfl

theorem literal?_inset {text : List Char} (htext : '\n' ∉ text) (source : Source α) :
    literal? text (source.inset f margin) =
      (literal? text source).map (Source.inset f margin) := by
  induction text generalizing source with
  | nil => rfl
  | cons c text ih =>
    rw [List.mem_cons, not_or] at htext
    cases source with
    | nil => rfl
    | cons symbol rest =>
      cases symbol with
      | slot value => rfl
      | char d =>
        by_cases hc : c = d
        · subst hc
          rw [Source.inset_char f margin (Ne.symm htext.1), literal?, if_pos rfl, ih htext.2,
            literal?, if_pos rfl]
        · simp [Source.inset, literal?, hc]

theorem slot?_inset (source : Source α) :
    slot? (source.inset f margin) = (slot? source).map (insetFound f margin f) := by
  cases source with
  | nil => rfl
  | cons symbol rest => cases symbol <;> rfl

/-- The front of a run can be left out. -/
theorem drop_inset (hp : p '\n' = false) {count : Nat} {source : Source α}
    (hcount : count ≤ (charsWhile p source).length) :
    (source.inset f margin).drop count = Source.inset f margin (source.drop count) := by
  induction source generalizing count with
  | nil => simp
  | cons symbol rest ih =>
    cases count with
    | zero => rfl
    | succ count =>
      cases symbol with
      | slot value => simp [charsWhile] at hcount
      | char c =>
        by_cases hin : p c = true
        · have hc : c ≠ '\n' := by
            rintro rfl
            rw [hp] at hin
            contradiction
          rw [charsWhile, if_pos hin, List.length_cons] at hcount
          rw [Source.inset_char f margin hc, List.drop_succ_cons, List.drop_succ_cons]
          exact ih (Nat.le_of_succ_le_succ hcount)
        · simp [charsWhile, hin] at hcount

end

variable {f margin} {p : Char → Bool}

/-! ## Headers -/

theorem word?_inset (hp : p '\n' = false) (source : Source α) :
    word? p (source.inset f margin) = (word? p source).map (insetFound f margin (Word.map f)) := by
  unfold word?
  rw [slot?_inset, run?_inset hp]
  cases slot? source with
  | some found => rfl
  | none => cases run? p source <;> rfl

theorem tagName?_inset (source : Source α) :
    tagName? (source.inset f margin) = (tagName? source).map (insetFound f margin id) := by
  have hlength := (List.dropWhile_suffix (· == ':')
    (l := (charsWhile isTagChar source).reverse)).length_le
  rw [List.length_reverse, ← List.length_reverse] at hlength
  have hdrop (count : Nat) (hcount : count ≤ (charsWhile isTagChar source).length) :
      (source.inset f margin).drop count = Source.inset f margin (source.drop count) :=
    drop_inset rfl hcount
  unfold tagName?
  simp only [charsWhile_inset (p := isTagChar) rfl, hdrop _ hlength]
  split
  · rfl
  · split <;> rfl

theorem base?_inset (source : Source α) :
    base? (source.inset f margin) = (base? source).map (insetFound f margin (Word.map f)) := by
  unfold base?
  rw [slot?_inset, tagName?_inset]
  cases slot? source with
  | some found => rfl
  | none => cases tagName? source <;> rfl

theorem shorthands_inset (source : Source α) :
    shorthands (source.inset f margin) =
      insetOutcome f margin (insetFound f margin (List.map (Attribute.map f)))
        (shorthands source) := by
  fun_induction shorthands source with
  | case1 mark rest hname =>
    rw [shorthands_eq]
    simp [Source.inset, hname, insetOutcome, insetFound]
  | case2 mark rest name hname hvalue =>
    have hmark : mark ≠ '\n' := by
      rintro rfl
      contradiction
    rw [shorthands_eq, Source.inset_char f margin hmark]
    simp only [hname, word?_inset (p := isIdentifierChar) rfl, hvalue]
    rfl
  | case3 mark rest name hname value after hvalue ih =>
    have hmark : mark ≠ '\n' := by
      rintro rfl
      contradiction
    rw [shorthands_eq, Source.inset_char f margin hmark]
    simp only [hname, word?_inset (p := isIdentifierChar) rfl, hvalue, Option.map_some,
      insetFound, ih]
    refine insetOutcome_bind fun found _ => ?_
    rfl
  | case4 source hsource =>
    cases source with
    | nil => rw [shorthands_eq]; rfl
    | cons symbol rest =>
      cases symbol with
      | slot value => rw [shorthands_eq]; rfl
      | char c => exact absurd rfl (hsource c rest)

def Naming.map (f : α → β) (named : Naming α) : Naming β :=
  ⟨named.base.map (Word.map f), named.shorthands.map (Attribute.map f)⟩

theorem naming_inset (source : Source α) :
    naming (source.inset f margin) =
      insetOutcome f margin (Option.map (insetFound f margin (Naming.map f))) (naming source) := by
  unfold naming
  rw [base?_inset]
  cases base? source with
  | none =>
    simp only [Option.map_none, shorthands_inset]
    refine insetOutcome_bind fun found _ => ?_
    obtain ⟨attributes, rest⟩ := found
    cases attributes <;> rfl
  | some base =>
    simp only [Option.map_some, insetFound, shorthands_inset]
    refine insetOutcome_bind fun found _ => ?_
    rfl

theorem splat?_inset (layout : Layout) (source : Source α) :
    splat? layout (source.inset f margin) =
      insetOutcome f margin (Option.map (insetFound f margin (Attribute.map f)))
        (splat? layout source) := by
  have hgap : SkipsMargin layout.isGap margin := skipsMargin_isGap layout
  unfold splat?
  rw [afterWhile_inset hgap]
  cases afterWhile layout.isGap source with
  | nil => rfl
  | cons symbol rest =>
    cases symbol with
    | slot value => rfl
    | char c =>
      by_cases hc : c = '*'
      · subst hc
        rw [Source.inset_char f margin (by decide)]
        simp only [afterWhile_inset hgap, slot?_inset]
        cases slot? (afterWhile layout.isGap rest) <;> rfl
      · simp [Source.inset, hc, insetOutcome]

theorem pairName?_inset (layout : Layout) (source : Source α) :
    pairName? layout (source.inset f margin) =
      (pairName? layout source).map (insetFound f margin (Word.map f)) := by
  have hgap : SkipsMargin layout.isGap margin := skipsMargin_isGap layout
  unfold pairName?
  rw [afterWhile_inset hgap, word?_inset rfl]
  cases word? isNameChar (afterWhile layout.isGap source) with
  | none => rfl
  | some found =>
    simp only [Option.map_some, Option.bind_eq_bind, Option.bind_some, insetFound,
      afterWhile_inset hgap]
    cases afterWhile layout.isGap found.2 with
    | nil => rfl
    | cons symbol rest =>
      cases symbol with
      | slot value => rfl
      | char c =>
        by_cases hc : c = '='
        · subst hc
          rw [Source.inset_char f margin (by decide)]
          simp [afterWhile_inset hgap, insetFound]
        · simp [Source.inset, hc]

theorem quotedRest_inset {quote : Char} (hquote : quote ≠ '\n') (source : Source α) :
    quotedRest quote (source.inset f margin) =
      insetOutcome f margin (insetFound f margin (Word.map f)) (quotedRest quote source) := by
  have hchars : charsWhile (fun c => c != '\n' && c != quote) (source.inset f margin) =
      charsWhile (fun c => c != '\n' && c != quote) source := charsWhile_inset rfl source
  have hafter : afterWhile (fun c => c != '\n' && c != quote) (source.inset f margin) =
      Source.inset f margin (afterWhile (fun c => c != '\n' && c != quote) source) :=
    afterWhile_inset (skipsMargin_of_false rfl) source
  unfold quotedRest
  simp only [hchars, hafter]
  cases afterWhile (fun c => c != '\n' && c != quote) source with
  | nil => rfl
  | cons symbol rest =>
    cases symbol with
    | slot value => rfl
    | char c =>
      by_cases hc : c = quote
      · subst hc
        rw [Source.inset_char f margin hquote]
        simp [insetOutcome, insetFound, Word.map]
      · simp [Source.inset, hc, insetOutcome, Failure.inset]

theorem unquoted_inset (layout : Layout) (source : Source α) :
    unquoted layout (source.inset f margin) = unquoted layout source := by
  unfold unquoted
  rw [charsWhile_inset rfl]

theorem length_unquoted_le (layout : Layout) (source : Source α) :
    (unquoted layout source).length ≤ (charsWhile isValueChar source).length := by
  cases layout with
  | inline => exact Nat.le_refl _
  | wrapped close => exact (List.takeWhile_prefix _).length_le

theorem attributeValue_inset (layout : Layout) (source : Source α) :
    attributeValue layout (source.inset f margin) =
      insetOutcome f margin (insetFound f margin (Word.map f)) (attributeValue layout source) := by
  cases source with
  | nil => cases layout <;> rfl
  | cons symbol rest =>
    cases symbol with
    | slot value => rfl
    | char c =>
      by_cases hdouble : c = '"'
      · subst hdouble
        rw [Source.inset_char f margin (by decide)]
        exact quotedRest_inset (by decide) rest
      · by_cases hsingle : c = '\''
        · subst hsingle
          rw [Source.inset_char f margin (by decide)]
          exact quotedRest_inset (by decide) rest
        · have hunquoted : unquoted layout (Source.inset f margin (.char c :: rest)) = _ :=
            unquoted_inset layout (.char c :: rest)
          have hdrop : (Source.inset f margin (.char c :: rest)).drop _ = _ :=
            drop_inset rfl (length_unquoted_le layout (.char c :: rest))
          obtain ⟨more, hmore⟩ := Source.inset_cons_char f margin c rest
          rw [hmore] at hunquoted hdrop ⊢
          simp [attributeValue, hdouble, hsingle, hunquoted, hdrop, insetOutcome, insetFound,
            Word.map]

theorem pair?_inset (layout : Layout) (source : Source α) :
    pair? layout (source.inset f margin) =
      insetOutcome f margin (Option.map (insetFound f margin (Attribute.map f)))
        (pair? layout source) := by
  unfold pair?
  rw [pairName?_inset]
  cases pairName? layout source with
  | none => rfl
  | some found =>
    simp only [Option.map_some, insetFound, attributeValue_inset]
    refine insetOutcome_bind fun found _ => ?_
    rfl

theorem bareName?_inset (layout : Layout) (source : Source α) :
    bareName? layout (source.inset f margin) =
      (bareName? layout source).map (insetFound f margin (Attribute.map f)) := by
  cases layout with
  | inline => rfl
  | wrapped close =>
    simp only [bareName?, afterWhile_inset (skipsMargin_isGap _), word?_inset (p := isNameChar) rfl]
    cases word? isNameChar (afterWhile (Layout.wrapped close).isGap source) <;> rfl

theorem attribute?_inset (layout : Layout) (source : Source α) :
    attribute? layout (source.inset f margin) =
      insetOutcome f margin (Option.map (insetFound f margin (Attribute.map f)))
        (attribute? layout source) := by
  unfold attribute?
  rw [splat?_inset, pair?_inset, bareName?_inset]
  refine insetOutcome_bind fun found _ => ?_
  cases found with
  | some found => rfl
  | none =>
    refine insetOutcome_bind fun found _ => ?_
    cases found <;> rfl

theorem inlineAttributes_inset (source : Source α) :
    inlineAttributes (source.inset f margin) =
      insetOutcome f margin (insetFound f margin (List.map (Attribute.map f)))
        (inlineAttributes source) := by
  fun_induction inlineAttributes source with
  | case1 source failure hentry =>
    rw [inlineAttributes_eq, attribute?_inset, hentry]
    rfl
  | case2 source hentry =>
    rw [inlineAttributes_eq, attribute?_inset, hentry]
    rfl
  | case3 source entry rest hentry ih =>
    rw [inlineAttributes_eq, attribute?_inset, hentry]
    show (inlineAttributes (rest.inset f margin) >>= _) = _
    rw [ih]
    refine insetOutcome_bind fun found _ => ?_
    rfl

theorem wrappedAttributes_inset {close : Char} (hclose : close ≠ '\n') (source : Source α) :
    wrappedAttributes close (source.inset f margin) =
      insetOutcome f margin (insetFound f margin (List.map (Attribute.map f)))
        (wrappedAttributes close source) := by
  have hliteral : '\n' ∉ [close] := by simpa using Ne.symm hclose
  fun_induction wrappedAttributes close source with
  | case1 source hempty =>
    rw [wrappedAttributes_eq, Source.isEmpty_inset, if_pos hempty]
    rfl
  | case2 source hempty rest hfound =>
    rw [wrappedAttributes_eq, Source.isEmpty_inset, if_neg hempty,
      afterWhile_inset skipsMargin_isSpace, literal?_inset hliteral, hfound]
    rfl
  | case3 source hempty hfound failure hentry =>
    rw [wrappedAttributes_eq, Source.isEmpty_inset, if_neg hempty,
      afterWhile_inset skipsMargin_isSpace, literal?_inset hliteral, hfound, attribute?_inset,
      hentry]
    rfl
  | case4 source hempty hfound hentry =>
    rw [wrappedAttributes_eq, Source.isEmpty_inset, if_neg hempty,
      afterWhile_inset skipsMargin_isSpace, literal?_inset hliteral, hfound, attribute?_inset,
      hentry]
    rfl
  | case5 source hempty hfound entry rest hentry ih =>
    rw [wrappedAttributes_eq, Source.isEmpty_inset, if_neg hempty,
      afterWhile_inset skipsMargin_isSpace, literal?_inset hliteral, hfound, attribute?_inset,
      hentry]
    show (wrappedAttributes close (rest.inset f margin) >>= _) = _
    rw [ih]
    refine insetOutcome_bind fun found _ => ?_
    rfl

theorem attributes_inset (source : Source α) :
    attributes (source.inset f margin) =
      insetOutcome f margin (insetFound f margin (List.map (Attribute.map f)))
        (attributes source) := by
  unfold attributes
  rw [afterWhile_inset (skipsMargin_of_false rfl)]
  cases afterWhile isBlank source with
  | nil => exact inlineAttributes_inset source
  | cons symbol rest =>
    cases symbol with
    | slot value => exact inlineAttributes_inset source
    | char c =>
      cases hclosing : closing? c with
      | none =>
        simp only [Source.inset, hclosing]
        exact inlineAttributes_inset source
      | some close =>
        have hc : c ≠ '\n' := by
          rintro rfl
          contradiction
        have hclose : close ≠ '\n' := by
          rintro rfl
          unfold closing? at hclosing
          split at hclosing <;> simp at hclosing
        simp only [Source.inset_char f margin hc, hclosing]
        exact wrappedAttributes_inset hclose rest

theorem refName_inset (source : Source α) :
    refName (source.inset f margin) =
      insetOutcome f margin (insetFound f margin (Option.map (Word.map f))) (refName source) := by
  unfold refName
  rw [afterWhile_inset (skipsMargin_of_false rfl)]
  cases afterWhile isBlank source with
  | nil => rfl
  | cons symbol rest =>
    cases symbol with
    | slot value => rfl
    | char c =>
      by_cases hc : c = '@'
      · subst hc
        rw [Source.inset_char f margin (by decide)]
        simp only [word?_inset (p := isIdentifierChar) rfl]
        cases word? isIdentifierChar rest <;> rfl
      · simp [Source.inset, hc, insetOutcome, insetFound]

def Opening.map (f : α → β) (opening : Opening α) : Opening β :=
  ⟨opening.header.map f, opening.spaceBefore, opening.spaceAfter⟩

theorem openingRest_inset (named : Naming α) (source : Source α) :
    openingRest (named.map f) (source.inset f margin) =
      insetOutcome f margin (insetFound f margin (Opening.map f)) (openingRest named source) := by
  unfold openingRest
  simp only [charsWhile_inset (p := isSpacer) rfl,
    afterWhile_inset (skipsMargin_of_false (p := isSpacer) rfl), attributes_inset]
  refine insetOutcome_bind fun found _ => ?_
  simp only [insetFound, refName_inset]
  refine insetOutcome_bind fun found _ => ?_
  cases hbase : named.base <;>
    simp [Naming.map, hbase, insetOutcome, insetFound, Opening.map, Header.map, pure, Except.pure,
      Word.map]

theorem nodes_map (opening : Opening α) (children : List (Node α)) :
    (opening.map f).nodes (Node.mapAll f children) = Node.mapAll f (opening.nodes children) := by
  obtain ⟨header, spaceBefore, spaceAfter⟩ := opening
  cases spaceBefore <;> cases spaceAfter <;> rfl

/-! ## Marks -/

theorem instructionWord?_inset (source : Source α) :
    instructionWord? (source.inset f margin) =
      (instructionWord? source).map (insetFound f margin id) := by
  cases source with
  | nil => rfl
  | cons symbol rest =>
    cases symbol with
    | slot value => rfl
    | char c =>
      by_cases hc : c = '-'
      · subst hc
        rw [Source.inset_char f margin (by decide)]
        simp only [instructionWord?, afterWhile_inset (skipsMargin_of_false (p := isBlank) rfl),
          run?_inset (p := isWordChar) rfl]
        cases run? isWordChar (afterWhile isBlank rest) <;> rfl
      · simp [Source.inset, instructionWord?, hc]

theorem instructionName_inset (source : Source α) :
    instructionName (source.inset f margin) =
      insetOutcome f margin (Option.map (insetFound f margin id)) (instructionName source) := by
  have hword : instructionWord? (source.inset f margin) = _ := instructionWord?_inset source
  unfold instructionName
  rw [hword]
  cases source with
  | nil => rfl
  | cons symbol rest =>
    cases symbol with
    | slot value => rfl
    | char c =>
      by_cases hc : c = '-'
      · subst hc
        rw [Source.inset_char f margin (by decide)]
        cases hfound : instructionWord? (.char '-' :: rest) with
        | none =>
          simp only [Option.map_none, insetOutcome, Failure.inset,
            Source.inset_char f margin (show '-' ≠ '\n' by decide)]
        | some found => rfl
      · simp [Source.inset, hc, insetOutcome]

theorem ofMark?_inset (source : Source α) :
    ofMark? (source.inset f margin) = (ofMark? source).map (Source.inset f margin) := by
  unfold ofMark?
  rw [run?_inset rfl]
  cases run? isBlank source with
  | none => rfl
  | some found =>
    simp only [Option.map_some, Option.bind_eq_bind, Option.bind_some, insetFound,
      literal?_inset (show '\n' ∉ ['o', 'f'] by decide)]
    cases literal? ['o', 'f'] found.2 with
    | none => rfl
    | some rest => simp [afterWhile_inset (skipsMargin_of_false (p := isBlank) rfl)]

theorem skipOneBlank_inset (source : Source α) :
    skipOneBlank (source.inset f margin) = Source.inset f margin (skipOneBlank source) := by
  cases source with
  | nil => rfl
  | cons symbol rest =>
    cases symbol with
    | slot value => rfl
    | char c =>
      by_cases hc : isBlank c = true
      · have hbreak : c ≠ '\n' := by
          rintro rfl
          contradiction
        simp [Source.inset_char f margin hbreak, skipOneBlank, hc]
      · simp [Source.inset, skipOneBlank, hc]

theorem expansion?_inset (source : Source α) :
    expansion? (source.inset f margin) = (expansion? source).map (Source.inset f margin) := by
  have hblank : SkipsMargin isBlank margin := skipsMargin_of_false rfl
  unfold expansion?
  rw [afterWhile_inset hblank]
  cases afterWhile isBlank source with
  | nil => rfl
  | cons symbol rest =>
    cases symbol with
    | slot value => rfl
    | char c =>
      by_cases hc : c = ':'
      · subst hc
        rw [Source.inset_char f margin (by decide)]
        simp [afterWhile_inset hblank]
      · simp [Source.inset, hc]

end Parser

end IndentMarkup

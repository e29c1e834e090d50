import IndentMarkup.Proofs.SlotsTaken

/-! Progress or rewind. A stream is read by taking from it, and what has been taken is gone, also
where it turns out that a production does not apply; only an attempt goes back. The productions are
put together here as readings of a stream, from tokens and attempts, and agree with the functions
of the parser. So each of them fails, or does not apply and leaves the stream where it was, or goes
forward. -/
namespace IndentMarkup

/-! ## The order of positions -/

namespace Position

/-- One position lies before another: in an earlier segment, or at a lower offset of its segment. -/
def Before (first second : Position) : Prop :=
  first.segment < second.segment ∨
    first.segment = second.segment ∧ first.offset < second.offset

theorem Before.trans {first second third : Position} (h : first.Before second)
    (h' : second.Before third) : first.Before third := by
  unfold Before at *
  omega

theorem Before.ne {first second : Position} (h : first.Before second) : first ≠ second := by
  rintro rfl
  unfold Before at h
  omega

variable {α : Type}

theorem before_advance (position : Position) (symbol : Symbol α) :
    position.Before (position.advance symbol) := by
  cases symbol with
  | char c => exact .inr ⟨rfl, Nat.lt_add_of_pos_right c.utf8Size_pos⟩
  | slot value => exact .inl (Nat.lt_succ_self _)

theorem before_foldl (position : Position) {taken : Source α} (h : taken ≠ []) :
    position.Before (taken.foldl advance position) := by
  induction taken generalizing position with
  | nil => contradiction
  | cons symbol rest ih =>
    rw [List.foldl_cons]
    cases rest with
    | nil => exact before_advance position symbol
    | cons next rest => exact (before_advance position symbol).trans (ih _ (List.cons_ne_nil _ _))

/-- The less is left of a source, the later the position. -/
theorem before_ofRest {whole source rest : Source α} (hsource : source <:+ whole)
    (hrest : rest <:+ source) (hlength : rest.length < source.length) :
    (ofRest whole source).Before (ofRest whole rest) := by
  obtain ⟨before, rfl⟩ := hsource
  obtain ⟨taken, rfl⟩ := hrest
  have htaken : taken ≠ [] := by
    rintro rfl
    exact absurd hlength (Nat.lt_irrefl _)
  have hlater : ofRest (before ++ (taken ++ rest)) rest =
      taken.foldl advance (behind before) := by
    rw [← List.append_assoc, ofRest_append, behind, behind, List.foldl_append]
  rw [ofRest_append, hlater]
  exact before_foldl _ htaken

end Position

namespace Parser

open Text (isBlank isSpace)

/-! ## Readings -/

/-- A reading of a stream. What is left of the source goes in and comes out. -/
abbrev Reader (α β : Type) := StateT (Source α) (Except (Failure α)) β

namespace Reader

variable {α β : Type}

/-- Takes a token, if there is one. -/
def token (take : Source α → Option (β × Source α)) : Reader α (Option β) :=
  fun source =>
    match take source with
    | some (found, rest) => .ok (some found, rest)
    | none => .ok (none, source)

def literal (text : List Char) : Reader α Bool :=
  fun source =>
    match literal? text source with
    | some rest => .ok (true, rest)
    | none => .ok (false, source)

/-- Takes a run of characters, which may be empty. -/
def skipWhile (p : Char → Bool) : Reader α Unit :=
  modify (afterWhile p)

def fail (cause : Cause) : Reader α β :=
  fun source => .error ⟨cause, source⟩

/-- Goes back if a reading does not apply. -/
def attempt (read : Reader α (Option β)) : Reader α (Option β) :=
  fun source =>
    match read source with
    | .ok (none, _) => .ok (none, source)
    | outcome => outcome

/-! ### The productions -/

/-- A comment, with the lines that belong to it. -/
def comment (indent : Indent) : Reader α (Option (List (Node α))) := do
  if ← literal ['/'] then
    modify fun source => skipDeeperLines indent (skipLine source)
    return some []
  else return none

def marker? : Source α → Option (Char × Source α)
  | .char c :: rest => if isTextMarker c then some (c, rest) else none
  | _ => none

/-- A text item: its marker, and the text with all lines that belong to it. -/
def textItem (indent : Indent) : Reader α (Option (List (Node α))) := do
  match ← token marker? with
  | none => return none
  | some marker =>
    match ← modifyGet (textBody indent) with
    | none => return some []
    | some nodes =>
      let space := if marker = '\'' then [.text " "] else []
      return some (dropTrailingNewLines nodes ++ space)

def element (indent : Indent) : Reader α (Option (List (Node α))) := do
  let base ← token base?
  let marks ← (shorthands : Reader α _)
  if base.isNone && marks.isEmpty then return none
  else
    let opening ← (openingRest ⟨base, marks⟩ : Reader α _)
    let nodes ← (content indent : Reader α _)
    return some (opening.nodes nodes)

def instructionWord : Reader α (Option String) :=
  attempt do
    if ← literal ['-'] then
      skipWhile isBlank
      return (← token (run? isWordChar)).map String.ofList
    else return none

/-- A control flow line with its blocks. Behind a dash there must be one. -/
def controlFlow (indent : Indent) : Reader α (Option (List (Node α))) := do
  if (literal? ['-'] (← get)).isNone then return none
  else
    match ← instructionWord with
    | none => fail .instructionExpected
    | some word =>
      match ← (instructionRest word : Reader α _) with
      | .ifThen condition =>
        let thenBranch ← (children indent : Reader α _)
        let elseBranch ← (otherwise indent : Reader α _)
        return some [.ifBlock condition thenBranch elseBranch]
      | .forEach variableName iterable =>
        let body ← (children indent : Reader α _)
        return some [.forBlock variableName iterable body]

def blankLine : Reader α (Option LineEnd) :=
  token blankLine?

def deeperIndent (indent : Indent) : Reader α (Option Indent) :=
  attempt do
    if ← literal indent then
      return (← token (run? isBlank)).map (indent ++ ·)
    else return none

/-- A splat. Behind its star there must be a slot. -/
def splat (layout : Layout) : Reader α (Option (Attribute α)) := do
  let star ← attempt do
    skipWhile layout.isGap
    if ← literal ['*'] then return some () else return none
  match star with
  | none => return none
  | some () =>
    skipWhile layout.isGap
    match ← token slot? with
    | some value => return some (.splat value)
    | none => fail .splatExpected

def pairName (layout : Layout) : Reader α (Option (Word α)) :=
  attempt do
    skipWhile layout.isGap
    match ← token (word? isNameChar) with
    | none => return none
    | some name =>
      skipWhile layout.isGap
      if ← literal ['='] then
        skipWhile layout.isGap
        return some name
      else return none

def pair (layout : Layout) : Reader α (Option (Attribute α)) := do
  match ← pairName layout with
  | none => return none
  | some name =>
    let value ← (attributeValue layout : Reader α _)
    return some (.pair name value)

/-- A name alone, in a wrapped list. -/
def bareName : Reader α (Option (Attribute α)) :=
  attempt do
    skipWhile isSpace
    return (← token (word? isNameChar)).map .bare

/-- The name under which an element is bound. Behind its mark there must be one. -/
def refName : Reader α (Option (Word α)) := do
  let mark ← attempt do
    skipWhile isBlank
    if ← literal ['@'] then return some () else return none
  match mark with
  | none => return none
  | some () =>
    match ← token (word? isIdentifierChar) with
    | some name => return some name
    | none => fail (.identifierExpected '@')

/-! ### The readings agree with the parser -/

/-- What a production finds in a source, as a reading of the source: where it does not apply,
nothing is taken. -/
def outcome (source : Source α) (found : Except (Failure α) (Option (β × Source α))) :
    Except (Failure α) (Option β × Source α) :=
  found.map fun found =>
    match found with
    | some (value, rest) => (some value, rest)
    | none => (none, source)

variable {γ : Type} {source : Source α}

theorem pure_apply (value : β) : (pure value : Reader α β) source = .ok (value, source) := rfl

theorem bind_apply (first : Reader α β) (next : β → Reader α γ) :
    (first >>= next) source =
      match first source with
      | .ok (value, rest) => next value rest
      | .error failure => .error failure := by
  show (first source >>= fun found => next found.1 found.2) = _
  cases first source <;> rfl

theorem skipWhile_apply (p : Char → Bool) :
    (skipWhile p : Reader α Unit) source = .ok ((), afterWhile p source) := rfl

theorem literal_apply (text : List Char) :
    (literal text : Reader α Bool) source =
      .ok ((literal? text source).isSome, (literal? text source).getD source) := by
  unfold literal
  cases literal? text source <;> rfl

theorem token_apply (take : Source α → Option (β × Source α)) :
    token take source = outcome source (.ok (take source)) := by
  unfold token
  cases take source <;> rfl

/-- A fixed text is not taken exactly where the input does not begin with it. -/
theorem literal?_eq_none {text : List Char} :
    literal? text source = none ↔ ∀ rest, source ≠ Source.ofChars text ++ rest := by
  simp only [Option.eq_none_iff_forall_ne_some, ne_eq, literal?_eq_some]

theorem comment?_eq (indent : Indent) (source : Source α) :
    comment? indent source =
      (literal? ['/'] source).map fun rest => skipDeeperLines indent (skipLine rest) := by
  unfold comment?
  split
  · simp [literal?]
  · rename_i hne
    rw [literal?_eq_none.mpr hne]
    rfl

theorem instructionWord?_eq (source : Source α) :
    instructionWord? source = (literal? ['-'] source).bind fun rest =>
      (run? isWordChar (afterWhile isBlank rest)).map fun found =>
        (String.ofList found.1, found.2) := by
  unfold instructionWord?
  split
  · simp [literal?]
  · rename_i hne
    rw [literal?_eq_none.mpr hne]
    rfl

theorem comment_apply (indent : Indent) (source : Source α) :
    comment indent source = outcome source (.ok ((comment? indent source).map ([], ·))) := by
  unfold comment
  rw [bind_apply, literal_apply, comment?_eq]
  cases literal? ['/'] source <;> rfl

theorem textItem_apply (indent : Indent) (source : Source α) :
    textItem indent source = outcome source (.ok (textItem? indent source)) := by
  unfold textItem
  rw [bind_apply, token_apply]
  cases source with
  | nil => rfl
  | cons symbol rest =>
    cases symbol with
    | slot value => rfl
    | char c =>
      simp only [marker?, textItem?]
      by_cases hmarker : isTextMarker c = true
      · have hbody : (modifyGet (textBody indent) : Reader α _) rest = .ok (textBody indent rest) :=
          rfl
        simp only [hmarker, if_true, outcome, Except.map, bind_apply, hbody]
        rcases textBody indent rest with ⟨_ | nodes, after⟩ <;> rfl
      · simp only [hmarker]
        rfl

theorem deeperIndent_apply (indent : Indent) (source : Source α) :
    deeperIndent indent source = outcome source (.ok (deeperIndent? indent source)) := by
  unfold deeperIndent deeperIndent? attempt
  rw [bind_apply, literal_apply]
  cases literal? indent source with
  | none => rfl
  | some rest =>
    simp only [Option.isSome_some, if_true, Option.getD_some, bind_apply, token_apply]
    simp only [Option.bind_eq_bind, Option.bind_some]
    cases run? isBlank rest <;> rfl

theorem instructionWord_apply (source : Source α) :
    instructionWord source = outcome source (.ok (instructionWord? source)) := by
  unfold instructionWord attempt
  rw [bind_apply, literal_apply, instructionWord?_eq]
  cases literal? ['-'] source with
  | none => rfl
  | some rest =>
    simp only [Option.isSome_some, if_true, Option.getD_some, bind_apply, skipWhile_apply,
      token_apply, Option.bind_some]
    cases run? isWordChar (afterWhile isBlank rest) <;> rfl

theorem instructionName_eq (source : Source α) :
    instructionName source =
      if (literal? ['-'] source).isNone then .ok none
      else
        match instructionWord? source with
        | none => .error ⟨.instructionExpected, source⟩
        | some found => .ok (some found) := by
  unfold instructionName
  split
  · have hdash : ∀ rest : Source α, (literal? ['-'] (.char '-' :: rest)).isNone = false :=
      fun _ => rfl
    rw [hdash]
    rfl
  · rename_i hne
    rw [literal?_eq_none.mpr fun rest => hne rest]
    rfl

theorem controlFlow_apply (indent : Indent) (source : Source α) :
    controlFlow indent source = outcome source (instruction indent source) := by
  have hget : (get : Reader α (Source α)) source = .ok (source, source) := rfl
  unfold controlFlow
  rw [instruction_eq, instructionName_eq, bind_apply, hget]
  simp only
  by_cases hdash : (literal? ['-'] source).isNone = true
  · simp only [hdash, if_true]
    rfl
  · simp only [hdash]
    rw [if_neg (by simp), if_neg (by simp), bind_apply, instructionWord_apply]
    cases instructionWord? source with
    | none => rfl
    | some found =>
      obtain ⟨word, rest⟩ := found
      simp only [outcome, Except.map, bind_apply]
      show _ = Except.map _ (instructionRest word rest >>= _)
      cases instructionRest word rest with
      | error failure => rfl
      | ok found =>
        obtain ⟨line, rest⟩ := found
        cases line with
        | ifThen condition =>
          simp only [bind_apply]
          show _ = Except.map _ (children indent rest >>= _)
          cases children indent rest with
          | error failure => rfl
          | ok found =>
            show _ = Except.map _ (otherwise indent found.2 >>= _)
            simp only
            cases otherwise indent found.2 <;> rfl
        | forEach variableName iterable =>
          simp only [bind_apply]
          show _ = Except.map _ (children indent rest >>= _)
          cases children indent rest <;> rfl

/-- Shorthands that are not there take nothing. -/
theorem rest_of_shorthands {rest : Source α} (h : shorthands source = .ok ([], rest)) :
    rest = source := by
  rw [shorthands_eq] at h
  split at h
  · split at h
    · exact (Prod.mk.inj (Except.ok.inj h)).2.symm
    · split at h
      · contradiction
      · obtain ⟨found, -, h⟩ := of_bind_ok h
        exact absurd (Prod.mk.inj (Except.ok.inj h)).1 (List.cons_ne_nil _ _)
  · exact (Prod.mk.inj (Except.ok.inj h)).2.symm

/-- An element from behind its base and its shorthands. -/
theorem opened_apply (indent : Indent) (named : Naming α) (source start : Source α) :
    (do
      let opening ← (openingRest named : Reader α _)
      let nodes ← (content indent : Reader α _)
      return some (opening.nodes nodes) : Reader α (Option (List (Node α)))) start =
    outcome source (do
      let (opening, rest) ← openingRest named start
      let (nodes, rest) ← content indent rest
      return some (opening.nodes nodes, rest)) := by
  rw [bind_apply]
  cases openingRest named start with
  | error failure => rfl
  | ok found =>
    obtain ⟨opening, rest⟩ := found
    simp only [bind_apply]
    show _ = outcome source (content indent rest >>= _)
    cases content indent rest <;> rfl

theorem element_apply (indent : Indent) (source : Source α) :
    element indent source = outcome source (Parser.element indent source) := by
  unfold element
  rw [element_eq, bind_apply, token_apply]
  unfold naming
  cases hbase : base? source with
  | none =>
    simp only [outcome, Except.map, bind_apply]
    cases hmarks : shorthands source with
    | error failure => rfl
    | ok found =>
      obtain ⟨marks, rest⟩ := found
      cases marks with
      | nil =>
        obtain rfl := rest_of_shorthands hmarks
        rfl
      | cons mark marks => exact opened_apply indent ⟨none, mark :: marks⟩ source rest
  | some found =>
    obtain ⟨base, start⟩ := found
    simp only [outcome, Except.map, bind_apply]
    cases shorthands start with
    | error failure => rfl
    | ok found =>
      obtain ⟨marks, rest⟩ := found
      exact opened_apply indent ⟨some base, marks⟩ source rest

/-- A mark behind white space is taken with it, or neither is. -/
theorem mark_apply (p : Char → Bool) (c : Char) (source : Source α) :
    attempt (do
      skipWhile p
      if ← literal [c] then return some () else return none) source =
    outcome source (.ok ((literal? [c] (afterWhile p source)).map ((), ·))) := by
  unfold attempt
  simp only [bind_apply, skipWhile_apply, literal_apply]
  cases literal? [c] (afterWhile p source) <;> rfl

theorem splat?_eq (layout : Layout) (source : Source α) :
    splat? layout source =
      match literal? ['*'] (afterWhile layout.isGap source) with
      | some rest =>
        match slot? (afterWhile layout.isGap rest) with
        | some (value, rest) => .ok (some (.splat value, rest))
        | none => .error ⟨.splatExpected, afterWhile layout.isGap rest⟩
      | none => .ok none := by
  unfold splat?
  split
  · rename_i rest heq
    have hstar : literal? ['*'] (afterWhile layout.isGap source) = some rest :=
      literal?_eq_some.mpr heq
    cases hslot : slot? (afterWhile layout.isGap rest) <;> simp only [hstar, hslot]
  · rename_i hne
    rw [literal?_eq_none.mpr fun rest => hne rest]

theorem splat_apply (layout : Layout) (source : Source α) :
    splat layout source = outcome source (splat? layout source) := by
  unfold splat
  rw [bind_apply, mark_apply, splat?_eq]
  cases literal? ['*'] (afterWhile layout.isGap source) with
  | none => rfl
  | some rest =>
    simp only [Option.map_some, outcome, Except.map, bind_apply, skipWhile_apply, token_apply]
    cases slot? (afterWhile layout.isGap rest) <;> rfl

theorem pairName?_eq (layout : Layout) (source : Source α) :
    pairName? layout source =
      (word? isNameChar (afterWhile layout.isGap source)).bind fun found =>
        (literal? ['='] (afterWhile layout.isGap found.2)).map fun rest =>
          (found.1, afterWhile layout.isGap rest) := by
  unfold pairName?
  cases word? isNameChar (afterWhile layout.isGap source) with
  | none => rfl
  | some found =>
    obtain ⟨name, after⟩ := found
    simp only [Option.bind_eq_bind, Option.bind_some]
    split
    · rename_i rest heq
      have hequals : literal? ['='] (afterWhile layout.isGap after) = some rest :=
        literal?_eq_some.mpr heq
      rw [hequals]
      rfl
    · rename_i hne
      rw [literal?_eq_none.mpr fun rest => hne rest]
      rfl

theorem pairName_apply (layout : Layout) (source : Source α) :
    pairName layout source = outcome source (.ok (pairName? layout source)) := by
  unfold pairName attempt
  rw [pairName?_eq]
  simp only [bind_apply, skipWhile_apply, token_apply]
  cases word? isNameChar (afterWhile layout.isGap source) with
  | none => rfl
  | some found =>
    obtain ⟨name, after⟩ := found
    simp only [outcome, Except.map, bind_apply, skipWhile_apply, literal_apply, Option.bind_some]
    cases literal? ['='] (afterWhile layout.isGap after) <;> rfl

theorem pair_apply (layout : Layout) (source : Source α) :
    pair layout source = outcome source (pair? layout source) := by
  unfold pair pair?
  rw [bind_apply, pairName_apply]
  cases pairName? layout source with
  | none => rfl
  | some found =>
    obtain ⟨name, rest⟩ := found
    simp only [outcome, Except.map, bind_apply]
    cases attributeValue layout rest <;> rfl

theorem bareName_apply (close : Char) (source : Source α) :
    bareName source = outcome source (.ok (bareName? (.wrapped close) source)) := by
  unfold bareName bareName? attempt
  simp only [bind_apply, skipWhile_apply, token_apply, Layout.isGap]
  cases word? isNameChar (afterWhile isSpace source) <;> rfl

theorem refName_eq (source : Source α) :
    Parser.refName source =
      (literal? ['@'] (afterWhile isBlank source)).elim (.ok (none, source)) fun rest =>
        (word? isIdentifierChar rest).elim (.error ⟨.identifierExpected '@', rest⟩) fun found =>
          .ok (some found.1, found.2) := by
  unfold Parser.refName
  split
  · rename_i rest heq
    have hat : literal? ['@'] (afterWhile isBlank source) = some rest :=
      literal?_eq_some.mpr heq
    cases hname : word? isIdentifierChar rest <;> simp only [hat, hname, Option.elim]
  · rename_i hne
    rw [literal?_eq_none.mpr fun rest => hne rest]
    rfl

theorem refName_apply (source : Source α) : refName source = Parser.refName source := by
  unfold refName
  rw [bind_apply, mark_apply, refName_eq]
  cases literal? ['@'] (afterWhile isBlank source) with
  | none => rfl
  | some rest =>
    simp only [Option.map_some, Option.elim, outcome, Except.map, bind_apply, token_apply]
    cases word? isIdentifierChar rest <;> rfl

theorem blankLine_apply (source : Source α) :
    blankLine source = outcome source (.ok (blankLine? source)) :=
  token_apply blankLine?

/-! ### Forward or not at all -/

/-- At every place of every source a reading fails, or it does not apply and leaves the stream at
this place, or it comes to a later place of the source. -/
def Forward (read : Reader α (Option β)) : Prop :=
  ∀ whole source, source <:+ whole →
    (∃ failure, read source = .error failure) ∨
      read source = .ok (none, source) ∨
      ∃ found rest, read source = .ok (some found, rest) ∧ rest <:+ source ∧
        (Position.ofRest whole source).Before (Position.ofRest whole rest)

/-- A reading that agrees with a production goes forward if the production takes something. -/
theorem forward_of_apply {read : Reader α (Option β)}
    {production : Source α → Except (Failure α) (Option (β × Source α))}
    (happly : ∀ source, read source = outcome source (production source))
    (hrest : ∀ {source found rest}, production source = .ok (some (found, rest)) →
      rest <:+ source ∧ rest.length < source.length) : Forward read := by
  intro whole source hsource
  rw [happly]
  cases hfound : production source with
  | error failure => exact .inl ⟨failure, rfl⟩
  | ok found =>
    cases found with
    | none => exact .inr (.inl rfl)
    | some found =>
      obtain ⟨found, rest⟩ := found
      obtain ⟨hsuffix, hlength⟩ := hrest hfound
      exact .inr (.inr ⟨found, rest, rfl, hsuffix,
        Position.before_ofRest hsource hsuffix hlength⟩)

/-- The same for a production that cannot fail. -/
theorem forward_of_token {read : Reader α (Option β)}
    {production : Source α → Option (β × Source α)}
    (happly : ∀ source, read source = outcome source (.ok (production source)))
    (hrest : ∀ {source found rest}, production source = some (found, rest) →
      rest <:+ source ∧ rest.length < source.length) : Forward read :=
  forward_of_apply happly fun hfound => hrest (Except.ok.inj hfound)

theorem forward_comment (indent : Indent) : Forward (comment indent : Reader α _) := by
  refine forward_of_token (comment_apply indent) fun hfound => ?_
  obtain ⟨rest, hcomment, heq⟩ := Option.map_eq_some_iff.mp hfound
  obtain ⟨-, rfl⟩ := Prod.mk.inj heq
  exact ⟨(accounts_comment? hcomment).suffix, length_of_comment? hcomment⟩

theorem forward_textItem (indent : Indent) : Forward (textItem indent : Reader α _) :=
  forward_of_token (textItem_apply indent) fun h =>
    ⟨(accounts_textItem? h).suffix, length_of_textItem? h⟩

theorem forward_element (indent : Indent) : Forward (element indent : Reader α _) :=
  forward_of_apply (element_apply indent) fun h =>
    ⟨(reads_element h).accounts.suffix, length_of_element h⟩

theorem forward_controlFlow (indent : Indent) : Forward (controlFlow indent : Reader α _) :=
  forward_of_apply (controlFlow_apply indent) fun h =>
    ⟨(reads_instruction h).accounts.suffix, length_of_instruction h⟩

theorem forward_blankLine : Forward (blankLine : Reader α _) :=
  forward_of_token blankLine_apply fun h => ⟨(accounts_blankLine? h).suffix, length_of_blankLine? h⟩

theorem forward_deeperIndent (indent : Indent) : Forward (deeperIndent indent : Reader α _) :=
  forward_of_token (deeperIndent_apply indent) fun h =>
    ⟨(accounts_deeperIndent? h).suffix, length_of_deeperIndent? h⟩

theorem forward_splat (layout : Layout) : Forward (splat layout : Reader α _) :=
  forward_of_apply (splat_apply layout) fun h => ⟨(accounts_splat? h).suffix, length_of_splat? h⟩

theorem forward_pair (layout : Layout) : Forward (pair layout : Reader α _) :=
  forward_of_apply (pair_apply layout) fun h => ⟨(accounts_pair? h).suffix, length_of_pair? h⟩

theorem forward_bareName : Forward (bareName : Reader α _) :=
  forward_of_token (bareName_apply ')') fun h =>
    ⟨(accounts_bareName? h).suffix, length_of_bareName? h⟩

/-- A name takes something, and without one nothing is taken. -/
theorem of_refName {rest : Source α} {found : Option (Word α)}
    (h : Parser.refName source = .ok (found, rest)) :
    found = none ∧ rest = source ∨ ∃ name, found = some name ∧ rest.length < source.length := by
  have hblanks := length_afterWhile_le isBlank source
  unfold Parser.refName at h
  split at h
  · rename_i after hmark
    rw [hmark, List.length_cons] at hblanks
    split at h
    · rename_i name last hname
      obtain ⟨rfl, rfl⟩ := Prod.mk.inj (Except.ok.inj h)
      have hshorter := length_of_word? hname
      exact .inr ⟨name, rfl, by omega⟩
    · contradiction
  · obtain ⟨rfl, rfl⟩ := Prod.mk.inj (Except.ok.inj h)
    exact .inl ⟨rfl, rfl⟩

theorem forward_refName : Forward (refName : Reader α _) := by
  intro whole source hsource
  rw [refName_apply]
  cases hfound : Parser.refName source with
  | error failure => exact .inl ⟨failure, rfl⟩
  | ok found =>
    obtain ⟨found, rest⟩ := found
    rcases of_refName hfound with ⟨rfl, rfl⟩ | ⟨name, rfl, hlength⟩
    · exact .inr (.inl rfl)
    · have hsuffix := (accounts_refName hfound).suffix
      exact .inr (.inr ⟨name, rest, rfl, hsuffix,
        Position.before_ofRest hsource hsuffix hlength⟩)

theorem forward_instructionWord : Forward (instructionWord : Reader α _) :=
  forward_of_token instructionWord_apply fun h =>
    ⟨(accounts_instructionWord? h).suffix, length_of_instructionWord? h⟩

end Reader

end Parser

end IndentMarkup

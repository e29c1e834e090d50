import IndentMarkup.Proofs.Rewinding
import IndentMarkup.Proofs.Scanning

/-! The loops of the parser. A loop takes turns until one of them leaves it. Every turn that goes on
comes to a later place of the stream, so the loop ends; and the functions of the parser that read
rows of things are such loops. -/
namespace IndentMarkup.Parser.Reader

open Text (isBlank isSpace)

variable {α β : Type}

/-! ## Loops -/

/-- How a turn of a loop ends: the loop goes on, or it is left. Either way the turn may have found
something. -/
inductive Turn (β : Type) where
  | again (found : List β)
  | leave (found : List β)

/-- A turn after which the loop goes on comes to a later place of the source. -/
def Advances (turn : Reader α (Turn β)) : Prop :=
  ∀ whole source, source <:+ whole → ∀ found rest, turn source = .ok (.again found, rest) →
    rest <:+ source ∧ (Position.ofRest whole source).Before (Position.ofRest whole rest)

theorem advances_of_length {turn : Reader α (Turn β)}
    (h : ∀ {source found rest}, turn source = .ok (.again found, rest) →
      rest <:+ source ∧ rest.length < source.length) : Advances turn := by
  intro whole source hsource found rest hturn
  obtain ⟨hsuffix, hlength⟩ := h hturn
  exact ⟨hsuffix, Position.before_ofRest hsource hsuffix hlength⟩

theorem Advances.length_lt {turn : Reader α (Turn β)} (h : Advances turn) {source rest : Source α}
    {found : List β} (hturn : turn source = .ok (.again found, rest)) :
    rest.length < source.length := by
  obtain ⟨hsuffix, hbefore⟩ := h source source List.suffix_rfl found rest hturn
  refine Nat.lt_of_le_of_ne hsuffix.length_le fun hlength => hbefore.ne ?_
  rw [hsuffix.eq_of_length hlength]

/-- Takes turns until one leaves the loop. -/
def loop (turn : Reader α (Turn β)) (h : Advances turn) (source : Source α) :
    Except (Failure α) (List β × Source α) :=
  match _turn : turn source with
  | .error failure => .error failure
  | .ok (.leave found, rest) => .ok (found, rest)
  | .ok (.again found, rest) => do
    let (more, last) ← loop turn h rest
    return (found ++ more, last)
termination_by source.length
decreasing_by exact h.length_lt _turn

/-- One turn of a loop, and what follows it. -/
def unroll (turn : Reader α (Turn β)) (next : Reader α (List β)) : Reader α (List β) :=
  fun source =>
    match turn source with
    | .error failure => .error failure
    | .ok (.leave found, rest) => .ok (found, rest)
    | .ok (.again found, rest) => do
      let (more, last) ← next rest
      return (found ++ more, last)

/-- What does one turn and then the same once more is the loop. -/
theorem loop_eq_of_unroll {turn : Reader α (Turn β)} (h : Advances turn) {read : Reader α (List β)}
    (hread : ∀ source, read source = unroll turn read source) (source : Source α) :
    loop turn h source = read source := by
  rw [loop, hread, unroll]
  split
  · rename_i failure hturn
    simp only [hturn]
  · rename_i found rest hturn
    simp only [hturn]
  · rename_i found rest hturn
    have hshorter := h.length_lt hturn
    simp only [hturn]
    rw [loop_eq_of_unroll h hread rest]
termination_by source.length

/-- A function that reads a row of things is the loop of these turns, and the loop ends. -/
def IsLoop (turn : Reader α (Turn β)) (read : Reader α (List β)) : Prop :=
  ∃ h : Advances turn, ∀ source, loop turn h source = read source

theorem isLoop_of_unroll {turn : Reader α (Turn β)} {read : Reader α (List β)}
    (h : ∀ {source found rest}, turn source = .ok (.again found, rest) →
      rest <:+ source ∧ rest.length < source.length)
    (hread : ∀ source, read source = unroll turn read source) : IsLoop turn read :=
  ⟨advances_of_length h, loop_eq_of_unroll _ hread⟩

/-! ## The turns -/

/-- A further item of a block, behind its indent. -/
def siblingTurn (indent : Indent) : Reader α (Turn (Node α)) := do
  let found ← attempt do
    if ← literal indent then
      if (charsWhile isBlank (← get)).isEmpty then
        fun source => outcome source (item indent source)
      else fail .malformedIndent
    else return none
  match found with
  | some nodes => return .again nodes
  | none => return .leave []

/-- An entry of an attribute list. A name alone is one in a wrapped list only. -/
def listEntry (layout : Layout) : Reader α (Option (Attribute α)) := do
  match ← splat layout with
  | some entry => return some entry
  | none =>
    match ← pair layout with
    | some entry => return some entry
    | none =>
      match layout with
      | .inline => return none
      | .wrapped _ => bareName

/-- A further entry of a list on the line of its element. -/
def inlineTurn : Reader α (Turn (Attribute α)) := do
  match ← listEntry .inline with
  | some entry => return .again [entry]
  | none => return .leave []

/-- The closing bracket of a wrapped list, or a further entry. -/
def wrappedTurn (close : Char) : Reader α (Turn (Attribute α)) := do
  if (← get).isEmpty then fail .unclosedAttributes
  else
    let closed ← attempt do
      skipWhile isSpace
      if ← literal [close] then return some () else return none
    match closed with
    | some () => return .leave []
    | none =>
      match ← listEntry (.wrapped close) with
      | some entry => return .again [entry]
      | none => fail .attributeNameExpected

/-- A further line of a text: a blank one, or one that is deeper. -/
def continuedTurn (indent trimmed : Indent) : Reader α (Turn (Node α)) := do
  match ← blankLine with
  | some .newline => return .again [.newLine]
  | some .endOfInput => return .again []
  | none =>
    match ← deeperIndent indent with
    | none => return .leave []
    | some deeper =>
      let line ← modifyGet textLine
      return .again (indentText (Indent.trim deeper trimmed) ++ line)

/-- A further line of a comment: a deeper one, or one that is blank. -/
def commentTurn (indent : Indent) : Reader α (Turn (Node α)) := do
  match ← deeperIndent indent with
  | some _ =>
    modify skipLine
    return .again []
  | none =>
    if (blankLine? (← get)).isSome then
      modify skipLine
      return .again []
    else return .leave []

/-- The end of a line, a slot, or the text up to one of them. -/
def textTurn : Reader α (Turn (Node α)) := do
  if ← literal ['\n'] then return .leave [.newLine]
  else if (← get).isEmpty then return .leave []
  else
    match ← token slot? with
    | some value => return .again [.slot value]
    | none =>
      match ← token (run? inLine) with
      | some text => return .again [.text (String.ofList text)]
      | none => return .leave []

/-- The same for a line of which nothing is kept. -/
def skipTurn : Reader α (Turn (Node α)) := do
  if ← literal ['\n'] then return .leave []
  else if (← get).isEmpty then return .leave []
  else
    match ← token slot? with
    | some _ => return .again []
    | none =>
      match ← token (run? inLine) with
      | some _ => return .again []
      | none => return .leave []

/-! ## The functions of the parser are these loops -/

variable {source : Source α}

theorem get_apply : (get : Reader α (Source α)) source = .ok (source, source) := rfl

theorem ite_apply {read other : Reader α β} {condition : Prop} [Decidable condition] :
    (if condition then read else other) source =
      if condition then read source else other source := by
  split <;> rfl

theorem siblingTurn_apply (indent : Indent) (source : Source α) :
    siblingTurn indent source =
      match literal? indent source with
      | none => .ok (.leave [], source)
      | some start =>
        if (charsWhile isBlank start).isEmpty then
          match item indent start with
          | .error failure => .error failure
          | .ok none => .ok (.leave [], source)
          | .ok (some (nodes, rest)) => .ok (.again nodes, rest)
        else .error ⟨.malformedIndent, start⟩ := by
  unfold siblingTurn attempt
  rw [bind_apply, bind_apply, literal_apply]
  cases literal? indent source with
  | none => rfl
  | some start =>
    simp only [Option.isSome_some, if_true, Option.getD_some, bind_apply, get_apply, ite_apply]
    by_cases hempty : (charsWhile isBlank start).isEmpty = true
    · rw [if_pos hempty, if_pos hempty]
      cases item indent start with
      | error failure => rfl
      | ok found => cases found <;> rfl
    · rw [if_neg hempty, if_neg hempty]
      rfl

theorem isLoop_siblings (indent : Indent) :
    IsLoop (siblingTurn indent : Reader α _) (siblings indent) := by
  refine isLoop_of_unroll (fun {source found rest} hturn => ?_) fun source => ?_
  · rw [siblingTurn_apply] at hturn
    split at hturn
    · cases hturn
    · rename_i start hliteral
      have hindent := length_of_literal? hliteral
      split at hturn
      · split at hturn
        · cases hturn
        · cases hturn
        · rename_i nodes rest hitem
          cases hturn
          have hshorter := length_of_item hitem
          exact ⟨(reads_item hitem).accounts.suffix.trans (accounts_literal? hliteral).suffix,
            by omega⟩
      · cases hturn
  · rw [siblings_eq, unroll, siblingTurn_apply]
    cases literal? indent source with
    | none => rfl
    | some start =>
      by_cases hempty : (charsWhile isBlank start).isEmpty = true
      · simp only [hempty, Bool.not_true, Bool.false_eq_true, if_false, if_true]
        cases item indent start with
        | error failure => rfl
        | ok found => cases found <;> rfl
      · simp only [hempty]
        rfl

theorem listEntry_apply (layout : Layout) (source : Source α) :
    listEntry layout source = outcome source (attribute? layout source) := by
  unfold listEntry attribute?
  rw [bind_apply, splat_apply]
  cases splat? layout source with
  | error failure => rfl
  | ok found =>
    cases found with
    | some found => rfl
    | none =>
      simp only [outcome, Except.map, bind_apply, pair_apply]
      cases pair? layout source with
      | error failure => rfl
      | ok found =>
        cases found with
        | some found => rfl
        | none =>
          cases layout with
          | inline => rfl
          | wrapped close => exact bareName_apply close source

theorem inlineTurn_apply (source : Source α) :
    inlineTurn source =
      match attribute? .inline source with
      | .error failure => .error failure
      | .ok none => .ok (.leave [], source)
      | .ok (some (entry, rest)) => .ok (.again [entry], rest) := by
  unfold inlineTurn
  rw [bind_apply, listEntry_apply]
  cases attribute? .inline source with
  | error failure => rfl
  | ok found => cases found <;> rfl

theorem isLoop_inlineAttributes : IsLoop (inlineTurn : Reader α _) inlineAttributes := by
  refine isLoop_of_unroll (fun {source found rest} hturn => ?_) fun source => ?_
  · rw [inlineTurn_apply] at hturn
    split at hturn
    · cases hturn
    · cases hturn
    · rename_i entry rest hentry
      cases hturn
      exact ⟨(accounts_attribute? hentry).suffix, length_of_attribute? hentry⟩
  · rw [inlineAttributes_eq, unroll, inlineTurn_apply]
    cases attribute? .inline source with
    | error failure => rfl
    | ok found => cases found <;> rfl

theorem wrappedTurn_apply (close : Char) (source : Source α) :
    wrappedTurn close source =
      if source.isEmpty then .error ⟨.unclosedAttributes, source⟩
      else
        match literal? [close] (afterWhile isSpace source) with
        | some rest => .ok (.leave [], rest)
        | none =>
          match attribute? (.wrapped close) source with
          | .error failure => .error failure
          | .ok none => .error ⟨.attributeNameExpected, source⟩
          | .ok (some (entry, rest)) => .ok (.again [entry], rest) := by
  unfold wrappedTurn
  rw [bind_apply, get_apply]
  simp only [ite_apply]
  by_cases hempty : source.isEmpty = true
  · rw [if_pos hempty, if_pos hempty]
    rfl
  · rw [if_neg hempty, if_neg hempty, bind_apply, mark_apply]
    cases literal? [close] (afterWhile isSpace source) with
    | some rest => rfl
    | none =>
      simp only [Option.map_none, outcome, Except.map, bind_apply, listEntry_apply]
      cases attribute? (.wrapped close) source with
      | error failure => rfl
      | ok found => cases found <;> rfl

theorem isLoop_wrappedAttributes (close : Char) :
    IsLoop (wrappedTurn close : Reader α _) (wrappedAttributes close) := by
  refine isLoop_of_unroll (fun {source found rest} hturn => ?_) fun source => ?_
  · rw [wrappedTurn_apply] at hturn
    split at hturn
    · cases hturn
    · split at hturn
      · cases hturn
      · split at hturn
        · cases hturn
        · cases hturn
        · rename_i entry rest hentry
          cases hturn
          exact ⟨(accounts_attribute? hentry).suffix, length_of_attribute? hentry⟩
  · rw [wrappedAttributes_eq, unroll, wrappedTurn_apply]
    by_cases hempty : source.isEmpty = true
    · rw [if_pos hempty, if_pos hempty]
    · rw [if_neg hempty, if_neg hempty]
      cases literal? [close] (afterWhile isSpace source) with
      | some rest => rfl
      | none =>
        simp only
        cases attribute? (.wrapped close) source with
        | error failure => rfl
        | ok found => cases found <;> rfl

theorem continuedTurn_apply (indent trimmed : Indent) (source : Source α) :
    continuedTurn indent trimmed source =
      match blankLine? source with
      | some (.newline, rest) => .ok (.again [.newLine], rest)
      | some (.endOfInput, rest) => .ok (.again [], rest)
      | none =>
        match deeperIndent? indent source with
        | none => .ok (.leave [], source)
        | some (deeper, rest) =>
          .ok (.again (indentText (Indent.trim deeper trimmed) ++ (textLine rest).1),
            (textLine rest).2) := by
  unfold continuedTurn
  rw [bind_apply, blankLine_apply]
  cases blankLine? source with
  | some found =>
    obtain ⟨lineEnd, rest⟩ := found
    cases lineEnd <;> rfl
  | none =>
    simp only [outcome, Except.map, bind_apply, deeperIndent_apply]
    cases deeperIndent? indent source <;> rfl

theorem isLoop_continuedText (indent trimmed : Indent) :
    IsLoop (continuedTurn indent trimmed : Reader α _)
      (fun source => .ok (continuedText indent trimmed source)) := by
  refine isLoop_of_unroll (fun {source found rest} hturn => ?_) fun source => ?_
  · rw [continuedTurn_apply] at hturn
    split at hturn
    · rename_i rest hblank
      cases hturn
      exact ⟨(accounts_blankLine? hblank).suffix, length_of_blankLine? hblank⟩
    · rename_i rest hblank
      cases hturn
      exact ⟨(accounts_blankLine? hblank).suffix, length_of_blankLine? hblank⟩
    · split at hturn
      · cases hturn
      · rename_i deeper rest hdeeper
        cases hturn
        have hline := length_textLine_le rest
        have hshorter := length_of_deeperIndent? hdeeper
        exact ⟨(accounts_textLine rest).suffix.trans (accounts_deeperIndent? hdeeper).suffix,
          by omega⟩
  · rw [continuedText_eq, unroll, continuedTurn_apply]
    cases blankLine? source with
    | some found =>
      obtain ⟨lineEnd, rest⟩ := found
      cases lineEnd <;> rfl
    | none =>
      cases deeperIndent? indent source <;> rfl

theorem commentTurn_apply (indent : Indent) (source : Source α) :
    commentTurn indent source =
      match deeperIndent? indent source with
      | some (_, rest) => .ok (.again [], skipLine rest)
      | none =>
        match blankLine? source with
        | some _ => .ok (.again [], skipLine source)
        | none => .ok (.leave [], source) := by
  unfold commentTurn
  rw [bind_apply, deeperIndent_apply]
  cases deeperIndent? indent source with
  | some found => rfl
  | none =>
    simp only [outcome, Except.map, bind_apply, get_apply, ite_apply]
    cases blankLine? source <;> rfl

theorem isLoop_skipDeeperLines (indent : Indent) :
    IsLoop (commentTurn indent : Reader α _)
      (fun source => .ok ([], skipDeeperLines indent source)) := by
  refine isLoop_of_unroll (fun {source found rest} hturn => ?_) fun source => ?_
  · rw [commentTurn_apply] at hturn
    split at hturn
    · rename_i deeper rest hdeeper
      cases hturn
      have hline := length_skipLine_le rest
      have hshorter := length_of_deeperIndent? hdeeper
      exact ⟨(suffix_skipLine rest).trans (accounts_deeperIndent? hdeeper).suffix, by omega⟩
    · split at hturn
      · rename_i found hblank
        cases hturn
        have hne : source ≠ [] := by
          rintro rfl
          contradiction
        exact ⟨suffix_skipLine source, length_skipLine_lt hne⟩
      · cases hturn
  · rw [skipDeeperLines_eq, unroll, commentTurn_apply]
    cases deeperIndent? indent source with
    | some found => rfl
    | none => cases blankLine? source <;> rfl

/-- A character that does not end the line begins a run of them. -/
theorem run?_inLine {c : Char} (hc : c ≠ '\n') (rest : Source α) :
    run? inLine (.char c :: rest) = some (c :: charsWhile inLine rest, afterWhile inLine rest) := by
  have hline : inLine c = true := by simpa [inLine] using hc
  simp [run?, charsWhile, afterWhile, hline]

theorem literal?_newline {c : Char} (hc : c ≠ '\n') (rest : Source α) :
    literal? ['\n'] (.char c :: rest) = none := by
  simp [literal?, hc.symm]

theorem textTurn_apply (source : Source α) :
    textTurn source =
      match source with
      | [] => .ok (.leave [], [])
      | .slot value :: rest => .ok (.again [.slot value], rest)
      | .char c :: rest =>
        if c = '\n' then .ok (.leave [.newLine], rest)
        else .ok (.again [.text (String.ofList (c :: charsWhile inLine rest))],
          afterWhile inLine rest) := by
  unfold textTurn
  rw [bind_apply, literal_apply]
  cases source with
  | nil => rfl
  | cons symbol rest =>
    cases symbol with
    | slot value => rfl
    | char c =>
      by_cases hc : c = '\n'
      · subst hc
        rfl
      · simp only [literal?_newline hc, if_neg hc, Option.isSome_none, Option.getD_none,
          Bool.false_eq_true, if_false, bind_apply, get_apply, List.isEmpty_cons, token_apply,
          outcome, Except.map, slot?, run?_inLine hc]
        rfl

theorem isLoop_textLine :
    IsLoop (textTurn : Reader α _) (fun source => .ok (textLine source)) := by
  refine isLoop_of_unroll (fun {source found rest} hturn => ?_) fun source => ?_
  · rw [textTurn_apply] at hturn
    split at hturn
    · cases hturn
    · cases hturn
      exact ⟨List.suffix_cons _ _, Nat.lt_succ_self _⟩
    · rename_i c line
      split at hturn
      · cases hturn
      · cases hturn
        exact ⟨(accounts_afterWhile inLine line).suffix.trans (List.suffix_cons _ _),
          Nat.lt_succ_of_le (length_afterWhile_le inLine line)⟩
  · rw [unroll, textTurn_apply]
    cases source with
    | nil => rw [textLine]
    | cons symbol rest =>
      cases symbol with
      | slot value => rw [textLine]; rfl
      | char c =>
        rw [textLine]
        by_cases hc : c = '\n'
        · simp only [if_pos hc]
        · simp only [if_neg hc]
          rfl

theorem skipTurn_apply (source : Source α) :
    skipTurn source =
      match source with
      | [] => .ok (.leave [], [])
      | .slot _ :: rest => .ok (.again [], rest)
      | .char c :: rest =>
        if c = '\n' then .ok (.leave [], rest) else .ok (.again [], afterWhile inLine rest) := by
  unfold skipTurn
  rw [bind_apply, literal_apply]
  cases source with
  | nil => rfl
  | cons symbol rest =>
    cases symbol with
    | slot value => rfl
    | char c =>
      by_cases hc : c = '\n'
      · subst hc
        rfl
      · simp only [literal?_newline hc, if_neg hc, Option.isSome_none, Option.getD_none,
          Bool.false_eq_true, if_false, bind_apply, get_apply, List.isEmpty_cons, token_apply,
          outcome, Except.map, slot?, run?_inLine hc]
        rfl

/-- The rest of a line is skipped with it, however much of it has been read. -/
theorem skipLine_afterWhile (source : Source α) :
    skipLine (afterWhile inLine source) = skipLine source := by
  have hline : '\n' ∉ charsWhile inLine source := by
    intro hmem
    have hbreak := of_mem_charsWhile hmem
    contradiction
  rw [← skipLine_ofChars hline, charsWhile_append_afterWhile]

theorem isLoop_skipLine :
    IsLoop (skipTurn : Reader α (Turn (Node α))) (fun source => .ok ([], skipLine source)) := by
  refine isLoop_of_unroll (fun {source found rest} hturn => ?_) fun source => ?_
  · rw [skipTurn_apply] at hturn
    split at hturn
    · cases hturn
    · cases hturn
      exact ⟨List.suffix_cons _ _, Nat.lt_succ_self _⟩
    · rename_i c line
      split at hturn
      · cases hturn
      · cases hturn
        exact ⟨(accounts_afterWhile inLine line).suffix.trans (List.suffix_cons _ _),
          Nat.lt_succ_of_le (length_afterWhile_le inLine line)⟩
  · rw [unroll, skipTurn_apply]
    cases source with
    | nil => rfl
    | cons symbol rest =>
      cases symbol with
      | slot value => rfl
      | char c =>
        by_cases hc : c = '\n'
        · subst hc
          rfl
        · have hskip : skipLine (.char c :: rest) = skipLine rest := by
            rw [skipLine]
            simpa using hc
          simp only [if_neg hc, skipLine_afterWhile, hskip]
          rfl

end IndentMarkup.Parser.Reader

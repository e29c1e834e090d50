import IndentMarkup.Parser.Header

/-! Control flow lines: a dash, a word, and what the word asks for. The blocks below such a line
are read elsewhere. -/
namespace IndentMarkup.Parser

open Text (isBlank)

variable {α : Type}

/-- A control flow line that opens a block. -/
inductive Instruction (α : Type) where
  | ifThen (condition : α)
  | forEach (variableName : String) (iterable : α)

/-- The word of a control flow line, from its dash. -/
def instructionWord? : Source α → Option (String × Source α)
  | .char '-' :: rest =>
    (run? isWordChar (afterWhile isBlank rest)).map fun (word, rest) => (String.ofList word, rest)
  | _ => none

/-- The word of a control flow line, which must not be missing behind a dash. -/
def instructionName (source : Source α) : Except (Failure α) (Option (String × Source α)) :=
  match source with
  | .char '-' :: _ =>
    match instructionWord? source with
    | none => .error ⟨.instructionExpected, source⟩
    | some found => .ok (some found)
  | _ => .ok none

def endOfLine (part : LinePart) (source : Source α) : Except (Failure α) (Source α) :=
  match blankLine? source with
  | some (_, rest) => .ok rest
  | none => if source.isEmpty then .ok source else .error ⟨.newlineExpected part, source⟩

def ifLine (source : Source α) : Except (Failure α) (Instruction α × Source α) :=
  match slot? source with
  | none => .error ⟨.conditionExpected, source⟩
  | some (condition, rest) => do
    let rest ← endOfLine .ifCondition rest
    return (.ifThen condition, rest)

def ofMark? (source : Source α) : Option (Source α) := do
  let (_, rest) ← run? isBlank source
  let rest ← literal? ['o', 'f'] rest
  return afterWhile isBlank rest

def forLine (source : Source α) : Except (Failure α) (Instruction α × Source α) :=
  match run? isIdentifierChar source with
  | none => .error ⟨.variableExpected, source⟩
  | some (name, rest) =>
    match ofMark? rest with
    | none => .error ⟨.ofExpected, rest⟩
    | some rest =>
      match slot? rest with
      | none => .error ⟨.iterableExpected, rest⟩
      | some (iterable, rest) => do
        let rest ← endOfLine .iteratedValue rest
        return (.forEach (String.ofList name) iterable, rest)

/-- What the word of a control flow line asks for. An `else` is no instruction of its own: it is
looked for behind the block of its `if`. -/
def instructionRest (word : String) (source : Source α) :
    Except (Failure α) (Instruction α × Source α) :=
  match word with
  | "if" => ifLine (afterWhile isBlank source)
  | "for" => forLine (afterWhile isBlank source)
  | _ => .error ⟨.unknownInstruction word, source⟩

/-- The dash and the word `else` at exactly this indent. -/
def elseMark? (indent : Indent) (source : Source α) : Option (Source α) := do
  let rest ← literal? indent source
  match instructionWord? rest with
  | some ("else", rest) => some rest
  | _ => none

/-! ## Lengths -/

theorem length_of_instructionWord? {source rest : Source α} {word : String}
    (h : instructionWord? source = some (word, rest)) : rest.length < source.length := by
  unfold instructionWord? at h
  split at h
  · rename_i after
    simp only [Option.map_eq_some_iff, Prod.mk.injEq, Prod.exists] at h
    obtain ⟨_, _, found, _, rfl⟩ := h
    have hrun := length_of_run? found
    have hblanks := length_afterWhile_le isBlank after
    rw [List.length_cons]
    omega
  · contradiction

theorem length_of_instructionName {source rest : Source α} {word : String}
    (h : instructionName source = .ok (some (word, rest))) : rest.length < source.length := by
  unfold instructionName at h
  split at h
  · split at h
    · contradiction
    · rename_i found
      obtain rfl := Option.some.inj (Except.ok.inj h)
      exact length_of_instructionWord? found
  · exact absurd h (pure_none_ne _)

theorem length_of_endOfLine {part : LinePart} {source rest : Source α}
    (h : endOfLine part source = .ok rest) : rest.length ≤ source.length := by
  unfold endOfLine at h
  split at h
  · rename_i found
    obtain rfl := Except.ok.inj h
    exact Nat.le_of_lt (length_of_blankLine? found)
  · split at h
    · obtain rfl := Except.ok.inj h
      exact Nat.le_refl _
    · contradiction

theorem length_of_ifLine {source rest : Source α} {found : Instruction α}
    (h : ifLine source = .ok (found, rest)) : rest.length < source.length := by
  unfold ifLine at h
  split at h
  · contradiction
  · rename_i condition after hslot
    obtain ⟨last, hend, h⟩ := of_bind_ok h
    obtain ⟨-, rfl⟩ := Prod.mk.inj (Except.ok.inj h)
    exact Nat.lt_of_le_of_lt (length_of_endOfLine hend) (length_of_slot? hslot)

theorem length_of_ofMark? {source rest : Source α} (h : ofMark? source = some rest) :
    rest.length < source.length := by
  simp only [ofMark?, Option.bind_eq_bind, Option.bind_eq_some_iff, Option.pure_def,
    Option.some.injEq, Prod.exists] at h
  obtain ⟨_, _, hrun, after, hliteral, rfl⟩ := h
  have := length_of_run? hrun
  have := length_of_literal? hliteral
  have := length_afterWhile_le isBlank after
  omega

theorem length_of_forLine {source rest : Source α} {found : Instruction α}
    (h : forLine source = .ok (found, rest)) : rest.length < source.length := by
  unfold forLine at h
  split at h
  · contradiction
  · rename_i name behind hname
    split at h
    · contradiction
    · rename_i start hof
      split at h
      · contradiction
      · rename_i iterable after hslot
        obtain ⟨last, hend, h⟩ := of_bind_ok h
        obtain ⟨-, rfl⟩ := Prod.mk.inj (Except.ok.inj h)
        calc last.length
            ≤ after.length := length_of_endOfLine hend
          _ < start.length := length_of_slot? hslot
          _ < behind.length := length_of_ofMark? hof
          _ < source.length := length_of_run? hname

theorem length_of_instructionRest {word : String} {source rest : Source α} {found : Instruction α}
    (h : instructionRest word source = .ok (found, rest)) : rest.length < source.length := by
  have := length_afterWhile_le isBlank source
  unfold instructionRest at h
  split at h
  · have := length_of_ifLine h
    omega
  · have := length_of_forLine h
    omega
  · contradiction

theorem length_of_elseMark? {indent : Indent} {source rest : Source α}
    (h : elseMark? indent source = some rest) : rest.length < source.length := by
  simp only [elseMark?, Option.bind_eq_bind, Option.bind_eq_some_iff] at h
  obtain ⟨after, hliteral, h⟩ := h
  have hindent := length_of_literal? hliteral
  split at h
  · rename_i found
    obtain rfl := Option.some.inj h
    have hword := length_of_instructionWord? found
    omega
  · contradiction

end IndentMarkup.Parser

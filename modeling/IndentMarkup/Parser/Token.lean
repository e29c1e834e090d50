import IndentMarkup.Indent
import IndentMarkup.Source.Basic

/-! Tokens: what a production can take from the front of its input without looking further. A
token never reaches across a slot. Every function here gives back a suffix of its input, and the
length lemmas say when that suffix is shorter. -/
namespace IndentMarkup.Parser

open Text (isBlank isSpace)

variable {α : Type}

/-! ## Runs of characters -/

/-- The longest run of characters of a class at the front of the input. -/
def charsWhile (p : Char → Bool) : Source α → List Char
  | .char c :: rest => if p c then c :: charsWhile p rest else []
  | _ => []

/-- The input behind the longest run of characters of a class. -/
def afterWhile (p : Char → Bool) : Source α → Source α
  | .char c :: rest => if p c then afterWhile p rest else .char c :: rest
  | source => source

/-- A run with nothing lost and nothing added. -/
theorem charsWhile_append_afterWhile (p : Char → Bool) (source : Source α) :
    Source.ofChars (charsWhile p source) ++ afterWhile p source = source := by
  fun_induction charsWhile p source <;> simp_all [afterWhile, Source.ofChars]

/-- Characters of a run belong to its class. -/
theorem of_mem_charsWhile {p : Char → Bool} {source : Source α} {c : Char}
    (h : c ∈ charsWhile p source) : p c = true := by
  fun_induction charsWhile p source with
  | case1 first rest hfirst ih =>
    rcases List.mem_cons.mp h with rfl | h
    · exact hfirst
    · exact ih h
  | case2 => contradiction
  | case3 => contradiction

theorem length_afterWhile (p : Char → Bool) (source : Source α) :
    (charsWhile p source).length + (afterWhile p source).length = source.length := by
  have := congrArg List.length (charsWhile_append_afterWhile p source)
  simpa [Source.ofChars] using this

theorem length_afterWhile_le (p : Char → Bool) (source : Source α) :
    (afterWhile p source).length ≤ source.length := by
  have := length_afterWhile p source
  omega

def run? (p : Char → Bool) (source : Source α) : Option (List Char × Source α) :=
  match charsWhile p source with
  | [] => none
  | c :: cs => some (c :: cs, afterWhile p source)

theorem length_of_run? {p : Char → Bool} {source rest : Source α} {text : List Char}
    (h : run? p source = some (text, rest)) : rest.length < source.length := by
  have hrun := length_afterWhile p source
  unfold run? at h
  split at h
  · contradiction
  · rename_i c cs hchars
    obtain ⟨-, rfl⟩ := Prod.mk.inj (Option.some.inj h)
    rw [hchars, List.length_cons] at hrun
    omega

/-! ## Fixed text and slots -/

def literal? : List Char → Source α → Option (Source α)
  | [], source => some source
  | c :: cs, .char d :: rest => if c = d then literal? cs rest else none
  | _ :: _, _ => none

/-- A fixed text is taken exactly where the input begins with it. -/
theorem literal?_eq_some {text : List Char} {source rest : Source α} :
    literal? text source = some rest ↔ source = Source.ofChars text ++ rest := by
  fun_induction literal? text source with
  | case1 => simp [Source.ofChars, eq_comm]
  | case2 c cs rest ih => simp [Source.ofChars, ih]
  | case3 c cs d rest hne => simp [Source.ofChars, Ne.symm hne]
  | case4 c cs source hsource =>
    constructor
    · intro h
      contradiction
    · rintro rfl
      exact absurd rfl (hsource c _)

theorem length_of_literal? {text : List Char} {source rest : Source α}
    (h : literal? text source = some rest) : source.length = text.length + rest.length := by
  rw [literal?_eq_some] at h
  simp [h, Source.ofChars]

def slot? : Source α → Option (α × Source α)
  | .slot value :: rest => some (value, rest)
  | _ => none

theorem length_of_slot? {source rest : Source α} {value : α}
    (h : slot? source = some (value, rest)) : rest.length < source.length := by
  unfold slot? at h
  split at h
  · obtain ⟨-, rfl⟩ := Prod.mk.inj (Option.some.inj h)
    exact Nat.lt_succ_self _
  · contradiction

/-! ## Lines -/

inductive LineEnd where
  | newline
  | endOfInput
  deriving DecidableEq, Repr

/-- A line of nothing but blanks. The last line of the input counts only if it has a blank. -/
def blankLine? (source : Source α) : Option (LineEnd × Source α) :=
  match afterWhile isBlank source with
  | .char '\n' :: rest => some (.newline, rest)
  | [] => if source.isEmpty then none else some (.endOfInput, [])
  | _ => none

theorem length_of_blankLine? {source rest : Source α} {lineEnd : LineEnd}
    (h : blankLine? source = some (lineEnd, rest)) : rest.length < source.length := by
  have hblanks := length_afterWhile_le isBlank source
  unfold blankLine? at h
  split at h
  · rename_i hline
    obtain ⟨-, rfl⟩ := Prod.mk.inj (Option.some.inj h)
    rw [hline] at hblanks
    exact hblanks
  · split at h
    · contradiction
    · rename_i hne
      obtain ⟨-, rfl⟩ := Prod.mk.inj (Option.some.inj h)
      cases source with
      | nil => exact absurd rfl hne
      | cons symbol rest => exact Nat.succ_pos _
  · contradiction

def skipBlankLines (source : Source α) : Source α :=
  match _found : blankLine? source with
  | some (_, rest) => skipBlankLines rest
  | none => source
termination_by source.length
decreasing_by exact length_of_blankLine? _found

theorem skipBlankLines_eq (source : Source α) :
    skipBlankLines source =
      match blankLine? source with
      | some (_, rest) => skipBlankLines rest
      | none => source := by
  rw [skipBlankLines]
  split <;> simp only [*]

theorem length_skipBlankLines_le (source : Source α) :
    (skipBlankLines source).length ≤ source.length := by
  fun_induction skipBlankLines source with
  | case1 source _ rest found ih =>
    have := length_of_blankLine? found
    omega
  | case2 => omega

/-- No blank line is left at the front. -/
theorem blankLine?_skipBlankLines (source : Source α) :
    blankLine? (skipBlankLines source) = none := by
  fun_induction skipBlankLines source <;> assumption

theorem skipBlankLines_skipBlankLines (source : Source α) :
    skipBlankLines (skipBlankLines source) = skipBlankLines source := by
  rw [skipBlankLines_eq (skipBlankLines source), blankLine?_skipBlankLines]

theorem skipBlankLines_nil : skipBlankLines ([] : Source α) = [] := by
  rw [skipBlankLines_eq]
  rfl

/-- An indent deeper than the given one, and the line behind it. -/
def deeperIndent? (indent : Indent) (source : Source α) : Option (Indent × Source α) := do
  let rest ← literal? indent source
  let (extra, rest) ← run? isBlank rest
  return (indent ++ extra, rest)

theorem length_of_deeperIndent? {indent deeper : Indent} {source rest : Source α}
    (h : deeperIndent? indent source = some (deeper, rest)) : rest.length < source.length := by
  simp only [deeperIndent?, Option.bind_eq_bind, Option.bind_eq_some_iff, Option.pure_def,
    Option.some.injEq, Prod.mk.injEq, Prod.exists] at h
  obtain ⟨_, hliteral, _, _, hrun, _, rfl⟩ := h
  have := length_of_literal? hliteral
  have := length_of_run? hrun
  omega

end IndentMarkup.Parser

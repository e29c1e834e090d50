/-! Patterns of characters. A pattern matches at the front of a text; where it can match in more
than one way, longer runs and earlier alternatives come first, and the first way that goes through
is taken. -/
namespace IndentMarkup

inductive Pattern where
  /-- One character of a class. -/
  | one (p : Char → Bool)
  /-- Any number of characters of a class, as many as possible. -/
  | run (p : Char → Bool)
  /-- One pattern behind the other. -/
  | seq (first second : Pattern)
  /-- The first pattern, or else the second. -/
  | either (first second : Pattern)
  /-- The pattern, or else nothing. -/
  | optional (pattern : Pattern)
  /-- The pattern; what it matches is kept under a number. -/
  | group (number : Nat) (pattern : Pattern)

/-- One way in which a pattern matches. -/
structure Match where
  taken : List Char
  /-- What the numbered groups have matched. -/
  groups : List (Nat × List Char)
  deriving DecidableEq, Repr

namespace Match

def nothing : Match := ⟨[], []⟩

def append (first second : Match) : Match :=
  ⟨first.taken ++ second.taken, first.groups ++ second.groups⟩

/-- What a group has matched; group 0 is the whole match. -/
def group? (found : Match) (number : Nat) : Option String :=
  if number = 0 then some (String.ofList found.taken)
  else (found.groups.find? (·.1 == number)).map fun group => String.ofList group.2

def text (found : Match) : String := String.ofList found.taken

end Match

namespace Pattern

/-- All runs of a class at the front of a text, the longest first. -/
def runs (p : Char → Bool) : List Char → List Match
  | [] => [.nothing]
  | c :: rest =>
    if p c then (runs p rest).map (Match.append ⟨[c], []⟩) ++ [.nothing] else [.nothing]

/-- All ways in which a pattern matches at the front of a text, the preferred first. -/
def ways : Pattern → List Char → List Match
  | .one p, text =>
    match text with
    | c :: _ => if p c then [⟨[c], []⟩] else []
    | [] => []
  | .run p, text => runs p text
  | .seq first second, text =>
    (ways first text).flatMap fun found =>
      (ways second (text.drop found.taken.length)).map found.append
  | .either first second, text => ways first text ++ ways second text
  | .optional pattern, text => ways pattern text ++ [.nothing]
  | .group number pattern, text =>
    (ways pattern text).map fun found =>
      ⟨found.taken, (number, found.taken) :: found.groups⟩

/-- The match of a pattern at the front of a text. -/
def first? (pattern : Pattern) (text : List Char) : Option Match :=
  (pattern.ways text).head?

/-- At least one character of a class, as many as possible. -/
def runOfSome (p : Char → Bool) : Pattern := .seq (.one p) (.run p)

/-- A fixed text, of at least one character. -/
def word (c : Char) (rest : List Char) : Pattern :=
  match rest with
  | [] => .one (· == c)
  | d :: rest => .seq (.one (· == c)) (word d rest)

/-- What a run matches is the front of the text. -/
theorem isPrefix_of_mem_runs {p : Char → Bool} {text : List Char} {found : Match}
    (h : found ∈ runs p text) : found.taken <+: text := by
  induction text generalizing found with
  | nil => simp_all [runs, Match.nothing]
  | cons c rest ih =>
    unfold runs at h
    split at h
    · rw [List.mem_append, List.mem_map, List.mem_singleton] at h
      rcases h with ⟨run, hrun, rfl⟩ | rfl
      · simpa [Match.append] using ih hrun
      · simp [Match.nothing]
    · simp_all [Match.nothing]

/-- What a pattern matches is the front of the text. -/
theorem isPrefix_of_mem_ways {pattern : Pattern} {text : List Char} {found : Match}
    (h : found ∈ pattern.ways text) : found.taken <+: text := by
  induction pattern generalizing text found with
  | one p => unfold ways at h; grind
  | run p => exact isPrefix_of_mem_runs h
  | seq first second ihFirst ihSecond =>
    simp only [ways, List.mem_flatMap, List.mem_map] at h
    obtain ⟨front, hfront, back, hback, rfl⟩ := h
    obtain ⟨rest, rfl⟩ := ihFirst hfront
    simpa [Match.append] using ihSecond hback
  | either first second ihFirst ihSecond =>
    simp only [ways, List.mem_append] at h
    rcases h with h | h
    · exact ihFirst h
    · exact ihSecond h
  | optional pattern ih =>
    simp only [ways, List.mem_append, List.mem_singleton] at h
    rcases h with h | rfl
    · exact ih h
    · simp [Match.nothing]
  | group number pattern ih =>
    simp only [ways, List.mem_map] at h
    obtain ⟨inner, hinner, rfl⟩ := h
    simpa using ih hinner

end Pattern

/-- A way to find a match at the front of a text. -/
structure Matcher where
  first? : List Char → Option Match
  front : ∀ {text : List Char} {found : Match}, first? text = some found → found.taken <+: text

def Pattern.matcher (pattern : Pattern) : Matcher :=
  ⟨pattern.first?, fun h => isPrefix_of_mem_ways (List.mem_of_head? h)⟩

end IndentMarkup

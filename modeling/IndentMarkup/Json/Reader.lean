import IndentMarkup.Json.Basic
import IndentMarkup.Json.Number

/-! Reading JSON. Every reader takes the front of its input and answers `none` if the input is
faulty. A value may be read strictly, or leniently where it is only to be passed over: then
numbers out of range, unpaired surrogates and any depth of nesting are let through. -/
namespace IndentMarkup.Json

/-- A value read and the input behind it, where something has been taken. -/
abbrev Taken (input : List Char) (β : Type) :=
  Option { found : β × List Char // found.2.length < input.length }

/-- White space between the parts of a document. -/
def isSpace (c : Char) : Bool :=
  c == ' ' || c == '\n' || c == '\r' || c == '\t'

def skipSpace (input : List Char) : List Char :=
  input.dropWhile isSpace

theorem length_skipSpace_le (input : List Char) : (skipSpace input).length ≤ input.length :=
  (List.dropWhile_suffix isSpace).length_le

def literal? : List Char → List Char → Option (List Char)
  | [], input => some input
  | c :: cs, d :: input => if c = d then literal? cs input else none
  | _ :: _, [] => none

theorem length_of_literal? {text input rest : List Char} (h : literal? text input = some rest) :
    rest.length + text.length = input.length := by
  fun_induction literal? text input <;> grind

/-! ## Numbers -/

def digits? (input : List Char) : Option (List Char × List Char) :=
  match input.takeWhile Char.isDigit with
  | [] => none
  | digit :: rest => some (digit :: rest, input.dropWhile Char.isDigit)

/-- The whole part of a number, which has no leading zero. -/
def wholePart? (input : List Char) : Option (List Char × List Char) :=
  match digits? input with
  | some ('0' :: _ :: _, _) => none
  | found => found

/-- The fraction of a number: nothing, or a point and digits. -/
def fraction? : List Char → Option (List Char × List Char)
  | '.' :: rest => digits? rest
  | input => some ([], input)

/-- The exponent of a number: nothing, or a letter, a sign that may be left out, and digits. -/
def exponent? : List Char → Option (Option (Bool × List Char) × List Char)
  | 'e' :: rest | 'E' :: rest =>
    let (negative, rest) :=
      match rest with
      | '-' :: rest => (true, rest)
      | '+' :: rest => (false, rest)
      | _ => (false, rest)
    (digits? rest).map fun (digits, rest) => (some (negative, digits), rest)
  | input => some (none, input)

def numberText? (input : List Char) : Option (NumberText × List Char) := do
  let (negative, rest) :=
    match input with
    | '-' :: rest => (true, rest)
    | _ => (false, input)
  let (whole, rest) ← wholePart? rest
  let (fraction, rest) ← fraction? rest
  let (exponent, rest) ← exponent? rest
  return (⟨negative, whole, fraction, exponent⟩, rest)

/-! ## Strings -/

/-- The value of four hexadecimal digits. -/
def hexDigit? (c : Char) : Option Nat :=
  if c.isDigit then some (c.toNat - '0'.toNat)
  else if 'a' ≤ c && c ≤ 'f' then some (c.toNat - 'a'.toNat + 10)
  else if 'A' ≤ c && c ≤ 'F' then some (c.toNat - 'A'.toNat + 10)
  else none

/-- The code unit that four hexadecimal digits stand for. -/
def unit? (a b c d : Char) : Option Nat := do
  return (((← hexDigit? a) * 16 + (← hexDigit? b)) * 16 + (← hexDigit? c)) * 16 + (← hexDigit? d)

def isHighSurrogate (unit : Nat) : Bool := 0xd800 ≤ unit && unit ≤ 0xdbff

def isLowSurrogate (unit : Nat) : Bool := 0xdc00 ≤ unit && unit ≤ 0xdfff

def ofSurrogates (high low : Nat) : Char :=
  Char.ofNat ((high - 0xd800) * 0x400 + (low - 0xdc00) + 0x10000)

/-- The character of an escape of one letter. -/
def simpleEscape? : Char → Option Char
  | '"' => some '"'
  | '\\' => some '\\'
  | '/' => some '/'
  | 'b' => some '\x08'
  | 'f' => some '\x0c'
  | 'n' => some '\n'
  | 'r' => some '\r'
  | 't' => some '\t'
  | _ => none

/-- The character of an escape of four hexadecimal digits, or of two such escapes that form a
surrogate pair. A lenient reading puts a replacement character for an unpaired surrogate. -/
def unicodeEscape? (lenient : Bool) : List Char → Option (Char × List Char)
  | a :: b :: c :: d :: rest => do
    let unit ← unit? a b c d
    if lenient then
      let paired := isHighSurrogate unit || isLowSurrogate unit
      return (if paired then '\ufffd' else Char.ofNat unit, rest)
    else if isHighSurrogate unit then
      match literal? ['\\', 'u'] rest with
      | some (a :: b :: c :: d :: rest) =>
        let low ← unit? a b c d
        if isLowSurrogate low then some (ofSurrogates unit low, rest) else none
      | _ => none
    else if isLowSurrogate unit then none
    else some (Char.ofNat unit, rest)
  | _ => none

def escaped? (lenient : Bool) : List Char → Option (Char × List Char)
  | [] => none
  | c :: rest =>
    if c = 'u' then unicodeEscape? lenient rest
    else (simpleEscape? c).map fun escaped => (escaped, rest)

theorem length_of_escaped? {lenient : Bool} {input rest : List Char} {c : Char}
    (h : escaped? lenient input = some (c, rest)) : rest.length < input.length := by
  unfold escaped? at h
  split at h
  · contradiction
  · split at h
    · unfold unicodeEscape? at h
      split at h
      · rename_i a b c d after
        cases hunit : unit? a b c d with
        | none => simp [hunit] at h
        | some unit =>
          simp only [hunit, Option.bind_eq_bind, Option.bind_some, Option.pure_def] at h
          split at h
          · grind
          · split at h
            · split at h
              · rename_i hliteral
                have := length_of_literal? hliteral
                simp only [Option.bind_eq_some_iff] at h
                grind
              · contradiction
            · grind
      · contradiction
    · simp only [Option.map_eq_some_iff, Prod.mk.injEq] at h
      grind

def stringRest? (lenient : Bool) : List Char → Option (List Char × List Char)
  | [] => none
  | c :: rest =>
    if c = '"' then some ([], rest)
    else if c = '\\' then
      match _escape : escaped? lenient rest with
      | none => none
      | some (c, rest) =>
        (stringRest? lenient rest).map fun (text, rest) => (c :: text, rest)
    else if c.toNat < 0x20 then none
    else (stringRest? lenient rest).map fun (text, rest) => (c :: text, rest)
termination_by input => input.length
decreasing_by
  · have := length_of_escaped? _escape
    grind
  · grind

theorem length_of_stringRest? {lenient : Bool} {input rest text : List Char}
    (h : stringRest? lenient input = some (text, rest)) : rest.length < input.length := by
  fun_induction stringRest? lenient input generalizing text with
  | case1 => contradiction
  | case2 => grind
  | case3 => contradiction
  | case4 =>
    have := length_of_escaped? ‹_›
    simp only [Option.map_eq_some_iff, Prod.mk.injEq, Prod.exists] at h
    grind
  | case5 => contradiction
  | case6 =>
    simp only [Option.map_eq_some_iff, Prod.mk.injEq, Prod.exists] at h
    grind

/-! ## Values -/

/-- A value that is neither an array nor an object. -/
def scalar? (lenient : Bool) (input : List Char) : Option (Json × List Char) :=
  match input with
  | '"' :: rest =>
    (stringRest? lenient rest).map fun (text, rest) => (.string (String.ofList text), rest)
  | 'n' :: rest => (literal? ['u', 'l', 'l'] rest).map fun rest => (.null, rest)
  | 't' :: rest => (literal? ['r', 'u', 'e'] rest).map fun rest => (.bool true, rest)
  | 'f' :: rest => (literal? ['a', 'l', 's', 'e'] rest).map fun rest => (.bool false, rest)
  | _ => do
    let (text, rest) ← numberText? input
    match text.toFloat? with
    | some value => some (.number value, rest)
    | none => if lenient then some (.null, rest) else none

def key? (lenient : Bool) (input : List Char) : Option (String × List Char) :=
  match skipSpace input with
  | '"' :: rest => do
    let (text, rest) ← stringRest? lenient rest
    match skipSpace rest with
    | ':' :: rest => some (String.ofList text, rest)
    | _ => none
  | _ => none

theorem length_of_digits? {input digits rest : List Char}
    (h : digits? input = some (digits, rest)) : rest.length < input.length := by
  have := congrArg List.length (List.takeWhile_append_dropWhile (p := Char.isDigit) (l := input))
  unfold digits? at h
  grind

theorem length_of_wholePart? {input digits rest : List Char}
    (h : wholePart? input = some (digits, rest)) : rest.length < input.length := by
  unfold wholePart? at h
  split at h
  · contradiction
  · exact length_of_digits? h

theorem length_of_fraction? {input digits rest : List Char}
    (h : fraction? input = some (digits, rest)) : rest.length ≤ input.length := by
  unfold fraction? at h
  split at h
  · have := length_of_digits? h
    grind
  · grind

theorem length_of_exponent? {input rest : List Char} {exponent : Option (Bool × List Char)}
    (h : exponent? input = some (exponent, rest)) : rest.length ≤ input.length := by
  unfold exponent? at h
  split at h
  · simp only [Option.map_eq_some_iff, Prod.mk.injEq, Prod.exists] at h
    obtain ⟨_, _, hdigits, _, rfl⟩ := h
    have := length_of_digits? hdigits
    grind
  · simp only [Option.map_eq_some_iff, Prod.mk.injEq, Prod.exists] at h
    obtain ⟨_, _, hdigits, _, rfl⟩ := h
    have := length_of_digits? hdigits
    grind
  · grind

theorem length_of_numberText? {input rest : List Char} {text : NumberText}
    (h : numberText? input = some (text, rest)) : rest.length < input.length := by
  simp only [numberText?, Option.bind_eq_bind, Option.bind_eq_some_iff, Option.pure_def,
    Option.some.injEq, Prod.mk.injEq, Prod.exists] at h
  obtain ⟨_, _, hwhole, _, _, hfraction, _, _, hexponent, _, rfl⟩ := h
  have := length_of_wholePart? hwhole
  have := length_of_fraction? hfraction
  have := length_of_exponent? hexponent
  grind

theorem length_of_scalar? {lenient : Bool} {input rest : List Char} {value : Json}
    (h : scalar? lenient input = some (value, rest)) : rest.length < input.length := by
  unfold scalar? at h
  split at h
  · simp only [Option.map_eq_some_iff, Prod.mk.injEq, Prod.exists] at h
    obtain ⟨_, _, hstring, _, rfl⟩ := h
    have := length_of_stringRest? hstring
    grind
  · simp only [Option.map_eq_some_iff, Prod.mk.injEq] at h
    obtain ⟨_, hliteral, _, rfl⟩ := h
    have := length_of_literal? hliteral
    grind
  · simp only [Option.map_eq_some_iff, Prod.mk.injEq] at h
    obtain ⟨_, hliteral, _, rfl⟩ := h
    have := length_of_literal? hliteral
    grind
  · simp only [Option.map_eq_some_iff, Prod.mk.injEq] at h
    obtain ⟨_, hliteral, _, rfl⟩ := h
    have := length_of_literal? hliteral
    grind
  · simp only [Option.bind_eq_bind, Option.bind_eq_some_iff, Prod.exists] at h
    obtain ⟨_, _, hnumber, h⟩ := h
    have := length_of_numberText? hnumber
    grind

theorem length_of_key? {lenient : Bool} {input rest : List Char} {key : String}
    (h : key? lenient input = some (key, rest)) : rest.length < input.length := by
  have := length_skipSpace_le input
  unfold key? at h
  split at h
  · simp only [Option.bind_eq_bind, Option.bind_eq_some_iff, Prod.exists] at h
    obtain ⟨_, after, hstring, h⟩ := h
    have := length_of_stringRest? hstring
    have := length_skipSpace_le after
    grind
  · contradiction

/-- The greatest depth of nesting that is read strictly. -/
def maxDepth : Nat := 127

mutual

/-- A value with the white space before it. `depth` counts the levels that may still open. -/
def value? (lenient : Bool) (depth : Nat) (input : List Char) : Taken input Json :=
  have hspace := length_skipSpace_le input
  match hscalar : scalar? lenient (skipSpace input) with
  | some (value, rest) =>
    have := length_of_scalar? hscalar
    some ⟨(value, rest), by grind⟩
  | none =>
    match hstart : skipSpace input with
    | '[' :: rest =>
      if !lenient && depth == 0 then none
      else
        have hrest := length_skipSpace_le rest
        match hclose : literal? [']'] (skipSpace rest) with
        | some rest =>
          have := length_of_literal? hclose
          some ⟨(.array [], rest), by grind⟩
        | none =>
          match items? lenient (depth - 1) rest with
          | none => none
          | some ⟨(items, rest), hitems⟩ => some ⟨(.array items, rest), by grind⟩
    | '{' :: rest =>
      if !lenient && depth == 0 then none
      else
        have hrest := length_skipSpace_le rest
        match hclose : literal? ['}'] (skipSpace rest) with
        | some rest =>
          have := length_of_literal? hclose
          some ⟨(.object [], rest), by grind⟩
        | none =>
          match members? lenient (depth - 1) [] rest with
          | none => none
          | some ⟨(members, rest), hmembers⟩ => some ⟨(.object members, rest), by grind⟩
    | _ => none
termination_by 2 * input.length
decreasing_by all_goals grind

def items? (lenient : Bool) (depth : Nat) (input : List Char) : Taken input (List Json) :=
  match value? lenient depth input with
  | none => none
  | some ⟨(item, rest), hitem⟩ =>
    have hspace := length_skipSpace_le rest
    match hnext : skipSpace rest with
    | ',' :: rest =>
      match items? lenient depth rest with
      | none => none
      | some ⟨(items, rest), hitems⟩ => some ⟨(item :: items, rest), by grind⟩
    | ']' :: rest => some ⟨([item], rest), by grind⟩
    | _ => none
termination_by 2 * input.length + 1
decreasing_by all_goals grind

/-- The members of an object from one of them on, and the closing brace. Those before it are
`known`. -/
def members? (lenient : Bool) (depth : Nat) (known : List (String × Json)) (input : List Char) :
    Taken input (List (String × Json)) :=
  match hkey : key? lenient input with
  | none => none
  | some (key, rest) =>
    have hkey := length_of_key? hkey
    match value? lenient depth rest with
    | none => none
    | some ⟨(value, rest), hvalue⟩ =>
      have hspace := length_skipSpace_le rest
      match hnext : skipSpace rest with
      | ',' :: rest =>
        match members? lenient depth (insert known key value) rest with
        | none => none
        | some ⟨(members, rest), hmembers⟩ => some ⟨(members, rest), by grind⟩
      | '}' :: rest => some ⟨(insert known key value, rest), by grind⟩
      | _ => none
termination_by 2 * input.length + 1
decreasing_by all_goals grind

end

/-- The document that a text holds, if it holds one and nothing else. -/
def parse? (text : String) : Option Json :=
  match value? false maxDepth text.toList with
  | some ⟨(value, rest), _⟩ => if (skipSpace rest).isEmpty then some value else none
  | none => none

end IndentMarkup.Json

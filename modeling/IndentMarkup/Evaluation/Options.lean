import IndentMarkup.Json.Reader

/-! Options of an evaluation and their JSON form. They are read from an object, whose other keys
are passed over, or from an array of the options in order; `null` leaves an option unset. -/
namespace IndentMarkup

structure Options where
  /-- The attribute that shows on each bound element the name under which it is bound. -/
  attrForRefName : Option String := none
  deriving DecidableEq, Repr

namespace Options

/-- The options with this attribute for bound names. -/
def withAttrForRefName (options : Options) (name : String) : Options :=
  { options with attrForRefName := some name }

open Json (skipSpace literal?)

def attrKey : String := "attrForRefName"

/-- An optional text: a string or `null`, and the input behind it. -/
def optionalText? (input : List Char) : Option (Option String × List Char) :=
  match skipSpace input with
  | '"' :: rest =>
    (Json.stringRest? false rest).map fun (text, rest) => (some (String.ofList text), rest)
  | 'n' :: rest => (literal? ['u', 'l', 'l'] rest).map fun rest => (none, rest)
  | _ => none

theorem length_of_optionalText? {input rest : List Char} {text : Option String}
    (h : optionalText? input = some (text, rest)) : rest.length < input.length := by
  have := Json.length_skipSpace_le input
  unfold optionalText? at h
  split at h
  · simp only [Option.map_eq_some_iff, Prod.mk.injEq, Prod.exists] at h
    obtain ⟨_, _, hstring, _, rfl⟩ := h
    have := Json.length_of_stringRest? hstring
    grind
  · simp only [Option.map_eq_some_iff, Prod.mk.injEq] at h
    obtain ⟨_, hliteral, _, rfl⟩ := h
    have := Json.length_of_literal? hliteral
    grind
  · contradiction

/-- The value of a member: the option itself under its key, which may come only once, and nothing
of interest under any other. -/
def memberValue? (known : Option Options) (key : String) (input : List Char) :
    Json.Taken input (Option Options) :=
  if key = attrKey then
    match known with
    | some _ => none
    | none =>
      match htext : optionalText? input with
      | none => none
      | some (text, rest) => some ⟨(some ⟨text⟩, rest), length_of_optionalText? htext⟩
  else
    match Json.value? true 0 input with
    | none => none
    | some ⟨(_, rest), hrest⟩ => some ⟨(known, rest), hrest⟩

/-- The members of an object from one of them on, and the closing brace. -/
def members? (known : Option Options) (input : List Char) :
    Option (Option Options × List Char) :=
  match _key : Json.key? false input with
  | none => none
  | some (key, rest) =>
    match memberValue? known key rest with
    | none => none
    | some ⟨(known, rest), _value⟩ =>
      have _space := Json.length_skipSpace_le rest
      match _next : skipSpace rest with
      | ',' :: rest => members? known rest
      | '}' :: rest => some (known, rest)
      | _ => none
termination_by input.length
decreasing_by
  have := Json.length_of_key? _key
  grind

def ofMembers? (input : List Char) : Option (Options × List Char) :=
  match skipSpace input with
  | '}' :: rest => some ({}, rest)
  | _ => (members? none input).map fun (options, rest) => (options.getD {}, rest)

def ofItems? (input : List Char) : Option (Options × List Char) :=
  match skipSpace input with
  | ']' :: rest => some ({}, rest)
  | _ => do
    let (text, rest) ← optionalText? input
    match skipSpace rest with
    | ']' :: rest => some (⟨text⟩, rest)
    | _ => none

def ofJson? (text : String) : Option Options := do
  let (options, rest) ←
    match skipSpace text.toList with
    | '{' :: rest => ofMembers? rest
    | '[' :: rest => ofItems? rest
    | _ => none
  if (skipSpace rest).isEmpty then some options else none

/-- The options as a JSON text, without those that are unset. -/
def toJson (options : Options) : String :=
  match options.attrForRefName with
  | none => "\x7b\x7d"
  | some name => "\x7b" ++ Json.writeString attrKey ++ ":" ++ Json.writeString name ++ "\x7d"

end Options

end IndentMarkup

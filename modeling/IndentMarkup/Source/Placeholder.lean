import IndentMarkup.Source.Basic
import IndentMarkup.Text.Space

/-! Placeholders. A template marks each slot by a name in braces behind a dollar sign; the names
are looked up from left to right, each when it is met. The first fault ends the reading: an
unknown name, or a placeholder without its closing brace. -/
namespace IndentMarkup.Source

variable {α : Type}

/-- The characters before the first opening of a placeholder and those behind it. -/
def splitAtOpening : List Char → Option (List Char × List Char)
  | '$' :: '{' :: rest => some ([], rest)
  | c :: rest => (splitAtOpening rest).map fun (before, after) => (c :: before, after)
  | [] => none

/-- The characters before the first closing brace and those behind it. -/
def splitAtClosing : List Char → Option (List Char × List Char)
  | '}' :: rest => some ([], rest)
  | c :: rest => (splitAtClosing rest).map fun (before, after) => (c :: before, after)
  | [] => none

theorem length_of_splitAtOpening {text before after : List Char}
    (h : splitAtOpening text = some (before, after)) :
    text.length = before.length + 2 + after.length := by
  fun_induction splitAtOpening text generalizing before with
  | case1 rest => simp_all; omega
  | case2 c rest _ ih =>
    simp only [Option.map_eq_some_iff, Prod.mk.injEq, Prod.exists] at h
    obtain ⟨b, a, hsplit, rfl, rfl⟩ := h
    have := ih hsplit
    simp only [List.length_cons]
    omega
  | case3 => simp at h

theorem length_of_splitAtClosing {text before after : List Char}
    (h : splitAtClosing text = some (before, after)) :
    text.length = before.length + 1 + after.length := by
  fun_induction splitAtClosing text generalizing before with
  | case1 rest => simp_all; omega
  | case2 c rest _ ih =>
    simp only [Option.map_eq_some_iff, Prod.mk.injEq, Prod.exists] at h
    obtain ⟨b, a, hsplit, rfl, rfl⟩ := h
    have := ih hsplit
    simp only [List.length_cons]
    omega
  | case3 => simp at h

/-- Fills the placeholders of a text that begins `offset` bytes into the template. Names are
trimmed before they are looked up. -/
def fillFrom {m : Type → Type} [Monad m] (lookup : String → m (Option α)) (offset : Nat)
    (text : List Char) : ExceptT BuildError m (Source α) :=
  match _hopening : splitAtOpening text with
  | none => pure (ofChars text)
  | some (before, inside) =>
    let opening := offset + byteCount before
    match _hclosing : splitAtClosing inside with
    | none => throw (.unterminatedPlaceholder opening)
    | some (written, after) => do
      let name := String.ofList (Text.trim written)
      match ← lookup name with
      | none => throw (.unknownPlaceholder name)
      | some value =>
        let rest ← fillFrom lookup (opening + 2 + byteCount written + 1) after
        return ofChars before ++ .slot value :: rest
termination_by text.length
decreasing_by
  have := length_of_splitAtOpening _hopening
  have := length_of_splitAtClosing _hclosing
  omega

theorem fillFrom_eq {m : Type → Type} [Monad m] (lookup : String → m (Option α)) (offset : Nat)
    (text : List Char) :
    fillFrom lookup offset text =
      match splitAtOpening text with
      | none => pure (ofChars text)
      | some (before, inside) =>
        let opening := offset + byteCount before
        match splitAtClosing inside with
        | none => throw (.unterminatedPlaceholder opening)
        | some (written, after) => do
          let name := String.ofList (Text.trim written)
          match ← lookup name with
          | none => throw (.unknownPlaceholder name)
          | some value =>
            let rest ← fillFrom lookup (opening + 2 + byteCount written + 1) after
            return ofChars before ++ .slot value :: rest := by
  rw [fillFrom]
  split
  · simp only [*]
  · simp only [*]
    split <;> simp only [*]

/-- The source of a template whose placeholders are looked up by an action. -/
def ofTemplateM {m : Type → Type} [Monad m] (lookup : String → m (Option α)) (text : String) :
    m (Except BuildError (Source α)) :=
  (fillFrom lookup 0 text.toList).run

/-- The source of a template whose placeholders have the values that `lookup` knows. -/
def ofTemplate (lookup : String → Option α) (text : String) : Except BuildError (Source α) :=
  (ofTemplateM (m := Id) lookup text).run

end IndentMarkup.Source

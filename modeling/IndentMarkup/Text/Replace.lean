/-! Replacing characters in a text. Replacements that are made one after another act on what the
earlier ones have put in, too. -/
namespace IndentMarkup.Text

/-- What stands for a character where `c` is replaced. -/
def replaced (c : Char) (replacement : String) (d : Char) : List Char :=
  if d = c then replacement.toList else [d]

/-- The text with a replacement for every `c` in it. -/
def replace (c : Char) (replacement text : String) : String :=
  String.ofList (text.toList.flatMap (replaced c replacement))

theorem replaced_of_ne {c d : Char} (replacement : String) (h : d ≠ c) :
    replaced c replacement d = [d] :=
  if_neg h

/-- A replacement behind a text that was written character by character is one of each character. -/
theorem replace_ofList_flatMap (c : Char) (replacement : String) (written : Char → List Char)
    (text : List Char) :
    replace c replacement (String.ofList (text.flatMap written)) =
      String.ofList (text.flatMap fun d => (written d).flatMap (replaced c replacement)) := by
  rw [replace, String.toList_ofList, List.flatMap_assoc]

end IndentMarkup.Text

import IndentMarkup.Text.Extending
import IndentMarkup.Text.Ignorable
import IndentMarkup.Text.Space
import IndentMarkup.Text.Unprintable

/-! Quoted texts. A text is shown between double quotes, on one line, with an escape for every
character that would not be visible by itself. The classes of characters are those of Unicode 17. -/
namespace IndentMarkup.Text

/-- Whether a character is shown as it is: it has a shape, it is not drawn as nothing, and it is not
drawn onto the character before it. -/
def isVisible (c : Char) : Bool :=
  let n := c.toNat
  if n < 0x7f then 0x20 ≤ n
  else !inRanges unprintableRanges n && !inRanges ignorableRanges n && !inRanges extendingRanges n

/-- A character within quotes. -/
def escape (c : Char) : List Char :=
  match c with
  | '"' => ['\\', '"']
  | '\\' => ['\\', '\\']
  | '\t' => ['\\', 't']
  | '\r' => ['\\', 'r']
  | '\n' => ['\\', 'n']
  | _ =>
    if c.toNat = 0 then ['\\', '0']
    else if isVisible c then [c]
    else ['\\', 'u', '{'] ++ Nat.toDigits 16 c.toNat ++ ['}']

/-- A text between double quotes. -/
def quoted (text : String) : String :=
  String.ofList ('"' :: text.toList.flatMap escape ++ ['"'])

end IndentMarkup.Text

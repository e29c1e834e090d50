import IndentMarkup.Text.Space

/-! Indents. An indent is a run of blanks, compared as it is written: tabs are never turned into
spaces. One indent is deeper than another when the other is a proper prefix of it, so indents that
mix tabs and spaces in different ways may be incomparable. -/
namespace IndentMarkup

/-- A run of spaces and tabs at the start of a line. -/
abbrev Indent := List Char

namespace Indent

/-- The blanks at the front of a text. -/
def leading (text : List Char) : Indent :=
  text.takeWhile Text.isBlank

/-- How the indent of one line stands to that of another. -/
inductive Relation where
  | same
  /-- The other indent is a proper prefix of this one. -/
  | deeper
  /-- This indent is a proper prefix of the other. -/
  | shallower
  | incomparable
  deriving DecidableEq, Repr

/-- The relation seen from the other line. -/
def Relation.reverse : Relation → Relation
  | .same => .same
  | .deeper => .shallower
  | .shallower => .deeper
  | .incomparable => .incomparable

def compare (a b : List Char) : Relation :=
  let a := leading a
  let b := leading b
  if a = b then .same
  else if b.isPrefixOf a then .deeper
  else if a.isPrefixOf b then .shallower
  else .incomparable

/-- Removes an indent from the front of a text as far as the two are comparable: all of it from a
text at least as deep, every blank from a shallower one, nothing from an incomparable one. -/
def trim (text : List Char) (indent : Indent) : List Char :=
  match compare text indent with
  | .same | .deeper => text.drop indent.length
  | .shallower => text.dropWhile Text.isBlank
  | .incomparable => text

end Indent

end IndentMarkup

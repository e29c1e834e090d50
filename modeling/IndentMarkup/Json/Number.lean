/-! The numbers of JSON and their reading as doubles. The first digits of a number are collected
in a 64 bit significand, which is then scaled by a power of ten in one floating point operation;
the result may differ from the nearest double in its last bit. Numbers beyond the range of doubles
are refused, those below it become zero. -/
namespace IndentMarkup.Json

/-- A number as it is written. -/
structure NumberText where
  negative : Bool
  whole : List Char
  fraction : List Char
  /-- The sign and the digits of the exponent, if there is one. -/
  exponent : Option (Bool × List Char)

def digitValue (c : Char) : Nat := c.toNat - '0'.toNat

def maxSignificand : Nat := 18446744073709551615

/-- Appends digits to a significand as long as they fit; gives back those that do not. -/
def collect (significand : Nat) : List Char → Nat × List Char
  | [] => (significand, [])
  | digit :: rest =>
    let next := significand * 10 + digitValue digit
    if next ≤ maxSignificand then collect next rest else (significand, digit :: rest)

/-- The greatest power of ten that is a double. -/
def maxPower : Nat := 308

def powerOfTen (exponent : Nat) : Float := Float.ofScientific 1 false exponent

/-- `value / 10 ^ count`, in steps that a double can take. -/
def scaleDown (value : Float) (count : Nat) : Float :=
  if count ≤ maxPower then value / powerOfTen count
  else if value == 0 then value
  else scaleDown (value / powerOfTen maxPower) (count - maxPower)
termination_by count
decreasing_by
  simp only [maxPower] at *
  omega

/-- `significand · 10 ^ exponent`, if it is within the range of doubles. -/
def scale (significand : Nat) (exponent : Int) : Option Float :=
  let value := significand.toUInt64.toFloat
  if exponent < 0 then some (scaleDown value exponent.natAbs)
  else if exponent.natAbs ≤ maxPower then
    let scaled := value * powerOfTen exponent.natAbs
    if scaled.isInf then none else some scaled
  else if value == 0 then some value
  else none

/-- The greatest exponent that is looked at. -/
def maxExponent : Nat := 2147483647

/-- The size of a number without its sign. -/
def NumberText.magnitude? (text : NumberText) : Option Float :=
  let (wholeSignificand, skipped) := collect 0 text.whole
  let (significand, unread) := collect wholeSignificand text.fraction
  let shift : Int := (skipped.length : Int) - ((text.fraction.length - unread.length : Nat) : Int)
  match text.exponent with
  | none =>
    if text.fraction.isEmpty && skipped.isEmpty then some significand.toUInt64.toFloat
    else scale significand shift
  | some (negative, digits) =>
    let exponent := digits.foldl (fun value digit => value * 10 + digitValue digit) 0
    if exponent ≤ maxExponent then
      scale significand (if negative then shift - exponent else shift + exponent)
    else if significand = 0 || negative then some 0
    else none

def NumberText.toFloat? (text : NumberText) : Option Float :=
  text.magnitude?.map fun value => if text.negative then -value else value

end IndentMarkup.Json

/-! Shortest decimals. A finite positive double is a whole number times a power of two, and every
real that lies closer to it than to any other double reads back as it. The shortest decimal of the
double is the one with the fewest digits among those reals, and of these the nearest. All
arithmetic is on whole numbers. -/
namespace IndentMarkup.Number

def twoTo (exponent : Nat) : Nat := Nat.pow 2 exponent

def tenTo (exponent : Nat) : Nat := Nat.pow 10 exponent

/-- A positive number: a whole number times a power of ten. -/
structure Decimal where
  digits : Nat
  exponent : Int
  deriving DecidableEq, Repr

/-- The reals that read back as one double, as numerators over one denominator. -/
structure Neighbourhood where
  low : Nat
  value : Nat
  high : Nat
  denominator : Nat
  /-- Whether the ends belong to it: a tie goes to the even significand. -/
  closed : Bool

namespace Neighbourhood

/-- The neighbourhood of `significand · 2 ^ exponent`. Below a power of two the doubles lie twice
as close. -/
def ofParts (significand : Nat) (exponent : Int) : Neighbourhood :=
  let scale := twoTo (exponent - 2).toNat
  let low := if significand = twoTo 52 then 4 * significand - 1 else 4 * significand - 2
  ⟨low * scale, 4 * significand * scale, (4 * significand + 2) * scale,
    twoTo (2 - exponent).toNat, significand % 2 == 0⟩

/-- Two numerators that compare as `units · 10 ^ exponent` and `numerator / denominator` do. -/
def crosswise (around : Neighbourhood) (units : Nat) (exponent : Int) (numerator : Nat) :
    Nat × Nat :=
  (units * tenTo exponent.toNat * around.denominator, numerator * tenTo (-exponent).toNat)

/-- Whether `units · 10 ^ exponent` reads back as the double. -/
def contains (around : Neighbourhood) (units : Nat) (exponent : Int) : Bool :=
  let (point, low) := around.crosswise units exponent around.low
  let (_, high) := around.crosswise units exponent around.high
  if around.closed then low ≤ point && point ≤ high else low < point && point < high

/-- How many units of `10 ^ exponent` fit into the double. -/
def wholeUnits (around : Neighbourhood) (exponent : Int) : Nat :=
  around.value * tenTo (-exponent).toNat / (around.denominator * tenTo exponent.toNat)

/-- The least exponent of ten whose power exceeds the double. -/
def magnitude (around : Neighbourhood) : Int :=
  if around.denominator ≤ around.value then
    ((Nat.toDigits 10 (around.value / around.denominator)).length : Int)
  else 1 - ((Nat.toDigits 10 (around.denominator / around.value)).length : Int)

/-- The decimal with this many digits that reads back as the double and is nearest to it, if there
is one. Of two at the same distance the greater is taken. -/
def decimal? (around : Neighbourhood) (digitCount : Nat) : Option Decimal :=
  let exponent := around.magnitude - (digitCount : Int)
  let below := around.wholeUnits exponent
  match around.contains below exponent, around.contains (below + 1) exponent with
  | true, true =>
    let (middle, value) := around.crosswise (2 * below + 1) exponent (2 * around.value)
    some ⟨if value < middle then below else below + 1, exponent⟩
  | true, false => some ⟨below, exponent⟩
  | false, true => some ⟨below + 1, exponent⟩
  | false, false => none

/-- The shortest decimal; seventeen digits always suffice. -/
def shortest (around : Neighbourhood) : Decimal :=
  let counts := (List.range 17).map (· + 1)
  (counts.findSome? around.decimal?).getD ⟨0, 0⟩

end Neighbourhood

/-- What a double is. -/
inductive Reading where
  | nan
  | infinite (negative : Bool)
  | zero (negative : Bool)
  | finite (negative : Bool) (decimal : Decimal)
  deriving DecidableEq, Repr

/-- Takes a double apart. -/
def Reading.ofFloat (value : Float) : Reading :=
  let bits := value.toBits.toNat
  let negative := bits / twoTo 63 == 1
  let exponent : Nat := bits / twoTo 52 % twoTo 11
  let fraction := bits % twoTo 52
  if exponent = twoTo 11 - 1 then
    if fraction = 0 then .infinite negative else .nan
  else if exponent = 0 then
    if fraction = 0 then .zero negative
    else .finite negative (Neighbourhood.ofParts fraction (-1074)).shortest
  else
    .finite negative (Neighbourhood.ofParts (fraction + twoTo 52) ((exponent : Int) - 1075)).shortest

end IndentMarkup.Number

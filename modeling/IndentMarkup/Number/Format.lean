import IndentMarkup.Number.Shortest

/-! The text of numbers: shortest digits, positional within limits and with an exponent beyond
them, whole numbers without a fraction, and zero without a sign. -/
namespace IndentMarkup.Number

/-- The digits of a decimal without the zeros at their end, and the power of ten that the first of
them stands for. -/
def Decimal.scientific (decimal : Decimal) : List Char × Int :=
  let all := Nat.toDigits 10 decimal.digits
  ((all.reverse.dropWhile (· == '0')).reverse, decimal.exponent + all.length - 1)

/-- Digits with a point behind as many of them as the exponent asks for. -/
def positional (digits : List Char) (exponent : Int) : String :=
  if exponent < 0 then
    "0." ++ String.ofList (List.replicate (-exponent - 1).toNat '0' ++ digits)
  else
    let whole := exponent.toNat + 1
    if digits.length ≤ whole then
      String.ofList (digits ++ List.replicate (whole - digits.length) '0')
    else String.ofList (digits.take whole) ++ "." ++ String.ofList (digits.drop whole)

/-- Digits with a point behind the first, and the exponent with its sign. -/
def withExponent (digits : List Char) (exponent : Int) : String :=
  let fraction := if digits.length ≤ 1 then "" else "." ++ String.ofList (digits.drop 1)
  let mark := if exponent < 0 then "e-" else "e+"
  String.ofList (digits.take 1) ++ fraction ++ mark ++ toString exponent.natAbs

def greatestPositional : Int := 20

def leastPositional : Int := -6

def Decimal.text (decimal : Decimal) : String :=
  let (digits, exponent) := decimal.scientific
  if leastPositional ≤ exponent && exponent ≤ greatestPositional then positional digits exponent
  else withExponent digits exponent

def format (value : Float) : String :=
  match Reading.ofFloat value with
  | .nan => "NaN"
  | .infinite negative => if negative then "-Infinity" else "Infinity"
  | .zero _ => "0"
  | .finite negative decimal => (if negative then "-" else "") ++ decimal.text

end IndentMarkup.Number

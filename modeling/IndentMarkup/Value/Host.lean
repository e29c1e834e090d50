import IndentMarkup.Value.Basic

/-! Hosts. References are made by the program around the templates, out of functions of its own.
What such a function does is up to the host, and so is where it leads: to a value, to one more
reference, or from one reference to the next without an end. -/
namespace IndentMarkup

variable {ν : Type}

/-- The functions that a host makes references of. -/
class Host (ν : Type) where
  /-- What a function makes of its arguments, with the values that it has captured. -/
  call (function : String) (captured arguments : List (Value ν)) : Value ν

namespace Value

variable [Host ν]

/-- What a projection makes of the values of some names. -/
def project : Projection (Value ν) → List (Value ν) → Value ν
  | .first, arguments => arguments.headD .absent
  | .closure function captured, arguments => Host.call function captured arguments

/-- The value that a value comes to when one reference after the other is followed, if that ends. -/
def resolve? (lookup : String → Value ν) : Value ν → Option (Value ν) := _go
where
  _go : Value ν → Option (Value ν)
    | .ref names projection => _go (project projection (names.map lookup))
    | value => some value
  partial_fixpoint

end Value

end IndentMarkup

import Pseudocode.Number.Binary64

/-!
# Powers of doubles

`power` always gives a double. A result past the largest double is positive infinity whatever its
sign; a power that is not a real number, or that divides by zero, is a NaN. Infinite and NaN
operands follow the usual limits.
-/

namespace Pseudocode.Number

/-- `x ^ y`. -/
def power (x y : Float) : Float :=
  if isFinite x && isFinite y then
    let r := x.pow y
    if isFinite r then r else if isInfinite r && x != 0 then infinity else nan
  else x.pow y

end Pseudocode.Number

import Pseudocode.Number.Binary64

/-!
# Division of doubles

`remainder` is the remainder of division towards zero, computed exactly: it has the sign of the
dividend. `floorQuotient` divides towards negative infinity; it corrects the remainder's sign,
divides what is left, and snaps the result to the nearest integral double.
-/

namespace Pseudocode.Number

/-- The remainder of `x` by `y` towards zero, for a finite `x` and a finite non-zero `y`. -/
def Parts.remainder (x y : Parts) : Parts :=
  let e := min x.exponent y.exponent
  let m := x.mantissa * Nat.pow 2 (x.exponent - e).toNat %
    (y.mantissa * Nat.pow 2 (y.exponent - e).toNat)
  ⟨x.negative, m, e⟩

/-- The remainder of division towards zero. A finite number divided by an infinite one is its own
remainder; an infinite dividend or a zero divisor has none. -/
def remainder (x y : Float) : Float :=
  match parts? x, parts? y with
  | some p, some q => if q.mantissa = 0 then nan else (p.remainder q).toFloat
  | some _, none => if isInfinite y then x else nan
  | none, _ => nan

/-- A zero with the sign of `x`. -/
def zeroLike (x : Float) : Float :=
  withSign (signBit x) 0

/-- The quotient rounded towards negative infinity, for a non-zero `y`. -/
def floorQuotient (x y : Float) : Float :=
  let r := remainder x y
  let q := (x - r) / y
  -- a remainder of the wrong sign means that the quotient was rounded up
  let q := if r != 0 && (y < 0) != (r < 0) then q - 1 else q
  if q != 0 then
    let whole := floorFloat q
    if 0.5 < q - whole then whole + 1 else whole
  else zeroLike (x / y)

end Pseudocode.Number

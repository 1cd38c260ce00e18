/-!
# Doubles as integers times powers of two

A finite double is `± mantissa * 2 ^ exponent` with natural `mantissa`. `parts?` takes a double
apart into these three, `nearest` goes back from a quotient of naturals to the closest double (a tie
goes to the even mantissa, a magnitude past the largest double becomes infinite). Conversions
between doubles and integers and comparisons of a double with an integer are exact: they work on the
parts.
-/

namespace Pseudocode.Number

/-- A finite double, `± mantissa * 2 ^ exponent`. -/
structure Parts where
  negative : Bool
  mantissa : Nat
  exponent : Int
  deriving DecidableEq, Repr

/-- Whether the sign bit is set. -/
def signBit (x : Float) : Bool :=
  x.toBits >>> 63 == 1

/-- The parts of a finite double. -/
def parts? (x : Float) : Option Parts :=
  let bits := x.toBits.toNat
  let field : Nat := bits / Nat.pow 2 52 % Nat.pow 2 11
  let fraction : Nat := bits % Nat.pow 2 52
  if field = 2047 then none
  else if field = 0 then some ⟨signBit x, fraction, -1074⟩
  else some ⟨signBit x, fraction + Nat.pow 2 52, (field : Int) - 1075⟩

/-- Neither infinite nor a NaN. -/
def isFinite (x : Float) : Bool :=
  (parts? x).isSome

/-- Infinite, of either sign. -/
def isInfinite (x : Float) : Bool :=
  !isFinite x && x == x

def infinity : Float := Float.ofBits 0x7FF0000000000000

def nan : Float := Float.ofBits 0x7FF8000000000000

/-- `x` if `negative` is false, else `-x`. -/
def withSign (negative : Bool) (x : Float) : Float :=
  if negative then -x else x

/-- The quotient `num / den` rounded to the nearest natural, a tie to the even one. -/
def roundDiv (num den : Nat) : Nat :=
  let q := num / den
  let r := num % den
  if den < 2 * r ∨ (2 * r = den ∧ q % 2 = 1) then q + 1 else q

/-- `num * 2 ^ e` and `den`, or `num` and `den * 2 ^ (-e)`: the quotient `num / den` scaled by
`2 ^ e`. -/
def scaled (num den : Nat) (e : Int) : Nat × Nat :=
  if 0 ≤ e then (num * Nat.pow 2 e.toNat, den) else (num, den * Nat.pow 2 (-e).toNat)

/-- The exponent of the double closest to `num / den`: the one at which the quotient, scaled by its
negation, has 53 binary digits, but at least that of the smallest double. -/
def exponentFor (num den : Nat) : Int :=
  let guess : Int := (num.log2 : Int) - (den.log2 : Int) - 52
  let (n, d) := scaled num den (-guess)
  let exact :=
    if Nat.pow 2 53 ≤ n / d then guess + 1
    else if n / d < Nat.pow 2 52 then guess - 1
    else guess
  max exact (-1074)

/-- The double closest to `num / den`, for a positive `den`. -/
def nearest (num den : Nat) : Float :=
  if num = 0 then 0
  else
    let e := exponentFor num den
    let (n, d) := scaled num den (-e)
    let m := roundDiv n d
    -- a mantissa rounded up to the next power of two carries into the exponent field
    let bits := if m < Nat.pow 2 52 then m else (e + 1074).toNat * Nat.pow 2 52 + m
    if 2047 * Nat.pow 2 52 ≤ bits then infinity else Float.ofBits bits.toUInt64

namespace Parts

/-- The double with the given parts. -/
def toFloat (p : Parts) : Float :=
  let (n, d) := scaled p.mantissa 1 p.exponent
  withSign p.negative (nearest n d)

/-- The value as an integer numerator over a natural denominator. -/
def ratio (p : Parts) : Int × Nat :=
  let (n, d) := scaled p.mantissa 1 p.exponent
  (if p.negative then -(n : Int) else n, d)

/-- The greatest integer at most the value. -/
def floor (p : Parts) : Int :=
  p.ratio.1.fdiv p.ratio.2

/-- The integer nearest to the value, a tie to the even one. -/
def round (p : Parts) : Int :=
  let (n, d) := scaled p.mantissa 1 p.exponent
  let r : Int := roundDiv n d
  if p.negative then -r else r

/-- Whether the value is an integer. -/
def isIntegral (p : Parts) : Bool :=
  p.ratio.1 % p.ratio.2 == 0

end Parts

/-- The double closest to an integer; infinite if the integer is too large. -/
def ofInt (n : Int) : Float :=
  withSign (n < 0) (nearest n.natAbs 1)

/-- The greatest integral double at most `x`; `x` itself if it is not finite. -/
def floorFloat (x : Float) : Float :=
  match parts? x with
  | none => x
  | some p => if p.mantissa = 0 then x else ofInt p.floor

/-- The exact order of an integer and a double; `none` for a NaN. -/
def compareInt (n : Int) (x : Float) : Option Ordering :=
  match parts? x with
  | some p => some (compare (n * p.ratio.2) p.ratio.1)
  | none => if isInfinite x then some (if signBit x then .gt else .lt) else none

/-- The order of two doubles; `none` if one is a NaN. -/
def compareFloat (x y : Float) : Option Ordering :=
  if x < y then some .lt else if y < x then some .gt else if x == y then some .eq else none

end Pseudocode.Number

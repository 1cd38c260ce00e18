import Pseudocode.Number.Binary64

/-!
# Decimal text of doubles

A double is written with the fewest digits that read back as the same double. Between two such
decimals the closer one is taken, and of two equally close ones the one with an even last digit.
`shortest` finds the digits in exact arithmetic: the doubles next to `x` give the interval of the
reals that round to `x` (its ends belong to it exactly when the mantissa is even), and for each
number of digits the two neighbours of `x` on that decimal grid are tried.

How the digits are laid out is a record, `Layout`.
-/

namespace Pseudocode.Number

/-- The positive decimal `digits * 10 ^ exponent`. -/
structure Decimal where
  digits : Nat
  exponent : Int
  deriving DecidableEq, Repr

/-- The interval of the reals that round to a double, in units of `2 ^ exponent`. -/
structure Interval where
  /-- Lower end. -/
  low : Nat
  /-- The double itself. -/
  mid : Nat
  /-- Upper end. -/
  high : Nat
  exponent : Int
  /-- Whether both ends round to the double. -/
  closed : Bool

/-- The reals that round to a positive double. Below a power of two the doubles lie twice as
dense. -/
def Parts.interval (p : Parts) : Interval :=
  let m := p.mantissa
  let denseBelow := m == Nat.pow 2 52 && p.exponent != -1074
  ⟨4 * m - (if denseBelow then 1 else 2), 4 * m, 4 * m + 2, p.exponent - 2, m % 2 == 0⟩

/-- The numerator and denominator that turn units of `2 ^ e` into units of `10 ^ t`. -/
def unitRatio (e t : Int) : Nat × Nat :=
  let (n, d) := scaled 1 1 e
  if 0 ≤ t then (n, d * Nat.pow 10 t.toNat) else (n * Nat.pow 10 (-t).toNat, d)

/-- The largest `t` with `10 ^ t ≤ num / den`, counting down from a guess that is not too small. -/
def decimalExponent (num den : Nat) (guess : Int) : Nat → Int
  | 0 => guess
  | steps + 1 =>
    let (n, d) :=
      if 0 ≤ guess then (num, den * Nat.pow 10 guess.toNat)
      else (num * Nat.pow 10 (-guess).toNat, den)
    if d ≤ n then guess else decimalExponent num den (guess - 1) steps

/-- The multiple of `10 ^ t` that stands for the interval: of the two multiples next to the double,
the one inside the interval, of two inside the closer, of two equally close the even one. -/
def Interval.onGrid? (i : Interval) (t : Int) : Option Nat :=
  let (n, d) := unitRatio i.exponent t
  let inside (k : Nat) : Bool :=
    if i.closed then i.low * n ≤ k * d && k * d ≤ i.high * n
    else i.low * n < k * d && k * d < i.high * n
  let below := i.mid * n / d
  let rest := i.mid * n % d
  let above := below + 1
  if inside below && below != 0 then
    if inside above && (d < 2 * rest || (2 * rest == d && below % 2 == 1)) then some above
    else some below
  else if inside above then some above
  else none

/-- The first number of digits, from `count` on, at which the grid holds a point of the interval. -/
def Interval.search (i : Interval) (top : Int) (count : Nat) : Nat → Decimal
  | 0 => ⟨i.mid, i.exponent⟩
  | steps + 1 =>
    let t := top - count + 1
    match i.onGrid? t with
    | some k => ⟨k, t⟩
    | none => i.search top (count + 1) steps

/-- The shortest decimal that rounds to a positive double. Seventeen digits always suffice. -/
def Parts.shortest (p : Parts) : Decimal :=
  let (n, d) := scaled p.mantissa 1 p.exponent
  let guess := ((n.log2 : Int) - (d.log2 : Int) + 1) * 30103 / 100000 + 1
  p.interval.search (decimalExponent n d guess 4) 1 17

/-- How the digits of a number are written out. -/
structure Layout where
  /-- Positional notation is used from this exponent of the leading digit on … -/
  least : Int
  /-- … up to this one; otherwise the exponent is written. -/
  most : Int
  /-- The number of digits an exponent has at least. -/
  exponentDigits : Nat

/-- Digits without zeros at the end, and the number of zeros dropped. -/
def dropZeros (digits : List Char) : List Char × Nat :=
  let kept := (digits.reverse.dropWhile (· == '0')).reverse
  (kept, digits.length - kept.length)

namespace Layout

/-- Digits with the decimal point after the first `point` of them, zeros filled in on both sides. -/
def positional (digits : List Char) (point : Int) : List Char :=
  if point ≤ 0 then '0' :: '.' :: List.replicate (-point).toNat '0' ++ digits
  else if digits.length ≤ point then
    digits ++ List.replicate (point.toNat - digits.length) '0' ++ ['.', '0']
  else digits.take point.toNat ++ '.' :: digits.drop point.toNat

/-- Digits with a written exponent of ten. -/
def scientific (l : Layout) (digits : List Char) (exponent : Int) : List Char :=
  let written := (toString exponent.natAbs).toList
  let padded := List.replicate (l.exponentDigits - written.length) '0' ++ written
  let mark := 'e' :: (if exponent < 0 then '-' else '+') :: padded
  match digits with
  | [] => mark
  | [d] => d :: mark
  | d :: rest => d :: '.' :: rest ++ mark

/-- A positive decimal written out. -/
def write (l : Layout) (x : Decimal) : List Char :=
  let all := (toString x.digits).toList
  let leading := x.exponent + all.length - 1
  let digits := (dropZeros all).1
  if l.least ≤ leading && leading ≤ l.most then positional digits (leading + 1)
  else l.scientific digits leading

end Layout

/-- Reals are written positionally from `0.0001` up to sixteen digits before the point, always with
a digit on both sides of the point; an exponent has a sign and two digits or more. -/
def realLayout : Layout := ⟨-4, 15, 2⟩

/-- The shortest text of a double: `0.1`, `1e+16`, `-0.0`, `inf`, `nan`. -/
def realText (x : Float) : String :=
  match parts? x with
  | none => if isInfinite x then (if signBit x then "-inf" else "inf") else "nan"
  | some p =>
    let body := if p.mantissa = 0 then ['0', '.', '0'] else realLayout.write p.shortest
    String.ofList (if p.negative then '-' :: body else body)

end Pseudocode.Number

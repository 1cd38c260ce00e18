import Pseudocode.Fault

/-!
# Numbers among the values

`Value.numeric?` picks out the whole numbers and reals. Arithmetic converts both to doubles, which
fails for whole numbers past the largest double; comparisons in CASE ranges and FOR loops are exact.
-/

namespace Pseudocode

/-- A number: whole and unbounded, or a double. -/
inductive Numeric where
  | int (n : Int)
  | real (x : Float)
  deriving DecidableEq, Repr

/-- The number that a value is, if it is one. -/
def Value.numeric? : Value → Option Numeric
  | .int n => some (.int n)
  | .real x => some (.real x)
  | _ => none

namespace Numeric

/-- The number as a value. -/
def toValue : Numeric → Value
  | int n => .int n
  | real x => .real x

/-- Whether the number is zero, of either sign. -/
def isZero : Numeric → Bool
  | int n => n == 0
  | real x => x == 0

/-- The number as a double. -/
def toReal : Numeric → Attempt Float
  | int n =>
    let x := Number.ofInt n
    if Number.isFinite x then .ok x else fail .numberTooLarge
  | real x => .ok x

/-- The greatest integer at most the number. -/
def floor : Numeric → Attempt Int
  | int n => .ok n
  | real x =>
    match Number.parts? x with
    | some p => .ok p.floor
    | none => fail (.notFinite x)

/-- The integer nearest to the number, a tie to the even one. -/
def round : Numeric → Attempt Int
  | int n => .ok n
  | real x =>
    match Number.parts? x with
    | some p => .ok p.round
    | none => fail (.notFinite x)

/-- The exact order of two numbers; `none` if one is a NaN. -/
def compare? : Numeric → Numeric → Option Ordering
  | int m, int n => some (compare m n)
  | int m, real y => Number.compareInt m y
  | real x, int n => (Number.compareInt n x).map Ordering.swap
  | real x, real y => Number.compareFloat x y

/-- `a ≤ b`, exactly; false if one is a NaN. -/
def le (a b : Numeric) : Bool :=
  match compare? a b with
  | some .lt | some .eq => true
  | _ => false

end Numeric

namespace Value

/-- A value as a double. A truth value counts as one or zero, and a text is read. -/
def toReal : Value → Attempt Float
  | bool b => .ok (if b then 1 else 0)
  | int n => (Numeric.int n).toReal
  | real x => .ok x
  | text s =>
    match Number.liberalReal? s with
    | some x => .ok x
    | none => breakDown .notReadable
  | absent => breakDown .notNumeric

/-- An array index: a number rounded down. -/
def toIndex (v : Value) : Attempt Int :=
  match v.numeric? with
  | some n => n.floor
  | none => fail .indexNotNumber

/-- A value rounded down, where a truth value counts as one or zero. -/
def floor : Value → Attempt Int
  | bool b => .ok (if b then 1 else 0)
  | int n => .ok n
  | real x => (Numeric.real x).floor
  | _ => breakDown .notNumeric

/-- A text turned into a value of the type that receives it. A text that does not fit reads as zero
or FALSE. -/
def ofText (type : DataType) (s : String) : Attempt Value :=
  match type with
  | .integer =>
    match Number.readWhole s with
    | .value n => .ok (int n)
    | .none => .ok (int 0)
    | .tooLong => breakDown .tooManyDigits
  | .real => .ok (real ((Number.readDecimal? s).getD 0))
  | .boolean => .ok (bool (Text.lower (Text.trim s) == "true"))
  | _ => .ok (text s)

end Value

end Pseudocode

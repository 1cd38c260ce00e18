import Pseudocode.Number.Division
import Pseudocode.Number.Power
import Pseudocode.Tree
import Pseudocode.Value.Numeric

/-!
# Operators

What the operators do to values. Arithmetic is done on doubles and always gives a real. Equality
compares truth values only with truth values and numbers as doubles; values of different kinds
differ. Texts are ordered by code points.
-/

namespace Pseudocode

namespace Value

/-- Whether two values are equal. -/
def equals (a b : Value) : Attempt Bool :=
  match a, b with
  | bool x, bool y => .ok (x == y)
  | text s, text t => .ok (s == t)
  | absent, absent => .ok true
  | _, _ =>
    match a.numeric?, b.numeric? with
    | some m, some n => do
      let x ← m.toReal
      let y ← n.toReal
      return x == y
    | _, _ => .ok false

/-- Arithmetic on two numbers. -/
def arithmetic (f : Float → Float → Attempt Float) (a b : Value) (divides : Bool) : Attempt Value :=
  match a.numeric?, b.numeric? with
  | some m, some n => do
    if divides && n.isZero then fail .divisionByZero
    else
      let x ← m.toReal
      let y ← n.toReal
      return real (← f x y)
  | _, _ => fail .nonNumericOperand

/-- The remainder of `x` by `y`; an infinite `x` has none. -/
def remainder (x y : Float) : Attempt Float :=
  if Number.isInfinite x && y == y then breakDown .infiniteRemainder
  else .ok (Number.remainder x y)

/-- A comparison of two numbers as doubles, or of two texts. -/
def ordered (onReals : Float → Float → Bool) (onTexts : String → String → Bool) (a b : Value) :
    Attempt Value :=
  match a, b with
  | text s, text t => .ok (bool (onTexts s t))
  | _, _ =>
    match a.numeric?, b.numeric? with
    | some m, some n => do
      let x ← m.toReal
      let y ← n.toReal
      return bool (onReals x y)
    | _, _ => fail .invalidComparison

/-- A connective of two truth values. -/
def logical (f : Bool → Bool → Bool) (a b : Value) : Attempt Value :=
  match a, b with
  | bool x, bool y => .ok (bool (f x y))
  | _, _ => fail .nonBooleanOperand

end Value

/-- The value of an operator between two values. -/
def BinaryOp.apply (op : BinaryOp) (a b : Value) : Attempt Value :=
  match op with
  | add => Value.arithmetic (fun x y => .ok (x + y)) a b false
  | sub => Value.arithmetic (fun x y => .ok (x - y)) a b false
  | mul => Value.arithmetic (fun x y => .ok (x * y)) a b false
  | div => Value.arithmetic (fun x y => .ok (x / y)) a b true
  | floorDiv => Value.arithmetic (fun x y => .ok (Number.floorQuotient x y)) a b true
  | mod => Value.arithmetic Value.remainder a b true
  | pow => Value.arithmetic (fun x y => .ok (Number.power x y)) a b false
  | concat => return .text ((← a.shown) ++ (← b.shown))
  | eq => return .bool (← a.equals b)
  | ne => return .bool (!(← a.equals b))
  | lt => Value.ordered (fun x y => x < y) (fun s t => s < t) a b
  | gt => Value.ordered (fun x y => y < x) (fun s t => t < s) a b
  | le => Value.ordered (fun x y => x ≤ y) (fun s t => s ≤ t) a b
  | ge => Value.ordered (fun x y => y ≤ x) (fun s t => t ≤ s) a b
  | and => Value.logical (· && ·) a b
  | or => Value.logical (· || ·) a b
  | other symbol => fail (.unknownOperator symbol)

/-- The value of an operator before a value. -/
def UnaryOp.apply (op : UnaryOp) (a : Value) : Attempt Value :=
  match op with
  | neg =>
    match a.numeric? with
    | some n => return .real (-(← n.toReal))
    | none => fail .negatedNonNumber
  | not =>
    match a with
    | .bool b => .ok (.bool (!b))
    | _ => fail .notOfNonBoolean
  | other symbol => fail (.unknownOperator symbol)

end Pseudocode

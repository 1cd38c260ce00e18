/-!
# Sets of characters

A property of characters is kept as the increasing list of the code points at which it changes:
below the first edge it fails, from the first edge on it holds, from the second on it fails again,
and so on. So a code point is in the set exactly when the number of edges at or below it is odd.
That number is found by bisection.
-/

namespace Pseudocode.Text

/-- A set of code points, given by the increasing code points at which membership changes. -/
structure CharSet where
  edges : Array Nat

namespace CharSet

/-- An edge, and those that follow it at the given distances from one another. -/
def edgesFrom (edge : Nat) : List Nat → List Nat
  | [] => [edge]
  | width :: widths => edge :: edgesFrom (edge + width) widths

/-- The set whose first run starts at `first`, given by the widths of the runs of members and of the
gaps between them, in turn. -/
def ofWidths (first : Nat) (widths : List Nat) : CharSet where
  edges := (edgesFrom first widths).toArray

/-- Narrows `[lo, hi)` to the first edge above `n`, halving it at most `steps` times. -/
def bisect (edges : Array Nat) (n : Nat) : (steps lo hi : Nat) → Nat
  | 0, lo, _ => lo
  | steps + 1, lo, hi =>
    if lo < hi then
      let mid := (lo + hi) / 2
      if edges.getD mid 0 ≤ n then bisect edges n steps (mid + 1) hi
      else bisect edges n steps lo mid
    else lo

/-- The number of edges at or below `n`. -/
def rank (s : CharSet) (n : Nat) : Nat :=
  bisect s.edges n s.edges.size 0 s.edges.size

/-- Membership of a code point. -/
def containsCode (s : CharSet) (n : Nat) : Bool :=
  s.rank n % 2 == 1

/-- Membership of a character. -/
def contains (s : CharSet) (c : Char) : Bool :=
  s.containsCode c.toNat

/-- The last edge at or below `n`, the start of the run of members that `n` lies in. -/
def runStart (s : CharSet) (n : Nat) : Nat :=
  s.edges.getD (s.rank n - 1) 0

end CharSet

end Pseudocode.Text

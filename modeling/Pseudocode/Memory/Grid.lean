import Pseudocode.Fault

/-!
# Array storage

An array covers a box of index tuples: each dimension has a lower and an upper bound, both included,
and a dimension whose lower bound is above its upper one is empty. A grid keeps one cell for every
tuple of the box, in lexicographic order; a cell is empty until something is assigned to it.
-/

namespace Pseudocode

/-- The lower and upper bound of each dimension. -/
abbrev Bounds := List (Int × Int)

namespace Bounds

/-- The number of indices of a dimension. -/
def extent (d : Int × Int) : Nat :=
  (d.2 - d.1 + 1).toNat

/-- The number of index tuples in the box. -/
def volume : Bounds → Nat
  | [] => 1
  | d :: rest => extent d * volume rest

/-- The index tuples of the box in lexicographic order. -/
def tuples : Bounds → List (List Int)
  | [] => [[]]
  | d :: rest =>
    (List.range (extent d)).flatMap fun (k : Nat) =>
      (tuples rest).map fun is => (d.1 + (k : Int)) :: is

/-- The place of a tuple of the box in lexicographic order. -/
def offset : Bounds → List Int → Nat
  | d :: rest, i :: is => (i - d.1).toNat * volume rest + offset rest is
  | _, _ => 0

/-- Whether an index lies in a dimension. -/
def covers (d : Int × Int) (i : Int) : Bool :=
  d.1 ≤ i && i ≤ d.2

/-- The first index outside its dimension, with that dimension. -/
def firstOutside : Bounds → List Int → Option (Int × Int × Int)
  | d :: rest, i :: is => if covers d i then firstOutside rest is else some (i, d)
  | _, _ => none

/-- Fails because an index of the array `name` lies outside its dimension; the message shows all
three numbers. -/
def failOutside {α : Type} (name : String) (i lower upper : Int) : Attempt α :=
  if [i, lower, upper].all Number.isWritable then fail (.indexOutside name i lower upper)
  else breakDown .tooManyDigits

/-- Fails unless there are as many indices as dimensions. -/
def checkCount (bounds : Bounds) (name : String) (indices : List Int) : Attempt Unit :=
  if indices.length = bounds.length then .ok ()
  else fail (.indexCount name bounds.length indices.length)

end Bounds

/-- The cells of an array, one for each tuple of its box. -/
structure Grid where
  bounds : Bounds
  cells : Array (Option Value)
  size_cells : cells.size = bounds.volume

namespace Grid

/-- The grid of a box with every cell empty. -/
def blank (bounds : Bounds) : Grid :=
  ⟨bounds, Array.replicate bounds.volume none, by simp⟩

/-- The place of an index tuple, where `name` is the array's name for messages. The number of
indices is checked before their range. -/
def locate (g : Grid) (name : String) (indices : List Int) : Attempt Nat := do
  g.bounds.checkCount name indices
  match g.bounds.firstOutside indices with
  | some (i, lower, upper) => Bounds.failOutside name i lower upper
  | none => return g.bounds.offset indices

/-- The value of an element that has been assigned. -/
def get (g : Grid) (name : String) (indices : List Int) : Attempt Value := do
  let k ← g.locate name indices
  match (g.cells[k]?).join with
  | some v => return v
  | none => fail .elementUnassigned

/-- The grid with a value in the cell at a place. -/
def putAt (g : Grid) (k : Nat) (v : Value) : Grid :=
  ⟨g.bounds, g.cells.setIfInBounds k (some v), by simp [g.size_cells]⟩

/-- The grid after an assignment to an element. -/
def set (g : Grid) (name : String) (indices : List Int) (v : Value) : Attempt Grid := do
  return g.putAt (← g.locate name indices) v

/-- Every tuple of the box with its cell, in lexicographic order. -/
def elements (g : Grid) : List (List Int × Option Value) :=
  g.bounds.tuples.zip g.cells.toList

end Grid

end Pseudocode

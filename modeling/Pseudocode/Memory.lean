import Pseudocode.Memory.Grid
import Pseudocode.Table

/-!
# Variables and scopes

Variables live at locations of a store, and names are bound to locations. Two names can be bound to
one location: that is how a parameter passed by reference works. The global names belong to the
memory; a call has local names of its own and sees the global ones behind them, but never the
caller's locals. Declaring a name again binds it to a new variable and keeps its place in the
listing.
-/

namespace Pseudocode

/-- A variable: a scalar, which holds a value once it has been assigned, or an array. A scalar may
be declared with the type ARRAY; it then counts as an array, but has no bounds and no cells. An
array that is assigned as a whole keeps its bounds and loses its cells. -/
inductive Variable where
  | scalar (type : DataType) (held : Option Value)
  | array (element : DataType) (grid : Grid)
  | replaced (element : DataType) (bounds : Bounds) (value : Value)

namespace Variable

/-- A new array with every cell empty. -/
def newArray (element : DataType) : Bounds → Attempt Variable
  | [] => breakDown .dimensionsMissing
  | bounds => .ok (array element (Grid.blank bounds))

/-- The declared type. -/
def type : Variable → DataType
  | scalar type _ => type
  | array _ _ => .array
  | replaced _ _ _ => .array

/-- The type of the elements of an array. -/
def element? : Variable → Option DataType
  | scalar _ _ => none
  | array element _ => some element
  | replaced element _ _ => some element

def isArray (v : Variable) : Bool :=
  v.type == .array

/-- The value that was assigned last, to the variable as a whole. -/
def held? : Variable → Option Value
  | scalar _ held => held
  | array _ _ => none
  | replaced _ _ value => some value

/-- The variable after it has been assigned as a whole. -/
def assign (v : Variable) (value : Value) : Variable :=
  match v with
  | scalar type _ => scalar type (some value)
  | array element grid => replaced element grid.bounds value
  | replaced element bounds _ => replaced element bounds value

/-- What a value that stands in place of cells has at an index: only texts have anything, their
characters, and an index below zero counts back from the end. -/
def pick (value : Value) (i : Int) : Attempt Value :=
  match value with
  | .text s =>
    let cs := s.toList
    match if 0 ≤ i then cs[i.toNat]? else cs.reverse[(-i - 1).toNat]? with
    | some c => .ok (.text c.toString)
    | none => breakDown .pastText
  | _ => breakDown .notCells

/-- Looks for an element in a value that stands in place of cells. There never is one. -/
def seek (name : String) : Value → Bounds → List Int → Attempt Nat
  | value, d :: rest, i :: is => do
    if Bounds.covers d i then seek name (← pick value i) rest is
    else Bounds.failOutside name i d.1 d.2
  | _, _, _ => breakDown .notCell

/-- The place of an element in the array's storage, where `name` is the array's name for
messages. -/
def place (v : Variable) (name : String) (indices : List Int) : Attempt Nat :=
  match v with
  | array _ grid => grid.locate name indices
  | scalar _ _ => breakDown .noBounds
  | replaced _ bounds value => do
    bounds.checkCount name indices
    seek name value bounds indices

/-- The value of an element. -/
def getElement (v : Variable) (name : String) (indices : List Int) : Attempt Value :=
  match v with
  | array _ grid => grid.get name indices
  | v => do
    let _ ← v.place name indices
    breakDown .notCell

/-- The array with a value at a place of its storage. -/
def putAt (v : Variable) (k : Nat) (value : Value) : Variable :=
  match v with
  | array element grid => array element (grid.putAt k value)
  | v => v

/-- The array after an assignment to an element. -/
def setElement (v : Variable) (name : String) (indices : List Int) (value : Value) :
    Attempt Variable := do
  return v.putAt (← v.place name indices) value

/-- The elements of a value that stands in place of cells: an empty text has none. -/
def elementsOf : Value → Attempt (List (List Int × Option Value))
  | .text "" => .ok []
  | _ => breakDown .notCells

/-- Every element of an array with its cell, in index order; nothing for a scalar. -/
def elements (v : Variable) : Attempt (List (List Int × Option Value)) :=
  match v with
  | array _ grid => .ok grid.elements
  | scalar .array held => elementsOf (held.getD .absent)
  | scalar _ _ => .ok []
  | replaced _ _ value => elementsOf value

/-- The assigned elements of an array with their values, in index order. -/
def assignedElements (v : Variable) : Attempt (List (List Int × Value)) := do
  return (← v.elements).filterMap fun (indices, cell) => cell.map fun value => (indices, value)

end Variable

/-- A place in the store. -/
structure Location where
  index : Nat
  deriving DecidableEq, Repr

/-- The local names of a call, or the global ones. -/
inductive Scope where
  | global
  | local (names : Table Location)

/-- The scope of a call before its parameters are bound. -/
def freshScope : Scope := .local {}

/-- The variables of a program and its global names, each of which is listed once. -/
structure Memory where
  store : Array Variable := #[]
  globals : Table Location := {}
  distinct : globals.names.Nodup := by exact List.nodup_nil

namespace Memory

/-- The variable at a location. -/
def at? (m : Memory) (l : Location) : Option Variable :=
  m.store[l.index]?

/-- The memory with another variable at a location. -/
def put (m : Memory) (l : Location) (v : Variable) : Memory :=
  { m with store := m.store.setIfInBounds l.index v }

/-- The memory with the variable at a location changed. -/
def update (m : Memory) (l : Location) (f : Variable → Variable) : Memory :=
  { m with store := m.store.modify l.index f }

/-- A new location that holds `v`. -/
def allocate (m : Memory) (v : Variable) : Location × Memory :=
  (⟨m.store.size⟩, { m with store := m.store.push v })

/-- The location a name is bound to: the local binding, else the global one. -/
def lookup? (m : Memory) (scope : Scope) (name : String) : Option Location :=
  match scope with
  | .global => m.globals.find? name
  | .local names =>
    match names.find? name with
    | some l => some l
    | none => m.globals.find? name

/-- Binds a name to a location. -/
def bind (m : Memory) (scope : Scope) (name : String) (l : Location) : Scope × Memory :=
  match scope with
  | .global =>
    (.global, { m with
      globals := m.globals.insert name l, distinct := Table.nodup_insert m.distinct name l })
  | .local names => (.local (names.insert name l), m)

/-- Binds a name to a new variable. -/
def declare (m : Memory) (scope : Scope) (name : String) (v : Variable) :
    Location × Scope × Memory :=
  let (l, m) := m.allocate v
  let (scope, m) := m.bind scope name l
  (l, scope, m)

/-- The location of a variable that must exist. -/
def locate (m : Memory) (scope : Scope) (name : String) : Attempt Location :=
  match m.lookup? scope name with
  | some l => .ok l
  | none => fail (.undeclared name)

/-- The variable that a name is bound to. -/
def find? (m : Memory) (scope : Scope) (name : String) : Option Variable :=
  (m.lookup? scope name).bind m.at?

/-- The global names with their variables, oldest name first. -/
def globalVariables (m : Memory) : List (String × Variable) :=
  m.globals.entries.filterMap fun (name, l) => (m.at? l).map fun v => (name, v)

end Memory

/-- The type that a name stands for. -/
def DataType.resolve (name : Option String) : Attempt DataType :=
  match DataType.ofName? (name.getD "") with
  | some type => .ok type
  | none => fail (.unknownType name)

end Pseudocode

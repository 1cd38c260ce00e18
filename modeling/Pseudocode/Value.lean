import Pseudocode.Number.Decimal
import Pseudocode.Number.Reading
import Pseudocode.Text.Case

/-!
# Values

A program works on whole numbers of any size, reals (doubles), texts and truth values. Variables
keep the type they were declared with, but a value of any kind may be stored in any of them.
`absent` stands for "no value"; programs read from source never produce it.
-/

namespace Pseudocode

/-- A value of a program. -/
inductive Value where
  | absent
  | bool (b : Bool)
  | int (n : Int)
  | real (x : Float)
  | text (s : String)
  deriving DecidableEq, Repr

/-- The types a variable can be declared with. -/
inductive DataType where
  | integer | real | string | char | boolean | array
  deriving DecidableEq, Repr

namespace DataType

/-- The name of a type. -/
def name : DataType → String
  | integer => "INTEGER" | real => "REAL" | string => "STRING" | char => "CHAR"
  | boolean => "BOOLEAN" | array => "ARRAY"

/-- The type with the given name, in any letter case. -/
def ofName? (name : String) : Option DataType :=
  let upper := Text.upper name
  [integer, real, string, char, boolean, array].find? (·.name == upper)

end DataType

namespace Value

/-- The text of a real: without a point if it is integral, else its shortest decimal. -/
def realShown (x : Float) : String :=
  match Number.parts? x with
  | some p => if p.isIntegral then toString p.floor else Number.realText x
  | none => Number.realText x

/-- The text by which OUTPUT, `&` and `STRING` show a value. A whole number with too many digits has
none. -/
def shown? : Value → Option String
  | absent => some ""
  | bool b => some (if b then "TRUE" else "FALSE")
  | int n => Number.wholeText? n
  | real x => some (realShown x)
  | text s => some s

/-- The text of a value as it is stored: a real keeps its point. -/
def stored? : Value → Option String
  | absent => some "None"
  | bool b => some (if b then "True" else "False")
  | int n => Number.wholeText? n
  | real x => some (Number.realText x)
  | text s => some s

/-- Whether a value counts as true where any value may stand: zero, an empty text and no value do
not. -/
def isAffirmative : Value → Bool
  | absent => false
  | bool b => b
  | int n => n != 0
  | real x => x != 0
  | text s => !s.isEmpty

end Value

end Pseudocode

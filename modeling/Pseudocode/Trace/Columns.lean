import Pseudocode.Number.Reading
import Pseudocode.Trace

/-!
# Columns of a trace

A trace table has one column for each name that occurs in any of its rows: first the scalars in code
point order, then the array elements by the name of the array and by their indices as numbers.
-/

namespace Pseudocode

/-- Where an element stands among the elements: the name of its array and its indices. -/
structure ElementKey where
  base : String
  indices : List Int
  deriving DecidableEq, Repr

namespace ElementKey

/-- Reads the name of an element. Indices that are no numbers count as none. -/
def ofName (name : String) : ElementKey :=
  let chars := name.toList
  let base := chars.takeWhile (· != '[')
  let inner := (((chars.dropWhile (· != '[')).drop 1).reverse.dropWhile (· == ']')).reverse
  let indices := (Text.cutAt ',' inner).mapM fun part => Number.liberalWhole? (String.ofList part)
  ⟨String.ofList base, indices.getD []⟩

/-- Lists of indices by their first difference; a list comes before its extensions. -/
def indicesLe : List Int → List Int → Bool
  | [], _ => true
  | _ :: _, [] => false
  | a :: as, b :: bs => if a = b then indicesLe as bs else a < b

/-- The order of elements. -/
def le (a b : ElementKey) : Bool :=
  if a.base = b.base then indicesLe a.indices b.indices else a.base < b.base

end ElementKey

/-- Whether a name is that of an array element. -/
def isElementName (name : String) : Bool :=
  name.toList.contains '['

/-- The names of the columns of a trace. -/
def columnNames (rows : List TraceRow) : List String :=
  let names := (rows.flatMap fun r => r.globals.names).eraseDups
  let scalars := names.filter fun n => !isElementName n
  let elements := names.filter isElementName
  scalars.mergeSort (fun a b => decide (a ≤ b)) ++
    elements.mergeSort fun a b => (ElementKey.ofName a).le (ElementKey.ofName b)

/-- The head of the table of a trace. -/
def traceHeader (columns : List String) : List String :=
  ["Step", "Line", "Statement"] ++ columns ++ ["Output"]

/-- The cells of a row. -/
def TraceRow.cells (columns : List String) (r : TraceRow) : List String :=
  [toString r.step, toString r.line, r.statement]
    ++ columns.map (fun n => (r.globals.find? n).getD unsetText) ++ [r.outputText]

/-- The table of a trace: its head and the cells of its rows. -/
def traceTable (rows : List TraceRow) : List (List String) :=
  let columns := columnNames rows
  traceHeader columns :: rows.map (·.cells columns)

end Pseudocode

import Pseudocode.Number.Decimal
import Pseudocode.Value

/-!
# How a run can stop early

A run stops at a fault of the program (division by zero, an undeclared variable, a file that is not
open, …), at a cancellation, or at a breakdown: a computation that the language has no word for.
Faults are causes with one wording each; `Halt` adds the line of the statement that a fault is
charged to, zero as long as there is none.
-/

namespace Pseudocode

/-- What can go wrong with a file. -/
inductive FileFault where
  | emptyName
  | notOpen (name : String)
  | alreadyOpen (name : String)
  | unknownMode (mode : String)
  | noUploads
  | notProvided (name : String)
  | notForReading (name : String)
  | notForWriting (name : String)
  | pastEnd (name : String)
  | endOfWritten
  deriving DecidableEq, Repr

/-- The wording of a file fault. -/
def FileFault.message : FileFault → String
  | emptyName => "Filename cannot be empty"
  | notOpen name => s!"File '{name}' is not open"
  | alreadyOpen name => s!"File '{name}' is already open"
  | unknownMode mode => s!"Unknown file mode '{mode}'"
  | noUploads => "Cannot open file for reading: No file upload handler available"
  | notProvided name => s!"Cannot open file for reading: '{name}' was not provided"
  | notForReading name => s!"File '{name}' not opened for reading"
  | notForWriting name => s!"File '{name}' not opened for writing"
  | pastEnd name => s!"Attempt to read past end of file '{name}'"
  | endOfWritten => "EOF can only be used with files opened for reading"

/-- What can go wrong in a program. -/
inductive Fault where
  -- numbers and operators
  | numberTooLarge
  | notFinite (x : Float)
  | indexNotNumber
  | nonNumericOperand
  | divisionByZero
  | invalidComparison
  | nonBooleanOperand
  | negatedNonNumber
  | notOfNonBoolean
  | unknownOperator (symbol : String)
  -- variables and arrays
  | undeclared (name : String)
  | unassigned (name : String)
  | arrayUndeclared (name : String)
  | notArray (name : String)
  | arrayWithoutIndex (name : String)
  | wholeArrayAssigned (name : String)
  | indexCount (name : String) (expected given : Nat)
  | indexOutside (name : String) (index lower upper : Int)
  | elementUnassigned
  | unknownType (name : Option String)
  -- statements
  | dispatchLimit
  | depthLimit
  | noInput
  | returnOutsideFunction
  | conditionNotBoolean (keyword : String)
  | loopVariableIsArray (name : String)
  | loopBoundsNotNumbers
  | loopStepZero
  | loopVariableNotNumeric
  | rangeNotNumeric
  | unsupportedInFunction (keyword : String)
  | inertStatement (kind : String)
  | inertExpression (kind : String)
  -- procedures and functions
  | procedureNotFound (name : String)
  | functionNotFound (name : String)
  | functionNeedsAssignment (name : String)
  | procedureNeedsCall (name : String)
  | procedureArguments (name : String)
  | functionArguments (name : String)
  | noReturn (name : String)
  | byRefNeedsVariable
  | arrayParameter (name : String)
  -- built-in functions
  | builtinArguments (name : String) (expected : Nat)
  | stringArgument (name : String)
  | substringArguments
  | substringStart
  | substringLength
  | roundArguments
  | roundRange
  | endOfFileWithoutFiles
  -- files and the host's answers
  | file (cause : FileFault)
  | inputsUsedUp (number : Nat) (target : String) (provided : Nat)
  | inputEnded (target : String)
  deriving DecidableEq, Repr

/-- The wording of a fault. -/
def Fault.message : Fault → String
  | numberTooLarge => "Number too large"
  | notFinite x => s!"Cannot convert {Number.realText x} to an integer"
  | indexNotNumber => "Array index must be a number"
  | nonNumericOperand => "Cannot perform arithmetic on non-numbers"
  | divisionByZero => "Division by zero"
  | invalidComparison => "Invalid comparison"
  | nonBooleanOperand => "Logical operators require boolean operands"
  | negatedNonNumber => "Cannot negate non-number"
  | notOfNonBoolean => "NOT requires boolean operand"
  | unknownOperator symbol => s!"Unknown operator: {symbol}"
  | undeclared name => s!"Variable '{name}' not declared"
  | unassigned name => s!"Variable '{name}' used before assignment"
  | arrayUndeclared name => s!"Array '{name}' not declared"
  | notArray name => s!"'{name}' is not an array"
  | arrayWithoutIndex name => s!"Array '{name}' must be used with an index"
  | wholeArrayAssigned name => s!"Cannot assign to array '{name}' without an index"
  | indexCount name expected given => s!"Array '{name}' expects {expected} index(es), got {given}"
  | indexOutside name index lower upper =>
    s!"Array index out of bounds: {name}[{index}] is outside {lower}:{upper}"
  | elementUnassigned => "Array element accessed before assignment"
  | unknownType name => "Unknown type '" ++ name.getD "None" ++ "'"
  | dispatchLimit => "Execution timeout: Possible infinite loop"
  | depthLimit => "Maximum recursion depth exceeded"
  | noInput => "No input handler available"
  | returnOutsideFunction => "RETURN is only allowed inside a FUNCTION"
  | conditionNotBoolean keyword => s!"{keyword} condition must be boolean"
  | loopVariableIsArray name => s!"FOR loop variable '{name}' cannot be an array"
  | loopBoundsNotNumbers => "FOR loop bounds must be numbers"
  | loopStepZero => "FOR loop STEP cannot be zero"
  | loopVariableNotNumeric => "FOR loop variable must stay numeric"
  | rangeNotNumeric => "CASE range requires numeric values"
  | unsupportedInFunction keyword => s!"Unsupported statement in function: {keyword}"
  | inertStatement kind => s!"No visit method for {kind}"
  | inertExpression kind => s!"No evaluate method for {kind}"
  | procedureNotFound name => s!"Procedure '{name}' not found"
  | functionNotFound name => s!"Function '{name}' not found"
  | functionNeedsAssignment name => s!"Use assignment to call function '{name}', not CALL"
  | procedureNeedsCall name => s!"Use CALL to run procedure '{name}'"
  | procedureArguments name => s!"Incorrect number of arguments for procedure '{name}'"
  | functionArguments name => s!"Incorrect number of arguments for function '{name}'"
  | noReturn name => s!"Function '{name}' did not return a value"
  | byRefNeedsVariable => "BYREF parameter must be a variable"
  | arrayParameter name => s!"Parameter '{name}' expects an array"
  | builtinArguments name expected =>
    if expected = 0 then s!"{name} takes no parameters"
    else if expected = 1 then s!"{name} requires 1 parameter"
    else s!"{name} requires {expected} parameters"
  | stringArgument name => s!"{name} requires string parameter"
  | substringArguments => "SUBSTRING parameter type mismatch"
  | substringStart => "SUBSTRING start position must be 1 or greater"
  | substringLength => "SUBSTRING length cannot be negative"
  | roundArguments => "ROUND parameter type mismatch"
  | roundRange => "ROUND result out of range"
  | endOfFileWithoutFiles => "EOF requires a file system"
  | file cause => cause.message
  | inputsUsedUp number target provided =>
    s!"Dry run ran out of input values: input #{number} for '{target}' needed " ++
      s!"but only {provided} provided"
  | inputEnded target => s!"No input available for '{target}'"

/-- Computations that the language has no word for. -/
inductive Breakdown where
  /-- The remainder of an infinite number. -/
  | infiniteRemainder
  /-- A whole number with more digits than can be read or written. -/
  | tooManyDigits
  /-- A value that should be a number is none. -/
  | notNumeric
  /-- A text that should be a number is none. -/
  | notReadable
  /-- A limit that no count can be compared with. -/
  | unusableLimit
  /-- An array is declared without bounds. -/
  | boundsMissing
  /-- An array is declared with an empty list of bounds. -/
  | dimensionsMissing
  /-- An element is sought in a variable that has no bounds. -/
  | noBounds
  /-- An element is sought among cells that are no cells. -/
  | notCells
  /-- An element is sought past the end of a text. -/
  | pastText
  /-- What is found in place of a cell is none. -/
  | notCell
  /-- A value is to be stored where no variable is named. -/
  | notAssignable
  /-- There is no context with the given number. -/
  | noContext
  /-- A built-in function is short of arguments. -/
  | argumentMissing
  /-- A built-in function that takes several arguments has another number of them. -/
  | argumentCount
  /-- A file name that is too long to be looked up. -/
  | nameTooLong
  /-- The inputs of the command line are given without a value. -/
  | inputsVoid
  /-- The trace format of the command line is given without a value. -/
  | formatVoid
  deriving DecidableEq, Repr

/-- How a run stops early. -/
inductive Halt where
  /-- A fault, with the line of the statement it is charged to, or zero. -/
  | fault (cause : Fault) (line : Int)
  /-- The host cancelled the run when the given line was current. -/
  | cancelled (line : Int)
  | breakdown (b : Breakdown)
  /-- The bound on the number of steps was too small to tell how the run ends. -/
  | exhausted
  deriving DecidableEq, Repr

/-- Computations on values that can fail. -/
abbrev Attempt (α : Type) := Except Halt α

/-- Fails with a fault that is charged to no statement yet. -/
def fail {α : Type} (cause : Fault) : Attempt α :=
  .error (.fault cause 0)

/-- Stops in a way the language has no word for. -/
def breakDown {α : Type} (b : Breakdown) : Attempt α :=
  .error (.breakdown b)

/-- What should be written, unless it has too many digits for that. -/
def written {α : Type} : Option α → Attempt α
  | some a => .ok a
  | none => breakDown .tooManyDigits

/-- The text by which OUTPUT, `&` and `STRING` show a value. -/
def Value.shown (v : Value) : Attempt String :=
  written v.shown?

/-- The text of a value as it is stored. -/
def Value.stored (v : Value) : Attempt String :=
  written v.stored?

end Pseudocode

import Pseudocode.FileTable
import Pseudocode.Number.Power
import Pseudocode.Value.Numeric

/-!
# Built-in functions

The functions every program can call, by names in any letter case. `Builtin.apply` gives the value
of a call from the values of its arguments; `EOF` also looks at the files, and `RANDOM` is the given
number.
-/

namespace Pseudocode

/-- The built-in functions. -/
inductive Builtin where
  | length | substring | upperCase | lowerCase | toInt | toReal | toText | round | random
  | endOfFile
  deriving DecidableEq, Repr

namespace Builtin

/-- The name of a function. -/
def name : Builtin → String
  | length => "LENGTH" | substring => "SUBSTRING" | upperCase => "UCASE" | lowerCase => "LCASE"
  | toInt => "INT" | toReal => "REAL" | toText => "STRING" | round => "ROUND" | random => "RANDOM"
  | endOfFile => "EOF"

/-- The number of arguments of a function. -/
def arity : Builtin → Nat
  | random => 0
  | round => 2
  | substring => 3
  | _ => 1

/-- Every function. -/
def all : List Builtin :=
  [length, substring, upperCase, lowerCase, toInt, toReal, toText, round, random, endOfFile]

/-- The function with the given name, in any letter case. -/
def ofName? (name : String) : Option Builtin :=
  let upper := Text.upper name
  all.find? (·.name == upper)

/-- Fails unless the number of arguments is right. -/
def checkArity (b : Builtin) (count : Int) : Attempt Unit :=
  if count = b.arity then .ok () else fail (.builtinArguments b.name b.arity)

/-- The characters of a text from a position, counted from one, for a length. -/
def slice (s : String) (start length : Int) : String :=
  String.ofList ((s.toList.drop (start - 1).toNat).take length.toNat)

/-- `SUBSTRING`: position and length are rounded to whole numbers. -/
def applySubstring (text start length : Value) : Attempt Value :=
  match text, start.numeric?, length.numeric? with
  | .text s, some m, some n => do
    let start ← m.round
    let length ← n.round
    if start < 1 then fail .substringStart
    else if length < 0 then fail .substringLength
    else return .text (slice s start length)
  | _, _, _ => fail .substringArguments

/-- `INT`: numbers are rounded down, texts are read, truth values count as zero and one. -/
def applyInt : Value → Attempt Value
  | .bool b => .ok (.int (if b then 1 else 0))
  | .text s => Value.ofText .integer s
  | v =>
    match v.numeric? with
    | some n => return .int (← n.floor)
    | none => .ok (.int 0)

/-- `REAL`: whole numbers become doubles, texts are read, truth values count as zero and one. -/
def applyReal : Value → Attempt Value
  | .bool b => .ok (.real (if b then 1 else 0))
  | .text s => Value.ofText .real s
  | v =>
    match v.numeric? with
    | some n => return .real (← n.toReal)
    | none => .ok (.real 0)

/-- A number that is to be scaled, as a double. -/
def scalable : Numeric → Attempt Float
  | .int n => .ok (Number.ofInt n)
  | .real x => if Number.isFinite x then .ok x else fail (.notFinite x)

/-- A number rounded at a decimal place by scaling: multiplied by a power of ten, rounded to the
nearest integer, a tie to the even one, and divided again. -/
def roundScaled (n : Numeric) (places : Int) : Attempt Float := do
  let exponent := Number.ofInt places
  let scale := Float.pow 10 exponent
  if !Number.isFinite exponent || !Number.isFinite scale then fail .roundRange
  else
    let x ← scalable n
    match Number.parts? (x * scale) with
    | none => fail .roundRange
    | some p => if scale == 0 then fail .roundRange else return Number.ofInt p.round / scale

/-- `ROUND`. -/
def applyRound (value places : Value) : Attempt Value :=
  match value.numeric?, places.numeric? with
  | some n, some p => do
    let places ← p.round
    return .real (← roundScaled n places)
  | _, _ => fail .roundArguments

/-- `EOF`: whether a file that is open for reading has been read to its end. -/
def applyEndOfFile (files : FileTable) (name : Value) : Attempt Value := do
  match files.atEnd (← name.shown) with
  | .ok b => return .bool b
  | .error cause => fail (.file cause)

/-- The value of a function of one argument. -/
def applyOne (b : Builtin) (v : Value) : Attempt Value :=
  match b, v with
  | length, .text s => .ok (.int s.length)
  | upperCase, .text s => .ok (.text (Text.upper s))
  | lowerCase, .text s => .ok (.text (Text.lower s))
  | toInt, v => applyInt v
  | toReal, v => applyReal v
  | toText, v => return .text (← v.shown)
  | b, _ => fail (.stringArgument b.name)

/-- The value of a call. Functions of one argument disregard further ones. -/
def apply (b : Builtin) (files : Option FileTable) (draw : Float) (arguments : List Value) :
    Attempt Value :=
  match b, files, arguments with
  | random, _, _ => .ok (.real draw)
  | substring, _, [text, start, count] => applySubstring text start count
  | substring, _, _ => breakDown .argumentCount
  | round, _, [value, places] => applyRound value places
  | round, _, _ => breakDown .argumentCount
  | endOfFile, none, _ => fail .endOfFileWithoutFiles
  | endOfFile, some t, name :: _ => applyEndOfFile t name
  | b, _, v :: _ => b.applyOne v
  | _, _, [] => breakDown .argumentMissing

/-- Calls the built-in function of a name. -/
def call (name : String) (files : Option FileTable) (draw : Float) (arguments : List Value) :
    Attempt Value :=
  match ofName? name with
  | some b => b.apply files draw arguments
  | none => fail (.functionNotFound (Text.upper name))

end Builtin

end Pseudocode

import Pseudocode.Parse

/-!
# Checking a source

`diagnose` lists what is wrong with a source without running it: nothing if it is blank or a
program, else the one error at which scanning or parsing stops.
-/

namespace Pseudocode

/-- A complaint about a line of a source. -/
structure Diagnostic where
  line : Int
  message : String
  deriving DecidableEq, Repr

/-- The digits that follow `line ` at the front of a text. -/
def lineMark? (cs : List Char) : Option (List Char) :=
  if "line ".toList.isPrefixOf cs then
    let digits := (cs.drop 5).takeWhile Text.isDecimal
    if digits.isEmpty then none else some digits
  else none

/-- The digits of the first line number that a text mentions. -/
def mentionedLine? : List Char → Option (List Char)
  | [] => none
  | c :: rest =>
    match lineMark? (c :: rest) with
    | some digits => some digits
    | none => mentionedLine? rest

/-- The line to report for an error: its own, else the one its message mentions, else the first. A
number with too many digits is not read. -/
def reportedLine (line : Int) (message : String) : Except SourceError Int :=
  if line ≠ 0 then .ok line
  else
    match mentionedLine? message.toList with
    | some digits =>
      match Number.liberalWhole? (String.ofList digits) with
      | some n => .ok n
      | none => .error .unreadableNumber
    | none => .ok 1

/-- What is wrong with a source. A failure that is no error of the language is passed on. -/
def diagnose (filename source : String) : Except SourceError (List Diagnostic) :=
  if (Text.trimChars source.toList).isEmpty then .ok []
  else
    match parseSource source with
    | .ok _ => .ok []
    | .error (.lexical e) => do
      let message := e.message filename source
      return [⟨← reportedLine e.position.line message, message⟩]
    | .error (.syntactic e) => return [⟨← reportedLine e.line e.message, e.message⟩]
    | .error e => .error e

end Pseudocode

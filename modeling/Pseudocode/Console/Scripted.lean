import Pseudocode.Console.Path
import Pseudocode.Console.Terminal
import Pseudocode.Table

/-!
# Scripted terminals

A terminal whose input is a given text and whose files are a given tree, for use without a computer.
-/

namespace Pseudocode.Console

/-- A terminal and what has happened on it. -/
structure Script where
  /-- The input that is left. -/
  input : List Char := []
  /-- The files, by their paths from the current folder. -/
  files : Table String := {}
  output : String := ""
  warnings : String := ""

namespace Script

/-- Whether a folder exists: one with a file somewhere below it. -/
def hasFolder (s : Script) (path : List String) : Bool :=
  path.isEmpty || s.files.names.any fun name =>
    let parts := (Path.ofString name).parts
    path.isPrefixOf parts && path.length < parts.length

/-- What is reached from a folder. Each name is looked up in a folder that exists, and a name that
is too long is noticed there. -/
def findFrom (s : Script) : (here : List String) → (parts : List String) → Found
  | here, [] =>
    match s.files.entries.find? fun e => (Path.ofString e.1).parts = here with
    | some (_, text) => .text text
    | none => .nothing
  | here, part :: rest =>
    if !s.hasFolder here then .nothing
    else if part = ".." then
      if here.isEmpty then .nothing else s.findFrom here.dropLast rest
    else if Path.maxPartSize < part.utf8ByteSize then .nameTooLong
    else s.findFrom (here ++ [part]) rest

/-- What is found at a path. The tree is all there is below the current folder, and outside of it
nothing is found. -/
def find (s : Script) (text : String) : Found :=
  if text.contains '\x00' then .nothing
  else if Path.maxSize < text.utf8ByteSize then .nameTooLong
  else
    let path := Path.ofString text
    if path.root = "" then s.findFrom [] path.parts
    else if (path.parts.head?.map String.utf8ByteSize).getD 0 ≤ Path.maxPartSize then .nothing
    else .nameTooLong

/-- Reads a line after a prompt. -/
def ask (prompt : String) (s : Script) : Option String × Script :=
  let s := { s with output := s.output ++ prompt }
  match s.input with
  | [] => (none, s)
  | cs =>
    let line := cs.takeWhile (· != '\n')
    (some (String.ofList line), { s with input := (cs.dropWhile (· != '\n')).drop 1 })

end Script

instance : Terminal (StateM Script) where
  put text := modify fun s => { s with output := s.output ++ text }
  warn line := modify fun s => { s with warnings := s.warnings ++ line ++ "\n" }
  ask prompt := modifyGet (Script.ask prompt)
  textAt path := do return (← get).find path

end Pseudocode.Console

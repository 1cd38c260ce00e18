/-!
# Terminals

What the command line needs of the world: a place for output, one for warnings, a line of input
after a prompt, and the texts of files.
-/

namespace Pseudocode.Console

/-- What is found at a path. -/
inductive Found where
  | text (s : String)
  | nothing
  /-- The path has a name too long to be looked up. -/
  | nameTooLong
  deriving DecidableEq, Repr

/-- A monad in which one can talk to a user. -/
class Terminal (t : Type → Type) where
  /-- Puts out a text as it is. -/
  put : String → t Unit
  /-- Writes a line of warning. -/
  warn : String → t Unit
  /-- Shows a prompt and reads a line; `none` at the end of the input. -/
  ask : String → t (Option String)
  /-- The text of the file at a path. -/
  textAt : String → t Found

/-- Puts out a line. -/
def putLine {t : Type → Type} [Terminal t] (line : String) : t Unit :=
  Terminal.put (line ++ "\n")

end Pseudocode.Console

/-!
# File paths

Paths with `/` between their parts. Empty parts and `.` do not count; `..` is kept.
-/

namespace Pseudocode.Console

/-- A path: what it starts from, and its parts. -/
structure Path where
  /-- Empty for a path relative to the current folder. -/
  root : String := ""
  parts : List String := []
  deriving DecidableEq, Repr

namespace Path

/-- The most bytes a part of a path may have. -/
def maxPartSize : Nat := 255

/-- The most bytes a whole path may have. -/
def maxSize : Nat := 4095

/-- Reads a path. Exactly two slashes in front are kept, more count as one. -/
def ofString (s : String) : Path :=
  let slashes := (s.toList.takeWhile (· == '/')).length
  let root := if slashes = 0 then "" else if slashes = 2 then "//" else "/"
  ⟨root, (s.splitOn "/").filter fun p => p != "" && p != "."⟩

/-- The path of a file in a folder; an absolute path stands for itself. -/
def join (folder : Path) (name : String) : Path :=
  let path := ofString name
  if path.root = "" then ⟨folder.root, folder.parts ++ path.parts⟩ else path

/-- Writes a path. -/
def text (p : Path) : String :=
  if p.root = "" && p.parts.isEmpty then "." else p.root ++ String.intercalate "/" p.parts

end Path

end Pseudocode.Console

import Pseudocode.Text.Quoted

/-!
# The journal

What happens while sources are read and programs run is noted in a journal, which the command line
shows on request. Each note has a level and names the part of the program that wrote it.
-/

namespace Pseudocode

/-- The levels of a note, from the more to the less important. -/
inductive NoteLevel where
  | info | debug
  deriving DecidableEq, Repr

def NoteLevel.name : NoteLevel → String
  | info => "INFO"
  | debug => "DEBUG"

/-- Things worth noting. -/
inductive Note where
  | scanned (filename : String) (count : Nat)
  | scanFailed (line column : Int) (complaint : String)
  | parsed (count : Nat)
  | invalid (message : String)
  | registered (keyword name : String)
  | paused (line : Int)
  | failed (line : Int) (message : String)
  | entered (kind name : String) (depth : Nat)
  | left (kind name : String)
  | opened (name mode : String) (count : Nat)
  | closedRead (name : String)
  | closedWritten (name : String) (count : Nat)
  | noFile (path : String)
  deriving DecidableEq, Repr

namespace Note

def level : Note → NoteLevel
  | noFile _ => .info
  | _ => .debug

/-- The part of the program that writes a note. -/
def author : Note → String
  | scanned .. | scanFailed .. => "lexer"
  | parsed .. => "parser"
  | invalid .. => "validator"
  | opened .. | closedRead .. | closedWritten .. => "file_handler"
  | noFile .. => "main"
  | _ => "interpreter"

/-- The wording of a note. -/
def message : Note → String
  | scanned filename count => s!"{filename}: {count} tokens"
  | scanFailed line column complaint => s!"lexer error at {line}:{column}: {complaint}"
  | parsed count => s!"parsed {count} top-level statements"
  | invalid message => s!"validation failed: {message}"
  | registered keyword name => s!"registered {keyword} {name}"
  | paused line => s!"paused before line {line}"
  | failed line message => s!"runtime error at line {line}: {message}"
  | entered kind name depth => s!"enter {kind} {name} (depth {depth})"
  | left kind name => s!"leave {kind} {name}"
  | opened name mode count => s!"opened {Text.quoted name} for {mode} ({count} lines)"
  | closedRead name => s!"closed {Text.quoted name}"
  | closedWritten name count => s!"closed {Text.quoted name} with {count} lines"
  | noFile path => s!"no file {path} for OPENFILE"

/-- A note as one line of a log. -/
def entry (n : Note) : String :=
  s!"{n.level.name} {n.author}: {n.message}"

end Note

end Pseudocode

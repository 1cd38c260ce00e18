import Pseudocode.Fault
import Pseudocode.Table
import Pseudocode.Text.Lines

/-!
# Simulated files

A program's files are lists of lines in a table; the disk is never touched. A file is opened for
reading, writing or appending. What was written stays in the table after closing and can be read or
appended to later. A file that is not in the table is read from a text that the host provides.
Closing a file that was open for reading removes it from the table.

An operation that fails leaves the table as it was.
-/

namespace Pseudocode

/-- What a file is opened for. -/
inductive FileMode where
  | read | write | append
  deriving DecidableEq, Repr

namespace FileMode

/-- The name of a mode. -/
def name : FileMode → String
  | read => "READ" | write => "WRITE" | append => "APPEND"

/-- The mode with the given name. -/
def ofName? (name : String) : Option FileMode :=
  [read, write, append].find? (·.name == name)

end FileMode

/-- A file of the table: its lines, and the number of lines read or written so far. -/
structure FileHandle where
  mode : FileMode
  lines : Array String := #[]
  position : Nat := 0
  isOpen : Bool := true
  deriving DecidableEq, Repr

/-- The host's answer when it is asked for the text of a file. -/
inductive Upload where
  /-- The host provides no files at all. -/
  | unavailable
  /-- The host has no such file. -/
  | missing
  | provided (text : String)
  deriving DecidableEq, Repr

/-- The files of a program. -/
structure FileTable where
  files : Table FileHandle := {}
  deriving Repr

namespace FileTable

/-- The table without files. -/
def empty : FileTable := {}

/-- The entry of a name. -/
def find? (t : FileTable) (name : String) : Option FileHandle :=
  t.files.find? name

/-- The table with a new entry for a name. -/
def put (t : FileTable) (name : String) (h : FileHandle) : FileTable :=
  ⟨t.files.insert name h⟩

/-- Names must not be empty. -/
def checkName (name : String) : Except FileFault Unit :=
  if name.isEmpty then .error .emptyName else .ok ()

/-- The entry of an open file. -/
def requireOpen (t : FileTable) (name : String) : Except FileFault FileHandle :=
  match t.find? name with
  | some h => if h.isOpen then .ok h else .error (.notOpen name)
  | none => .error (.notOpen name)

/-- Whether opening a file needs its text from the host: it is opened for reading and not in the
table. -/
def wantsUpload (t : FileTable) (name mode : String) : Bool :=
  !name.isEmpty && (t.find? name).isNone && mode == FileMode.read.name

/-- The lines a file has when it is opened for reading: those in the table, else those provided. -/
def linesToRead (name : String) (existing : Option FileHandle) (upload : Upload) :
    Except FileFault (Array String) :=
  match existing, upload with
  | some h, _ => .ok h.lines
  | none, .provided text => .ok (Text.lines text).toArray
  | none, .missing => .error (.notProvided name)
  | none, .unavailable => .error .noUploads

/-- The entry of a file that is being opened. -/
def opening (name : String) (existing : Option FileHandle) (upload : Upload) :
    FileMode → Except FileFault FileHandle
  | .read => do return { mode := .read, lines := ← linesToRead name existing upload }
  | .write => .ok { mode := .write }
  | .append =>
    let lines := (existing.map FileHandle.lines).getD #[]
    .ok { mode := .append, lines := lines, position := lines.size }

/-- Opens a file for the mode of the given name. The result is the new entry and the table with
it. -/
def openAs (t : FileTable) (name mode : String) (upload : Upload) :
    Except FileFault (FileHandle × FileTable) := do
  checkName name
  let existing := t.find? name
  if (existing.map FileHandle.isOpen).getD false then .error (.alreadyOpen name)
  else
    match FileMode.ofName? mode with
    | some mode =>
      let h ← opening name existing upload mode
      return (h, t.put name h)
    | none => .error (.unknownMode mode)

/-- Closes a file. The result is the entry it had and the new table. -/
def close (t : FileTable) (name : String) : Except FileFault (FileHandle × FileTable) := do
  checkName name
  let h ← t.requireOpen name
  match h.mode with
  | .read => return (h, ⟨t.files.erase name⟩)
  | _ => return (h, t.put name { h with isOpen := false })

/-- Reads the next line of a file. -/
def next (t : FileTable) (name : String) : Except FileFault (String × FileTable) := do
  checkName name
  let h ← t.requireOpen name
  match h.mode with
  | .read =>
    match h.lines[h.position]? with
    | some line => return (line, t.put name { h with position := h.position + 1 })
    | none => .error (.pastEnd name)
  | _ => .error (.notForReading name)

/-- Writes a line at the end of a file. -/
def write (t : FileTable) (name line : String) : Except FileFault FileTable := do
  checkName name
  let h ← t.requireOpen name
  match h.mode with
  | .read => .error (.notForWriting name)
  | _ =>
    let lines := h.lines.push line
    return t.put name { h with lines := lines, position := lines.size }

/-- Whether every line of a file has been read. -/
def atEnd (t : FileTable) (name : String) : Except FileFault Bool := do
  let h ← t.requireOpen name
  match h.mode with
  | .read => return h.lines.size ≤ h.position
  | _ => .error .endOfWritten

/-- The text of a file. -/
def content? (t : FileTable) (name : String) : Option String :=
  (t.find? name).map fun h => Text.unlines h.lines.toList

/-- Every file with its mode and number of lines. -/
def listing (t : FileTable) : List (String × FileMode × Nat) :=
  t.files.entries.map fun (name, h) => (name, h.mode, h.lines.size)

end FileTable

/-! ## What the user is told -/

/-- The line shown when a file has been opened. -/
def openedLine (name : String) (h : FileHandle) : String :=
  s!"Opened file '{name}' in {h.mode.name} mode"

/-- The line shown when a file has been closed. -/
def closedLine (name : String) (h : FileHandle) : String :=
  match h.mode with
  | .read => s!"Closed file '{name}'"
  | _ => s!"Closed file '{name}' ({h.lines.size} lines written)"

/-- The line shown when a line has been written. -/
def writtenLine (name line : String) : String :=
  s!"[Write to {name}] {line}"

end Pseudocode

import Pseudocode.Machine
import Pseudocode.Number.Reading
import Pseudocode.Trace.Format

/-!
# Command line arguments

Options start with a dash; a long one may be shortened as long as it stays unique. A value follows
its option as the next argument or after `=`; if `--` follows the `=`, the value is void. Options of
one letter may be written together, with or without a `=` after the first. Everything else is the
program's file name, of which there is at most one. After `--` nothing is an option.

Arguments are first sorted into options and others, all of them; then they are taken in order.
-/

namespace Pseudocode.Console

/-- What is done with a program. -/
inductive Mode where
  | plain | dryRun | step | check
  deriving DecidableEq, Repr

/-- The value of an option: a text, or void. -/
inductive OptionValue where
  | text (s : String)
  | void
  deriving DecidableEq, Repr

/-- What the arguments ask for. -/
structure Options where
  verbosity : Nat := 0
  program : Option String := none
  inputs : Option OptionValue := none
  files : Option OptionValue := none
  mode : Mode := .plain
  /-- The format of traces; `none` if it is void. -/
  traceFormat : Option TraceFormat := some .text
  maxDispatches : Limit := ({} : Settings).maxDispatches
  maxDepth : Limit := ({} : Settings).maxDepth
  echoWrites : Bool := true
  deriving DecidableEq, Repr

/-- The options there are. -/
inductive Flag where
  | help | verbose | inputs | files | dryRun | step | check | traceFormat | maxIterations | maxDepth
  | noEcho
  deriving DecidableEq, Repr

/-- The spellings of the options. -/
def spellings : List (String × Flag) :=
  [("-h", .help), ("--help", .help), ("-v", .verbose), ("--verbose", .verbose),
    ("--inputs", .inputs), ("--files", .files), ("--dryrun", .dryRun), ("--step", .step),
    ("--check", .check), ("--trace-format", .traceFormat), ("--max-iterations", .maxIterations),
    ("--max-depth", .maxDepth), ("--no-echo", .noEcho)]

/-- Whether an option needs a value. -/
def Flag.takesValue : Flag → Bool
  | inputs | files | traceFormat | maxIterations | maxDepth => true
  | _ => false

/-- The option with exactly this spelling. -/
def flagOf? (spelling : String) : Option Flag :=
  (spellings.find? (·.1 == spelling)).map Prod.snd

/-- Why the arguments are not followed. -/
inductive Refusal where
  /-- Help is wanted instead. -/
  | help
  /-- The arguments make no sense. -/
  | misuse
  deriving DecidableEq, Repr

/-- The exit status after a refusal. -/
def Refusal.status : Refusal → Nat
  | help => 0
  | misuse => 2

/-! ## Sorting -/

/-- What is attached to an option: the letters after a one-letter option, or the text after `=`. -/
inductive Attachment where
  | nothing
  | letters (cs : List Char)
  | value (text : String)
  deriving DecidableEq, Repr

/-- What an argument is. -/
inductive Argument where
  | plain (text : String)
  /-- `--`, the end of the options. -/
  | divider
  | flag (f : Flag) (attached : Attachment)
  /-- It looks like an option, but there is none like it. -/
  | unknown
  deriving DecidableEq, Repr

/-- A text before and after its first `=`. -/
def splitValue (text : String) : String × Attachment :=
  let cs := text.toList
  let before := String.ofList (cs.takeWhile (· != '='))
  match cs.dropWhile (· != '=') with
  | [] => (before, .nothing)
  | _ :: rest => (before, .value (String.ofList rest))

/-- Whether the characters after a minus make a number, with a line feed allowed at the end. -/
def isNumberTail (cs : List Char) : Bool :=
  let cs := if cs.getLast? = some '\n' then cs.dropLast else cs
  let fraction := cs.dropWhile Text.isDecimal
  match fraction with
  | [] => !cs.isEmpty
  | '.' :: rest => !rest.isEmpty && rest.all Text.isDecimal
  | _ => false

/-- The options that an argument may be short for. -/
def candidates (text : String) : List Argument :=
  match text.toList with
  | '-' :: '-' :: _ =>
    let (spelling, attached) := splitValue text
    (spellings.filter fun s => spelling.isPrefixOf s.1).map fun s => .flag s.2 attached
  | '-' :: c :: rest =>
    (spellings.filter fun s => s.1 == String.ofList ['-', c]).map fun s => .flag s.2 (.letters rest)
  | _ => []

/-- An argument that starts with a dash and is no exact spelling of an option. -/
def sortInexact (text : String) : Except Refusal Argument :=
  match candidates text with
  | [a] => .ok a
  | _ :: _ :: _ => .error .misuse
  | [] =>
    if isNumberTail (text.toList.drop 1) || text.contains ' ' then .ok (.plain text)
    else .ok .unknown

/-- What is attached to an option with the given spelling by a `=`. After an option of one letter
there are further letters, not a value. -/
def attachedTo (spelling : String) : Attachment → Attachment
  | .value text =>
    if spelling.length = 2 && !text.isEmpty then .letters text.toList else .value text
  | attached => attached

/-- Tells what an argument is. -/
def sortArgument (text : String) : Except Refusal Argument :=
  if !text.startsWith "-" || text == "-" then .ok (.plain text)
  else
    match flagOf? text, splitValue text with
    | some f, _ => .ok (.flag f .nothing)
    | none, (_, .nothing) => sortInexact text
    | none, (spelling, attached) =>
      match flagOf? spelling with
      | some f => .ok (.flag f (attachedTo spelling attached))
      | none => sortInexact text

/-- Sorts all arguments. -/
def sortArguments : List String → Except Refusal (List Argument)
  | [] => .ok []
  | text :: rest =>
    if text = "--" then .ok (.divider :: rest.map .plain)
    else do
      let a ← sortArgument text
      return a :: (← sortArguments rest)

/-! ## Taking -/

/-- The options taken so far, whether the file name has had its turn, and whether anything was left
over. -/
structure Taken where
  options : Options := {}
  settled : Bool := false
  leftOver : Bool := false

/-- Chooses what is done with the program; two different choices make no sense. -/
def Options.choose (o : Options) (mode : Mode) : Except Refusal Options :=
  if o.mode = .plain || o.mode = mode then .ok { o with mode := mode } else .error .misuse

/-- A limit as the value of an option. -/
def limitValue : OptionValue → Except Refusal Limit
  | .void => .ok .unusable
  | .text s =>
    match Number.liberalWhole? s with
    | some n => .ok (.atMost n)
    | none => .error .misuse

/-- A trace format as the value of an option. -/
def formatValue : OptionValue → Except Refusal (Option TraceFormat)
  | .void => .ok none
  | .text s =>
    match TraceFormat.ofName? s with
    | some format => .ok (some format)
    | none => .error .misuse

/-- Follows an option. -/
def Options.take (o : Options) (f : Flag) (value : OptionValue) : Except Refusal Options :=
  match f with
  | .help => .error .help
  | .verbose => .ok { o with verbosity := o.verbosity + 1 }
  | .inputs => .ok { o with inputs := some value }
  | .files => .ok { o with files := some value }
  | .dryRun => o.choose .dryRun
  | .step => o.choose .step
  | .check => o.choose .check
  | .traceFormat => do return { o with traceFormat := ← formatValue value }
  | .maxIterations => do return { o with maxDispatches := ← limitValue value }
  | .maxDepth => do return { o with maxDepth := ← limitValue value }
  | .noEcho => .ok { o with echoWrites := false }

/-- The options written together after `first`. -/
def together (first : Flag) : List Char → Except Refusal (List Flag)
  | [] => .ok [first]
  | c :: rest =>
    match flagOf? (String.ofList ['-', c]) with
    | some f => do return first :: (← together f rest)
    | none => .error .misuse

/-- Takes an option that needs no value. -/
def Taken.takeFlag (t : Taken) (f : Flag) (attached : Attachment) : Except Refusal Taken :=
  match attached with
  | .nothing => do return { t with options := ← t.options.take f .void }
  | .letters cs => do
    let flags ← together f cs
    return { t with options := ← flags.foldlM (fun o f => o.take f .void) t.options }
  | .value _ => .error .misuse

/-- A value that is attached to its option. -/
def attachedValue (text : String) : OptionValue :=
  if text = "--" then .void else .text text

/-- Takes arguments in order. -/
def takeArguments (t : Taken) : List Argument → Except Refusal Taken
  | [] => .ok t
  | .plain text :: .divider :: rest =>
    if t.settled then takeArguments { t with leftOver := true } rest
    else
      takeArguments
        { t with options := { t.options with program := some text }, settled := true } rest
  | .plain text :: rest =>
    if t.settled then takeArguments { t with leftOver := true } rest
    else
      takeArguments
        { t with options := { t.options with program := some text }, settled := true } rest
  | .divider :: rest => takeArguments { t with leftOver := t.leftOver || t.settled } rest
  | .unknown :: rest => takeArguments { t with leftOver := true } rest
  | .flag f attached :: rest =>
    if f.takesValue then
      match attached, rest with
      | .value text, rest => do
        takeArguments { t with options := ← t.options.take f (attachedValue text) } rest
      | _, .plain text :: rest => do
        takeArguments { t with options := ← t.options.take f (.text text) } rest
      | _, _ => .error .misuse
    else do takeArguments (← t.takeFlag f attached) rest

/-- What the arguments ask for. -/
def readArguments (arguments : List String) : Except Refusal Options := do
  let sorted ← sortArguments arguments
  let taken ← takeArguments {} sorted
  if taken.leftOver then .error .misuse else .ok taken.options

/-- The values that are given for INPUT, separated by commas. -/
def splitInputs (text : String) : List String :=
  ((Text.cutAt ',' text.toList).map Text.trimChars).filterMap fun cs =>
    if cs.isEmpty then none else some (String.ofList cs)

namespace Options

/-- The inputs that are used before any are asked for; none can be made out if their value is
void. -/
def queuedInputs (o : Options) : Attempt (List String) :=
  match o.inputs with
  | none => .ok []
  | some (.text s) => .ok (splitInputs s)
  | some .void => breakDown .inputsVoid

/-- The folder that files are read from. -/
def folder? (o : Options) : Option String :=
  match o.files with
  | some (.text s) => if s.isEmpty then none else some s
  | _ => none

/-- The settings of a run. -/
def settings (o : Options) : Settings :=
  { maxDispatches := o.maxDispatches, maxDepth := o.maxDepth, echoWrites := o.echoWrites
    stepping := o.mode = .step }

/-- Whether notes of a level are shown. -/
def shows (o : Options) : NoteLevel → Bool
  | .info => 1 ≤ o.verbosity
  | .debug => 2 ≤ o.verbosity

end Options

end Pseudocode.Console

import Pseudocode.Text.Lines
import Pseudocode.Token

/-!
# Scanning

A source is cut into lexemes from left to right. At each place the first rule of `rules` that
matches decides the lexeme; blanks and comments are dropped and every other lexeme becomes a token.
Scanning stops with an error at a place where no rule matches or where a string or character literal
has no end on its line.
-/

namespace Pseudocode

/-- The kinds of lexeme. -/
inductive LexemeKind where
  | blank | newline | comment
  | symbol (s : Symbol)
  | number | literal | openString | openChar | word
  deriving DecidableEq, Repr

/-- A rule gives the length of the lexeme it finds at the front of a text, zero if it finds none. -/
structure LexemeRule where
  kind : LexemeKind
  length : List Char → Nat

namespace LexemeRule

/-- The number of leading characters in a class. -/
def run (p : Char → Bool) (cs : List Char) : Nat :=
  (cs.takeWhile p).length

/-- A fixed text. -/
def fixed (kind : LexemeKind) (text : String) : LexemeRule where
  kind := kind
  length cs := if text.toList.isPrefixOf cs then text.toList.length else 0

/-- Digits, then perhaps a point and further digits. -/
def numberLength (cs : List Char) : Nat :=
  let whole := run Char.isDigit cs
  if whole = 0 then 0
  else
    match cs.drop whole with
    | '.' :: rest => whole + 1 + run Char.isDigit rest
    | _ => whole

/-- The number of characters from a `quote` up to the next one or the end of the line. -/
def openLength (quote : Char) : List Char → Nat
  | [] => 0
  | c :: rest => if c = quote then 1 + run (fun c => c != quote && c != '\n') rest else 0

/-- A literal between two `quote`s on one line. -/
def closedLength (quote : Char) (cs : List Char) : Nat :=
  let n := openLength quote cs
  if n = 0 then 0 else if (cs.drop n).head? = some quote then n + 1 else 0

/-- Two slashes and the rest of the line. -/
def commentLength : List Char → Nat
  | '/' :: '/' :: rest => 2 + run (· != '\n') rest
  | _ => 0

/-- A name or keyword. -/
def wordLength : List Char → Nat
  | [] => 0
  | c :: rest => if Text.isWordStart c then 1 + run Text.isWord rest else 0

/-- The blanks that separate tokens on a line. -/
def isSpacing (c : Char) : Bool :=
  c == ' ' || c == '\t' || c == '\r'

end LexemeRule

open LexemeRule in
/-- The rules in order of precedence: a longer operator stands before its beginnings, and a closed
literal before an open one. -/
def lexemeRules : List LexemeRule :=
  [⟨.blank, run isSpacing⟩, fixed .newline "\n", ⟨.comment, commentLength⟩,
    fixed (.symbol .assign) "←", fixed (.symbol .assign) "<--", fixed (.symbol .assign) "<-",
    fixed (.symbol .ne) "<>", fixed (.symbol .le) "<=", fixed (.symbol .ge) ">=",
    fixed (.symbol .eq) "=", fixed (.symbol .lt) "<", fixed (.symbol .gt) ">",
    fixed (.symbol .plus) "+", fixed (.symbol .minus) "-", fixed (.symbol .multiply) "*",
    fixed (.symbol .divide) "/", fixed (.symbol .power) "^", fixed (.symbol .amper) "&",
    fixed (.symbol .lparen) "(", fixed (.symbol .rparen) ")", fixed (.symbol .lbracket) "[",
    fixed (.symbol .rbracket) "]", fixed (.symbol .colon) ":", fixed (.symbol .comma) ",",
    ⟨.number, numberLength⟩, ⟨.literal, closedLength '"'⟩, ⟨.literal, closedLength '\''⟩,
    ⟨.openString, openLength '"'⟩, ⟨.openChar, openLength '\''⟩, ⟨.word, wordLength⟩]

/-- The first of the given rules that matches, with the length of its lexeme. -/
def firstMatch (cs : List Char) : List LexemeRule → Option (LexemeKind × Nat)
  | [] => none
  | r :: rest => if 0 < r.length cs then some (r.kind, r.length cs) else firstMatch cs rest

/-- The lexeme at the front of a text: its kind and length. -/
def nextLexeme? (cs : List Char) : Option (LexemeKind × Nat) :=
  firstMatch cs lexemeRules

theorem firstMatch_pos {cs : List Char} {rules : List LexemeRule} {kind : LexemeKind} {n : Nat}
    (h : firstMatch cs rules = some (kind, n)) : 0 < n := by
  induction rules with
  | nil => simp [firstMatch] at h
  | cons r rest ih =>
    simp only [firstMatch] at h
    split at h
    · rename_i hr
      simp only [Option.some.injEq, Prod.mk.injEq] at h
      omega
    · exact ih h

/-! ## Positions and errors -/

/-- A place in a source: line and column, both counted from one. -/
structure Position where
  line : Int := 1
  column : Int := 1
  deriving DecidableEq, Repr

/-- The place after a character. -/
def Position.next (p : Position) (c : Char) : Position :=
  if c = '\n' then ⟨p.line + 1, 1⟩ else ⟨p.line, p.column + 1⟩

/-- The place after a piece of text. -/
def Position.after (p : Position) (cs : List Char) : Position :=
  cs.foldl Position.next p

/-- Why scanning stops. -/
inductive LexicalCause where
  | unexpected (c : Char)
  | openString
  | openChar
  deriving DecidableEq, Repr

/-- The wording of a cause. -/
def LexicalCause.message : LexicalCause → String
  | unexpected c => s!"Unexpected character: {Text.quoted c.toString}"
  | openString => "Unterminated string"
  | openChar => "Unterminated character literal"

/-- A cause and the place where it was met. -/
structure LexicalError where
  cause : LexicalCause
  position : Position
  deriving DecidableEq, Repr

/-- The row with the given number. Numbers below one count back from the last row, which is number
zero. -/
def rowAt? (rows : List String) (line : Int) : Option String :=
  if 0 < line then rows[(line - 1).toNat]? else rows.reverse[(-line).toNat]?

/-- Whether counting back from the last row leads past the first one. -/
def Position.isBefore (p : Position) (source : String) : Bool :=
  p.line ≤ 0 && (rowAt? (Text.rows source) p.line).isNone

/-- The source line of a place with a caret under its column; empty where there is no such line. -/
def excerpt (source : String) (p : Position) : String :=
  match rowAt? (Text.rows source) p.line with
  | some row =>
    "\n  " ++ row ++ "\n  " ++ String.ofList (List.replicate (p.column - 1).toNat ' ') ++ "^"
  | none => ""

/-- A complaint about a place of a source, as it is shown to the user. -/
def complain (filename source : String) (p : Position) (complaint : String) : String :=
  s!"{filename}:{p.line}:{p.column}: {complaint}{excerpt source p}"

/-- The message of an error in a source. -/
def LexicalError.message (e : LexicalError) (filename source : String) : String :=
  complain filename source e.position e.cause.message

/-! ## The scanner -/

/-- The token of a name: a truth value, a keyword or an identifier. -/
def wordToken (word : String) (p : Position) : Token :=
  let upper := Text.upper word
  if upper = "TRUE" then ⟨.boolean, .bool true, p.line, p.column⟩
  else if upper = "FALSE" then ⟨.boolean, .bool false, p.line, p.column⟩
  else
    match Keyword.ofWord? upper with
    | some k => ⟨.keyword k, .text upper, p.line, p.column⟩
    | none => ⟨.identifier, .text word, p.line, p.column⟩

/-- The tokens of a lexeme at a place: none for blanks and comments, one otherwise. -/
def lexemeTokens (kind : LexemeKind) (lexeme : List Char) (p : Position) :
    Except LexicalCause (List Token) :=
  let token (kind : TokenKind) (cs : List Char) : Token :=
    ⟨kind, .text (String.ofList cs), p.line, p.column⟩
  match kind with
  | .blank | .comment => .ok []
  | .newline => .ok [token .newline lexeme]
  | .symbol s => .ok [token (.symbol s) lexeme]
  | .number => .ok [token .number lexeme]
  | .literal => .ok [token .string (lexeme.drop 1).dropLast]
  | .word => .ok [wordToken (String.ofList lexeme) p]
  | .openString => .error .openString
  | .openChar => .error .openChar

/-- The tokens of a text that starts at `p`. -/
def scanFrom (p : Position) (cs : List Char) : Except LexicalError (List Token) :=
  match cs with
  | [] => .ok [Token.eofAt p.line p.column]
  | c :: rest =>
    match _h : nextLexeme? (c :: rest) with
    | none => .error ⟨.unexpected c, p⟩
    | some (kind, n) =>
      let lexeme := (c :: rest).take n
      match lexemeTokens kind lexeme p with
      | .error cause => .error ⟨cause, p⟩
      | .ok tokens =>
        match scanFrom (p.after lexeme) ((c :: rest).drop n) with
        | .error e => .error e
        | .ok more => .ok (tokens ++ more)
termination_by cs.length
decreasing_by
  have := firstMatch_pos _h
  simp only [List.length_drop, List.length_cons]
  omega

/-- The tokens of a source, the last of which marks its end. -/
def tokenize (source : String) : Except LexicalError (List Token) :=
  scanFrom {} source.toList

end Pseudocode

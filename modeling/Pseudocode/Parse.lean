import Pseudocode.Parse.Statement
import Pseudocode.Token.Scan

/-!
# Programs from source text

`parseTokens` reads a program from tokens, `parseSource` from a source text. A source that is no
program gives an error with a line and a message.
-/

namespace Pseudocode

/-- Why a text is no program. -/
inductive SourceError where
  | lexical (e : LexicalError)
  | syntactic (e : SyntaxError)
  /-- A number cannot be read: it has too many digits, or its token was not made by the scanner. -/
  | unreadableNumber
  /-- A number token carries no text; the scanner makes no such token. -/
  | numberWithoutText
  /-- Parsing did not end within its bound. -/
  | exhausted
  deriving DecidableEq, Repr

namespace SourceError

/-- The line of an error in the language; zero for the others. -/
def line : SourceError → Int
  | lexical e => e.position.line
  | syntactic e => e.line
  | _ => 0

/-- The message of an error in the given source. -/
def message (e : SourceError) (filename source : String) : String :=
  match e with
  | lexical e => e.message filename source
  | syntactic e => e.message
  | unreadableNumber => "Number cannot be read"
  | numberWithoutText => "Number has no text"
  | exhausted => "Program is nested too deeply"

/-- How a parser's failure looks to the reader of the source. -/
def ofFailure : ParseFailure → SourceError
  | .rejected e => syntactic e
  | .unreadableNumber => unreadableNumber
  | .numberWithoutText => numberWithoutText
  | .exhausted => exhausted

end SourceError

/-- Runs a parser from the beginning of a token list. -/
def Parser.runOn {α : Type} (p : Nat → Parser α) (tokens : List Token) :
    EStateM.Result ParseFailure Cursor α :=
  p (Parse.stepBound tokens) (Cursor.start tokens)

/-- The program that a token list spells. -/
def parseTokens (tokens : List Token) : Except SourceError Block :=
  match Parser.runOn Parse.program tokens with
  | .ok program _ => .ok program
  | .error failure _ => .error (.ofFailure failure)

/-- The program that a source text spells. -/
def parseSource (source : String) : Except SourceError Block :=
  match tokenize source with
  | .error e => .error (.lexical e)
  | .ok tokens => parseTokens tokens

/-- The expression that a source text begins with, and the token after it. -/
def parseExpression (source : String) : Except SourceError (Expr × Token) :=
  match tokenize source with
  | .error e => .error (.lexical e)
  | .ok tokens =>
    match Parser.runOn (Parse.expression · 0) tokens with
    | .ok e c => .ok (e, c.current)
    | .error failure _ => .error (.ofFailure failure)

end Pseudocode

import Pseudocode.Token

/-!
# Reading a token list

A parser works on a cursor into a token list. The cursor stands on a token, never moves back, and
never moves past the last token: advancing there stays there. An empty list reads as the end of the
input. A parser either succeeds or stops with a failure, and in both cases tells where its cursor
stands.
-/

namespace Pseudocode

/-- What a program text lacks or has too much of. -/
inductive SyntaxCause where
  | expected (kind : TokenKind) (found : String)
  | unexpected (found : String)
  | unexpectedInExpression (found : String)
  | expectedType (found : String)
  | constantUnsupported
  | nameAfterDeclare | nameAfterComma | colonInDeclare | bracketAfterArray | colonInBounds
  | bracketAfterBounds | ofAfterBounds | boundNotLiteral
  | variableName | bracketAfterIndex
  | arrowAfter (target : String)
  | thenAfterIf | endIf | doAfterWhile | endWhile | untilAfterRepeat
  | loopVariable | arrowInFor | toInFor | nextAfterFor
  | nextMismatch (found wanted : String)
  | ofAfterCase | colonAfterOtherwise | endCase | colonAfterLabel
  | procedureName | endProcedure | functionName | returnsInFunction | endFunction
  | parenAfterParams | paramName
  | colonAfterParam (param : String)
  | ofAfterArrayParam (param : String)
  | procedureNameAfterCall | parenAfterArguments
  | forAfterFileName | fileMode | commaAfterReadName | commaAfterWriteName
  | closingParen
  deriving DecidableEq, Repr

/-- The wording of a cause. -/
def SyntaxCause.message : SyntaxCause → String
  | expected kind found => s!"Expected {kind.label}, got '{found}'"
  | unexpected found => s!"Unexpected '{found}'"
  | unexpectedInExpression found => s!"Unexpected '{found}' in expression"
  | expectedType found => s!"Expected data type, got '{found}'"
  | constantUnsupported => "Feature not supported: CONSTANT"
  | nameAfterDeclare => "Expected variable name after DECLARE"
  | nameAfterComma => "Expected variable name after ','"
  | colonInDeclare => "Expected ':' in DECLARE"
  | bracketAfterArray => "Expected '[' after ARRAY"
  | colonInBounds => "Expected ':' between array bounds"
  | bracketAfterBounds => "Expected ']' after array bounds"
  | ofAfterBounds => "Expected OF after array bounds"
  | boundNotLiteral => "Array bounds must be literal integers"
  | variableName => "Expected variable name"
  | bracketAfterIndex => "Expected ']' after array index"
  | arrowAfter target => s!"Expected '<-' after '{target}'"
  | thenAfterIf => "Expected THEN after IF condition"
  | endIf => "Expected ENDIF to close IF statement"
  | doAfterWhile => "Expected DO after WHILE condition"
  | endWhile => "Expected ENDWHILE to close WHILE loop"
  | untilAfterRepeat => "Expected UNTIL to close REPEAT loop"
  | loopVariable => "Expected loop variable after FOR"
  | arrowInFor => "Expected '<-' after FOR variable"
  | toInFor => "Expected TO in FOR loop"
  | nextAfterFor => "Expected NEXT to close FOR loop"
  | nextMismatch found wanted =>
    s!"NEXT identifier '{found}' does not match FOR variable '{wanted}'"
  | ofAfterCase => "Expected OF after CASE"
  | colonAfterOtherwise => "Expected ':' after OTHERWISE"
  | endCase => "Expected ENDCASE to close CASE statement"
  | colonAfterLabel => "Expected ':' after CASE value"
  | procedureName => "Expected procedure name"
  | endProcedure => "Expected ENDPROCEDURE to close PROCEDURE"
  | functionName => "Expected function name"
  | returnsInFunction => "Expected RETURNS in FUNCTION header"
  | endFunction => "Expected ENDFUNCTION to close FUNCTION"
  | parenAfterParams => "Expected ')' after parameters"
  | paramName => "Expected parameter name"
  | colonAfterParam param => s!"Expected ':' after parameter '{param}'"
  | ofAfterArrayParam param => s!"Expected OF after ARRAY for parameter '{param}'"
  | procedureNameAfterCall => "Expected procedure name after CALL"
  | parenAfterArguments => "Expected ')' after arguments"
  | forAfterFileName => "Expected FOR after OPENFILE filename"
  | fileMode => "Expected READ, WRITE or APPEND after FOR"
  | commaAfterReadName => "Expected ',' after READFILE filename"
  | commaAfterWriteName => "Expected ',' after WRITEFILE filename"
  | closingParen => "Expected ')'"

/-- A cause and the line of the token it was found at. -/
structure SyntaxError where
  cause : SyntaxCause
  line : Int
  deriving DecidableEq, Repr

/-- The message of a syntax error. -/
def SyntaxError.message (e : SyntaxError) : String :=
  s!"{e.cause.message} at line {e.line}"

/-- How parsing can stop. -/
inductive ParseFailure where
  | rejected (e : SyntaxError)
  /-- The text of a number token is no number, or has more digits than can be read. -/
  | unreadableNumber
  /-- A number token carries no text. -/
  | numberWithoutText
  /-- The bound on the number of steps was too small; it never is for a list that ends in `eof`. -/
  | exhausted
  deriving DecidableEq, Repr

/-- A place in a token list: the token there and the tokens after it. -/
structure Cursor where
  /-- The number of tokens before the current one. -/
  position : Nat
  current : Token
  rest : List Token
  deriving DecidableEq, Repr

namespace Cursor

/-- The beginning of a token list. -/
def start : List Token → Cursor
  | [] => ⟨0, Token.eofAt 1 1, []⟩
  | t :: rest => ⟨0, t, rest⟩

/-- The next place, or the same one on the last token. -/
def advance (c : Cursor) : Cursor :=
  match c.rest with
  | [] => c
  | t :: rest => ⟨c.position + 1, t, rest⟩

/-- The token after the current one, or the last token. -/
def ahead (c : Cursor) : Token :=
  c.rest.headD c.current

/-- The first place from here on that is not a line end, with the place given by its parts. -/
def pastNewlines (position : Nat) (current : Token) : List Token → Cursor
  | [] => ⟨position, current, []⟩
  | t :: rest =>
    if current.kind = .newline then pastNewlines (position + 1) t rest
    else ⟨position, current, t :: rest⟩

/-- The first place from here on that is not a line end. -/
def skipNewlines (c : Cursor) : Cursor :=
  pastNewlines c.position c.current c.rest

end Cursor

/-- A parser for things of type `α`. -/
abbrev Parser (α : Type) := EStateM ParseFailure Cursor α

namespace Parser

/-- The current token. -/
def current : Parser Token := do
  return (← get).current

/-- Whether the current token has one of the given kinds. -/
def check (kinds : List TokenKind) : Parser Bool := do
  return kinds.contains (← current).kind

/-- Reads the current token. -/
def advance : Parser Token := do
  let c ← get
  set c.advance
  return c.current

/-- Stops because of the given token. -/
def rejectAt {α : Type} (token : Token) (cause : SyntaxCause) : Parser α :=
  throw (.rejected ⟨cause, token.line⟩)

/-- Stops because of the current token. -/
def reject {α : Type} (cause : SyntaxCause) : Parser α := do
  rejectAt (← current) cause

/-- Reads a token of the given kind; for any other token the given cause is reported. -/
def expect (kind : TokenKind) (cause : SyntaxCause) : Parser Token := do
  if (← current).kind = kind then advance else reject cause

/-- Reads a keyword; any other token is reported by name. -/
def expectKeyword (k : Keyword) : Parser Token := do
  expect (.keyword k) (.expected (.keyword k) (← current).describe)

/-- Reads the current token if it has the given kind. -/
def accept (kind : TokenKind) : Parser Bool := do
  if (← current).kind = kind then
    let _ ← advance
    return true
  else return false

/-- Moves past line ends. -/
def skipNewlines : Parser Unit :=
  modify Cursor.skipNewlines

/-- One or more items separated by commas, the first of which has been read. -/
def moreItems {α : Type} (item : Parser α) : Nat → Parser (List α)
  | 0 => throw .exhausted
  | n + 1 => do
    if ← accept (.symbol .comma) then
      let x ← item
      let xs ← moreItems item n
      return x :: xs
    else return []

/-- One or more items separated by commas. -/
def items {α : Type} (item : Parser α) (bound : Nat) : Parser (List α) := do
  let x ← item
  let xs ← moreItems item bound
  return x :: xs

end Parser

end Pseudocode

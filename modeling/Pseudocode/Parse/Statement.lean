import Pseudocode.Parse.Expression

/-!
# Parsing statements

Each rule reads one form of statement, starting at its keyword. The rules take the parser for the
statements inside them as a parameter and a bound on the number of steps; `statement` chooses the
rule by the current token and gives the statement the line of that token. A block ends before one of
the tokens that its rule names, or before the end of the input; the rule then insists on its own
token.
-/

namespace Pseudocode.Parse

open Pseudocode.Parser

/-- A whole expression. -/
def anyExpression (bound : Nat) : Parser Expr :=
  expression bound 0

/-- Statements up to one of the given tokens or the end of the input. -/
def block (stmt : Parser Block) (stops : List TokenKind) : Nat → Parser Block
  | 0 => throw .exhausted
  | n + 1 => do
    skipNewlines
    if ← check (.eof :: stops) then return []
    else
      let first ← stmt
      let rest ← block stmt stops n
      return first ++ rest

/-! ## Simple statements -/

/-- The name of a data type. -/
def typeName : Parser String := do
  if ← check [.keyword .integerKw, .keyword .realKw, .keyword .stringKw, .keyword .charKw,
      .keyword .booleanKw] then
    return (← advance).text
  else reject (.expectedType (← current).describe)

/-- An array bound: a whole number, perhaps with a minus sign. -/
def arrayBound (bound : Nat) : Parser Int := do
  let token ← current
  match ← anyExpression bound with
  | .literal _ (.int n) => return n
  | .unary _ .neg (.literal _ (.int n)) => return -n
  | _ => rejectAt token .boundNotLiteral

/-- The bounds of one dimension. -/
def dimension (bound : Nat) : Parser (Int × Int) := do
  let lower ← arrayBound bound
  let _ ← expect (.symbol .colon) .colonInBounds
  let upper ← arrayBound bound
  return (lower, upper)

/-- One statement for each name of a DECLARE. -/
def declareForms (bound : Nat) : Parser (List Form) := do
  let _ ← expectKeyword .declareKw
  let first ← expect .identifier .nameAfterDeclare
  let more ← moreItems (expect .identifier .nameAfterComma) bound
  let names := (first :: more).map Token.text
  let _ ← expect (.symbol .colon) .colonInDeclare
  if ← accept (.keyword .arrayKw) then
    let _ ← expect (.symbol .lbracket) .bracketAfterArray
    let bounds ← items (dimension bound) bound
    let _ ← expect (.symbol .rbracket) .bracketAfterBounds
    let _ ← expect (.keyword .ofKw) .ofAfterBounds
    let element ← typeName
    return names.map fun name => .declare name element (.array bounds)
  else
    let type ← typeName
    return names.map fun name => .declare name type .scalar

/-- Constants are not part of the language. -/
def constantForm : Parser Form :=
  reject .constantUnsupported

/-- A variable or an array element that receives a value. -/
def target (bound : Nat) : Parser Target := do
  let name ← expect .identifier .variableName
  if ← accept (.symbol .lbracket) then
    return .element name.line name.text (← indexList (anyExpression bound) bound)
  else return .var name.line name.text

def assignForm (bound : Nat) : Parser Form := do
  let receiver ← target bound
  let _ ← expect (.symbol .assign) (.arrowAfter receiver.name)
  return .assign receiver (← anyExpression bound)

def inputForm (bound : Nat) : Parser Form := do
  let _ ← expectKeyword .inputKw
  return .input (← target bound)

def outputForm (bound : Nat) : Parser Form := do
  let _ ← expectKeyword .outputKw
  return .output (← items (anyExpression bound) bound)

def callForm (bound : Nat) : Parser Form := do
  let _ ← expectKeyword .callKw
  let name ← expect .identifier .procedureNameAfterCall
  if ← accept (.symbol .lparen) then
    return .call name.text (← argumentList (anyExpression bound) bound)
  else return .call name.text []

def returnForm (bound : Nat) : Parser Form := do
  let _ ← expectKeyword .returnKw
  return .returnValue (← anyExpression bound)

def fileOpenForm (bound : Nat) : Parser Form := do
  let _ ← expectKeyword .openFileKw
  let name ← anyExpression bound
  let _ ← expect (.keyword .forKw) .forAfterFileName
  match (← current).kind with
  | .keyword .readKw =>
    let _ ← advance
    return .fileOpen name "READ"
  | .keyword .writeKw =>
    let _ ← advance
    return .fileOpen name "WRITE"
  | .keyword .appendKw =>
    let _ ← advance
    return .fileOpen name "APPEND"
  | _ => reject .fileMode

def fileCloseForm (bound : Nat) : Parser Form := do
  let _ ← expectKeyword .closeFileKw
  return .fileClose (← anyExpression bound)

def fileReadForm (bound : Nat) : Parser Form := do
  let _ ← expectKeyword .readFileKw
  let name ← anyExpression bound
  let _ ← expect (.symbol .comma) .commaAfterReadName
  return .fileRead name (← target bound)

def fileWriteForm (bound : Nat) : Parser Form := do
  let _ ← expectKeyword .writeFileKw
  let name ← anyExpression bound
  let _ ← expect (.symbol .comma) .commaAfterWriteName
  return .fileWrite name (← anyExpression bound)

/-! ## Control flow -/

/-- The condition of an IF or ELSE IF, up to its THEN. -/
def conditionThen (bound : Nat) : Parser Expr := do
  let condition ← anyExpression bound
  skipNewlines
  let _ ← expect (.keyword .thenKw) .thenAfterIf
  return condition

/-- A branch of an IF ends before ELSE or ENDIF. -/
def ifStops : List TokenKind :=
  [.keyword .elseKw, .keyword .endIfKw]

/-- Any number of ELSE IF branches. -/
def elseIfs (stmt : Parser Block) (bound : Nat) : Nat → Parser (List Arm)
  | 0 => throw .exhausted
  | n + 1 => do
    if (← check [.keyword .elseKw]) && (← get).ahead.kind = .keyword .ifKw then
      let _ ← advance
      let _ ← advance
      let condition ← conditionThen bound
      let body ← block stmt ifStops bound
      let rest ← elseIfs stmt bound n
      return .mk condition body :: rest
    else return []

def ifForm (stmt : Parser Block) (bound : Nat) : Parser Form := do
  let _ ← expectKeyword .ifKw
  let condition ← conditionThen bound
  let body ← block stmt ifStops bound
  let arms ← elseIfs stmt bound bound
  let otherwise ←
    if ← accept (.keyword .elseKw) then
      let body ← block stmt [.keyword .endIfKw] bound
      pure (some body)
    else pure none
  let _ ← expect (.keyword .endIfKw) .endIf
  return .ifThen condition body arms otherwise

def whileForm (stmt : Parser Block) (bound : Nat) : Parser Form := do
  let _ ← expectKeyword .whileKw
  let condition ← anyExpression bound
  skipNewlines
  let _ ← expect (.keyword .doKw) .doAfterWhile
  let body ← block stmt [.keyword .endWhileKw] bound
  let _ ← expect (.keyword .endWhileKw) .endWhile
  return .whileDo condition body

def repeatForm (stmt : Parser Block) (bound : Nat) : Parser Form := do
  let _ ← expectKeyword .repeatKw
  let body ← block stmt [.keyword .untilKw] bound
  let _ ← expect (.keyword .untilKw) .untilAfterRepeat
  return .repeatUntil body (← anyExpression bound)

/-- The name after NEXT may be left out, but must be that of the loop variable. -/
def nextName (loopVariable : String) : Parser Unit := do
  if ← check [.identifier] then
    let token ← advance
    if token.text = loopVariable then return ()
    else rejectAt token (.nextMismatch token.text loopVariable)
  else return ()

def forForm (stmt : Parser Block) (bound : Nat) : Parser Form := do
  let token ← expectKeyword .forKw
  let name ← expect .identifier .loopVariable
  let _ ← expect (.symbol .assign) .arrowInFor
  let start ← anyExpression bound
  let _ ← expect (.keyword .toKw) .toInFor
  let stop ← anyExpression bound
  let step ←
    if ← accept (.keyword .stepKw) then anyExpression bound
    else pure (.literal token.line (.int 1))
  let body ← block stmt [.keyword .nextKw] bound
  let _ ← expect (.keyword .nextKw) .nextAfterFor
  nextName name.text
  return .forTo name.text start stop step body

/-- Whether a negative number starts here: a minus sign and a number. -/
def atNegativeStart : Parser Bool := do
  let c ← get
  return c.current.kind = .symbol .minus && c.ahead.kind = .number

/-- Whether a CASE label starts here: a number, string or truth value, or a negative number. -/
def atLabelStart : Parser Bool := do
  if ← check [.number, .string, .boolean] then return true else atNegativeStart

/-- Whether a CASE branch ends here: at ENDCASE, at OTHERWISE or at the next label. -/
def atBranchEnd : Parser Bool := do
  if ← check [.keyword .endCaseKw, .keyword .otherwiseKw] then return true else atLabelStart

/-- The statements of a CASE branch: up to its end or the end of the input. -/
def branchBlock (stmt : Parser Block) : Nat → Parser Block
  | 0 => throw .exhausted
  | n + 1 => do
    skipNewlines
    if (← check [.eof]) || (← atBranchEnd) then return []
    else
      let first ← stmt
      let rest ← branchBlock stmt n
      return first ++ rest

/-- A CASE label with its statements. -/
def caseBranch (stmt : Parser Block) (bound : Nat) : Parser Branch := do
  let token ← current
  let low ← anyExpression bound
  let label ←
    if ← accept (.keyword .toKw) then
      let high ← anyExpression bound
      pure (.range token.line low high)
    else pure (.value low)
  let _ ← expect (.symbol .colon) .colonAfterLabel
  return .mk label (← branchBlock stmt bound)

/-- The branches of a CASE and the block after OTHERWISE. -/
def caseBranches (stmt : Parser Block) (bound : Nat) :
    Nat → Parser (List Branch × Option Block)
  | 0 => throw .exhausted
  | n + 1 => do
    skipNewlines
    if ← check [.keyword .endCaseKw, .eof] then return ([], none)
    else if ← accept (.keyword .otherwiseKw) then
      let _ ← expect (.symbol .colon) .colonAfterOtherwise
      let body ← block stmt [.keyword .endCaseKw] bound
      return ([], some body)
    else
      let branch ← caseBranch stmt bound
      let (rest, otherwise) ← caseBranches stmt bound n
      return (branch :: rest, otherwise)

def caseForm (stmt : Parser Block) (bound : Nat) : Parser Form := do
  let _ ← expectKeyword .caseKw
  let _ ← expect (.keyword .ofKw) .ofAfterCase
  let selector ← anyExpression bound
  let (branches, otherwise) ← caseBranches stmt bound bound
  let _ ← expect (.keyword .endCaseKw) .endCase
  return .caseOf selector branches otherwise

/-! ## Procedures and functions -/

/-- A parameter with its way of passing and its type. -/
def param : Parser Param := do
  let mode ←
    if ← accept (.keyword .byRefKw) then pure PassMode.byRef
    else
      let _ ← accept (.keyword .byValKw)
      pure PassMode.byVal
  let name := (← expect .identifier .paramName).text
  let _ ← expect (.symbol .colon) (.colonAfterParam name)
  if ← accept (.keyword .arrayKw) then
    let _ ← expect (.keyword .ofKw) (.ofAfterArrayParam name)
    let element ← typeName
    return ⟨name, "ARRAY", mode, some element⟩
  else return ⟨name, ← typeName, mode, none⟩

/-- A parameter list in parentheses, which may be left out. -/
def optionalParams (bound : Nat) : Parser (List Param) := do
  if ← accept (.symbol .lparen) then
    let params ← if ← check [.symbol .rparen] then pure [] else items param bound
    let _ ← expect (.symbol .rparen) .parenAfterParams
    return params
  else return []

def procedureForm (stmt : Parser Block) (bound : Nat) : Parser Form := do
  let _ ← expectKeyword .procedureKw
  let name := (← expect .identifier .procedureName).text
  let params ← optionalParams bound
  let body ← block stmt [.keyword .endProcedureKw] bound
  let _ ← expect (.keyword .endProcedureKw) .endProcedure
  return .procedure name params body

def functionForm (stmt : Parser Block) (bound : Nat) : Parser Form := do
  let _ ← expectKeyword .functionKw
  let name := (← expect .identifier .functionName).text
  let params ← optionalParams bound
  let _ ← expect (.keyword .returnsKw) .returnsInFunction
  let returns ← typeName
  let body ← block stmt [.keyword .endFunctionKw] bound
  let _ ← expect (.keyword .endFunctionKw) .endFunction
  return .function name params returns body

/-! ## All statements -/

/-- The forms that the statement at the current token stands for. -/
def forms (stmt : Parser Block) (bound : Nat) : Parser (List Form) := do
  let one (form : Parser Form) : Parser (List Form) := do return [← form]
  let token ← current
  match token.kind with
  | .keyword .declareKw => declareForms bound
  | .keyword .constantKw => one constantForm
  | .keyword .inputKw => one (inputForm bound)
  | .keyword .outputKw => one (outputForm bound)
  | .keyword .ifKw => one (ifForm stmt bound)
  | .keyword .caseKw => one (caseForm stmt bound)
  | .keyword .whileKw => one (whileForm stmt bound)
  | .keyword .repeatKw => one (repeatForm stmt bound)
  | .keyword .forKw => one (forForm stmt bound)
  | .keyword .procedureKw => one (procedureForm stmt bound)
  | .keyword .functionKw => one (functionForm stmt bound)
  | .keyword .callKw => one (callForm bound)
  | .keyword .returnKw => one (returnForm bound)
  | .keyword .openFileKw => one (fileOpenForm bound)
  | .keyword .closeFileKw => one (fileCloseForm bound)
  | .keyword .readFileKw => one (fileReadForm bound)
  | .keyword .writeFileKw => one (fileWriteForm bound)
  | .identifier => one (assignForm bound)
  | _ => reject (.unexpected token.describe)

/-- The statements that stand at the current token: one, or one for each name of a DECLARE. -/
def statement : Nat → Parser Block
  | 0 => throw .exhausted
  | n + 1 => do
    let line := (← current).line
    return (← forms (statement n) n).map (Stmt.mk line)

/-- A whole program. -/
def program (bound : Nat) : Parser Block :=
  block (statement bound) [] bound

/-- A number of steps that suffices for a token list that ends in `eof`. -/
def stepBound (tokens : List Token) : Nat :=
  tokens.length + 2

end Pseudocode.Parse

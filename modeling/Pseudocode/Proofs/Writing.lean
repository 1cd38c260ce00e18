import Pseudocode.Parse
import Pseudocode.Proofs.Numerals

/-!
# Writing programs

A program is written as lexemes: one statement to a line, every word in upper case that is a
keyword, an ELSE and each header at the end of a line, every STEP, every parameter's way of passing
and the name after NEXT spelled out. Parentheses stand only where precedence calls for them: around
an operand whose operator binds too loosely for its place, and around a NOT that would otherwise
take in what follows it. On a line the lexemes are separated by single blanks.

How reals are spelled and which quotes stand around a text is left to a `Spelling`, a record that
says only that the spelling can be read. `Spelling.exact` writes reals as their decimal expansions.

Two programs are the same but for their lines when `Block.unlined` makes them equal.
-/

namespace Pseudocode

/-! ## Lexemes -/

/-- A token without its place, and the text that it is written as. -/
structure Lexeme where
  text : List Char
  kind : TokenKind
  value : Value
  deriving DecidableEq

/-- The text of a symbol. -/
def Symbol.text : Symbol → String
  | assign => "<-" | ne => "<>" | le => "<=" | ge => ">=" | eq => "=" | lt => "<" | gt => ">"
  | plus => "+" | minus => "-" | multiply => "*" | divide => "/" | power => "^" | amper => "&"
  | lparen => "(" | rparen => ")" | lbracket => "[" | rbracket => "]" | colon => ":" | comma => ","

namespace Lexeme

/-- A word: a name, a keyword or a truth value. -/
def word (w : String) : Lexeme :=
  ⟨w.toList, (wordToken w {}).kind, (wordToken w {}).value⟩

def keyword (k : Keyword) : Lexeme :=
  word k.word

def symbol (s : Symbol) : Lexeme :=
  ⟨s.text.toList, .symbol s, .text s.text⟩

def number (numeral : List Char) : Lexeme :=
  ⟨numeral, .number, .text (String.ofList numeral)⟩

def quoted (quote : Char) (s : String) : Lexeme :=
  ⟨quote :: (s.toList ++ [quote]), .string, .text s⟩

def lineEnd : Lexeme :=
  ⟨['\n'], .newline, .text "\n"⟩

end Lexeme

/-- The text of lexemes: blanks separate those of one line. -/
def layout : List Lexeme → List Char
  | [] => []
  | [x] => x.text
  | x :: y :: rest =>
    x.text ++ (if x.kind = .newline ∨ y.kind = .newline then [] else [' ']) ++ layout (y :: rest)

/-! ## Spellings -/

/-- The texts that a program can hold: on one line, and without one of the two quotes. -/
def IsQuotable (s : String) : Prop :=
  '\n' ∉ s.toList ∧ ('"' ∉ s.toList ∨ '\'' ∉ s.toList)

/-- How literals are spelled where there is a choice. -/
structure Spelling where
  /-- The numeral of a real. -/
  real : Float → List Char
  /-- The quotes around a text. -/
  quote : String → Char
  real_isDecimal : ∀ x, Number.IsMagnitude x → Number.IsDecimal (real x)
  /-- A numeral is read as the real that it spells. -/
  real_reads : ∀ x, Number.IsMagnitude x → Number.liberalReal? (String.ofList (real x)) = some x
  quote_mem : ∀ s, quote s ∈ ['"', '\'']
  /-- A text does not hold the quotes around it. -/
  quote_fits : ∀ s, IsQuotable s → quote s ∉ s.toList

/-- Reals as their decimal expansions, texts in double quotes where these fit. -/
def Spelling.exact : Spelling where
  real := Number.exactDecimal
  quote s := if '"' ∈ s.toList then '\'' else '"'
  real_isDecimal _ hx := (Number.liberalReal?_exactDecimal hx).1
  real_reads _ hx := (Number.liberalReal?_exactDecimal hx).2
  quote_mem s := by split <;> simp
  quote_fits s hs := by
    split
    · next h => exact hs.2.resolve_left fun hn => hn h
    · next h => exact h

/-- A literal. There is none for an absent value. -/
def Spelling.literal (s : Spelling) : Value → Lexeme
  | .int n => .number (Nat.toDigits 10 n.natAbs)
  | .real x => .number (s.real x)
  | .text t => .quoted (s.quote t) t
  | .bool b => .word (if b then "TRUE" else "FALSE")
  | .absent => .word ""

/-! ## Expressions -/

namespace BinaryOp

/-- The kind of an operator's token; `other` has none. -/
def kind : BinaryOp → TokenKind
  | add => .symbol .plus | sub => .symbol .minus | mul => .symbol .multiply | div => .symbol .divide
  | floorDiv => .keyword .divKw | mod => .keyword .modKw | pow => .symbol .power
  | concat => .symbol .amper | eq => .symbol .eq | ne => .symbol .ne | lt => .symbol .lt
  | gt => .symbol .gt | le => .symbol .le | ge => .symbol .ge | and => .keyword .andKw
  | or => .keyword .orKw | other _ => .eof

def lexeme (op : BinaryOp) : Lexeme :=
  ⟨op.symbol.toList, op.kind, .text op.symbol⟩

/-- How tightly an operator binds. -/
def power (op : BinaryOp) : Int :=
  Parse.bindingPower op.kind

/-- How tightly the operators of a right operand must bind. -/
def rightPower (op : BinaryOp) : Int :=
  Parse.rightPower op.kind

/-- How tightly the operators of a left operand must bind. -/
def leftPower (op : BinaryOp) : Int :=
  if op = pow then op.power + 1 else op.power

end BinaryOp

/-- The power that no binary operator has: what stands behind a minus sign binds as tightly. -/
def tightest : Int := 61

/-- Whether precedence calls for parentheses around an expression, where operators must bind at
least as tightly as `power` and the token after it binds as tightly as `follow`. -/
def needsParens (power follow : Int) : Expr → Bool
  | .binary _ _ op _ => op.power < power
  | .unary _ .not _ => tightest ≤ power || Parse.notPower ≤ follow
  | _ => false

/-- A rule for parentheses: given the place of an expression, whether they stand around it. -/
abbrev ParenRule := Int → Int → Expr → Bool

/-- What stands in a place, in parentheses or not. `content` depends on how tightly the token after
it binds. -/
def placed (inside : Bool) (follow : Int) (content : Int → List Lexeme) : List Lexeme :=
  if inside then .symbol .lparen :: (content (-1) ++ [.symbol .rparen]) else content follow

section Expressions

variable (s : Spelling) (parens : ParenRule)

mutual
/-- An expression without parentheses around it; the token after it binds as tightly as `follow`. -/
def Expr.bare (follow : Int) : Expr → List Lexeme
  | .literal _ v => [s.literal v]
  | .var _ x => [.word x]
  | .element _ a indices => .word a :: .symbol .lbracket ::
    (writeExprs indices ++ [.symbol .rbracket])
  | .call _ f arguments => .word f :: .symbol .lparen :: (writeExprs arguments ++ [.symbol .rparen])
  | .binary _ l op r =>
    placed (parens op.leftPower op.power l) op.power (fun f => l.bare f) ++
      op.lexeme :: placed (parens op.rightPower follow r) follow (fun f => r.bare f)
  | .unary _ .not e =>
    .keyword .notKw :: placed (parens Parse.notPower follow e) follow (fun f => e.bare f)
  | .unary _ _ e => .symbol .minus :: placed (parens tightest follow e) follow (fun f => e.bare f)
  | .inert _ kind => [.word kind]

/-- Expressions separated by commas. -/
def writeExprs : List Expr → List Lexeme
  | [] => []
  | e :: rest => placed (parens 0 (-1) e) (-1) (fun f => e.bare f) ++ writeMoreExprs rest

/-- Expressions with a comma in front of each. -/
def writeMoreExprs : List Expr → List Lexeme
  | [] => []
  | e :: rest =>
    .symbol .comma :: (placed (parens 0 (-1) e) (-1) (fun f => e.bare f) ++ writeMoreExprs rest)
end

/-- An expression in its place: its operators must bind at least as tightly as `power`, unless it
stands in parentheses. -/
def Expr.write (power follow : Int) (e : Expr) : List Lexeme :=
  placed (parens power follow e) follow (fun f => e.bare s parens f)

end Expressions

/-! ## Statements -/

section Statements

variable (s : Spelling)

/-- A whole expression. -/
def Spelling.expr (e : Expr) : List Lexeme :=
  e.write s needsParens 0 (-1)

/-- Whole expressions separated by commas. -/
def Spelling.exprs (es : List Expr) : List Lexeme :=
  writeExprs s needsParens es

def Target.write : Target → List Lexeme
  | .var _ x => [.word x]
  | .element _ a indices => .word a :: .symbol .lbracket :: (s.exprs indices ++ [.symbol .rbracket])
  | .improper _ => []

def CaseLabel.write : CaseLabel → List Lexeme
  | .value e => s.expr e
  | .range _ low high => s.expr low ++ .keyword .toKw :: s.expr high

/-- An array bound. -/
def writeBound (n : Int) : List Lexeme :=
  if n < 0 then [.symbol .minus, s.literal (.int (-n))] else [s.literal (.int n)]

def writeDimension (d : Int × Int) : List Lexeme :=
  writeBound s d.1 ++ .symbol .colon :: writeBound s d.2

/-- Items separated by commas. -/
def writeItems {α : Type} (write : α → List Lexeme) : List α → List Lexeme
  | [] => []
  | x :: rest => write x ++ rest.flatMap fun y => .symbol .comma :: write y

/-- The type that a DECLARE names. -/
def Shape.write (typeName : String) : Shape → List Lexeme
  | .array bounds =>
    .keyword .arrayKw :: .symbol .lbracket :: (writeItems (writeDimension s) bounds ++
      [.symbol .rbracket, .keyword .ofKw, .word typeName])
  | _ => [.word typeName]

def Param.write (p : Param) : List Lexeme :=
  .keyword (if p.mode = .byRef then .byRefKw else .byValKw) :: .word p.name :: .symbol .colon ::
    match p.element with
    | some element => [.keyword .arrayKw, .keyword .ofKw, .word element]
    | none => [.word p.typeName]

def writeParams (ps : List Param) : List Lexeme :=
  .symbol .lparen :: (writeItems Param.write ps ++ [.symbol .rparen])

mutual
/-- A statement, up to the end of its last line. -/
def Stmt.write : Stmt → List Lexeme
  | .mk _ form => form.write

/-- A form of statement, up to the end of its last line. -/
def Form.write : Form → List Lexeme
  | .declare name typeName shape =>
    .keyword .declareKw :: .word name :: .symbol .colon :: shape.write s typeName
  | .assign target e => target.write s ++ .symbol .assign :: s.expr e
  | .output es => .keyword .outputKw :: s.exprs es
  | .input target => .keyword .inputKw :: target.write s
  | .ifThen condition body arms otherwise =>
    .keyword .ifKw :: (s.expr condition ++ .keyword .thenKw :: .lineEnd :: (writeBlock body ++
      (writeArms arms ++ (writeElse otherwise ++ [.keyword .endIfKw]))))
  | .whileDo condition body =>
    .keyword .whileKw :: (s.expr condition ++ .keyword .doKw :: .lineEnd :: (writeBlock body ++
      [.keyword .endWhileKw]))
  | .repeatUntil body condition =>
    .keyword .repeatKw :: .lineEnd :: (writeBlock body ++ .keyword .untilKw :: s.expr condition)
  | .forTo name start stop step body =>
    .keyword .forKw :: .word name :: .symbol .assign :: (s.expr start ++ .keyword .toKw ::
      (s.expr stop ++ .keyword .stepKw :: (s.expr step ++ .lineEnd :: (writeBlock body ++
        [.keyword .nextKw, .word name]))))
  | .caseOf selector branches otherwise =>
    .keyword .caseKw :: .keyword .ofKw :: (s.expr selector ++ .lineEnd :: (writeBranches branches ++
      (writeOtherwise otherwise ++ [.keyword .endCaseKw])))
  | .procedure name params body =>
    .keyword .procedureKw :: .word name :: (writeParams params ++ .lineEnd :: (writeBlock body ++
      [.keyword .endProcedureKw]))
  | .function name params returns body =>
    .keyword .functionKw :: .word name :: (writeParams params ++ .keyword .returnsKw ::
      .word returns :: .lineEnd :: (writeBlock body ++ [.keyword .endFunctionKw]))
  | .call name arguments =>
    .keyword .callKw :: .word name :: .symbol .lparen :: (s.exprs arguments ++ [.symbol .rparen])
  | .returnValue e => .keyword .returnKw :: s.expr e
  | .fileOpen name mode => .keyword .openFileKw :: (s.expr name ++ [.keyword .forKw, .word mode])
  | .fileClose name => .keyword .closeFileKw :: s.expr name
  | .fileRead name target =>
    .keyword .readFileKw :: (s.expr name ++ .symbol .comma :: target.write s)
  | .fileWrite name data =>
    .keyword .writeFileKw :: (s.expr name ++ .symbol .comma :: s.expr data)
  | .inert kind => [.word kind]

/-- The lines of a block. -/
def writeBlock : List Stmt → List Lexeme
  | [] => []
  | stmt :: rest => stmt.write ++ .lineEnd :: writeBlock rest

/-- The lines of ELSE IF branches. -/
def writeArms : List Arm → List Lexeme
  | [] => []
  | arm :: rest => arm.write ++ writeArms rest

def Arm.write : Arm → List Lexeme
  | .mk condition body =>
    .keyword .elseKw :: .keyword .ifKw :: (s.expr condition ++ .keyword .thenKw :: .lineEnd ::
      writeBlock body)

/-- The lines of an ELSE. -/
def writeElse : Option (List Stmt) → List Lexeme
  | none => []
  | some body => .keyword .elseKw :: .lineEnd :: writeBlock body

/-- The lines of CASE branches. -/
def writeBranches : List Branch → List Lexeme
  | [] => []
  | branch :: rest => branch.write ++ writeBranches rest

def Branch.write : Branch → List Lexeme
  | .mk label body => label.write s ++ .symbol .colon :: .lineEnd :: writeBlock body

/-- The lines of an OTHERWISE. -/
def writeOtherwise : Option (List Stmt) → List Lexeme
  | none => []
  | some body => .keyword .otherwiseKw :: .symbol .colon :: .lineEnd :: writeBlock body
end

/-- The source text of a program. -/
def Spelling.source (program : Block) : String :=
  String.ofList (layout (writeBlock s program))

end Statements

/-! ## Programs up to their lines -/

mutual
/-- An expression without its lines. -/
def Expr.unlined : Expr → Expr
  | .literal _ v => .literal 0 v
  | .var _ x => .var 0 x
  | .element _ a indices => .element 0 a (exprsUnlined indices)
  | .binary _ l op r => .binary 0 l.unlined op r.unlined
  | .unary _ op e => .unary 0 op e.unlined
  | .call _ f arguments => .call 0 f (exprsUnlined arguments)
  | .inert _ kind => .inert 0 kind

def exprsUnlined : List Expr → List Expr
  | [] => []
  | e :: rest => e.unlined :: exprsUnlined rest
end

def Target.unlined : Target → Target
  | .var _ x => .var 0 x
  | .element _ a indices => .element 0 a (exprsUnlined indices)
  | .improper _ => .improper 0

def CaseLabel.unlined : CaseLabel → CaseLabel
  | .value e => .value e.unlined
  | .range _ low high => .range 0 low.unlined high.unlined

mutual
/-- A statement without its lines. -/
def Stmt.unlined : Stmt → Stmt
  | .mk _ form => .mk 0 form.unlined

def Form.unlined : Form → Form
  | .declare name typeName shape => .declare name typeName shape
  | .assign target e => .assign target.unlined e.unlined
  | .output es => .output (exprsUnlined es)
  | .input target => .input target.unlined
  | .ifThen condition body arms otherwise =>
    .ifThen condition.unlined (Block.unlined body) (armsUnlined arms) (optionUnlined otherwise)
  | .whileDo condition body => .whileDo condition.unlined (Block.unlined body)
  | .repeatUntil body condition => .repeatUntil (Block.unlined body) condition.unlined
  | .forTo name start stop step body =>
    .forTo name start.unlined stop.unlined step.unlined (Block.unlined body)
  | .caseOf selector branches otherwise =>
    .caseOf selector.unlined (branchesUnlined branches) (optionUnlined otherwise)
  | .procedure name params body => .procedure name params (Block.unlined body)
  | .function name params returns body => .function name params returns (Block.unlined body)
  | .call name arguments => .call name (exprsUnlined arguments)
  | .returnValue e => .returnValue e.unlined
  | .fileOpen name mode => .fileOpen name.unlined mode
  | .fileClose name => .fileClose name.unlined
  | .fileRead name target => .fileRead name.unlined target.unlined
  | .fileWrite name data => .fileWrite name.unlined data.unlined
  | .inert kind => .inert kind

/-- A block without its lines. -/
def Block.unlined : List Stmt → List Stmt
  | [] => []
  | stmt :: rest => stmt.unlined :: Block.unlined rest

def optionUnlined : Option (List Stmt) → Option (List Stmt)
  | none => none
  | some body => some (Block.unlined body)

def armsUnlined : List Arm → List Arm
  | [] => []
  | arm :: rest => arm.unlined :: armsUnlined rest

def Arm.unlined : Arm → Arm
  | .mk condition body => .mk condition.unlined (Block.unlined body)

def branchesUnlined : List Branch → List Branch
  | [] => []
  | branch :: rest => branch.unlined :: branchesUnlined rest

def Branch.unlined : Branch → Branch
  | .mk label body => .mk label.unlined (Block.unlined body)
end

-- Every rule for a form of statement pushes `unlined` to its parts. Tagged here, its equations are
-- there before they are asked for by all those rules at once.
attribute [simp] Form.unlined

end Pseudocode

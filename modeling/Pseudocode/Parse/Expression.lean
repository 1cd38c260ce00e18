import Pseudocode.Parse.Cursor
import Pseudocode.Tree

/-!
# Parsing expressions

Binary operators are read by precedence climbing: `expression n p` reads an operand and then every
operator that binds at least as tightly as `p`, together with its right operand. Only `^` associates
to the right. `NOT` stands between `AND` and the comparisons, and a minus sign in front binds
tighter than any binary operator.

The first argument bounds the number of steps. Each rule takes the parser for the expressions inside
it as a parameter, so that the rules can be read one by one; `expression` closes the circle.
-/

namespace Pseudocode.Parse

open Pseudocode.Parser

/-- How tightly a token binds as a binary operator; -1 for any other token. -/
def bindingPower : TokenKind → Int
  | .keyword .orKw => 10
  | .keyword .andKw => 20
  | .symbol .eq | .symbol .ne | .symbol .lt | .symbol .gt | .symbol .le | .symbol .ge => 30
  | .symbol .plus | .symbol .minus | .symbol .amper => 40
  | .symbol .multiply | .symbol .divide | .keyword .divKw | .keyword .modKw => 50
  | .symbol .power => 60
  | _ => -1

/-- How tightly the operand of `NOT` is read. -/
def notPower : Int := 25

/-- How tightly the right operand of an operator is read. -/
def rightPower (kind : TokenKind) : Int :=
  if kind = .symbol .power then bindingPower kind else bindingPower kind + 1

/-- The literal of a number token: a real exactly when its text has a point. -/
def numberLiteral (token : Token) : Parser Expr :=
  match token.value with
  | .text s =>
    let value := if s.toList.contains '.' then (Number.liberalReal? s).map Value.real
      else (Number.liberalWhole? s).map Value.int
    match value with
    | some v => return .literal token.line v
    | none => throw .unreadableNumber
  | _ => throw .numberWithoutText

/-- Indices up to the closing bracket; the opening one has been read. -/
def indexList (expr : Parser Expr) (bound : Nat) : Parser (List Expr) := do
  let indices ← items expr bound
  let _ ← expect (.symbol .rbracket) .bracketAfterIndex
  return indices

/-- Arguments up to the closing parenthesis; the opening one has been read. -/
def argumentList (expr : Parser Expr) (bound : Nat) : Parser (List Expr) := do
  let arguments ← if ← check [.symbol .rparen] then pure [] else items expr bound
  let _ ← expect (.symbol .rparen) .parenAfterArguments
  return arguments

/-- The type names that are conversion functions when a parenthesis follows. -/
def conversionWords : List TokenKind :=
  [.keyword .intKw, .keyword .realKw, .keyword .stringKw]

/-- A literal, a variable, an array element, a call, or an expression in parentheses. -/
def primary (expr : Parser Expr) (bound : Nat) : Parser Expr := do
  let token ← current
  match token.kind with
  | .symbol .lparen =>
    let _ ← advance
    let inner ← expr
    let _ ← expect (.symbol .rparen) .closingParen
    return inner
  | .number =>
    let _ ← advance
    numberLiteral token
  | .string | .boolean =>
    let _ ← advance
    return .literal token.line token.value
  | .identifier =>
    let _ ← advance
    if ← accept (.symbol .lbracket) then
      return .element token.line token.text (← indexList expr bound)
    else if ← accept (.symbol .lparen) then
      return .call token.line token.text (← argumentList expr bound)
    else return .var token.line token.text
  | kind =>
    if conversionWords.contains kind && (← get).ahead.kind = .symbol .lparen then
      let _ ← advance
      let _ ← advance
      return .call token.line token.text (← argumentList expr bound)
    else reject (.unexpectedInExpression token.describe)

/-- Any number of minus signs and a primary expression. -/
def unary (expr : Parser Expr) (bound : Nat) : Nat → Parser Expr
  | 0 => throw .exhausted
  | n + 1 => do
    if ← check [.symbol .minus] then
      let token ← advance
      return .unary token.line .neg (← unary expr bound n)
    else primary expr bound

/-- What stands before the first binary operator: `NOT` and its operand, or a unary expression. -/
def operand (expr : Int → Parser Expr) (bound : Nat) : Parser Expr := do
  if ← check [.keyword .notKw] then
    let token ← advance
    return .unary token.line .not (← expr notPower)
  else unary (expr 0) bound bound

/-- Reads operators that bind at least as tightly as `power`, with their right operands, onto
`left`. -/
def climb (expr : Int → Parser Expr) (power : Int) : Nat → Expr → Parser Expr
  | 0, _ => throw .exhausted
  | n + 1, left => do
    let token ← current
    if bindingPower token.kind < power then return left
    else
      let _ ← advance
      let right ← expr (rightPower token.kind)
      climb expr power n (.binary token.line left (BinaryOp.ofSymbol token.text) right)

/-- An expression whose operators bind at least as tightly as the given power, in a bounded number
of steps. -/
def expression : Nat → Int → Parser Expr
  | 0, _ => throw .exhausted
  | n + 1, power => do
    let left ← operand (expression n) n
    climb (expression n) power n left

end Pseudocode.Parse

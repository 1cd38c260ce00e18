import Pseudocode.Parse
import Mathlib.Logic.Basic

/-!
# The rules of the parser, part by part

Some rules choose in their middle how to go on. Here the choices are parsers of their own, and the
rules are equal to compositions of them. Both loops that read statements are one loop with a test
for its end.

Results: `param_eq`, `optionalParams_eq`, `ifForm_eq`, `forForm_eq`, `caseBranch_eq`, `block_eq`,
`branchBlock_eq`.
-/

theorem Pseudocode.Cursor.ahead_eq (c : Pseudocode.Cursor) : c.ahead = c.advance.current := by
  unfold Cursor.ahead Cursor.advance
  cases c.rest <;> rfl

namespace Pseudocode.Parser

/-! ## Single steps -/

variable {α β : Type}

theorem bind_ok {p : Parser α} {f : α → Parser β} {c c' : Cursor} {a : α} (h : p c = .ok a c') :
    (p >>= f) c = f a c' := by
  change EStateM.bind p f c = f a c'
  unfold EStateM.bind
  rw [h]

theorem current_ok (c : Cursor) : Parser.current c = .ok c.current c := rfl

theorem get_ok (c : Cursor) : (get : Parser Cursor) c = .ok c c := rfl

theorem skipNewlines_ok (c : Cursor) : Parser.skipNewlines c = .ok () c.skipNewlines := rfl

theorem check_ok (kinds : List TokenKind) (c : Cursor) :
    Parser.check kinds c = .ok (kinds.contains c.current.kind) c := rfl

theorem advance_ok (c : Cursor) : Parser.advance c = .ok c.current c.advance := rfl

theorem expect_ok {kind : TokenKind} {c : Cursor} (h : c.current.kind = kind)
    (cause : SyntaxCause) : Parser.expect kind cause c = .ok c.current c.advance := by
  unfold Parser.expect
  rw [bind_ok (current_ok c), if_pos h]
  rfl

theorem expectKeyword_ok {k : Keyword} {c : Cursor} (h : c.current.kind = .keyword k) :
    Parser.expectKeyword k c = .ok c.current c.advance := by
  unfold Parser.expectKeyword
  rw [bind_ok (current_ok c), expect_ok h]

theorem accept_ok {kind : TokenKind} {c : Cursor} (h : c.current.kind = kind) :
    Parser.accept kind c = .ok true c.advance := by
  unfold Parser.accept
  rw [bind_ok (current_ok c), if_pos h]
  rfl

theorem accept_other {kind : TokenKind} {c : Cursor} (h : c.current.kind ≠ kind) :
    Parser.accept kind c = .ok false c := by
  unfold Parser.accept
  rw [bind_ok (current_ok c), if_neg h]
  rfl

theorem ite_bind (b : Prop) [Decidable b] (p q : Parser α) (f : α → Parser β) :
    (if b then p else q) >>= f = if b then p >>= f else q >>= f := by
  split <;> rfl

end Pseudocode.Parser

namespace Pseudocode

/-- The number that a number token stands for: a real if its text has a point. -/
def numeralValue? (s : String) : Option Value :=
  if s.toList.contains '.' then (Number.liberalReal? s).map Value.real
  else (Number.liberalWhole? s).map Value.int

theorem numberLiteral_ok {t : Token} {s : String} {v : Value} (hvalue : t.value = .text s)
    (h : numeralValue? s = some v) (c : Cursor) :
    Parse.numberLiteral t c = .ok (.literal t.line v) c := by
  unfold numeralValue? at h
  simp only [Parse.numberLiteral, hvalue, h]
  rfl

/-- A source is parsed if something is known of the program. -/
theorem exists_of_parseSource {α : Type} {source : String} {f : Block → α} {x : α}
    (h : (parseSource source).toOption.map f = some x) :
    ∃ program, parseSource source = .ok program ∧ f program = x := by
  cases hp : parseSource source with
  | error failure =>
    rw [hp] at h
    cases h
  | ok program =>
    rw [hp] at h
    exact ⟨program, rfl, Option.some.inj h⟩

end Pseudocode

namespace Pseudocode.Parse

open Pseudocode.Parser

/-- The way of passing in front of a parameter. -/
def passMode : Parser PassMode := do
  if ← accept (.keyword .byRefKw) then return .byRef
  else
    let _ ← accept (.keyword .byValKw)
    return .byVal

/-- A parameter behind its way of passing. -/
def typedParam (mode : PassMode) : Parser Param := do
  let name := (← expect .identifier .paramName).text
  let _ ← expect (.symbol .colon) (.colonAfterParam name)
  if ← accept (.keyword .arrayKw) then
    let _ ← expect (.keyword .ofKw) (.ofAfterArrayParam name)
    return ⟨name, "ARRAY", mode, some (← typeName)⟩
  else return ⟨name, ← typeName, mode, none⟩

theorem param_eq : param = passMode >>= typedParam := by
  unfold param passMode typedParam
  simp only [bind_assoc, pure_bind, ite_bind]

/-- The parameters between the parentheses. -/
def paramList (bound : Nat) : Parser (List Param) := do
  if ← check [.symbol .rparen] then return [] else items param bound

theorem optionalParams_eq (bound : Nat) : optionalParams bound = do
    if ← accept (.symbol .lparen) then
      let params ← paramList bound
      let _ ← expect (.symbol .rparen) .parenAfterParams
      return params
    else return [] := by
  unfold optionalParams paramList
  simp only [bind_assoc, pure_bind, ite_bind]

/-- The statements behind an ELSE, if there is one. -/
def elsePart (stmt : Parser Block) (bound : Nat) : Parser (Option Block) := do
  if ← accept (.keyword .elseKw) then return some (← block stmt [.keyword .endIfKw] bound)
  else return none

theorem ifForm_eq (stmt : Parser Block) (bound : Nat) : ifForm stmt bound = do
    let _ ← expectKeyword .ifKw
    let condition ← conditionThen bound
    let body ← block stmt ifStops bound
    let arms ← elseIfs stmt bound bound
    let otherwise ← elsePart stmt bound
    let _ ← expect (.keyword .endIfKw) .endIf
    return .ifThen condition body arms otherwise := by
  unfold ifForm elsePart
  simp only [bind_assoc, pure_bind, ite_bind]

/-- The step of a FOR: one if there is none. -/
def stepPart (line : Int) (bound : Nat) : Parser Expr := do
  if ← accept (.keyword .stepKw) then anyExpression bound else return .literal line (.int 1)

theorem forForm_eq (stmt : Parser Block) (bound : Nat) : forForm stmt bound = do
    let token ← expectKeyword .forKw
    let name ← expect .identifier .loopVariable
    let _ ← expect (.symbol .assign) .arrowInFor
    let start ← anyExpression bound
    let _ ← expect (.keyword .toKw) .toInFor
    let stop ← anyExpression bound
    let step ← stepPart token.line bound
    let body ← block stmt [.keyword .nextKw] bound
    let _ ← expect (.keyword .nextKw) .nextAfterFor
    nextName name.text
    return .forTo name.text start stop step body := by
  unfold forForm stepPart
  simp only [bind_assoc, pure_bind, ite_bind]

/-- The label of a CASE branch. -/
def caseLabel (bound : Nat) : Parser CaseLabel := do
  let token ← current
  let low ← anyExpression bound
  if ← accept (.keyword .toKw) then return .range token.line low (← anyExpression bound)
  else return .value low

theorem caseBranch_eq (stmt : Parser Block) (bound : Nat) : caseBranch stmt bound = do
    let label ← caseLabel bound
    let _ ← expect (.symbol .colon) .colonAfterLabel
    return .mk label (← branchBlock stmt bound) := by
  unfold caseBranch caseLabel
  simp only [bind_assoc, pure_bind, ite_bind]

/-- Statements up to a place where `stop` holds. -/
def blockUntil (stop : Cursor → Bool) (stmt : Parser Block) : Nat → Parser Block
  | 0 => throw .exhausted
  | n + 1 => do
    skipNewlines
    if stop (← get) then return []
    else
      let first ← stmt
      let rest ← blockUntil stop stmt n
      return first ++ rest

/-- Where a block with the given stops ends. -/
def stopsAt (stops : List TokenKind) (c : Cursor) : Bool :=
  (.eof :: stops).contains c.current.kind

theorem block_eq (stmt : Parser Block) (stops : List TokenKind) (n : Nat) :
    block stmt stops n = blockUntil (stopsAt stops) stmt n := by
  induction n with
  | zero => rfl
  | succ n ih =>
    rw [block, blockUntil, ih]
    rfl

/-- Where a CASE label starts. -/
def labelStarts (c : Cursor) : Bool :=
  [.number, .string, .boolean].contains c.current.kind ||
    c.current.kind = .symbol .minus && c.ahead.kind = .number

/-- Where a CASE branch ends. -/
def branchEnds (c : Cursor) : Bool :=
  c.current.kind = .eof || [.keyword .endCaseKw, .keyword .otherwiseKw].contains c.current.kind ||
    labelStarts c

theorem atBranchEnd_ok (c : Cursor) : atBranchEnd c = .ok
    ([.keyword .endCaseKw, .keyword .otherwiseKw].contains c.current.kind || labelStarts c) c := by
  unfold atBranchEnd atLabelStart labelStarts
  rw [bind_ok (check_ok _ c)]
  cases [TokenKind.keyword .endCaseKw, .keyword .otherwiseKw].contains c.current.kind with
  | true => rfl
  | false =>
    rw [if_neg (by decide), bind_ok (check_ok _ c)]
    cases [TokenKind.number, .string, .boolean].contains c.current.kind <;> rfl

theorem branchBlock_eq (stmt : Parser Block) (n : Nat) :
    branchBlock stmt n = blockUntil branchEnds stmt n := by
  induction n with
  | zero => rfl
  | succ n ih =>
    rw [branchBlock, blockUntil, ih]
    funext c
    rw [bind_ok (skipNewlines_ok c), bind_ok (check_ok _ _), bind_ok (atBranchEnd_ok _),
      bind_ok (skipNewlines_ok c), bind_ok (get_ok _)]
    have hends :
        branchEnds c.skipNewlines = ([TokenKind.eof].contains c.skipNewlines.current.kind ||
        ([TokenKind.keyword .endCaseKw,
          .keyword .otherwiseKw].contains c.skipNewlines.current.kind ||
          labelStarts c.skipNewlines)) := by
      rw [branchEnds, Bool.or_assoc]
      congr 1
      simp
    rw [hends]

end Pseudocode.Parse

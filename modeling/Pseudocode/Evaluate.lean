import Pseudocode.Machine
import Pseudocode.Value.Operator

/-!
# Expressions and function bodies

Expressions are evaluated without help from the host: a function called in an expression runs to its
RETURN in one go. A function body may declare and assign variables, branch, loop and return; any
other statement in it is a fault. Both operands of an operator are always evaluated, the left one
first.

Evaluation is bounded: `evaluate n` follows nested expressions, calls, blocks and loop rounds at
most `n` deep and stops with `Halt.exhausted` beyond. The rules are stated for given evaluators of
what is inside; `evaluate` and `runStatement` close the circle.
-/

namespace Pseudocode

/-- What a statement of a function body ends with: the scope after it, and the value of a RETURN. -/
abbrev Outcome := Scope × Option Value

/-- Evaluators for the expressions and function-body statements inside a rule. -/
structure Evaluator where
  expr : Scope → Expr → Eval Value
  stmt : Scope → Stmt → Eval Outcome

open Eval

/-! ## Variables -/

/-- The location of a variable that must be declared. -/
def locateVariable (scope : Scope) (name : String) : Eval Location := do
  attempt ((← get).memory.locate scope name)

/-- The location of an array that must be declared. -/
def locateArray (scope : Scope) (name : String) : Eval Location := do
  let m ← get
  match m.memory.lookup? scope name with
  | none => fault (.arrayUndeclared name)
  | some l =>
    if ((m.memory.at? l).map Variable.isArray).getD false then return l
    else fault (.notArray name)

/-- The variable at a location. -/
def variableAt (l : Location) (name : String) : Eval Variable := do
  match (← get).memory.at? l with
  | some v => return v
  | none => fault (.undeclared name)

/-- The value of a variable. -/
def readVariable (scope : Scope) (name : String) : Eval Value := do
  let l ← locateVariable scope name
  let v ← variableAt l name
  if v.isArray then fault (.arrayWithoutIndex name)
  else
    match v.held? with
    | some value => return value
    | none => fault (.unassigned name)

/-- Changes the variable at a location. -/
def updateVariable (l : Location) (f : Variable → Variable) : Eval Unit :=
  modify fun m => { m with memory := m.memory.update l f }

/-- The indices of an element. -/
def evaluateIndices (expr : Expr → Eval Value) (indices : List Expr) : Eval (List Int) :=
  indices.mapM fun e => do attempt (← expr e).toIndex

/-- Where a value is to be stored. -/
structure Destination where
  location : Location
  name : String
  /-- How it is shown when input is asked for. -/
  label : String
  /-- The indices, for an element of an array. -/
  indices : Option (List Int)

namespace Destination

/-- The name of an element as it is shown when input is asked for. -/
def elementLabel (name : String) (indices : List Int) : Attempt String := do
  let shown ← indices.mapM fun i => written (Number.wholeText? i)
  return name ++ "[" ++ String.intercalate ", " shown ++ "]"

/-- The type that input for a destination is turned into. -/
def inputType (d : Destination) : Eval DataType := do
  let v ← variableAt d.location d.name
  match d.indices with
  | none => return v.type
  | some _ =>
    match v.element? with
    | some element => return element
    | none => attempt (breakDown .noBounds)

/-- Stores a value. -/
def store (d : Destination) (value : Value) : Eval Unit := do
  match d.indices with
  | none => updateVariable d.location (·.assign value)
  | some indices =>
    let v ← variableAt d.location d.name
    let k ← attempt (v.place d.name indices)
    updateVariable d.location (·.putAt k value)

end Destination

/-- Finds the variable of a target and evaluates its indices, all of which can be shown. -/
def resolveTarget (expr : Scope → Expr → Eval Value) (scope : Scope) : Target → Eval Destination
  | .element _ name indices => do
    let l ← locateArray scope name
    let indices ← evaluateIndices (expr scope) indices
    return ⟨l, name, ← attempt (Destination.elementLabel name indices), some indices⟩
  | .var _ name => do
    let l ← locateVariable scope name
    if (← variableAt l name).isArray then fault (.wholeArrayAssigned name)
    else return ⟨l, name, name, none⟩
  | .improper _ => attempt (breakDown .notAssignable)

/-- Binds a name to a new variable. -/
def declareVariable (scope : Scope) (name : String) (v : Variable) : Eval (Location × Scope) :=
  modifyGet fun m =>
    let (l, scope, memory) := m.memory.declare scope name v
    ((l, scope), { m with memory := memory })

/-! ## Simple statements -/

/-- The variable that a DECLARE makes. -/
def Shape.variable (type : DataType) : Shape → Attempt Variable
  | .scalar => .ok (.scalar type none)
  | .array bounds => Variable.newArray type bounds
  | .unbounded => breakDown .boundsMissing

/-- DECLARE. -/
def performDeclare (scope : Scope) (name typeName : String) (shape : Shape) : Eval Scope := do
  let type ← attempt (DataType.resolve (some typeName))
  let v ← attempt (shape.variable type)
  return (← declareVariable scope name v).2

/-- An assignment: the value is evaluated before the target. -/
def performAssign (expr : Scope → Expr → Eval Value) (scope : Scope) (t : Target) (value : Expr) :
    Eval Unit := do
  let value ← expr scope value
  let d ← resolveTarget expr scope t
  d.store value

/-! ## Choosing a branch -/

/-- The truth value of a condition. -/
def condition (expr : Scope → Expr → Eval Value) (scope : Scope) (keyword : String) (e : Expr) :
    Eval Bool := do
  match ← expr scope e with
  | .bool b => return b
  | _ => fault (.conditionNotBoolean keyword)

/-- The block of the first ELSE IF whose condition holds, else the one after ELSE. -/
def chooseElse (expr : Scope → Expr → Eval Value) (scope : Scope) (otherwise : Option Block) :
    List Arm → Eval Block
  | [] => return otherwise.getD []
  | arm :: rest => do
    if ← condition expr scope "ELSE IF" arm.condition then return arm.body
    else chooseElse expr scope otherwise rest

/-- The block that an IF runs. -/
def chooseIf (expr : Scope → Expr → Eval Value) (scope : Scope) (test : Expr) (body : Block)
    (elseIfs : List Arm) (otherwise : Option Block) : Eval Block := do
  if ← condition expr scope "IF" test then return body
  else chooseElse expr scope otherwise elseIfs

/-- Whether a CASE label covers the selector. Ranges are compared exactly. -/
def labelCovers (expr : Scope → Expr → Eval Value) (scope : Scope) (selector : Value) :
    CaseLabel → Eval Bool
  | .value e => do attempt (selector.equals (← expr scope e))
  | .range _ low high => do
    let low ← expr scope low
    let high ← expr scope high
    match selector.numeric?, low.numeric?, high.numeric? with
    | some v, some a, some b => return a.le v && v.le b
    | _, _, _ => fault .rangeNotNumeric

/-- The block of the first branch whose label covers the selector, else the one after OTHERWISE. -/
def chooseBranch (expr : Scope → Expr → Eval Value) (scope : Scope) (selector : Value)
    (otherwise : Option Block) : List Branch → Eval Block
  | [] => return otherwise.getD []
  | branch :: rest => do
    if ← labelCovers expr scope selector branch.label then return branch.body
    else chooseBranch expr scope selector otherwise rest

/-- The block that a CASE runs. -/
def chooseCase (expr : Scope → Expr → Eval Value) (scope : Scope) (selector : Expr)
    (branches : List Branch) (otherwise : Option Block) : Eval Block := do
  chooseBranch expr scope (← expr scope selector) otherwise branches

/-! ## Counting loops -/

/-- A FOR loop under way: where its variable lives, and where and by which steps it ends. -/
structure Counter where
  location : Location
  stop : Int
  step : Int
  deriving DecidableEq, Repr

/-- The location of a loop variable. An undeclared one is declared as INTEGER. -/
def loopVariable (scope : Scope) (name : String) : Eval (Location × Scope) := do
  match (← get).memory.lookup? scope name with
  | none => declareVariable scope name (.scalar .integer none)
  | some l =>
    if (← variableAt l name).isArray then fault (.loopVariableIsArray name)
    else return (l, scope)

/-- The floors of the three bounds of a loop. -/
def loopBounds (expr : Expr → Eval Value) (start stop step : Expr) : Eval (Int × Int × Int) := do
  let start ← expr start
  let stop ← expr stop
  let step ← expr step
  match start.numeric?, stop.numeric?, step.numeric? with
  | some a, some b, some c =>
    attempt do return (← a.floor, ← b.floor, ← c.floor)
  | _, _, _ => fault .loopBoundsNotNumbers

/-- Starts a FOR loop. Its variable is found or declared before the bounds are evaluated. -/
def startFor (expr : Scope → Expr → Eval Value) (scope : Scope) (name : String)
    (start stop step : Expr) : Eval (Counter × Scope) := do
  let (l, scope) ← loopVariable scope name
  let (start, stop, step) ← loopBounds (expr scope) start stop step
  if step = 0 then fault .loopStepZero
  else
    updateVariable l (·.assign (.int start))
    return (⟨l, stop, step⟩, scope)

namespace Counter

/-- The value of the loop variable. -/
def value (c : Counter) (m : Machine) : Value :=
  ((m.memory.at? c.location).bind Variable.held?).getD .absent

/-- Whether the loop variable, which must hold a number, has not passed the end. -/
def continues (c : Counter) : Eval Bool := do
  match (c.value (← get)).numeric? with
  | some v => return if 0 < c.step then v.le (.int c.stop) else (Numeric.int c.stop).le v
  | none => fault .loopVariableNotNumeric

/-- Moves the loop variable on by one step from its floor. -/
def advance (c : Counter) : Eval Unit := do
  let n ← attempt (c.value (← get)).floor
  updateVariable c.location (·.assign (.int (n + c.step)))

end Counter

/-! ## Calls -/

/-- The variable that a parameter passed by value starts out as. -/
def copyArgument (expr : Scope → Expr → Eval Value) (caller : Scope) (p : Param) (argument : Expr) :
    Eval Variable := do
  if Text.upper p.typeName = DataType.array.name then
    let m ← get
    let source := match argument with
      | .var _ name => m.memory.find? caller name
      | _ => none
    match source with
    | some v => if v.isArray then return v else fault (.arrayParameter p.name)
    | none => fault (.arrayParameter p.name)
  else
    let value ← expr caller argument
    let type ← attempt (DataType.resolve (some p.typeName))
    return .scalar type (some value)

/-- Binds a name to a location. -/
def bindName (scope : Scope) (name : String) (l : Location) : Eval Scope :=
  modifyGet fun m =>
    let (scope, memory) := m.memory.bind scope name l
    (scope, { m with memory := memory })

/-- Binds one parameter to its argument. -/
def bindArgument (expr : Scope → Expr → Eval Value) (caller callee : Scope) (p : Param)
    (argument : Expr) : Eval Scope := do
  match p.mode with
  | .byRef =>
    match argument with
    | .var _ name =>
      let l ← locateVariable caller name
      bindName callee p.name l
    | _ => fault .byRefNeedsVariable
  | .byVal =>
    let v ← copyArgument expr caller p argument
    return (← declareVariable callee p.name v).2

/-- The local names of a call: each parameter bound to its argument, from left to right. -/
def bindArguments (expr : Scope → Expr → Eval Value) (caller : Scope) :
    (callee : Scope) → List Param → List Expr → Eval Scope
  | callee, p :: params, argument :: arguments => do
    let callee ← bindArgument expr caller callee p argument
    bindArguments expr caller callee params arguments
  | callee, _, _ => return callee

/-! ## Function bodies -/

/-- Runs the statements of a block until one of them returns. -/
def runBlock (stmt : Scope → Stmt → Eval Outcome) : Scope → Block → Eval Outcome
  | scope, [] => return (scope, none)
  | scope, s :: rest => do
    match ← stmt scope s with
    | (scope, some value) => return (scope, some value)
    | (scope, none) => runBlock stmt scope rest

/-- WHILE in a function body, for at most the given number of rounds. -/
def runWhile (test : Scope → Eval Bool) (body : Scope → Eval Outcome) : Nat → Scope → Eval Outcome
  | 0, _ => throw .exhausted
  | n + 1, scope => do
    if ← test scope then
      match ← body scope with
      | (scope, some value) => return (scope, some value)
      | (scope, none) => runWhile test body n scope
    else return (scope, none)

/-- REPEAT in a function body, for at most the given number of rounds. -/
def runRepeat (test : Scope → Eval Bool) (body : Scope → Eval Outcome) : Nat → Scope → Eval Outcome
  | 0, _ => throw .exhausted
  | n + 1, scope => do
    match ← body scope with
    | (scope, some value) => return (scope, some value)
    | (scope, none) => if ← test scope then return (scope, none) else runRepeat test body n scope

/-- FOR in a function body, for at most the given number of rounds. -/
def runFor (c : Counter) (body : Scope → Eval Outcome) : Nat → Scope → Eval Outcome
  | 0, _ => throw .exhausted
  | n + 1, scope => do
    if ← c.continues then
      match ← body scope with
      | (scope, some value) => return (scope, some value)
      | (scope, none) =>
        c.advance
        runFor c body n scope
    else return (scope, none)

/-- Runs the form of a statement of a function body. -/
def runForm (ev : Evaluator) (bound : Nat) (scope : Scope) : Form → Eval Outcome
  | .declare name typeName shape => return (← performDeclare scope name typeName shape, none)
  | .assign t value => do
    performAssign ev.expr scope t value
    return (scope, none)
  | .ifThen test body elseIfs otherwise => do
    runBlock ev.stmt scope (← chooseIf ev.expr scope test body elseIfs otherwise)
  | .caseOf selector branches otherwise => do
    runBlock ev.stmt scope (← chooseCase ev.expr scope selector branches otherwise)
  | .whileDo test body =>
    runWhile (fun scope => condition ev.expr scope "WHILE" test)
      (fun scope => runBlock ev.stmt scope body) bound scope
  | .repeatUntil body test =>
    runRepeat (fun scope => condition ev.expr scope "UNTIL" test)
      (fun scope => runBlock ev.stmt scope body) bound scope
  | .forTo name start stop step body => do
    let (c, scope) ← startFor ev.expr scope name start stop step
    runFor c (fun scope => runBlock ev.stmt scope body) bound scope
  | .returnValue e => return (scope, some (← ev.expr scope e))
  | form => fault (.unsupportedInFunction form.keyword)

/-- The forms of statement that a function body may hold. -/
def Form.allowedInFunction : Form → Bool
  | declare .. | assign .. | ifThen .. | caseOf .. | whileDo .. | repeatUntil .. | forTo ..
  | returnValue .. => true
  | _ => false

/-! ## Expressions -/

/-- Calls a function. -/
def callFunction (ev : Evaluator) (scope : Scope) (f : Routine)
    (arguments : List Expr) (line : Int) :
    Eval Value := do
  if arguments.length ≠ f.params.length then fault (.functionArguments f.name)
  else
    let (_, result) ← inCall ⟨f.name, line, .function⟩ do
      let callee ← bindArguments ev.expr scope freshScope f.params arguments
      runBlock ev.stmt callee f.body
    match result with
    | some value => return value
    | none => fault (.noReturn f.name)

/-- The next random number, which is used up if `b` takes it. -/
def drawFor (b : Builtin) : Eval Float := do
  let (draw, random) := (← get).random.next
  if b = .random then modify fun m => { m with random := random }
  return draw

/-- Calls a built-in function. The number of arguments is checked before they are evaluated. -/
def callBuiltin (ev : Evaluator) (scope : Scope) (b : Builtin) (arguments : List Expr) :
    Eval Value := do
  attempt (b.checkArity arguments.length)
  let values ← arguments.mapM (ev.expr scope)
  let draw ← drawFor b
  attempt (b.apply (some (← get).files) draw values)

/-- Calls the function of a name: a built-in one, else one of the program. -/
def callNamed (ev : Evaluator) (scope : Scope) (line : Int) (name : String)
    (arguments : List Expr) :
    Eval Value := do
  match Builtin.ofName? name with
  | some b => callBuiltin ev scope b arguments
  | none =>
    let m ← get
    match m.functions.find? name with
    | some f => callFunction ev scope f arguments (if line = 0 then m.line else line)
    | none =>
      if m.procedures.contains name then fault (.procedureNeedsCall name)
      else fault (.functionNotFound name)

/-- Evaluates an expression by its outermost form. -/
def evaluateForm (ev : Evaluator) (scope : Scope) : Expr → Eval Value
  | .literal _ v => return v
  | .var _ name => readVariable scope name
  | .element _ name indices => do
    let l ← locateArray scope name
    let indices ← evaluateIndices (ev.expr scope) indices
    let v ← variableAt l name
    attempt (v.getElement name indices)
  | .binary _ left op right => do
    let a ← ev.expr scope left
    let b ← ev.expr scope right
    attempt (op.apply a b)
  | .unary _ op operand => do
    let a ← ev.expr scope operand
    attempt (op.apply a)
  | .call line name arguments => callNamed ev scope line name arguments
  | .inert _ kind => fault (.inertExpression kind)

/-- Runs a statement of a function body by its form. -/
def runDispatched (ev : Evaluator) (bound : Nat) (scope : Scope) (s : Stmt) : Eval Outcome := do
  dispatch s.line
  if s.form.allowedInFunction then located s.line (runForm ev bound scope s.form)
  else throw (.fault (.unsupportedInFunction s.form.keyword) s.line)

mutual
/-- The value of an expression. -/
def evaluate : Nat → Scope → Expr → Eval Value
  | 0, _, _ => throw .exhausted
  | n + 1, scope, e => evaluateForm ⟨evaluate n, runStatement n⟩ scope e

/-- Runs a statement of a function body. -/
def runStatement : Nat → Scope → Stmt → Eval Outcome
  | 0, _, _ => throw .exhausted
  | n + 1, scope, s => runDispatched ⟨evaluate n, runStatement n⟩ n scope s
end

end Pseudocode

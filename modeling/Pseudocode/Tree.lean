import Pseudocode.Value

/-!
# Programs as trees

Expressions, statements and declarations. Every node carries the source line it belongs to. Names of
types and file modes are kept as text and looked up when a statement runs. A node of kind `inert`
has no meaning of its own; to run or evaluate it is an error that names its kind.
-/

namespace Pseudocode

/-- Operators between two operands. `other` is a symbol with no meaning. -/
inductive BinaryOp where
  | add | sub | mul | div | floorDiv | mod | pow | concat
  | eq | ne | lt | gt | le | ge
  | and | or
  | other (symbol : String)
  deriving DecidableEq, Repr

namespace BinaryOp

/-- The symbol or word of an operator. -/
def symbol : BinaryOp → String
  | add => "+" | sub => "-" | mul => "*" | div => "/" | floorDiv =>
    "DIV" | mod => "MOD" | pow => "^"
  | concat => "&" | eq => "=" | ne => "<>" | lt => "<" | gt => ">" | le => "<=" | ge => ">="
  | and => "AND" | or => "OR" | other s => s

/-- The operators that have a meaning. -/
def known : List BinaryOp :=
  [add, sub, mul, div, floorDiv, mod, pow, concat, eq, ne, lt, gt, le, ge, and, or]

/-- The operator with a given symbol. -/
def ofSymbol (symbol : String) : BinaryOp :=
  (known.find? (·.symbol == symbol)).getD (other symbol)

end BinaryOp

/-- Operators before one operand. `other` is a symbol with no meaning. -/
inductive UnaryOp where
  | neg | not
  | other (symbol : String)
  deriving DecidableEq, Repr

namespace UnaryOp

/-- The symbol or word of an operator. -/
def symbol : UnaryOp → String
  | neg => "-" | not => "NOT" | other s => s

/-- The operator with a given symbol. -/
def ofSymbol (symbol : String) : UnaryOp :=
  if symbol = "-" then neg else if symbol = "NOT" then not else other symbol

end UnaryOp

/-- Expressions. -/
inductive Expr where
  | literal (line : Int) (value : Value)
  | var (line : Int) (name : String)
  | element (line : Int) (array : String) (indices : List Expr)
  | binary (line : Int) (left : Expr) (op : BinaryOp) (right : Expr)
  | unary (line : Int) (op : UnaryOp) (operand : Expr)
  | call (line : Int) (callee : String) (arguments : List Expr)
  | inert (line : Int) (kind : String)
  deriving Repr, Inhabited

/-- The line of an expression. -/
def Expr.line : Expr → Int
  | literal l _ | var l _ | element l _ _ | binary l _ _ _ | unary l _ _ | call l _ _
  | inert l _ => l

/-- What receives a value: a variable or an element of an array. `improper` is anything else that
stands in its place. -/
inductive Target where
  | var (line : Int) (name : String)
  | element (line : Int) (array : String) (indices : List Expr)
  | improper (line : Int)
  deriving Repr

/-- The name of the variable that receives a value. -/
def Target.name : Target → String
  | var _ name => name
  | element _ array _ => array
  | improper _ => ""

/-- What a DECLARE makes: a scalar, an array with the given bounds, or an array without any. -/
inductive Shape where
  | scalar
  | array (bounds : List (Int × Int))
  | unbounded
  deriving DecidableEq, Repr

/-- The label of a CASE branch. -/
inductive CaseLabel where
  | value (e : Expr)
  | range (line : Int) (low high : Expr)
  deriving Repr

/-- How a parameter receives its argument: as a copy, or as another name of the same variable. -/
inductive PassMode where
  | byVal | byRef
  deriving DecidableEq, Repr

/-- A parameter of a procedure or function. For an array the element type is given too. -/
structure Param where
  name : String
  typeName : String
  mode : PassMode := .byVal
  element : Option String := none
  deriving DecidableEq, Repr

mutual
/-- A statement with the line of its first token. -/
inductive Stmt where
  | mk (line : Int) (form : Form)

/-- The forms of statement. -/
inductive Form where
  /-- One name of a DECLARE. -/
  | declare (name typeName : String) (shape : Shape)
  | assign (target : Target) (value : Expr)
  | output (values : List Expr)
  | input (target : Target)
  | ifThen (condition : Expr) (body : List Stmt) (elseIfs : List Arm)
      (otherwise : Option (List Stmt))
  | whileDo (condition : Expr) (body : List Stmt)
  | repeatUntil (body : List Stmt) (condition : Expr)
  | forTo (name : String) (start stop step : Expr) (body : List Stmt)
  | caseOf (selector : Expr) (branches : List Branch) (otherwise : Option (List Stmt))
  | procedure (name : String) (params : List Param) (body : List Stmt)
  | function (name : String) (params : List Param) (returns : String) (body : List Stmt)
  | call (name : String) (arguments : List Expr)
  | returnValue (value : Expr)
  | fileOpen (name : Expr) (mode : String)
  | fileClose (name : Expr)
  | fileRead (name : Expr) (target : Target)
  | fileWrite (name data : Expr)
  | inert (kind : String)

/-- A condition and the block it guards. -/
inductive Arm where
  | mk (condition : Expr) (body : List Stmt)

/-- A CASE label and its block. -/
inductive Branch where
  | mk (label : CaseLabel) (body : List Stmt)
end

/-- A list of statements run in order. -/
abbrev Block := List Stmt

namespace Stmt

def line : Stmt → Int
  | mk l _ => l

def form : Stmt → Form
  | mk _ f => f

end Stmt

namespace Arm

def condition : Arm → Expr
  | mk c _ => c

def body : Arm → Block
  | mk _ b => b

end Arm

namespace Branch

def label : Branch → CaseLabel
  | mk l _ => l

def body : Branch → Block
  | mk _ b => b

end Branch

namespace Form

/-- The keyword by which messages name a form. -/
def keyword : Form → String
  | declare .. => "DECLARE" | assign .. => "assignment" | output .. =>
    "OUTPUT" | input .. => "INPUT"
  | ifThen .. => "IF" | whileDo .. => "WHILE" | repeatUntil .. => "REPEAT" | forTo .. => "FOR"
  | caseOf .. => "CASE" | procedure .. => "PROCEDURE" | function .. =>
    "FUNCTION" | call .. => "CALL"
  | returnValue .. => "RETURN" | fileOpen .. => "OPENFILE" | fileClose .. => "CLOSEFILE"
  | fileRead .. => "READFILE" | fileWrite .. => "WRITEFILE" | inert kind => kind

/-- The forms whose parts run as statements of their own. -/
def isCompound : Form → Bool
  | ifThen .. | whileDo .. | repeatUntil .. | forTo .. | caseOf .. | call .. => true
  | _ => false

/-- Procedure and function declarations. -/
def isDefinition : Form → Bool
  | procedure .. | function .. => true
  | _ => false

end Form

/-- The short name of a target: an element is shown without its indices. -/
def Target.short : Target → String
  | .element _ array _ => array ++ "[...]"
  | t => t.name

namespace Stmt

/-- A one-line description of a statement for trace tables. -/
def describe (s : Stmt) : String :=
  match s.form with
  | .declare name typeName shape =>
    s!"DECLARE {name} : " ++ (if shape = .scalar then "" else "ARRAY OF ") ++ typeName
  | .assign target _ => s!"{target.short} ← ..."
  | .input target => s!"INPUT {target.short}"
  | .fileRead _ target => s!"READFILE {target.short}"
  | .forTo name .. => s!"FOR {name}"
  | .call name _ => s!"CALL {name}"
  | .procedure name .. => s!"PROCEDURE {name}"
  | .function name .. => s!"FUNCTION {name}"
  | form => form.keyword

end Stmt

end Pseudocode

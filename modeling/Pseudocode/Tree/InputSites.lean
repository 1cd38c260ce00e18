import Pseudocode.Tree

/-!
# Where a program takes input

`Block.inputSites` lists every INPUT and READFILE statement of a block, in source order and at every
depth, the bodies of procedures and functions included.
-/

namespace Pseudocode

/-- Where input comes from. -/
inductive InputSource where
  | keyboard | file
  deriving DecidableEq, Repr

/-- The keyword of the statement that takes the input. -/
def InputSource.keyword : InputSource → String
  | keyboard => "INPUT"
  | file => "READFILE"

/-- A statement that takes input. -/
structure InputSite where
  line : Int
  target : String
  source : InputSource
  deriving DecidableEq, Repr

mutual
/-- The input statements within a statement. -/
def Stmt.inputSites : Stmt → List InputSite
  | .mk line form => form.inputSites line

/-- The input statements within a statement of the given form and line. -/
def Form.inputSites (line : Int) : Form → List InputSite
  | .input target => [⟨line, target.short, .keyboard⟩]
  | .fileRead _ target => [⟨line, target.short, .file⟩]
  | .ifThen _ body elseIfs otherwise =>
    blockInputSites body ++ armsInputSites elseIfs ++ optionInputSites otherwise
  | .whileDo _ body | .repeatUntil body _ | .forTo _ _ _ _ body | .procedure _ _ body
  | .function _ _ _ body => blockInputSites body
  | .caseOf _ branches otherwise => branchesInputSites branches ++ optionInputSites otherwise
  | _ => []

/-- The input statements within a block. -/
def blockInputSites : List Stmt → List InputSite
  | [] => []
  | s :: rest => s.inputSites ++ blockInputSites rest

/-- The input statements within an optional block. -/
def optionInputSites : Option (List Stmt) → List InputSite
  | none => []
  | some body => blockInputSites body

/-- The input statements within the arms of an IF. -/
def armsInputSites : List Arm → List InputSite
  | [] => []
  | arm :: rest => arm.inputSites ++ armsInputSites rest

/-- The input statements within an arm. -/
def Arm.inputSites : Arm → List InputSite
  | .mk _ body => blockInputSites body

/-- The input statements within the branches of a CASE. -/
def branchesInputSites : List Branch → List InputSite
  | [] => []
  | branch :: rest => branch.inputSites ++ branchesInputSites rest

/-- The input statements within a branch. -/
def Branch.inputSites : Branch → List InputSite
  | .mk _ body => blockInputSites body
end

end Pseudocode

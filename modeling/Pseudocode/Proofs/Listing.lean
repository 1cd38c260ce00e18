import Pseudocode.Proofs.Forms
import Pseudocode.Tree.InputSites

/-!
# The statements of a program in order

`blockStatements` lists the statements of a block at every depth, each before those inside it, the
bodies of procedures and functions included. This is the order in which they stand in the source.

Every statement is smaller than the one it stands in, so statements can be treated by induction from
the inside out (`Stmt.inside_induction`).

Results:
* `mem_blockStatements_inside`: what stands inside a statement of a program is a statement of the
  program.
* `blockInputSites_eq`: **the input sites of a program are those of its statements**, one for each
  INPUT and each READFILE, in order.
-/

namespace Pseudocode

mutual
/-- A statement and the statements within it. -/
def Stmt.statements : Stmt → List Stmt
  | .mk line form => .mk line form :: form.statements

/-- The statements within a form. -/
def Form.statements : Form → List Stmt
  | .ifThen _ body elseIfs otherwise =>
    blockStatements body ++ armsStatements elseIfs ++ optionStatements otherwise
  | .whileDo _ body | .repeatUntil body _ | .forTo _ _ _ _ body | .procedure _ _ body
  | .function _ _ _ body => blockStatements body
  | .caseOf _ branches otherwise => branchesStatements branches ++ optionStatements otherwise
  | _ => []

/-- The statements within a block. -/
def blockStatements : List Stmt → List Stmt
  | [] => []
  | s :: rest => s.statements ++ blockStatements rest

/-- The statements within an optional block. -/
def optionStatements : Option (List Stmt) → List Stmt
  | none => []
  | some body => blockStatements body

/-- The statements within the arms of an IF. -/
def armsStatements : List Arm → List Stmt
  | [] => []
  | arm :: rest => arm.statements ++ armsStatements rest

/-- The statements within an arm. -/
def Arm.statements : Arm → List Stmt
  | .mk _ body => blockStatements body

/-- The statements within the branches of a CASE. -/
def branchesStatements : List Branch → List Stmt
  | [] => []
  | branch :: rest => branch.statements ++ branchesStatements rest

/-- The statements within a branch. -/
def Branch.statements : Branch → List Stmt
  | .mk _ body => blockStatements body
end

/-- The input site that a statement is, if it is one. -/
def Stmt.inputSite? : Stmt → Option InputSite
  | .mk line (.input target) => some ⟨line, target.short, .keyboard⟩
  | .mk line (.fileRead _ target) => some ⟨line, target.short, .file⟩
  | _ => none

/-! ## From the inside out -/

theorem Form.sizeOf_lt_of_mem_blocks {form : Form} {b : Block} (hb : b ∈ form.blocks) :
    sizeOf b < sizeOf form := by
  cases form with
  | ifThen condition body arms otherwise =>
    simp only [Form.blocks, List.mem_cons, List.mem_append, List.mem_map, Option.mem_toList] at hb
    rcases hb with rfl | ⟨⟨condition', body'⟩, harm, rfl⟩ | hother
    · simp +arith
    · have hlt := List.sizeOf_lt_of_mem harm
      simp only [Arm.body, Arm.mk.sizeOf_spec, Form.ifThen.sizeOf_spec] at *
      omega
    · obtain rfl := hother
      simp +arith
  | caseOf selector branches otherwise =>
    simp only [Form.blocks, List.mem_append, List.mem_map, Option.mem_toList] at hb
    rcases hb with ⟨⟨label, body⟩, hbranch, rfl⟩ | hother
    · have hlt := List.sizeOf_lt_of_mem hbranch
      simp only [Branch.body, Branch.mk.sizeOf_spec, Form.caseOf.sizeOf_spec] at *
      omega
    · obtain rfl := hother
      simp +arith
  | whileDo | repeatUntil | forTo | procedure | function =>
    obtain rfl := List.mem_singleton.mp hb
    simp +arith
  | _ => cases hb

theorem Stmt.sizeOf_lt_of_mem {s t : Stmt} {b : Block} (hb : b ∈ s.form.blocks) (ht : t ∈ b) :
    sizeOf t < sizeOf s := by
  obtain ⟨line, form⟩ := s
  have hform : sizeOf b < sizeOf form := Form.sizeOf_lt_of_mem_blocks hb
  have hmem := List.sizeOf_lt_of_mem ht
  rw [Stmt.mk.sizeOf_spec]
  omega

/-- **Induction from the inside out**: what holds of a statement whenever it holds of those directly
inside it holds of every statement. -/
theorem Stmt.inside_induction {P : Stmt → Prop}
    (step : ∀ s, (∀ b ∈ s.form.blocks, ∀ t ∈ b, P t) → P s) (s : Stmt) : P s :=
  step s fun b hb t ht =>
    have := Stmt.sizeOf_lt_of_mem hb ht
    Stmt.inside_induction step t
termination_by sizeOf s

/-! ## One level at a time -/

theorem Stmt.statements_eq (s : Stmt) : s.statements = s :: s.form.statements := by
  cases s
  rw [Stmt.statements]
  rfl

theorem blockStatements_eq (b : Block) : blockStatements b = b.flatMap Stmt.statements := by
  induction b with
  | nil => rw [blockStatements, List.flatMap_nil]
  | cons s rest ih => rw [blockStatements, List.flatMap_cons, ih]

theorem blockStatements_append (a b : Block) :
    blockStatements (a ++ b) = blockStatements a ++ blockStatements b := by
  rw [blockStatements_eq, blockStatements_eq, blockStatements_eq, List.flatMap_append]

theorem optionStatements_eq (otherwise : Option Block) :
    optionStatements otherwise = otherwise.toList.flatMap blockStatements := by
  cases otherwise with
  | none => rw [optionStatements]; rfl
  | some body => simp [optionStatements]

theorem armsStatements_eq (arms : List Arm) :
    armsStatements arms = (arms.map Arm.body).flatMap blockStatements := by
  induction arms with
  | nil => rw [armsStatements]; rfl
  | cons arm rest ih =>
    obtain ⟨condition, body⟩ := arm
    rw [armsStatements, Arm.statements, ih, List.map_cons, List.flatMap_cons, Arm.body]

theorem branchesStatements_eq (branches : List Branch) :
    branchesStatements branches = (branches.map Branch.body).flatMap blockStatements := by
  induction branches with
  | nil => rw [branchesStatements]; rfl
  | cons branch rest ih =>
    obtain ⟨label, body⟩ := branch
    rw [branchesStatements, Branch.statements, ih, List.map_cons, List.flatMap_cons, Branch.body]

/-- The statements within a form are those of its blocks, in order. -/
theorem Form.statements_eq (form : Form) :
    form.statements = form.blocks.flatMap blockStatements := by
  cases form with
  | ifThen condition body arms otherwise =>
    rw [Form.statements, Form.blocks, List.flatMap_cons, List.flatMap_append, armsStatements_eq,
      optionStatements_eq, List.append_assoc]
  | caseOf selector branches otherwise =>
    rw [Form.statements, Form.blocks, List.flatMap_append, branchesStatements_eq,
      optionStatements_eq]
  | whileDo | repeatUntil | forTo | procedure | function =>
    rw [Form.statements, Form.blocks, List.flatMap_singleton]
  | _ => rfl

/-! ## Input sites -/

mutual
theorem Stmt.inputSites_eq : ∀ s : Stmt, s.inputSites = s.statements.filterMap Stmt.inputSite?
  | .mk line form => by rw [Stmt.inputSites, Stmt.statements, form.inputSites_eq line]

theorem Form.inputSites_eq (line : Int) :
    ∀ form : Form,
      form.inputSites line = (Stmt.mk line form :: form.statements).filterMap Stmt.inputSite?
  | .input target => by simp [Form.inputSites, Form.statements, Stmt.inputSite?]
  | .fileRead name target => by simp [Form.inputSites, Form.statements, Stmt.inputSite?]
  | .ifThen condition body arms otherwise => by
    rw [Form.inputSites, Form.statements, List.filterMap_cons_none rfl, List.filterMap_append,
      List.filterMap_append, blockInputSites_eq, armsInputSites_eq, optionInputSites_eq]
  | .whileDo condition body => by
    rw [Form.inputSites, Form.statements, List.filterMap_cons_none rfl, blockInputSites_eq]
  | .repeatUntil body condition => by
    rw [Form.inputSites, Form.statements, List.filterMap_cons_none rfl, blockInputSites_eq]
  | .forTo name start stop step body => by
    rw [Form.inputSites, Form.statements, List.filterMap_cons_none rfl, blockInputSites_eq]
  | .procedure name params body => by
    rw [Form.inputSites, Form.statements, List.filterMap_cons_none rfl, blockInputSites_eq]
  | .function name params returns body => by
    rw [Form.inputSites, Form.statements, List.filterMap_cons_none rfl, blockInputSites_eq]
  | .caseOf selector branches otherwise => by
    rw [Form.inputSites, Form.statements, List.filterMap_cons_none rfl, List.filterMap_append,
      branchesInputSites_eq, optionInputSites_eq]
  | .declare .. | .assign .. | .output .. | .call .. | .returnValue
    .. | .fileOpen .. | .fileClose ..
  | .fileWrite .. | .inert .. => by simp [Form.inputSites, Form.statements, Stmt.inputSite?]

theorem blockInputSites_eq :
    ∀ b : List Stmt, blockInputSites b = (blockStatements b).filterMap Stmt.inputSite?
  | [] => by rw [blockInputSites, blockStatements, List.filterMap_nil]
  | s :: rest => by
    rw [blockInputSites, blockStatements, List.filterMap_append, s.inputSites_eq,
      blockInputSites_eq rest]

theorem optionInputSites_eq :
    ∀ b : Option (List Stmt), optionInputSites b = (optionStatements b).filterMap Stmt.inputSite?
  | none => by rw [optionInputSites, optionStatements, List.filterMap_nil]
  | some body => by rw [optionInputSites, optionStatements, blockInputSites_eq body]

theorem armsInputSites_eq :
    ∀ arms : List Arm, armsInputSites arms = (armsStatements arms).filterMap Stmt.inputSite?
  | [] => by rw [armsInputSites, armsStatements, List.filterMap_nil]
  | arm :: rest => by
    rw [armsInputSites, armsStatements, List.filterMap_append, arm.inputSites_eq,
      armsInputSites_eq rest]

theorem Arm.inputSites_eq : ∀ arm : Arm, arm.inputSites = arm.statements.filterMap Stmt.inputSite?
  | .mk _ body => by rw [Arm.inputSites, Arm.statements, blockInputSites_eq body]

theorem branchesInputSites_eq :
    ∀ branches : List Branch,
      branchesInputSites branches = (branchesStatements branches).filterMap Stmt.inputSite?
  | [] => by rw [branchesInputSites, branchesStatements, List.filterMap_nil]
  | branch :: rest => by
    rw [branchesInputSites, branchesStatements, List.filterMap_append, branch.inputSites_eq,
      branchesInputSites_eq rest]

theorem Branch.inputSites_eq :
    ∀ branch : Branch, branch.inputSites = branch.statements.filterMap Stmt.inputSite?
  | .mk _ body => by rw [Branch.inputSites, Branch.statements, blockInputSites_eq body]
end

/-! ## Membership -/

theorem Stmt.mem_statements_self (s : Stmt) : s ∈ s.statements := by
  rw [s.statements_eq]
  exact List.mem_cons_self

theorem mem_blockStatements {t : Stmt} {b : Block} :
    t ∈ blockStatements b ↔ ∃ s ∈ b, t ∈ s.statements := by
  rw [blockStatements_eq, List.mem_flatMap]

theorem mem_blockStatements_self {s : Stmt} {b : Block} (hs : s ∈ b) : s ∈ blockStatements b :=
  mem_blockStatements.mpr ⟨s, hs, s.mem_statements_self⟩

theorem Stmt.mem_statements {s t : Stmt} :
    t ∈ s.statements ↔ t = s ∨ ∃ b ∈ s.form.blocks, t ∈ blockStatements b := by
  rw [s.statements_eq, List.mem_cons, Form.statements_eq, List.mem_flatMap]

/-- What stands directly inside a statement within `s` is within `s`. -/
theorem Stmt.mem_statements_inside {s t u : Stmt} {b : Block} (ht : t ∈ s.statements)
    (hb : b ∈ t.form.blocks) (hu : u ∈ b) : u ∈ s.statements := by
  induction s using Stmt.inside_induction with
  | step s ih =>
    rcases Stmt.mem_statements.mp ht with rfl | ⟨d, hd, htd⟩
    · exact Stmt.mem_statements.mpr (.inr ⟨b, hb, mem_blockStatements_self hu⟩)
    · obtain ⟨v, hv, htv⟩ := mem_blockStatements.mp htd
      exact Stmt.mem_statements.mpr
        (.inr ⟨d, hd, mem_blockStatements.mpr ⟨v, hv, ih d hd v hv htv⟩⟩)

/-- **What stands inside a statement of a program is a statement of the program.** -/
theorem mem_blockStatements_inside {program b : Block} {s t : Stmt}
    (hs : s ∈ blockStatements program) (hb : b ∈ s.form.blocks) (ht : t ∈ b) :
    t ∈ blockStatements program := by
  obtain ⟨u, hu, hsu⟩ := mem_blockStatements.mp hs
  exact mem_blockStatements.mpr ⟨u, hu, Stmt.mem_statements_inside hsu hb ht⟩

end Pseudocode

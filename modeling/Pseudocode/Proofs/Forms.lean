import Pseudocode.Proofs.Steps

/-!
# Forms at every depth

`Form.blocks` lists the blocks that stand directly inside a form of statement, and
`Stmt.Everywhere p` says that `p` holds of a statement's form and of every form below it, the bodies
of procedures and functions included. A predicate that holds everywhere in a statement holds
everywhere in the block that the statement's condition or selector chooses: `chooseIf_mem`,
`chooseCase_mem`.
-/

namespace Pseudocode

open Eval

/-- The expressions that stand directly inside an expression. -/
def Expr.parts : Expr → List Expr
  | element _ _ indices => indices
  | binary _ left _ right => [left, right]
  | unary _ _ operand => [operand]
  | call _ _ arguments => arguments
  | _ => []

/-- The blocks that stand directly inside a form. -/
def Form.blocks : Form → List Block
  | ifThen _ body elseIfs otherwise => body :: (elseIfs.map Arm.body ++ otherwise.toList)
  | whileDo _ body | repeatUntil body _ | forTo _ _ _ _ body | procedure _ _ body
  | function _ _ _ body => [body]
  | caseOf _ branches otherwise => branches.map Branch.body ++ otherwise.toList
  | _ => []

/-- A predicate holds of a statement's form and of all forms below it. -/
inductive Stmt.Everywhere (p : Form → Prop) : Stmt → Prop
  | mk (line : Int) (form : Form) (here : p form)
      (inside : ∀ b ∈ form.blocks, ∀ s ∈ b, s.Everywhere p) : Stmt.Everywhere p (.mk line form)

/-- A predicate holds of every form in a block, at every depth. -/
def Block.Everywhere (p : Form → Prop) (b : Block) : Prop :=
  ∀ s ∈ b, s.Everywhere p

variable {p : Form → Prop}

theorem Stmt.Everywhere.here {s : Stmt} (h : s.Everywhere p) : p s.form := by
  cases h with
  | mk _ _ here _ => exact here

theorem Stmt.Everywhere.inside {s : Stmt} (h : s.Everywhere p) {b : Block}
    (hb : b ∈ s.form.blocks) : Block.Everywhere p b := by
  cases h with
  | mk _ _ _ inside => exact inside b hb

theorem Stmt.everywhere_mk {line : Int} {form : Form} :
    (Stmt.mk line form).Everywhere p ↔ p form ∧ ∀ b ∈ form.blocks, Block.Everywhere p b :=
  ⟨fun h => ⟨h.here, fun _ hb => h.inside hb⟩, fun ⟨here, inside⟩ => .mk line form here inside⟩

theorem Block.everywhere_nil : Block.Everywhere p [] := fun _ h => absurd h (by simp)

theorem Block.everywhere_cons {s : Stmt} {b : Block} :
    Block.Everywhere p (s :: b) ↔ s.Everywhere p ∧ Block.Everywhere p b := by
  simp [Block.Everywhere]

/-! ## The block that is chosen -/

variable {expr : Scope → Expr → Eval Value} {scope : Scope} {m m' : Machine}

theorem chooseElse_mem {otherwise : Option Block} {arms : List Arm} {b : Block}
    (h : chooseElse expr scope otherwise arms m = .ok b m') :
    b ∈ arms.map Arm.body ∨ b = otherwise.getD [] := by
  induction arms generalizing m with
  | nil =>
    cases h
    exact Or.inr rfl
  | cons arm rest ih =>
    obtain ⟨c, n, -, h⟩ := bind_eq_ok.mp h
    cases c with
    | true =>
      cases h
      exact Or.inl (by simp)
    | false =>
      rcases ih h with hb | hb
      · exact Or.inl (List.mem_cons_of_mem _ hb)
      · exact Or.inr hb

/-- The block that an IF runs is one of its own, or empty. -/
theorem chooseIf_mem {test : Expr} {body : Block} {arms : List Arm} {otherwise : Option Block}
    {b : Block} (h : chooseIf expr scope test body arms otherwise m = .ok b m') :
    b ∈ (Form.ifThen test body arms otherwise).blocks ∨ b = [] := by
  obtain ⟨c, n, -, h⟩ := bind_eq_ok.mp h
  cases c with
  | true =>
    cases h
    exact Or.inl (by simp [Form.blocks])
  | false =>
    rcases chooseElse_mem h with hb | rfl
    · exact Or.inl (by simp only [Form.blocks]; simp [List.mem_map.mp hb])
    · cases otherwise <;> simp [Form.blocks]

theorem chooseBranch_mem {selector : Value} {otherwise : Option Block} {branches : List Branch}
    {b : Block} (h : chooseBranch expr scope selector otherwise branches m = .ok b m') :
    b ∈ branches.map Branch.body ∨ b = otherwise.getD [] := by
  induction branches generalizing m with
  | nil =>
    cases h
    exact Or.inr rfl
  | cons branch rest ih =>
    obtain ⟨c, n, -, h⟩ := bind_eq_ok.mp h
    cases c with
    | true =>
      cases h
      exact Or.inl (by simp)
    | false =>
      rcases ih h with hb | hb
      · exact Or.inl (List.mem_cons_of_mem _ hb)
      · exact Or.inr hb

/-- The block that a CASE runs is one of its own, or empty. -/
theorem chooseCase_mem {selector : Expr} {branches : List Branch} {otherwise : Option Block}
    {b : Block} (h : chooseCase expr scope selector branches otherwise m = .ok b m') :
    b ∈ (Form.caseOf selector branches otherwise).blocks ∨ b = [] := by
  obtain ⟨v, n, -, h⟩ := bind_eq_ok.mp h
  rcases chooseBranch_mem h with hb | rfl
  · exact Or.inl (List.mem_append_left _ hb)
  · cases otherwise <;> simp [Form.blocks]

end Pseudocode

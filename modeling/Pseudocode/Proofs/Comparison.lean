import Pseudocode.Execute
import Pseudocode.Proofs.Attempts
import Pseudocode.Proofs.Forms

/-!
# Comparing steps

Two executions of one program are compared step by step. A `Comparison` says which machines are
alike between steps (`R`), and compares a step from the first with one from the second (`At`). It
asks that machines that are alike agree on what the rules read (`Machine.Agrees`), and that it
allows what every step may do, which is to change the variables and to fail for a reason that is
charged to no statement yet (`Halt.IsFailure`). A `CallingComparison` also allows calls, a
`PerformingComparison` what statements do beside: work on the files, notes, and rounds of loops.

The rules of the evaluator keep to every comparison that the expressions and statements inside keep
to. `Parts` is a relation of parts of runs that is closed under sequence and holds of steps that are
related; then it holds of the forms of statement too. How a statement is dispatched and charged, and
how the host is asked, is not among the rules here: that is where comparisons differ. A law about
single steps compares every step with itself.

Results:
* `relates_runForm`, `relates_evaluateForm`: function bodies and expressions.
* `Parts.has_performSimple`, `Parts.has_performCompound`: the forms of statement.
-/

namespace Pseudocode

open Eval

/-! ## What may occur -/

/-- How a rule fails: with a fault that is charged to no statement yet, or by breaking down. The
number of statements is not the rules' affair. -/
def Halt.IsFailure : Halt → Prop
  | .fault cause line => cause ≠ .dispatchLimit ∧ line = 0
  | .breakdown _ => True
  | _ => False

theorem Halt.IsFailure.isBare {h : Halt} (hf : h.IsFailure) : h.IsBare := by
  cases h with
  | fault cause line => exact hf.2
  | breakdown b => trivial
  | _ => exact hf

theorem reasons_isFailure : Reasons Halt.IsFailure :=
  ⟨fun _ h => ⟨h, rfl⟩, trivial⟩

/-- The notes that the rules write. -/
inductive Note.IsRoutine : Note → Prop
  | registered (keyword name : String) : IsRoutine (.registered keyword name)
  | failed (line : Int) (message : String) : IsRoutine (.failed line message)
  | entered (kind : FrameKind) (name : String) (depth : Nat) :
      IsRoutine (.entered kind.name name depth)
  | left (kind : FrameKind) (name : String) : IsRoutine (.left kind.name name)
  | opened (name mode : String) (count : Nat) : IsRoutine (.opened name mode count)
  | closedRead (name : String) : IsRoutine (.closedRead name)
  | closedWritten (name : String) (count : Nat) : IsRoutine (.closedWritten name count)

/-- A call is allowed, or refused as a rule may fail. -/
theorem Machine.confined_depth (m : Machine) :
    Confined Halt.IsFailure (m.checkDepth (m.depth + 1)) :=
  m.confined_checkDepth reasons_isFailure _ fun _ => trivial

/-- Machines that agree on what the rules read, limits and calls apart. -/
structure Machine.Agrees (m m' : Machine) : Prop where
  memory : m'.memory = m.memory
  files : m'.files = m.files
  random : m'.random = m.random
  line : m'.line = m.line
  takesInput : m'.takesInput = m.takesInput
  echoWrites : m'.settings.echoWrites = m.settings.echoWrites
  procedure : ∀ name, m'.procedures.find? name = m.procedures.find? name
  function : ∀ name, m'.functions.find? name = m.functions.find? name

theorem Machine.Agrees.refl (m : Machine) : m.Agrees m :=
  ⟨rfl, rfl, rfl, rfl, rfl, rfl, fun _ => rfl, fun _ => rfl⟩

/-- What holds of two machines between steps, and how a step from the first compares with one from
the second. -/
structure Comparison where
  R : Machine → Machine → Prop
  At : ∀ {α : Type}, Machine → Machine → Eval α → Eval α → Prop
  agrees : ∀ {m m'}, R m m' → m.Agrees m'
  pure : ∀ {α : Type} {m m'}, R m m' → ∀ x : α, At m m' (pure x) (pure x)
  failed : ∀ {α : Type} {m m' h}, R m m' → h.IsFailure → At m m' (throw h : Eval α) (throw h)
  write : ∀ {α : Type} {m m'} {e e' : Eval α} {x memory}, R m m' →
    e m = .ok x { m with memory := memory } →
    e' m' = .ok x { m' with memory := memory } → At m m' e e'
  get : ∀ {α : Type} {m m'} {k k' : Machine → Eval α}, At m m' (k m) (k' m') →
    At m m' (get >>= k) (get >>= k')
  bind : ∀ {α β : Type} {m m'} {e e' : Eval α} {k k' : α → Eval β}, At m m' e e' →
    (∀ x n n', e m = .ok x n → R n n' → At n n' (k x) (k' x)) → At m m' (e >>= k) (e' >>= k')

/-- From all machines that are alike, two steps compare. -/
def Comparison.Relates (L : Comparison) {α : Type} (e e' : Eval α) : Prop :=
  ∀ m m', L.R m m' → L.At m m' e e'

/-- A comparison that allows calls of the functions that are known, if they consist of good
statements. -/
structure CallingComparison extends Comparison where
  good : Stmt → Prop
  known : ∀ {m m' name f}, R m m' → m.functions.find? name = some f → ∀ s ∈ f.body, good s
  draw : ∀ {m m'}, R m m' → ∀ x,
    At m m' (modify fun m => { m with random := x } : Eval Unit) (modify fun m =>
      { m with random := x })
  inCall : ∀ {α : Type} {e e' : Eval α} f, toComparison.Relates e e' →
    toComparison.Relates (Eval.inCall f e) (Eval.inCall f e')

/-- A comparison that allows what statements do beside: work on the files, notes, and rounds of
loops until a bound is exhausted. The bounds of the two executions may differ, as `Within` says. -/
structure PerformingComparison extends Comparison where
  shelve : ∀ {m m'}, R m m' → ∀ x,
    At m m' (modify fun m => { m with files := x } : Eval Unit) (modify fun m =>
      { m with files := x })
  note : ∀ {m m' x}, R m m' → x.IsRoutine → At m m' (note x) (note x)
  Within : Nat → Nat → Prop
  pred : ∀ {n n'}, Within (n + 1) (n' + 1) → Within n n'
  succ_left : ∀ {n n'}, Within (n + 1) n' → ∃ k, n' = k + 1
  exhausted : ∀ {α : Type} {n'} (rounds' : Nat → Eval α), Within 0 n' →
    rounds' 0 = throw .exhausted →
    toComparison.Relates (throw .exhausted) (rounds' n')

variable {L : Comparison} {C : CallingComparison} {P : PerformingComparison}

/-! ## One step after the other -/

section Sequences

variable {α β : Type} {e e' : Eval α}

theorem relates_pure (x : α) : L.Relates (pure x) (pure x) :=
  fun _ _ hR => L.pure hR x

theorem relates_fault {cause : Fault} (h : cause ≠ .dispatchLimit) :
    L.Relates (fault cause : Eval α) (fault cause) :=
  fun _ _ hR => L.failed hR ⟨h, rfl⟩

theorem relates_attempt {a : Attempt α} (ha : Confined Halt.IsFailure a) :
    L.Relates (attempt a) (attempt a) := by
  cases a with
  | ok x => exact relates_pure x
  | error h => exact fun _ _ hR => L.failed hR (ha h rfl)

/-- A step that only changes the variables. -/
theorem relates_write (f : Memory → α × Memory)
    (h : ∀ m, e m = .ok (f m.memory).1 { m with memory := (f m.memory).2 }) : L.Relates e e := by
  intro m m' hR
  refine L.write hR (h m) ?_
  rw [h m', (L.agrees hR).memory]

/-- Reading the machine. -/
theorem relates_get {k k' : Machine → Eval β} (h : ∀ m m', L.R m m' → L.Relates (k m) (k' m')) :
    L.Relates (get >>= k) (get >>= k') :=
  fun m m' hR => L.get (h m m' hR m m' hR)

/-- **The rule of sequence**, with the values that the first step can give. -/
theorem Comparison.Relates.bind_given {k k' : α → Eval β} (he : L.Relates e e')
    (hk : ∀ x, (∃ m n, e m = .ok x n) → L.Relates (k x) (k' x)) : L.Relates (e >>= k) (e' >>= k') :=
  fun m m' hR => L.bind (he m m' hR) fun x n n' hx hR => hk x ⟨m, n, hx⟩ n n' hR

theorem Comparison.Relates.bind {k k' : α → Eval β} (he : L.Relates e e')
    (hk : ∀ x, L.Relates (k x) (k' x)) : L.Relates (e >>= k) (e' >>= k') :=
  he.bind_given fun x _ => hk x

theorem relates_mapM {f f' : α → Eval β} {l : List α} (hf : ∀ x ∈ l, L.Relates (f x) (f' x)) :
    L.Relates (l.mapM f) (l.mapM f') := by
  induction l with
  | nil => exact relates_pure []
  | cons x rest ih =>
    rw [List.mapM_cons, List.mapM_cons]
    refine (hf x List.mem_cons_self).bind fun y => ?_
    exact (ih fun z hz => hf z (List.mem_cons_of_mem _ hz)).bind fun ys => relates_pure (y :: ys)

end Sequences

/-! ## Variables -/

section Variables

variable (scope : Scope) (name : String) (l : Location)

theorem relates_locateVariable :
    L.Relates (locateVariable scope name) (locateVariable scope name) := by
  refine relates_get fun m m' hR => ?_
  rw [(L.agrees hR).memory]
  exact relates_attempt (Memory.confined_locate reasons_isFailure _ scope name)

theorem relates_locateArray : L.Relates (locateArray scope name) (locateArray scope name) := by
  refine relates_get fun m m' hR => ?_
  rw [(L.agrees hR).memory]
  split
  · exact relates_fault (by simp)
  · split
    · exact relates_pure _
    · exact relates_fault (by simp)

theorem relates_variableAt : L.Relates (variableAt l name) (variableAt l name) := by
  refine relates_get fun m m' hR => ?_
  rw [(L.agrees hR).memory]
  split
  · exact relates_pure _
  · exact relates_fault (by simp)

theorem relates_readVariable : L.Relates (readVariable scope name) (readVariable scope name) := by
  refine (relates_locateVariable scope name).bind fun l =>
    (relates_variableAt name l).bind fun v => ?_
  split
  · exact relates_fault (by simp)
  · split
    · exact relates_pure _
    · exact relates_fault (by simp)

theorem relates_updateVariable (f : Variable → Variable) :
    L.Relates (updateVariable l f) (updateVariable l f) :=
  relates_write (fun x => ((), x.update l f)) fun _ => rfl

theorem relates_declareVariable (v : Variable) :
    L.Relates (declareVariable scope name v) (declareVariable scope name v) :=
  relates_write (fun x =>
    (((x.declare scope name v).1, (x.declare scope name v).2.1), (x.declare scope name v).2.2))
    fun _ => rfl

theorem relates_bindName : L.Relates (bindName scope name l) (bindName scope name l) :=
  relates_write (fun x => x.bind scope name l) fun _ => rfl

theorem relates_inputType (d : Destination) : L.Relates d.inputType d.inputType := by
  refine (relates_variableAt _ _).bind fun v => ?_
  split
  · exact relates_pure _
  · split
    · exact relates_pure _
    · exact relates_attempt (confined_breakDown trivial)

theorem relates_store (d : Destination) (value : Value) :
    L.Relates (d.store value) (d.store value) := by
  unfold Destination.store
  split
  · exact relates_updateVariable _ _
  · exact (relates_variableAt _ _).bind fun v =>
      (relates_attempt (v.confined_place reasons_isFailure _ _ fun _ _ => trivial)).bind fun _ =>
        relates_updateVariable _ _

theorem relates_performDeclare (typeName : String) (shape : Shape) :
    L.Relates (performDeclare scope name typeName shape)
      (performDeclare scope name typeName shape) :=
  (relates_attempt (confined_resolve reasons_isFailure _)).bind fun type =>
    (relates_attempt (shape.confined_variable type fun _ _ => trivial)).bind fun v =>
      (relates_declareVariable scope name v).bind fun _ => relates_pure _

/-! ## Counting loops -/

theorem relates_continues (c : Counter) : L.Relates c.continues c.continues := by
  refine relates_get fun m m' hR => ?_
  unfold Counter.value
  rw [(L.agrees hR).memory]
  split
  · exact relates_pure _
  · exact relates_fault (by simp)

theorem relates_advance (c : Counter) : L.Relates c.advance c.advance := by
  refine relates_get fun m m' hR => ?_
  unfold Counter.value
  rw [(L.agrees hR).memory]
  exact (relates_attempt (Value.confined_floor reasons_isFailure _ fun _ => trivial)).bind fun _ =>
    relates_updateVariable _ _

theorem relates_loopVariable : L.Relates (loopVariable scope name) (loopVariable scope name) := by
  refine relates_get fun m m' hR => ?_
  rw [(L.agrees hR).memory]
  split
  · exact relates_declareVariable _ _ _
  · refine (relates_variableAt _ _).bind fun v => ?_
    split
    · exact relates_fault (by simp)
    · exact relates_pure _

end Variables

/-! ## Steps with expressions inside -/

section Expressions

variable {expr expr' : Scope → Expr → Eval Value} {scope : Scope}

theorem relates_evaluateIndices {indices : List Expr}
    (hx : ∀ e ∈ indices, L.Relates (expr scope e) (expr' scope e)) :
    L.Relates (evaluateIndices (expr scope) indices) (evaluateIndices (expr' scope) indices) :=
  relates_mapM fun e he => (hx e he).bind fun v =>
    relates_attempt (confined_toIndex reasons_isFailure v)

theorem relates_condition {e : Expr} (hx : L.Relates (expr scope e) (expr' scope e))
    (keyword : String) :
    L.Relates (condition expr scope keyword e) (condition expr' scope keyword e) := by
  refine hx.bind fun v => ?_
  split
  · exact relates_pure _
  · exact relates_fault (by simp)

theorem relates_copyArgument {argument : Expr}
    (hx : L.Relates (expr scope argument) (expr' scope argument)) (p : Param) :
    L.Relates (copyArgument expr scope p argument) (copyArgument expr' scope p argument) := by
  unfold copyArgument
  split
  · refine relates_get fun m m' hR => ?_
    rw [(L.agrees hR).memory]
    dsimp only
    split
    · split
      · exact relates_pure _
      · exact relates_fault (by simp)
    · exact relates_fault (by simp)
  · exact hx.bind fun _ =>
      (relates_attempt (confined_resolve reasons_isFailure _)).bind fun _ => relates_pure _

theorem relates_bindArgument {argument : Expr}
    (hx : L.Relates (expr scope argument) (expr' scope argument)) (callee : Scope) (p : Param) :
    L.Relates (bindArgument expr scope callee p argument)
      (bindArgument expr' scope callee p argument) := by
  unfold bindArgument
  split
  · split
    · exact (relates_locateVariable scope _).bind fun l => relates_bindName callee p.name l
    · exact relates_fault (by simp)
  · exact (relates_copyArgument hx p).bind fun v =>
      (relates_declareVariable callee p.name v).bind fun _ => relates_pure _

theorem relates_bindArguments {arguments : List Expr}
    (hx : ∀ e ∈ arguments, L.Relates (expr scope e) (expr' scope e)) (callee : Scope)
    (params : List Param) :
    L.Relates (bindArguments expr scope callee params arguments)
      (bindArguments expr' scope callee params arguments) := by
  induction params generalizing callee arguments with
  | nil => exact relates_pure callee
  | cons p params ih =>
    cases arguments with
    | nil => exact relates_pure callee
    | cons argument arguments =>
      refine (relates_bindArgument (hx argument List.mem_cons_self) callee p).bind fun callee => ?_
      exact ih (fun e he => hx e (List.mem_cons_of_mem _ he)) callee

variable (hx : ∀ scope e, L.Relates (expr scope e) (expr' scope e)) (scope)
include hx

theorem relates_resolveTarget (t : Target) :
    L.Relates (resolveTarget expr scope t) (resolveTarget expr' scope t) := by
  cases t with
  | element line name indices =>
    exact (relates_locateArray scope name).bind fun l =>
        (relates_evaluateIndices fun e _ => hx scope e).bind fun is =>
      (relates_attempt (confined_elementLabel reasons_isFailure name is)).bind fun _ =>
        relates_pure _
  | var line name =>
    refine (relates_locateVariable scope name).bind fun l =>
      (relates_variableAt name l).bind fun v => ?_
    split
    · exact relates_fault (by simp)
    · exact relates_pure _
  | improper line => exact relates_attempt (confined_breakDown trivial)

theorem relates_performAssign (t : Target) (value : Expr) :
    L.Relates (performAssign expr scope t value) (performAssign expr' scope t value) :=
  (hx scope value).bind fun v => (relates_resolveTarget scope hx t).bind fun d => relates_store d v

theorem relates_chooseElse (otherwise : Option Block) (arms : List Arm) :
    L.Relates (chooseElse expr scope otherwise arms) (chooseElse expr' scope otherwise arms) := by
  induction arms with
  | nil => exact relates_pure _
  | cons arm rest ih =>
    refine (relates_condition (hx scope _) _).bind fun c => ?_
    cases c with
    | true => exact relates_pure _
    | false => exact ih

theorem relates_chooseIf (test : Expr) (body : Block) (arms : List Arm) (otherwise : Option Block) :
    L.Relates (chooseIf expr scope test body arms otherwise)
      (chooseIf expr' scope test body arms otherwise) := by
  refine (relates_condition (hx scope _) _).bind fun c => ?_
  cases c with
  | true => exact relates_pure _
  | false => exact relates_chooseElse scope hx otherwise arms

theorem relates_labelCovers (selector : Value) (label : CaseLabel) :
    L.Relates (labelCovers expr scope selector label) (labelCovers expr' scope selector label) := by
  cases label with
  | value e =>
    exact (hx scope e).bind fun v => relates_attempt (confined_equals reasons_isFailure selector v)
  | range line low high =>
    refine (hx scope low).bind fun a => (hx scope high).bind fun b => ?_
    split
    · exact relates_pure _
    · exact relates_fault (by simp)

theorem relates_chooseBranch (selector : Value) (otherwise : Option Block)
    (branches : List Branch) :
    L.Relates (chooseBranch expr scope selector otherwise branches)
      (chooseBranch expr' scope selector otherwise branches) := by
  induction branches with
  | nil => exact relates_pure _
  | cons branch rest ih =>
    refine (relates_labelCovers scope hx selector _).bind fun c => ?_
    cases c with
    | true => exact relates_pure _
    | false => exact ih

theorem relates_chooseCase (selector : Expr) (branches : List Branch) (otherwise : Option Block) :
    L.Relates (chooseCase expr scope selector branches otherwise)
      (chooseCase expr' scope selector branches otherwise) :=
  (hx scope selector).bind fun v => relates_chooseBranch scope hx v otherwise branches

theorem relates_loopBounds (start stop step : Expr) :
    L.Relates (loopBounds (expr scope) start stop step)
      (loopBounds (expr' scope) start stop step) := by
  refine (hx scope start).bind fun a => (hx scope stop).bind fun b =>
    (hx scope step).bind fun c => ?_
  split
  · exact relates_attempt (confined_floors reasons_isFailure _ _ _)
  · exact relates_fault (by simp)

theorem relates_startFor (name : String) (start stop step : Expr) :
    L.Relates (startFor expr scope name start stop step)
      (startFor expr' scope name start stop step) := by
  refine (relates_loopVariable scope name).bind fun found =>
    (relates_loopBounds found.2 hx start stop step).bind ?_
  rintro ⟨first, last, stride⟩
  dsimp only
  split
  · exact relates_fault (by simp)
  · exact (relates_updateVariable _ _).bind fun _ => relates_pure _

theorem relates_fileName (e : Expr) : L.Relates (fileName expr scope e) (fileName expr' scope e) :=
  (hx scope e).bind fun v => relates_attempt (confined_shown reasons_isFailure v)

theorem relates_outputLine (values : List Expr) :
    L.Relates (outputLine expr scope values) (outputLine expr' scope values) :=
  (relates_mapM fun e _ => relates_fileName scope hx e).bind fun _ => relates_pure _

end Expressions

/-! ## Calls -/

section Calls

theorem relates_runBlock {stmt stmt' : Scope → Stmt → Eval Outcome} {b : Block}
    (hs : ∀ s ∈ b, ∀ scope, L.Relates (stmt scope s) (stmt' scope s)) (scope : Scope) :
    L.Relates (runBlock stmt scope b) (runBlock stmt' scope b) := by
  induction b generalizing scope with
  | nil => exact relates_pure _
  | cons s rest ih =>
    refine (hs s List.mem_cons_self scope).bind ?_
    rintro ⟨scope, _ | value⟩
    · exact ih (fun t ht => hs t (List.mem_cons_of_mem _ ht)) scope
    · exact relates_pure _

theorem relates_drawFor (b : Builtin) : C.Relates (drawFor b) (drawFor b) := by
  refine relates_get fun m m' hR => ?_
  rw [(C.agrees hR).random]
  dsimp only
  split
  · exact Comparison.Relates.bind (fun _ _ hR => C.draw hR _) fun _ => relates_pure _
  · exact relates_pure _

variable {ev ev' : Evaluator} {scope : Scope}
  (hr : ∀ scope s, C.good s → C.Relates (ev.stmt scope s) (ev'.stmt scope s))

section Arguments

variable {arguments : List Expr}
  (hx : ∀ e ∈ arguments, C.Relates (ev.expr scope e) (ev'.expr scope e))
include hx

theorem relates_callBuiltin (b : Builtin) :
    C.Relates (callBuiltin ev scope b arguments) (callBuiltin ev' scope b arguments) := by
  refine (relates_attempt (confined_checkArity reasons_isFailure b _)).bind fun _ => ?_
  refine (relates_mapM hx).bind fun values => (relates_drawFor b).bind fun draw =>
    relates_get fun m m' hR => ?_
  rw [(C.agrees hR).files]
  exact relates_attempt (b.confined_apply reasons_isFailure _ draw values fun _ _ => trivial)

include hr

theorem relates_callFunction {f : Routine} (hf : ∀ s ∈ f.body, C.good s) (line : Int) :
    C.Relates (callFunction ev scope f arguments line)
      (callFunction ev' scope f arguments line) := by
  unfold callFunction
  split
  · exact relates_fault (by simp)
  · have hbody := (relates_bindArguments hx freshScope f.params).bind fun callee =>
      relates_runBlock (fun s hs scope => hr scope s (hf s hs)) callee
    refine (C.inCall ⟨f.name, line, .function⟩ hbody).bind ?_
    rintro ⟨_, _ | value⟩
    · exact relates_fault (by simp)
    · exact relates_pure _

theorem relates_callNamed (line : Int) (name : String) :
    C.Relates (callNamed ev scope line name arguments)
      (callNamed ev' scope line name arguments) := by
  unfold callNamed
  split
  · exact relates_callBuiltin hx _
  · refine relates_get fun m m' hR => ?_
    unfold Table.contains
    rw [(C.agrees hR).function, (C.agrees hR).line, (C.agrees hR).procedure]
    split
    · next f hf => exact relates_callFunction hr hx (C.known hR hf) _
    · split
      · exact relates_fault (by simp)
      · exact relates_fault (by simp)

end Arguments

include hr

/-- **An expression by its outermost form.** -/
theorem relates_evaluateForm {e : Expr}
    (hx : ∀ part ∈ e.parts, C.Relates (ev.expr scope part) (ev'.expr scope part)) :
    C.Relates (evaluateForm ev scope e) (evaluateForm ev' scope e) := by
  cases e with
  | literal line v => exact relates_pure v
  | var line name => exact relates_readVariable scope name
  | element line name indices =>
    exact (relates_locateArray scope name).bind fun l => (relates_evaluateIndices hx).bind fun is =>
      (relates_variableAt name l).bind fun v =>
        relates_attempt (v.confined_getElement reasons_isFailure name is fun _ _ => trivial)
  | binary line left op right =>
    exact (hx left (by simp [Expr.parts])).bind fun a =>
        (hx right (by simp [Expr.parts])).bind fun b =>
      relates_attempt (op.confined_apply reasons_isFailure a b fun _ _ => trivial)
  | unary line op operand =>
    exact (hx operand (by simp [Expr.parts])).bind fun a =>
      relates_attempt (op.confined_apply reasons_isFailure a)
  | call line name arguments => exact relates_callNamed hr hx line name
  | inert line kind => exact relates_fault (by simp)

end Calls

/-! ## Function bodies -/

section Bodies

variable {test test' : Scope → Eval Bool} {body body' : Scope → Eval Outcome}
  (ht : ∀ scope, P.Relates (test scope) (test' scope))
  (hb : ∀ scope, P.Relates (body scope) (body' scope)) {n n' : Nat}
  (hw : P.Within n n') (scope : Scope)
include hb hw

theorem relates_runFor (c : Counter) :
    P.Relates (runFor c body n scope) (runFor c body' n' scope) := by
  induction n generalizing n' scope with
  | zero => exact P.exhausted (runFor c body' · scope) hw rfl
  | succ n ih =>
    obtain ⟨k, rfl⟩ := P.succ_left hw
    refine (relates_continues c).bind fun goesOn => ?_
    cases goesOn with
    | false => exact relates_pure _
    | true =>
      refine (hb scope).bind ?_
      rintro ⟨scope, _ | value⟩
      · exact (relates_advance c).bind fun _ => ih (P.pred hw) scope
      · exact relates_pure _

include ht

theorem relates_runWhile :
    P.Relates (runWhile test body n scope) (runWhile test' body' n' scope) := by
  induction n generalizing n' scope with
  | zero => exact P.exhausted (runWhile test' body' · scope) hw rfl
  | succ n ih =>
    obtain ⟨k, rfl⟩ := P.succ_left hw
    refine (ht scope).bind fun c => ?_
    cases c with
    | false => exact relates_pure _
    | true =>
      refine (hb scope).bind ?_
      rintro ⟨scope, _ | value⟩
      · exact ih (P.pred hw) scope
      · exact relates_pure _

theorem relates_runRepeat :
    P.Relates (runRepeat test body n scope) (runRepeat test' body' n' scope) := by
  induction n generalizing n' scope with
  | zero => exact P.exhausted (runRepeat test' body' · scope) hw rfl
  | succ n ih =>
    obtain ⟨k, rfl⟩ := P.succ_left hw
    refine (hb scope).bind ?_
    rintro ⟨scope, _ | value⟩
    · refine (ht scope).bind fun c => ?_
      cases c with
      | true => exact relates_pure _
      | false => exact ih (P.pred hw) scope
    · exact relates_pure _

end Bodies

/-- **The forms of statement of a function body.** -/
theorem relates_runForm {ev ev' : Evaluator}
    (hx : ∀ scope e, P.Relates (ev.expr scope e) (ev'.expr scope e)) {n n' : Nat}
    (hw : P.Within n n') (scope : Scope) {form : Form} (hblock : ∀ b, b ∈ form.blocks ∨
      b = [] → ∀ scope, P.Relates (runBlock ev.stmt scope b) (runBlock ev'.stmt scope b)) :
    P.Relates (runForm ev n scope form) (runForm ev' n' scope form) := by
  cases form with
  | declare name typeName shape =>
    exact (relates_performDeclare scope name typeName shape).bind fun _ => relates_pure _
  | assign t value => exact (relates_performAssign scope hx t value).bind fun _ => relates_pure _
  | ifThen test body arms otherwise =>
    refine (relates_chooseIf scope hx test body arms otherwise).bind_given ?_
    rintro b ⟨_, _, hb⟩
    exact hblock b (chooseIf_mem hb) scope
  | caseOf selector branches otherwise =>
    refine (relates_chooseCase scope hx selector branches otherwise).bind_given ?_
    rintro b ⟨_, _, hb⟩
    exact hblock b (chooseCase_mem hb) scope
  | whileDo test body =>
    exact relates_runWhile (fun scope => relates_condition (hx scope test) _)
      (hblock body (.inl List.mem_cons_self)) hw scope
  | repeatUntil body test =>
    exact relates_runRepeat (fun scope => relates_condition (hx scope test) _)
      (hblock body (.inl List.mem_cons_self)) hw scope
  | forTo name start stop step body =>
    exact (relates_startFor scope hx name start stop step).bind fun started =>
      relates_runFor (hblock body (.inl List.mem_cons_self)) hw started.2 started.1
  | returnValue e => exact (hx scope e).bind fun _ => relates_pure _
  | _ => exact relates_fault (by simp)

/-! ## Parts of a run -/

/-- CALL statements. -/
def Form.isCall : Form → Bool
  | .call .. => true
  | _ => false

/-- The queries inside a statement: all but the announcements of statements. -/
def Query.IsInner : Query → Prop
  | .began _ | .ended _ => False
  | _ => True

/-- A relation of parts of runs, closed under sequence, that holds of steps that are related. -/
structure Parts (P : PerformingComparison) where
  Has : ∀ {α : Type}, Action α → Action α → Prop
  pure : ∀ {α : Type} (x : α), Has (pure x : Action α) (pure x)
  bind : ∀ {α β : Type} {a a' : Action α} {k k' : α → Action β}, Has a a' →
    (∀ x, Has (k x) (k' x)) →
    Has (a >>= k) (a' >>= k')
  step : ∀ {α β : Type} {e e' : Eval α} {k k' : α → Action β}, P.Relates e e' →
    (∀ x, (∃ m m' n, P.R m m' ∧ e m = .ok x n) → Has (k x) (k' x)) →
      Has ((liftM e : Action α) >>= k) ((liftM e' : Action α) >>= k')
  get : ∀ {β : Type} {k k' : Machine → Action β}, (∀ m m', P.R m m' → Has (k m) (k' m')) →
    Has ((liftM (MonadState.get : Eval Machine) : Action Machine) >>= k)
      ((liftM (MonadState.get : Eval Machine) : Action Machine) >>= k')
  exhausted : ∀ {n'} (rounds' : Nat → Action Scope), P.Within 0 n' →
    rounds' 0 = liftM (throw .exhausted : Eval Scope) →
      Has (liftM (throw .exhausted : Eval Scope)) (rounds' n')

theorem relates_onFiles {α : Type} (f : FileTable → Except FileFault (α × FileTable)) :
    P.Relates (onFiles f) (onFiles f) := by
  refine relates_get fun m m' hR => ?_
  rw [(P.agrees hR).files]
  split
  · exact Comparison.Relates.bind (fun _ _ hR => P.shelve hR _) fun _ => relates_pure _
  · exact relates_fault (by simp)

theorem relates_note {x : Note} (h : x.IsRoutine) : P.Relates (note x) (note x) :=
  fun _ _ hR => P.note hR h

namespace Parts

variable (S : Parts P) {α β : Type}

theorem lift {e e' : Eval α} (he : P.Relates e e') : S.Has (liftM e : Action α) (liftM e') := by
  have hstep := S.step he fun x _ => S.pure x
  exact hstep

/-- Parts after which nothing is left to do. -/
theorem returning {a a' : Action α} (ha : S.Has a a') (y : β) :
    S.Has (a >>= fun _ => Pure.pure y) (a' >>= fun _ => Pure.pure y) :=
  S.bind ha fun _ => S.pure y

/-! ## Input, output and files -/

section Queries

variable (hask : ∀ {q : Query}, q.IsInner → S.Has (Action.ask q) (Action.ask q))
include hask

theorem has_obtainUpload (name mode : String) :
    S.Has (obtainUpload name mode) (obtainUpload name mode) := by
  refine S.get fun m m' hR => ?_
  rw [(P.agrees hR).files]
  split
  · exact hask trivial
  · exact S.pure _

variable {expr expr' : Scope → Expr → Eval Value}
  (hx : ∀ scope e, P.Relates (expr scope e) (expr' scope e)) (scope : Scope)
include hx

theorem has_performInput (t : Target) :
    S.Has (performInput expr scope t) (performInput expr' scope t) := by
  refine S.get fun m m' hR => ?_
  rw [(P.agrees hR).takesInput]
  split
  · refine S.step (relates_resolveTarget scope hx t) fun d _ =>
      S.step (relates_inputType d) fun type _ => ?_
    refine S.bind (hask trivial) fun text => S.step ?_ fun _ _ => hask trivial
    exact (relates_attempt (confined_ofText reasons_isFailure type text)).bind (relates_store d)
  · exact S.lift (relates_fault (by simp))

theorem has_performOpen (name : Expr) (mode : String) :
    S.Has (performOpen expr scope name mode) (performOpen expr' scope name mode) := by
  refine S.step (relates_fileName scope hx name) fun name _ => ?_
  refine S.bind (S.has_obtainUpload hask name mode) fun upload =>
    S.step (relates_onFiles _) fun h _ => ?_
  exact S.step (relates_note (.opened _ _ _)) fun _ _ => hask trivial

theorem has_performClose (name : Expr) :
    S.Has (performClose expr scope name) (performClose expr' scope name) := by
  refine S.step (relates_fileName scope hx name) fun name _ =>
    S.step (relates_onFiles _) fun h _ => ?_
  refine S.step (relates_note ?_) fun _ _ => hask trivial
  split
  · exact .closedRead _
  · exact .closedWritten _ _

theorem has_performRead (name : Expr) (t : Target) :
    S.Has (performRead expr scope name t) (performRead expr' scope name t) := by
  refine S.step ?_ fun line _ => hask trivial
  refine (relates_fileName scope hx name).bind fun name => (relates_onFiles _).bind fun line => ?_
  refine (relates_resolveTarget scope hx t).bind fun d => (relates_inputType d).bind fun type => ?_
  refine (relates_attempt (confined_ofText reasons_isFailure type line)).bind fun v => ?_
  exact (relates_store d v).bind fun _ => relates_pure _

theorem has_performWrite (name data : Expr) :
    S.Has (performWrite expr scope name data) (performWrite expr' scope name data) := by
  refine S.step ?_ fun written _ => S.get fun m m' hR => ?_
  · refine (relates_fileName scope hx name).bind fun name => (hx scope data).bind fun v => ?_
    refine (relates_attempt (confined_shown reasons_isFailure v)).bind fun data => ?_
    exact (relates_onFiles _).bind fun _ => relates_pure _
  · rw [(P.agrees hR).echoWrites]
    split
    · exact hask trivial
    · exact S.pure _

/-- **The simple forms of statement.** -/
theorem has_performSimple (block block' : Scope → Block → Action Scope) (n n' : Nat) (line : Int)
    {form : Form} (hform : form.isCompound = false) (hregister : form.isDefinition →
      P.Relates (modify (·.register form) : Eval Unit) (modify (·.register form))) :
    S.Has (perform expr block n scope line form) (perform expr' block' n' scope line form) := by
  cases form with
  | declare name typeName shape => exact S.lift (relates_performDeclare scope name typeName shape)
  | assign t value => exact S.returning (S.lift (relates_performAssign scope hx t value)) scope
  | output values =>
    exact S.step (relates_outputLine scope hx values) fun text _ =>
      S.returning (hask (q := .output text) trivial) scope
  | input t => exact S.returning (S.has_performInput hask hx scope t) scope
  | fileOpen name mode => exact S.returning (S.has_performOpen hask hx scope name mode) scope
  | fileClose name => exact S.returning (S.has_performClose hask hx scope name) scope
  | fileRead name t => exact S.returning (S.has_performRead hask hx scope name t) scope
  | fileWrite name data => exact S.returning (S.has_performWrite hask hx scope name data) scope
  | returnValue e => exact S.lift (relates_fault (by simp))
  | inert kind => exact S.lift (relates_fault (by simp))
  | procedure name params body => exact S.returning (S.lift (hregister rfl)) scope
  | function name params returns body => exact S.returning (S.lift (hregister rfl)) scope
  | _ => cases hform

end Queries

/-! ## Blocks and loops -/

theorem has_executeBlock {stmt stmt' : Scope → Stmt → Action Scope} {b : Block}
    (hs : ∀ s ∈ b, ∀ scope, S.Has (stmt scope s) (stmt' scope s)) (scope : Scope) :
    S.Has (executeBlock stmt scope b) (executeBlock stmt' scope b) := by
  induction b generalizing scope with
  | nil => exact S.pure scope
  | cons s rest ih =>
    exact S.bind (hs s List.mem_cons_self scope) fun scope =>
      ih (fun t ht => hs t (List.mem_cons_of_mem _ ht)) scope

section Loops

variable {test test' : Scope → Eval Bool} {body body' : Scope → Action Scope}
  (ht : ∀ scope, P.Relates (test scope) (test' scope))
  (hb : ∀ scope, S.Has (body scope) (body' scope)) {n n' : Nat} (hw : P.Within n n') (scope : Scope)
include hb hw

theorem has_executeFor (c : Counter) :
    S.Has (executeFor c body n scope) (executeFor c body' n' scope) := by
  induction n generalizing n' scope with
  | zero => exact S.exhausted (executeFor c body' · scope) hw rfl
  | succ n ih =>
    obtain ⟨k, rfl⟩ := P.succ_left hw
    refine S.step (relates_continues c) fun goesOn _ => ?_
    cases goesOn with
    | true =>
      exact S.bind (hb scope) fun scope => S.step (relates_advance c) fun _ _ =>
        ih (P.pred hw) scope
    | false => exact S.pure scope

include ht

theorem has_executeWhile :
    S.Has (executeWhile test body n scope) (executeWhile test' body' n' scope) := by
  induction n generalizing n' scope with
  | zero => exact S.exhausted (executeWhile test' body' · scope) hw rfl
  | succ n ih =>
    obtain ⟨k, rfl⟩ := P.succ_left hw
    refine S.step (ht scope) fun c _ => ?_
    cases c with
    | true => exact S.bind (hb scope) fun scope => ih (P.pred hw) scope
    | false => exact S.pure scope

theorem has_executeRepeat :
    S.Has (executeRepeat test body n scope) (executeRepeat test' body' n' scope) := by
  induction n generalizing n' scope with
  | zero => exact S.exhausted (executeRepeat test' body' · scope) hw rfl
  | succ n ih =>
    obtain ⟨k, rfl⟩ := P.succ_left hw
    refine S.bind (hb scope) fun scope => S.step (ht scope) fun c _ => ?_
    cases c with
    | true => exact S.pure scope
    | false => exact ih (P.pred hw) scope

end Loops

/-- **The compound forms of statement**, with the blocks inside. -/
theorem has_performCompound {expr expr' : Scope → Expr → Eval Value}
    (hx : ∀ scope e, P.Relates (expr scope e) (expr' scope e))
    (block block' : Scope → Block → Action Scope) {n n' : Nat} (hw : P.Within n n') (scope : Scope)
    (line : Int) {form : Form} (hform : form.isCompound = true) (hblock : form.isCall = false →
      ∀ b, b ∈ form.blocks ∨ b = [] → ∀ scope, S.Has (block scope b) (block' scope b))
    (hcall : ∀ name arguments, form = .call name arguments →
      S.Has (performCall expr block scope name arguments line)
      (performCall expr' block' scope name arguments line)) :
    S.Has (perform expr block n scope line form) (perform expr' block' n' scope line form) := by
  cases form with
  | ifThen test body arms otherwise =>
    refine S.step (relates_chooseIf scope hx test body arms otherwise) ?_
    rintro b ⟨_, _, _, -, hb⟩
    exact hblock rfl b (chooseIf_mem hb) scope
  | caseOf selector branches otherwise =>
    refine S.step (relates_chooseCase scope hx selector branches otherwise) ?_
    rintro b ⟨_, _, _, -, hb⟩
    exact hblock rfl b (chooseCase_mem hb) scope
  | whileDo test body =>
    exact S.has_executeWhile (fun scope => relates_condition (hx scope test) _)
      (hblock rfl body (.inl List.mem_cons_self)) hw scope
  | repeatUntil body test =>
    exact S.has_executeRepeat (fun scope => relates_condition (hx scope test) _)
      (hblock rfl body (.inl List.mem_cons_self)) hw scope
  | forTo name start stop step body =>
    exact S.step (relates_startFor scope hx name start stop step) fun started _ =>
      S.has_executeFor (hblock rfl body (.inl List.mem_cons_self)) hw started.2 started.1
  | call name arguments => exact S.returning (hcall name arguments rfl) scope
  | _ => cases hform

end Parts

end Pseudocode

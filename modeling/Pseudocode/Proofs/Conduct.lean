import Mathlib.Order.Filter.AtTopBot.Basic
import Pseudocode.Proofs.Activity
import Pseudocode.Proofs.Attempts
import Pseudocode.Proofs.Forms

/-!
# How expressions and function bodies conduct themselves

A logic for one execution: `Settles T r scope m e after Q` says that the step `e`, from a machine
`m`, ends with `Q` or stops for a reason that the regime `T` tolerates, and that all it does on the
way is activity of the role `r`. There is one rule for each function of the evaluator, and callers
use the rule and never the function.

A step is given as a sequence `e 0, e 1, …`, one for each bound on the steps that may be taken, and
is judged by what all but finitely many of them do. That serves two purposes with one set of rules.
With a constant sequence the bound is fixed, and running out of it must be tolerated; with the
evaluator under its growing bounds, not to tolerate it means that the step comes to an end. The only
rules that need to know are those of the loops, by way of `Lasts`.

What a regime asks for is kept small: tolerate everything but want of steps, assume of the machine
what no activity destroys, and let the bodies of known functions consist of `good` statements.

Results:
* `Settles.bind`: the rule of sequence.
* `settles_inCall`: a call is left on every way out, and binds its parameters before its body runs.
* `settles_runForm`, `settles_runDispatched`: the statements of function bodies.
* `settles_evaluateForm`: expressions; what they lend is what calls pass by reference.
-/

namespace Pseudocode

open Eval Filter

/-- What is assumed while a program runs: which reasons to stop are tolerated, what holds of the
machine between steps, and which statements run. -/
structure Regime where
  ok : Halt → Prop
  pre : Machine → Prop
  good : Stmt → Prop
  ok_of_ne : ∀ {h}, h ≠ .exhausted → ok h
  stable : Stable pre
  function_good : ∀ {m name f}, pre m → m.functions.find? name = some f → ∀ s ∈ f.body, good s

/-- From a scope and a machine, all but finitely many of the steps `e 0, e 1, …` do the same: they
act in the role `r` and end with a value and a machine for which `Q` holds, in the scope that
`after` tells, or they stop for a tolerated reason. For a single step the sequence is constant. -/
inductive Settles (T : Regime) (r : Role) (scope : Scope) (m : Machine) {α : Type}
    (e : Nat → Eval α) (after : α → Scope) (Q : α → Machine → Prop) : Prop
  | ends (x : α) (m' : Machine) (he : ∀ᶠ n in atTop, e n m = .ok x m')
      (acts : Acts r scope m (after x) m') (pre : T.pre m') (post : Q x m')
  | stops (h : Halt) (m' : Machine) (scope' : Scope) (he : ∀ᶠ n in atTop, e n m = .error h m')
      (acts : Acts r scope m scope' m') (ok : T.ok h)

/-- A step of an expression: it calls at most, and passes only names in `lent` by reference. -/
abbrev Computes (T : Regime) (lent : String → Prop) (scope : Scope) (m : Machine) {α : Type}
    (e : Nat → Eval α) (Q : α → Machine → Prop) : Prop :=
  Settles T (.calling lent Nothing) scope m e (fun _ => scope) Q

/-! ## One step after the other -/

section Sequences

variable {T : Regime} {r : Role} {scope : Scope} {m : Machine} {α β : Type} {e : Nat → Eval α}
  {after : α → Scope} {after' : β → Scope} {Q : α → Machine → Prop} {Q' : β → Machine → Prop}
  {lent own : String → Prop} {held : Location → Prop} {out out' : Machine → Machine → Prop}

theorem settles_pure {x : α} (hm : T.pre m) (hq : Q x m) (hscope : after x = scope) :
    Settles T r scope m (fun _ => pure x) after Q :=
  .ends x m (.of_forall fun _ => rfl) (hscope ▸ .refl) hm hq

theorem settles_throw {h : Halt} (hok : T.ok h) : Settles T r scope m (fun _ => throw h) after Q :=
  .stops h m scope (.of_forall fun _ => rfl) .refl hok

theorem settles_fault (cause : Fault) : Settles T r scope m (fun _ => fault cause) after Q :=
  settles_throw (T.ok_of_ne nofun)

theorem settles_attempt {a : Attempt α} (hm : T.pre m) (ha : Confined Halt.IsBare a) :
    Settles T r scope m (fun _ => attempt a) (fun _ => scope) fun x m' => a = .ok x ∧ m' = m := by
  cases a with
  | ok x => exact settles_pure hm ⟨rfl, rfl⟩ rfl
  | error h => exact settles_throw (T.ok_of_ne (ha h rfl).ne_exhausted)

theorem Settles.congr {e' : Nat → Eval α} (h : Settles T r scope m e after Q)
    (he : ∀ᶠ n in atTop, e' n m = e n m) : Settles T r scope m e' after Q := by
  rcases h with ⟨x, m', hx, acts, hm', hq⟩ | ⟨h, m', scope', hh, acts, hok⟩
  · exact .ends x m' (he.mp (hx.mono fun n h₁ h₂ => h₂.trans h₁)) acts hm' hq
  · exact .stops h m' scope' (he.mp (hh.mono fun n h₁ h₂ => h₂.trans h₁)) acts hok

/-- What holds from the first step on holds of all steps but finitely many. -/
theorem Settles.shift (h : Settles T r scope m (fun n => e (n + 1)) after Q) :
    Settles T r scope m e after Q := by
  rcases h with ⟨x, m', hx, acts, hm', hq⟩ | ⟨h, m', scope', hh, acts, hok⟩
  · exact .ends x m' (by rwa [← map_add_atTop_eq_nat 1, eventually_map]) acts hm' hq
  · exact .stops h m' scope' (by rwa [← map_add_atTop_eq_nat 1, eventually_map]) acts hok

/-- A regime that assumes less and tolerates more. -/
theorem Settles.weaken {T' : Regime} (h : Settles T' r scope m e after Q)
    (hpre : ∀ m, T'.pre m → T.pre m) (hok : ∀ h, T'.ok h → T.ok h) :
    Settles T r scope m e after Q := by
  rcases h with ⟨x, m', hx, acts, hm', hq⟩ | ⟨h, m', scope', hh, acts, hok'⟩
  · exact .ends x m' hx acts (hpre m' hm') hq
  · exact .stops h m' scope' hh acts (hok h hok')

theorem Settles.imp {Q' : α → Machine → Prop} (h : Settles T r scope m e after Q)
    (hq : ∀ x m', Acts r scope m (after x) m' → Q x m' → Q' x m') :
    Settles T r scope m e after Q' := by
  rcases h with ⟨x, m', hx, acts, hm', post⟩ | ⟨h, m', scope', hh, acts, hok⟩
  · exact .ends x m' hx acts hm' (hq x m' acts post)
  · exact .stops h m' scope' hh acts hok

theorem Settles.done (h : Settles T r scope m e after Q) :
    Settles T r scope m e after fun _ _ => True :=
  h.imp fun _ _ _ _ => trivial

/-- What the steps end with is the result of one of them. -/
theorem Settles.result (h : Settles T r scope m e after Q) :
    Settles T r scope m e after fun x m' => Q x m' ∧ ∃ n, e n m = .ok x m' := by
  rcases h with ⟨x, m', hx, acts, hm', post⟩ | ⟨h, m', scope', hh, acts, hok⟩
  · exact .ends x m' hx acts hm' ⟨post, hx.exists⟩
  · exact .stops h m' scope' hh acts hok

/-- **The rule of sequence.** -/
theorem Settles.bind {k : Nat → α → Eval β} (h : Settles T r scope m e after Q)
    (hk : ∀ x m', T.pre m' → Acts r scope m (after x) m' → Q x m' →
      Settles T r (after x) m' (fun n => k n x) after' Q') :
    Settles T r scope m (fun n => e n >>= k n) after' Q' := by
  rcases h with ⟨x, m', hx, acts, hm', post⟩ | ⟨h, m', scope', hh, acts, hok⟩
  · rcases hk x m' hm' acts post with ⟨y, m₁, hy, acts₁, hm₁, post₁⟩ | ⟨h, m₁,
      scope₁, hh, acts₁, hok⟩
    · refine .ends y m₁ ?_ (acts.trans acts₁) hm₁ post₁
      filter_upwards [hx, hy] with n hx hy
      exact bind_eq_ok.mpr ⟨x, m', hx, hy⟩
    · refine .stops h m₁ scope₁ ?_ (acts.trans acts₁) hok
      filter_upwards [hx, hh] with n hx hh
      exact bind_eq_error.mpr (Or.inr ⟨x, m', hx, hh⟩)
  · refine .stops h m' scope' ?_ acts hok
    filter_upwards [hh] with n hh
    exact bind_eq_error.mpr (Or.inl hh)

/-- Reading the machine. -/
theorem settles_get {k : Nat → Machine → Eval β}
    (h : Settles T r scope m (fun n => k n m) after' Q') :
    Settles T r scope m (fun n => get >>= k n) after' Q' :=
  h.congr (.of_forall fun _ => rfl)

theorem settles_mapM {f : Nat → α → Eval β} {l : List α}
    (hf : ∀ x ∈ l, ∀ m, T.pre m →
      Settles T r scope m (fun n => f n x) (fun _ => scope) fun _ _ => True) (hm : T.pre m) :
    Settles T r scope m (fun n => l.mapM (f n)) (fun _ => scope) fun _ _ => True := by
  induction l generalizing m with
  | nil => exact settles_pure hm trivial rfl
  | cons x rest ih =>
    simp only [List.mapM_cons]
    refine (hf x List.mem_cons_self m hm).bind fun y m₁ hm₁ _ _ => ?_
    refine (ih (fun z hz => hf z (List.mem_cons_of_mem x hz)) hm₁).bind fun ys m₂ hm₂ _ _ => ?_
    exact settles_pure hm₂ trivial rfl

/-- An expression, or a CALL, inside a statement. -/
theorem Settles.inner (hown : ∀ x, lent x → own x) (hout : ∀ m m', out' m m' → out m m')
    (h : Settles T (.calling lent out') scope m e (fun _ => scope) Q) :
    Settles T (.running own held out) scope m e (fun _ => scope) Q := by
  rcases h with ⟨x, m', hx, acts, hm', post⟩ | ⟨h, m', scope', hh, acts, hok⟩
  · exact .ends x m' hx (.inner hown hout acts) hm' post
  · obtain rfl := acts.scope_eq
    exact .stops h m' scope' hh (.inner hown hout acts) hok

/-- An expression inside a statement: every name stays bound as it is. -/
theorem Computes.inner (h : Computes T lent scope m e Q) :
    Settles T (.running Everything held out) scope m e (fun _ => scope) fun x m' =>
      Q x m' ∧ ∀ other name, m'.memory.lookup? other name = m.memory.lookup? other name :=
  Settles.inner (fun _ _ => trivial) (fun _ _ h => h.elim)
    (h.imp fun _ _ acts hq => ⟨hq, acts.lookup?_eq⟩)

/-- An expression as an argument. -/
theorem Computes.argument {callee : Scope} (h : Computes T lent scope m e Q) :
    Settles T (.binding scope lent) callee m e (fun _ => callee) Q := by
  rcases h with ⟨x, m', hx, acts, hm', post⟩ | ⟨h, m', scope', hh, acts, hok⟩
  · exact .ends x m' hx (.argument acts) hm' post
  · obtain rfl := acts.scope_eq
    exact .stops h m' callee hh (.argument acts) hok

/-- A reason to stop that is charged to a line leaves a note at most, and stays tolerated. -/
theorem Acts.charged {scope' : Scope} {m' : Machine} {h : Halt}
    (acts : Acts (.running own held out) scope m scope' m') (hok : T.ok h) (line : Int) :
    Acts (.running own held out) scope m scope' (m'.charge line h).2 ∧
      T.ok (m'.charge line h).1 := by
  unfold Machine.charge
  split
  · exact ⟨acts.trans (.note _), T.ok_of_ne nofun⟩
  · exact ⟨acts, hok⟩

theorem settles_located (line : Int) (h : Settles T (.running own held out) scope m e after Q) :
    Settles T (.running own held out) scope m (fun n => located line (e n)) after Q := by
  rcases h with ⟨x, m', hx, acts, hm', post⟩ | ⟨h, m', scope', hh, acts, hok⟩
  · refine .ends x m' ?_ acts hm' post
    filter_upwards [hx] with n hx
    exact located_ok line hx
  · obtain ⟨acts, hok⟩ := acts.charged hok line
    refine .stops _ _ scope' ?_ acts hok
    filter_upwards [hh] with n hh
    exact located_error line hh

end Sequences

/-- An expression settles from every machine of the regime. -/
abbrev Settled (T : Regime) (lent : String → Prop) (scope : Scope)
    (expr : Nat → Scope → Expr → Eval Value) (e : Expr) : Prop :=
  ∀ m, T.pre m → Computes T lent scope m (fun n => expr n scope e) fun _ _ => True

section Rules

variable {T : Regime} {lent : String → Prop} {scope : Scope} {m : Machine}
  {held : Location → Prop} {out : Machine → Machine → Prop}

/-! ## Variables -/

theorem settles_locateVariable (hm : T.pre m) (name : String) :
    Computes T lent scope m (fun _ => locateVariable scope name)
      fun l m' => m'.memory.lookup? scope name = some l := by
  refine settles_get ((settles_attempt hm (Memory.confined_locate reasons_isBare _ _ _)).imp ?_)
  rintro l _ - ⟨hl, rfl⟩
  unfold Memory.locate at hl
  split at hl
  · cases hl
    assumption
  · cases hl

theorem settles_locateArray (hm : T.pre m) (name : String) :
    Computes T lent scope m (fun _ => locateArray scope name)
      fun l m' => m'.memory.lookup? scope name = some l := by
  refine settles_get ?_
  split
  · exact settles_fault _
  · split
    · exact settles_pure hm ‹_› rfl
    · exact settles_fault _

theorem settles_variableAt (hm : T.pre m) (l : Location) (name : String) :
    Computes T lent scope m (fun _ => variableAt l name) fun _ _ => True := by
  refine settles_get ?_
  split
  · exact settles_pure hm trivial rfl
  · exact settles_fault _

theorem settles_readVariable (hm : T.pre m) (name : String) :
    Computes T lent scope m (fun _ => readVariable scope name) fun _ _ => True := by
  refine (settles_locateVariable hm name).bind fun l m₁ hm₁ _ _ => ?_
  refine (settles_variableAt hm₁ l name).bind fun v m₂ hm₂ _ _ => ?_
  split
  · exact settles_fault _
  · split
    · exact settles_pure hm₂ trivial rfl
    · exact settles_fault _

/-- A statement writes a variable that a name is bound to, or that a loop around it holds. -/
theorem settles_updateVariable {own : String → Prop} (hm : T.pre m) {l : Location}
    (f : Variable → Variable) (hl : (∃ x, own x ∧ m.memory.lookup? scope x = some l) ∨ held l) :
    Settles T (.running own held out) scope m (fun _ => updateVariable l f) (fun _ => scope)
      fun _ m' => m' = { m with memory := m.memory.update l f } :=
  .ends () _ (.of_forall fun _ => rfl) (.write f hl) (T.stable.memory _ hm) rfl

/-- A statement binds a name to a new variable. -/
theorem settles_declareVariable (hm : T.pre m) (name : String) (v : Variable) :
    Settles T (.running Everything held out) scope m (fun _ =>
      declareVariable scope name v) Prod.snd fun p m' => m'.memory.lookup? p.2 name = some p.1 := by
  refine .ends _ _ (.of_forall fun _ => rfl) (.declare name v) (T.stable.memory _ hm) ?_
  cases scope <;> simp [Memory.lookup?, Table.find?_insert]

variable {expr : Nat → Scope → Expr → Eval Value}

theorem settles_evaluateIndices {indices : List Expr}
    (hx : ∀ e ∈ indices, Settled T lent scope expr e) (hm : T.pre m) :
    Computes T lent scope m (fun n => evaluateIndices (expr n scope) indices) fun _ _ => True := by
  refine settles_mapM (fun e he m hm => ?_) hm
  exact (hx e he m hm).bind fun v m₁ hm₁ _ _ =>
    (settles_attempt hm₁ (confined_toIndex reasons_isBare v)).done

theorem settles_inputType (hm : T.pre m) (d : Destination) :
    Computes T lent scope m (fun _ => d.inputType) fun _ _ => True := by
  refine (settles_variableAt hm d.location d.name).bind fun v m₁ hm₁ _ _ => ?_
  split
  · exact settles_pure hm₁ trivial rfl
  · split
    · exact settles_pure hm₁ trivial rfl
    · exact (settles_attempt hm₁ (confined_breakDown trivial)).done

theorem settles_store (hm : T.pre m) (d : Destination) (value : Value)
    (hd : m.memory.lookup? scope d.name = some d.location) :
    Settles T (.running Everything held out) scope m (fun _ => d.store value) (fun _ => scope)
      fun _ _ => True := by
  unfold Destination.store
  split
  · exact (settles_updateVariable hm _ (Or.inl ⟨d.name, trivial, hd⟩)).done
  · have hread : Computes T (fun _ => False) scope m (fun _ => variableAt d.location d.name)
        fun _ _ => True := settles_variableAt hm d.location d.name
    refine hread.inner.bind fun v m₁ hm₁ _ hnames => ?_
    refine (settles_attempt hm₁ (v.confined_place reasons_isBare _ _ fun _ _ => trivial)).bind
      fun k m₂ hm₂ _ hk => ?_
    obtain ⟨-, rfl⟩ := hk
    exact (settles_updateVariable hm₂ _ (Or.inl ⟨d.name, trivial, (hnames.2 _ _).trans hd⟩)).done

/-- A target is resolved to the variable that its name is bound to. -/
theorem settles_resolveTarget (hx : ∀ e, Settled T lent scope expr e) (hm : T.pre m) (t : Target) :
    Computes T lent scope m (fun n => resolveTarget (expr n) scope t)
      fun d m' => m'.memory.lookup? scope d.name = some d.location := by
  cases t with
  | element line name indices =>
    refine (settles_locateArray hm name).bind fun l m₁ hm₁ _ hl => ?_
    refine (settles_evaluateIndices (fun e _ => hx e) hm₁).bind fun is m₂ hm₂ acts _ => ?_
    refine (settles_attempt hm₂ (confined_elementLabel reasons_isBare name is)).bind
      fun label m₃ hm₃ acts' _ => ?_
    exact settles_pure hm₃ (((acts.trans acts').lookup?_eq scope name).trans hl) rfl
  | var line name =>
    refine (settles_locateVariable hm name).bind fun l m₁ hm₁ _ hl => ?_
    refine (settles_variableAt hm₁ l name).bind fun v m₂ hm₂ acts _ => ?_
    split
    · exact settles_fault _
    · exact settles_pure hm₂ ((acts.lookup?_eq scope name).trans hl) rfl
  | improper line =>
    exact (settles_attempt hm (confined_breakDown trivial)).imp fun _ _ _ h => nomatch h.1

/-! ## Simple statements -/

theorem settles_performDeclare (hm : T.pre m) (name typeName : String) (shape : Shape) :
    Settles T (.running Everything held out) scope m
      (fun _ => performDeclare scope name typeName shape) id fun _ _ => True := by
  refine (settles_attempt hm (confined_resolve reasons_isBare _)).bind fun type m₁ hm₁ _ _ => ?_
  refine (settles_attempt hm₁ (shape.confined_variable type fun _ _ => trivial)).bind
    fun v m₂ hm₂ _ _ => ?_
  refine (settles_declareVariable hm₂ name v).bind fun p m₃ hm₃ _ _ => ?_
  exact settles_pure hm₃ trivial rfl

theorem settles_performAssign (hx : ∀ e, Settled T lent scope expr e) (hm : T.pre m) (t : Target)
    (value : Expr) :
    Settles T (.running Everything held out) scope m (fun n => performAssign (expr n) scope t value)
      (fun _ => scope) fun _ _ => True := by
  refine (hx value m hm).inner.bind fun v m₁ hm₁ _ _ => ?_
  refine (settles_resolveTarget hx hm₁ t).inner.bind fun d m₂ hm₂ _ hd => ?_
  exact settles_store hm₂ d v hd.1

/-! ## Choosing a branch -/

theorem settles_condition {e : Expr} (hx : Settled T lent scope expr e) (hm : T.pre m)
    (keyword : String) :
    Computes T lent scope m (fun n => condition (expr n) scope keyword e) fun _ _ => True := by
  refine (hx m hm).bind fun v m₁ hm₁ _ _ => ?_
  split
  · exact settles_pure hm₁ trivial rfl
  · exact settles_fault _

section Choices

variable (hx : ∀ e, Settled T lent scope expr e) (hm : T.pre m)
include hx hm

theorem settles_chooseElse (otherwise : Option Block) (arms : List Arm) :
    Computes T lent scope m (fun n => chooseElse (expr n) scope otherwise arms)
      fun _ _ => True := by
  induction arms generalizing m with
  | nil => exact settles_pure hm trivial rfl
  | cons arm rest ih =>
    refine (settles_condition (hx _) hm _).bind fun c m₁ hm₁ _ _ => ?_
    cases c with
    | true => exact settles_pure hm₁ trivial rfl
    | false => exact ih hm₁

theorem settles_chooseIf (test : Expr) (body : Block) (arms : List Arm) (otherwise : Option Block) :
    Computes T lent scope m (fun n => chooseIf (expr n) scope test body arms otherwise)
      fun b _ => b ∈ (Form.ifThen test body arms otherwise).blocks ∨ b = [] := by
  have hchoose : Computes T lent scope m
      (fun n => chooseIf (expr n) scope test body arms otherwise) fun _ _ => True := by
    refine (settles_condition (hx _) hm _).bind fun c m₁ hm₁ _ _ => ?_
    cases c with
    | true => exact settles_pure hm₁ trivial rfl
    | false => exact settles_chooseElse hx hm₁ otherwise arms
  exact hchoose.result.imp fun b m' _ ⟨_, _, hb⟩ => chooseIf_mem hb

theorem settles_labelCovers (selector : Value) (label : CaseLabel) :
    Computes T lent scope m (fun n => labelCovers (expr n) scope selector label)
      fun _ _ => True := by
  cases label with
  | value e =>
    exact (hx e m hm).bind fun v m₁ hm₁ _ _ =>
      (settles_attempt hm₁ (confined_equals reasons_isBare selector v)).done
  | range line low high =>
    refine (hx low m hm).bind fun a m₁ hm₁ _ _ => ?_
    refine (hx high m₁ hm₁).bind fun b m₂ hm₂ _ _ => ?_
    split
    · exact settles_pure hm₂ trivial rfl
    · exact settles_fault _

theorem settles_chooseBranch (selector : Value) (otherwise : Option Block)
    (branches : List Branch) :
    Computes T lent scope m (fun n => chooseBranch (expr n) scope selector otherwise branches)
      fun _ _ => True := by
  induction branches generalizing m with
  | nil => exact settles_pure hm trivial rfl
  | cons branch rest ih =>
    refine (settles_labelCovers hx hm selector branch.label).bind fun c m₁ hm₁ _ _ => ?_
    cases c with
    | true => exact settles_pure hm₁ trivial rfl
    | false => exact ih hm₁

theorem settles_chooseCase (selector : Expr) (branches : List Branch) (otherwise : Option Block) :
    Computes T lent scope m (fun n => chooseCase (expr n) scope selector branches otherwise)
      fun b _ => b ∈ (Form.caseOf selector branches otherwise).blocks ∨ b = [] := by
  have hchoose : Computes T lent scope m
      (fun n => chooseCase (expr n) scope selector branches otherwise) fun _ _ => True :=
    (hx selector m hm).bind fun v m₁ hm₁ _ _ =>
      settles_chooseBranch hx hm₁ v otherwise branches
  exact hchoose.result.imp fun b m' _ ⟨_, _, hb⟩ => chooseCase_mem hb

end Choices

/-! ## Counting loops -/

/-- The variable of a loop is the one that its name is bound to. -/
theorem settles_loopVariable (hm : T.pre m) (name : String) :
    Settles T (.running Everything held out) scope m (fun _ => loopVariable scope name) Prod.snd
      fun p m' => m'.memory.lookup? p.2 name = some p.1 := by
  refine settles_get ?_
  split
  · exact settles_declareVariable hm name _
  · rename_i l hl
    have hread : Computes T (fun _ => False) scope m (fun _ => variableAt l name) fun _ _ => True :=
      settles_variableAt hm l name
    refine hread.inner.bind fun v m₁ hm₁ _ hnames => ?_
    split
    · exact settles_fault _
    · exact settles_pure hm₁ ((hnames.2 scope name).trans hl) rfl

theorem settles_loopBounds (hx : ∀ e, Settled T lent scope expr e) (hm : T.pre m)
    (start stop step : Expr) :
    Computes T lent scope m (fun n => loopBounds (expr n scope) start stop step)
      fun _ _ => True := by
  refine (hx start m hm).bind fun a m₁ hm₁ _ _ => ?_
  refine (hx stop m₁ hm₁).bind fun b m₂ hm₂ _ _ => ?_
  refine (hx step m₂ hm₂).bind fun c m₃ hm₃ _ _ => ?_
  split
  · exact (settles_attempt hm₃ (confined_floors reasons_isBare _ _ _)).done
  · exact settles_fault _

theorem settles_startFor (hx : ∀ scope e, Settled T lent scope expr e) (hm : T.pre m)
    (name : String) (start stop step : Expr) :
    Settles T (.running Everything held out) scope m
      (fun n => startFor (expr n) scope name start stop step) Prod.snd
      fun p m' => p.1.step ≠ 0 ∧ m'.memory.lookup? p.2 name = some p.1.location := by
  refine (settles_loopVariable hm name).bind fun p m₁ hm₁ _ hp => ?_
  obtain ⟨l, after⟩ := p
  refine (settles_loopBounds (hx after) hm₁ start stop step).inner.bind
    fun bounds m₂ hm₂ _ hnames => ?_
  obtain ⟨a, b, c⟩ := bounds
  have hl : m₂.memory.lookup? after name = some l := (hnames.2 after name).trans hp
  dsimp only
  split
  · exact settles_fault _
  · rename_i hc
    refine (settles_updateVariable hm₂ _ (Or.inl ⟨name, trivial, hl⟩)).bind fun _ m₃ hm₃ _ h₃ => ?_
    refine settles_pure hm₃ ⟨hc, ?_⟩ rfl
    rw [h₃]
    exact (Memory.lookup?_congr rfl after name).trans hl

theorem settles_continues (hm : T.pre m) (c : Counter) :
    Computes T lent scope m (fun _ => c.continues) fun _ m' => m' = m := by
  refine settles_get ?_
  split
  · exact settles_pure hm rfl rfl
  · exact settles_fault _

/-- A loop moves on the variable that it holds. -/
theorem settles_advance (hm : T.pre m) (c : Counter) (hc : held c.location) :
    Settles T (.running Everything held out) scope m (fun _ => c.advance) (fun _ => scope)
      fun _ _ => True := by
  refine settles_get ?_
  have hfloor := (c.value m).confined_floor reasons_isBare fun _ => trivial
  refine (settles_attempt hm hfloor).bind fun n m₁ hm₁ _ _ => ?_
  exact (settles_updateVariable hm₁ _ (Or.inr hc)).done

/-! ## Calls -/

theorem settles_copyArgument {p : Param} {argument : Expr} (hx : Settled T lent scope expr argument)
    (hm : T.pre m) :
    Computes T lent scope m (fun n => copyArgument (expr n) scope p argument) fun _ _ => True := by
  unfold copyArgument
  split
  · refine settles_get ?_
    dsimp only
    split
    · split
      · exact settles_pure hm trivial rfl
      · exact settles_fault _
    · exact settles_fault _
  · refine (hx m hm).bind fun v m₁ hm₁ _ _ => ?_
    refine (settles_attempt hm₁ (confined_resolve reasons_isBare _)).bind fun type m₂ hm₂ _ _ => ?_
    exact settles_pure hm₂ trivial rfl

/-- A parameter is bound to its argument; only a variable for a parameter by reference is lent. -/
theorem settles_bindArgument {callee : Scope} {p : Param} {argument : Expr}
    (hx : Settled T lent scope expr argument)
    (hlent : ∀ line x, argument = .var line x → p.mode = .byRef → lent x) (hm : T.pre m) :
    Settles T (.binding scope lent) callee m (fun n =>
      bindArgument (expr n) scope callee p argument) id fun _ _ => True := by
  unfold bindArgument
  cases hmode : p.mode with
  | byRef =>
    cases argument with
    | var line x =>
      refine (settles_locateVariable hm x).argument.bind fun l m₁ hm₁ _ hl => ?_
      exact .ends _ _ (.of_forall fun _ => rfl) (.refer p.name (hlent line x rfl hmode) hl)
        (T.stable.memory _ hm₁) trivial
    | _ => exact settles_fault _
  | byVal =>
    refine (settles_copyArgument hx hm).argument.bind fun v m₁ hm₁ _ _ => ?_
    have hdeclare : Settles T (.binding scope lent) callee m₁
        (fun _ => declareVariable callee p.name v) Prod.snd fun _ _ => True :=
      .ends _ _ (.of_forall fun _ => rfl) (.copy p.name v) (T.stable.memory _ hm₁) trivial
    exact hdeclare.bind fun q m₂ hm₂ _ _ => settles_pure hm₂ trivial rfl

theorem settles_bindArguments {callee : Scope} {params : List Param} {arguments : List Expr}
    (hx : ∀ e ∈ arguments, Settled T lent scope expr e)
    (hlent : ∀ p line x, (p, Expr.var line x) ∈ params.zip arguments → p.mode = .byRef → lent x)
    (hm : T.pre m) :
    Settles T (.binding scope lent) callee m
      (fun n => bindArguments (expr n) scope callee params arguments) id fun _ _ => True := by
  induction params generalizing callee arguments m with
  | nil => exact settles_pure hm trivial rfl
  | cons p params ih =>
    cases arguments with
    | nil => exact settles_pure hm trivial rfl
    | cons argument arguments =>
      refine (settles_bindArgument (hx argument List.mem_cons_self) ?_ hm).bind
        fun after m₁ hm₁ _ _ => ?_
      · rintro line x rfl hmode
        exact hlent p line x (by simp) hmode
      · refine ih (fun e he => hx e (List.mem_cons_of_mem _ he)) (fun q line x hq => ?_) hm₁
        exact hlent q line x (List.mem_cons_of_mem _ hq)

/-- A call: its parameters are bound, then its body runs; it is left on every way out. -/
theorem settles_inCall {α : Type} {bindings : Nat → Eval Scope} {body : Nat → Scope → Eval α}
    {after : α → Scope} (f : CallFrame)
    (hbind : Settles T (.binding scope lent) freshScope (m.enterCall f) bindings id fun _ _ => True)
    (hbody : ∀ callee m, T.pre m →
      Settles T (.running Everything Unheld out) callee m (fun n => body n callee) after
        fun _ _ => True) :
    Settles T (.calling lent out) scope m (fun n => inCall f (bindings n >>= body n))
      (fun _ => scope) fun _ _ => True := by
  cases hdepth : m.checkDepth (m.depth + 1) with
  | error h =>
    exact .stops h m scope (.of_forall fun n => inCall_refused hdepth) .refl
      (T.ok_of_ne
        (Machine.confined_checkDepth reasons_isBare _ _ (fun _ => trivial) h hdepth).ne_exhausted)
  | ok u =>
    rcases hbind with ⟨callee, m₁, hb, acts, hm₁, -⟩ | ⟨h, m₁, callee, hb, acts, hok⟩
    · rcases hbody callee m₁ hm₁ with ⟨x, m₂, hx, acts', hm₂, -⟩ | ⟨h, m₂, callee', hx, acts', hok⟩
      · refine .ends x (m₂.leaveCall f) ?_ (.call f acts acts') (T.stable.leaveCall f hm₂) trivial
        filter_upwards [hb, hx] with n hb hx
        exact inCall_ok hdepth (bind_eq_ok.mpr ⟨callee, m₁, hb, hx⟩)
      · refine .stops h (m₂.leaveCall f) scope ?_ (.call f acts acts') hok
        filter_upwards [hb, hx] with n hb hx
        exact inCall_error hdepth (bind_eq_error.mpr (Or.inr ⟨callee, m₁, hb, hx⟩))
    · refine .stops h (m₁.leaveCall f) scope ?_ (.call f acts .refl) hok
      filter_upwards [hb] with n hb
      exact inCall_error hdepth (bind_eq_error.mpr (Or.inl hb))

end Rules

/-! ## Blocks and loops -/

/-- A loop whose rounds lead from machine to machine by `step` comes to its end before its bound on
rounds gives out, or it may be cut short there. -/
inductive Lasts (ok : Halt → Prop) (step : Machine → Machine → Prop) : (Nat → Nat) → Machine → Prop
  | spent {bound : Nat → Nat} {m : Machine} (hb : ∀ᶠ n in atTop, bound n = 0)
      (hok : ok .exhausted) : Lasts ok step bound m
  | more {bound : Nat → Nat} {m : Machine} (hb : ∀ᶠ n in atTop, bound n ≠ 0)
      (next : ∀ m', step m m' → Lasts ok step (fun n => bound n - 1) m') : Lasts ok step bound m

section Loops

variable {T : Regime} {lent : String → Prop} {scope : Scope} {m : Machine} {held : Location → Prop}
  {b : Block}

theorem settles_runBlock {stmt : Nat → Scope → Stmt → Eval Outcome}
    (hs : ∀ s ∈ b, ∀ scope m, T.pre m → Settles T (.running Everything held Nothing) scope m
      (fun n => stmt n scope s) Prod.fst fun _ m' => Counts m m') (hm : T.pre m) :
    Settles T (.running Everything held Nothing) scope m (fun n =>
      runBlock (stmt n) scope b) Prod.fst fun _ m' => b.Spends m m' := by
  induction b generalizing scope m with
  | nil => exact settles_pure hm rfl rfl
  | cons s rest ih =>
    have hrest : ∀ after m₁, T.pre m₁ → Counts m m₁ →
        Settles T (.running Everything held Nothing) after m₁
          (fun n => runBlock (stmt n) after rest) Prod.fst
          fun _ m' => Block.Spends (s :: rest) m m' := by
      intro after m₁ hm₁ hc
      refine (ih (fun t ht => hs t (List.mem_cons_of_mem s ht)) hm₁).imp fun _ m' acts _ => ?_
      exact hc.after acts aside_nothing
    refine (hs s List.mem_cons_self scope m hm).bind fun outcome m₁ hm₁ _ hc => ?_
    obtain ⟨after, result⟩ := outcome
    cases result with
    | some value => exact settles_pure hm₁ hc rfl
    | none => exact hrest after m₁ hm₁ hc

variable {r : Role} {α : Type} {after : α → Scope} {Q : α → Machine → Prop} {bound : Nat → Nat}

theorem settles_spent {f : Nat → Nat → Eval α} (hb : ∀ᶠ n in atTop, bound n = 0)
    (hok : T.ok .exhausted) (h0 : ∀ n, f n 0 = throw .exhausted) :
    Settles T r scope m (fun n => f n (bound n)) after Q :=
  (settles_throw hok).congr (hb.mono fun n hn => by rw [hn, h0])

theorem settles_more {f : Nat → Nat → Eval α} (hb : ∀ᶠ n in atTop, bound n ≠ 0)
    (h : Settles T r scope m (fun n => f n (bound n - 1 + 1)) after Q) :
    Settles T r scope m (fun n => f n (bound n)) after Q :=
  h.congr (hb.mono fun n hn => by rw [Nat.sub_add_cancel (Nat.pos_of_ne_zero hn)])

variable {step : Machine → Machine → Prop} {test : Nat → Scope → Eval Bool}
  {body : Nat → Scope → Eval Outcome}
  (hbody : ∀ scope m, T.pre m → Settles T (.running Everything held Nothing) scope m
    (fun n => body n scope) Prod.fst fun _ m' => b.Spends m m')
include hbody

theorem settles_runWhile (hl : Lasts T.ok step bound m)
    (ht : ∀ scope m, T.pre m → Computes T lent scope m (fun n => test n scope) fun _ _ => True)
    (hstep : ∀ m m', (b ≠ [] → Counts m m') → step m m') (hm : T.pre m) :
    Settles T (.running Everything held Nothing) scope m
      (fun n => runWhile (test n) (body n) (bound n) scope) Prod.fst fun _ _ => True := by
  induction hl generalizing scope with
  | spent hb hok =>
    exact settles_spent (f := fun n k => runWhile (test n) (body n) k scope) hb hok fun _ => rfl
  | more hb _ ih =>
    refine settles_more (f := fun n k => runWhile (test n) (body n) k scope) hb ?_
    refine (ht scope _ hm).inner.bind fun c m₁ hm₁ acts _ => ?_
    cases c with
    | false => exact settles_pure hm₁ trivial rfl
    | true =>
      refine (hbody scope m₁ hm₁).bind fun outcome m₂ hm₂ _ hspent => ?_
      obtain ⟨after, result⟩ := outcome
      cases result with
      | some value => exact settles_pure hm₂ trivial rfl
      | none =>
        exact ih m₂ (hstep _ _ fun hb => (hspent.counts hb).before acts aside_nothing) hm₂

theorem settles_runRepeat (hl : Lasts T.ok step bound m)
    (ht : ∀ scope m, T.pre m → Computes T lent scope m (fun n => test n scope) fun _ _ => True)
    (hstep : ∀ m m', (b ≠ [] → Counts m m') → step m m') (hm : T.pre m) :
    Settles T (.running Everything held Nothing) scope m
      (fun n => runRepeat (test n) (body n) (bound n) scope) Prod.fst fun _ _ => True := by
  induction hl generalizing scope with
  | spent hb hok =>
    exact settles_spent (f := fun n k => runRepeat (test n) (body n) k scope) hb hok fun _ => rfl
  | more hb _ ih =>
    refine settles_more (f := fun n k => runRepeat (test n) (body n) k scope) hb ?_
    refine (hbody scope _ hm).bind fun outcome m₁ hm₁ _ hspent => ?_
    obtain ⟨after, result⟩ := outcome
    cases result with
    | some value => exact settles_pure hm₁ trivial rfl
    | none =>
      refine (ht after m₁ hm₁).inner.bind fun c m₂ hm₂ acts _ => ?_
      cases c with
      | true => exact settles_pure hm₂ trivial rfl
      | false => exact ih m₂ (hstep _ _ fun hb => (hspent.counts hb).after acts aside_nothing) hm₂

theorem settles_runFor {c : Counter} (hl : Lasts T.ok step bound m)
    (hstep : ∀ m m₁ m', c.continues m = .ok true m → b.Spends m m₁ → c.advance m₁ = .ok () m' →
      step m m') (hc : held c.location) (hm : T.pre m) :
    Settles T (.running Everything held Nothing) scope m (fun n =>
      runFor c (body n) (bound n) scope) Prod.fst fun _ _ => True := by
  induction hl generalizing scope with
  | spent hb hok =>
    exact settles_spent (f := fun n k => runFor c (body n) k scope) hb hok fun _ => rfl
  | @more _ m hb _ ih =>
    have htest : Computes T (fun _ => False) scope m (fun _ => c.continues) fun goesOn m' =>
        m' = m ∧ ∃ _ : Nat, c.continues m = .ok goesOn m' := (settles_continues hm c).result
    refine settles_more (f := fun n k => runFor c (body n) k scope) hb ?_
    refine htest.inner.bind fun goesOn m₁ hm₁ _ hgoes => ?_
    obtain ⟨⟨rfl, -, hgoes⟩, -⟩ := hgoes
    cases goesOn with
    | false => exact settles_pure hm₁ trivial rfl
    | true =>
      refine (hbody scope m₁ hm₁).bind fun outcome m₂ hm₂ _ hspent => ?_
      obtain ⟨after, result⟩ := outcome
      cases result with
      | some value => exact settles_pure hm₂ trivial rfl
      | none =>
        refine (settles_advance hm₂ c hc).result.bind fun _ m₃ hm₃ _ hmoved => ?_
        obtain ⟨-, -, hmoved⟩ := hmoved
        exact ih m₃ (hstep _ m₂ m₃ hgoes hspent hmoved) hm₃

end Loops

/-! ## Function bodies -/

/-- The rounds of a loop last: those of WHILE and REPEAT if a round that counts a statement brings
the end nearer, those of FOR if a round does. -/
def Form.RoundsLast (T : Regime) (bound : Nat → Nat) : Form → Prop
  | .whileDo _ b | .repeatUntil b _ =>
    ∃ step, (∀ m m', (b ≠ [] → Counts m m') → step m m') ∧
      ∀ m, T.pre m → Lasts T.ok step bound m
  | .forTo _ _ _ _ b =>
    ∀ c : Counter, c.step ≠ 0 → ∃ step,
      (∀ m m₁ m', c.continues m = .ok true m → Block.Spends b m m₁ → c.advance m₁ = .ok () m' →
        step m m') ∧
      ∀ m, T.pre m → Lasts T.ok step bound m
  | _ => True

section Bodies

variable {T : Regime} {lent : String → Prop} {scope : Scope} {m : Machine} {held : Location → Prop}
  {out : Machine → Machine → Prop} {expr : Nat → Scope → Expr → Eval Value}
  {stmt : Nat → Scope → Stmt → Eval Outcome} {bound : Nat → Nat}

/-- A loop holds its variable while its rounds go on. -/
theorem Settles.hold {α : Type} {e : Nat → Eval α} {after : α → Scope} {Q : α → Machine → Prop}
    {x : String} {l : Location} (hl : m.memory.lookup? scope x = some l)
    (h : Settles T (.running Everything (fun k => held k ∨ k = l) out) scope m e after Q) :
    Settles T (.running Everything held out) scope m e after Q := by
  rcases h with ⟨x, m', hx, acts, hm', post⟩ | ⟨h, m', scope', hh, acts, hok⟩
  · exact .ends x m' hx (.hold trivial hl acts) hm' post
  · exact .stops h m' scope' hh (.hold trivial hl acts) hok

/-- A statement of a function body settles, whatever loops are around it. -/
abbrev Performs (T : Regime) (stmt : Nat → Scope → Stmt → Eval Outcome) (s : Stmt) : Prop :=
  ∀ held scope m, T.pre m → Settles T (.running Everything held Nothing) scope m
    (fun n => stmt n scope s) Prod.fst fun _ m' => Counts m m'

/-- **The forms of a function body**, as soon as the expressions and statements inside settle. -/
theorem settles_runForm {form : Form} (hx : ∀ scope e, Settled T lent scope expr e)
    (hs : ∀ b ∈ form.blocks, ∀ s ∈ b, Performs T stmt s) (hl : form.RoundsLast T bound)
    (hm : T.pre m) :
    Settles T (.running Everything held Nothing) scope m
      (fun n => runForm ⟨expr n, stmt n⟩ (bound n) scope form) Prod.fst fun _ _ => True := by
  have hblock : ∀ b, b ∈ form.blocks ∨ b = [] → ∀ held scope m, T.pre m →
      Settles T (.running Everything held Nothing) scope m (fun n =>
        runBlock (stmt n) scope b) Prod.fst fun _ m' => Block.Spends b m m' := by
    rintro b (hb | rfl) held scope m hm
    · exact settles_runBlock (fun s hs' => hs b hb s hs' held) hm
    · exact settles_pure hm rfl rfl
  cases form with
  | declare name typeName shape =>
    exact (settles_performDeclare hm name typeName shape).bind fun after m₁ hm₁ _ _ =>
      settles_pure hm₁ trivial rfl
  | assign t value =>
    exact (settles_performAssign (hx scope) hm t value).bind fun _ m₁ hm₁ _ _ =>
      settles_pure hm₁ trivial rfl
  | ifThen test body arms otherwise =>
    exact (settles_chooseIf (hx scope) hm test body arms otherwise).inner.bind
      fun b m₁ hm₁ _ hb => (hblock b hb.1 held scope m₁ hm₁).done
  | caseOf selector branches otherwise =>
    exact (settles_chooseCase (hx scope) hm selector branches otherwise).inner.bind
      fun b m₁ hm₁ _ hb => (hblock b hb.1 held scope m₁ hm₁).done
  | whileDo test body =>
    obtain ⟨step, hstep, hlasts⟩ := hl
    exact settles_runWhile (hblock body (Or.inl List.mem_cons_self) held) (hlasts m hm)
      (fun scope m hm => settles_condition (hx scope test) hm _) hstep hm
  | repeatUntil body test =>
    obtain ⟨step, hstep, hlasts⟩ := hl
    exact settles_runRepeat (hblock body (Or.inl List.mem_cons_self) held) (hlasts m hm)
      (fun scope m hm => settles_condition (hx scope test) hm _) hstep hm
  | forTo name start stop step body =>
    refine (settles_startFor hx hm name start stop step).bind fun started m₁ hm₁ _ hc => ?_
    obtain ⟨hne, hname⟩ := hc
    obtain ⟨step, hstep, hlasts⟩ := hl started.1 hne
    exact (settles_runFor (hblock body (Or.inl List.mem_cons_self) _) (hlasts m₁ hm₁) hstep
      (Or.inr rfl) hm₁).hold hname
  | returnValue e =>
    exact (hx scope e m hm).inner.bind fun v m₁ hm₁ _ _ => settles_pure hm₁ trivial rfl
  | _ => exact settles_fault _

/-- A dispatch counts the statement, whether or not it goes ahead. -/
theorem dispatch_cases (line : Int) (m : Machine) :
    (∃ h, h ≠ .exhausted ∧ dispatch line m = .error h m.counted) ∨
      (m.settings.maxDispatches.allows (m.dispatches + 1) = .ok true ∧
        dispatch line m = .ok () (m.counted.reached line)) := by
  rw [dispatch_apply]
  cases hallows : m.settings.maxDispatches.allows (m.dispatches + 1) with
  | error h =>
    exact Or.inl
      ⟨h, Halt.IsBare.ne_exhausted (Limit.confined_allows _ _ (fun _ => trivial) h hallows), rfl⟩
  | ok allowed =>
    cases allowed with
    | false => exact Or.inl ⟨.fault .dispatchLimit line, nofun, rfl⟩
    | true =>
      dsimp only
      split
      · exact Or.inl ⟨.cancelled m.line, nofun, rfl⟩
      · exact Or.inr ⟨rfl, rfl⟩

theorem settles_dispatch {own : String → Prop} (hm : T.pre m) (line : Int) :
    Settles T (.running own held out) scope m (fun _ => dispatch line) (fun _ => scope)
      fun _ m' => Counts m m' := by
  rcases dispatch_cases line m with ⟨h, hne, hd⟩ | ⟨hallowed, hd⟩
  · exact .stops h _ scope (.of_forall fun _ => hd) .counted (T.ok_of_ne hne)
  · exact .ends () _ (.of_forall fun _ => hd) (Acts.counted.trans (.reached line))
      (T.stable.reached line (T.stable.counted hm)) ⟨rfl, hallowed, Nat.lt_succ_self _⟩

/-- **A statement of a function body**, as soon as its form settles after the dispatch. -/
theorem settles_runDispatched {s : Stmt} (hm : T.pre m)
    (hform : ∀ m₁, T.pre m₁ → Counts m m₁ → Settles T (.running Everything held Nothing) scope m₁
      (fun n => runForm ⟨expr n, stmt n⟩ (bound n) scope s.form) Prod.fst fun _ _ => True) :
    Settles T (.running Everything held Nothing) scope m
      (fun n => runDispatched ⟨expr n, stmt n⟩ (bound n) scope s) Prod.fst
      fun _ m' => Counts m m' := by
  refine (settles_dispatch hm s.line).bind fun _ m₁ hm₁ _ hcounts => ?_
  split
  · exact (settles_located s.line (hform m₁ hm₁ hcounts)).imp fun _ m' acts _ =>
      hcounts.after acts aside_nothing
  · exact settles_throw (T.ok_of_ne nofun)

end Bodies

/-! ## Expressions -/

/-- A variable is passed to a parameter by reference. -/
def Routine.Borrows (f : Routine) (arguments : List Expr) (x : String) : Prop :=
  ∃ p line, (p, Expr.var line x) ∈ f.params.zip arguments ∧ p.mode = .byRef

section Expressions

variable {T : Regime} {lent : String → Prop} {scope : Scope} {m : Machine}
  {expr : Nat → Scope → Expr → Eval Value} {stmt : Nat → Scope → Stmt → Eval Outcome}
  {arguments : List Expr}

theorem settles_callFunction {f : Routine} (hx : ∀ e ∈ arguments, Settled T lent scope expr e)
    (hs : ∀ s ∈ f.body, Performs T stmt s) (hlent : ∀ x, f.Borrows arguments x → lent x)
    (hm : T.pre m) (line : Int) :
    Computes T lent scope m (fun n => callFunction ⟨expr n, stmt n⟩ scope f arguments line)
      fun _ _ => True := by
  unfold callFunction
  split
  · exact settles_fault _
  · have hbind : ∀ frame, Settles T (.binding scope lent) freshScope (m.enterCall frame)
        (fun n => bindArguments (expr n) scope freshScope f.params arguments) id fun _ _ => True :=
      fun frame => settles_bindArguments hx (fun p l x hp hmode => hlent x ⟨p, l, hp, hmode⟩)
        (T.stable.enterCall frame hm)
    have hbody : ∀ callee m, T.pre m → Settles T (.running Everything Unheld Nothing) callee m
        (fun n => runBlock (stmt n) callee f.body) Prod.fst fun _ _ => True :=
      fun callee m hm => (settles_runBlock (fun s hs' => hs s hs' Unheld) hm).done
    refine (settles_inCall _ (hbind _) hbody).bind fun outcome m₁ hm₁ _ _ => ?_
    obtain ⟨after, result⟩ := outcome
    cases result with
    | some value => exact settles_pure hm₁ trivial rfl
    | none => exact settles_fault _

theorem settles_drawFor (hm : T.pre m) (b : Builtin) :
    Computes T lent scope m (fun _ => drawFor b) fun _ _ => True := by
  refine settles_get ?_
  dsimp only
  split
  · exact .ends _ _ (.of_forall fun _ => rfl) (.draw _) (T.stable.random _ hm) trivial
  · exact settles_pure hm trivial rfl

theorem settles_callBuiltin (hx : ∀ e ∈ arguments, Settled T lent scope expr e) (hm : T.pre m)
    (b : Builtin) :
    Computes T lent scope m (fun n => callBuiltin ⟨expr n, stmt n⟩ scope b arguments)
      fun _ _ => True := by
  refine (settles_attempt hm (confined_checkArity reasons_isBare b _)).bind fun _ m₁ hm₁ _ _ => ?_
  refine (settles_mapM hx hm₁).bind fun values m₂ hm₂ _ _ => ?_
  refine (settles_drawFor hm₂ b).bind fun draw m₃ hm₃ _ _ => ?_
  exact settles_get
    (settles_attempt hm₃ (b.confined_apply reasons_isBare _ _ _ fun _ _ => trivial)).done

/-- A function is called by name; only what its parameters borrow is lent. -/
theorem settles_callNamed {name : String} (hx : ∀ e ∈ arguments, Settled T lent scope expr e)
    (hs : ∀ s, T.good s → Performs T stmt s)
    (hlent : Builtin.ofName? name = none → ∀ f, m.functions.find? name = some f →
      ∀ x, f.Borrows arguments x → lent x) (hm : T.pre m) (line : Int) :
    Computes T lent scope m (fun n => callNamed ⟨expr n, stmt n⟩ scope line name arguments)
      fun _ _ => True := by
  unfold callNamed
  cases hname : Builtin.ofName? name with
  | some b => exact settles_callBuiltin hx hm b
  | none =>
    refine settles_get ?_
    cases hf : m.functions.find? name with
    | some f =>
      exact settles_callFunction hx (fun s hs' => hs s (T.function_good hm hf s hs'))
        (hlent hname f hf) hm _
    | none =>
      dsimp only
      split
      · exact settles_fault _
      · exact settles_fault _

/-- **Expressions**, as soon as their parts and the statements of functions settle. -/
theorem settles_evaluateForm {e : Expr} (hx : ∀ part ∈ e.parts, Settled T lent scope expr part)
    (hs : ∀ s, T.good s → Performs T stmt s)
    (hlent : ∀ line name arguments, e = .call line name arguments → Builtin.ofName? name = none →
      ∀ f, m.functions.find? name = some f → ∀ x, f.Borrows arguments x → lent x) (hm : T.pre m) :
    Computes T lent scope m (fun n => evaluateForm ⟨expr n, stmt n⟩ scope e) fun _ _ => True := by
  cases e with
  | literal line v => exact settles_pure hm trivial rfl
  | var line name => exact settles_readVariable hm name
  | element line name indices =>
    refine (settles_locateArray hm name).bind fun l m₁ hm₁ _ _ => ?_
    refine (settles_evaluateIndices hx hm₁).bind fun is m₂ hm₂ _ _ => ?_
    refine (settles_variableAt hm₂ l name).bind fun v m₃ hm₃ _ _ => ?_
    exact (settles_attempt hm₃
      (v.confined_getElement reasons_isBare name is fun _ _ => trivial)).done
  | binary line left op right =>
    refine (hx left (by simp [Expr.parts]) m hm).bind fun a m₁ hm₁ _ _ => ?_
    refine (hx right (by simp [Expr.parts]) m₁ hm₁).bind fun b m₂ hm₂ _ _ => ?_
    exact (settles_attempt hm₂ (op.confined_apply reasons_isBare a b fun _ _ => trivial)).done
  | unary line op operand =>
    refine (hx operand (by simp [Expr.parts]) m hm).bind fun a m₁ hm₁ _ _ => ?_
    exact (settles_attempt hm₁ (op.confined_apply reasons_isBare a)).done
  | call line name arguments =>
    exact settles_callNamed hx hs (hlent line name arguments rfl) hm line
  | inert line kind => exact settles_fault _

end Expressions

end Pseudocode

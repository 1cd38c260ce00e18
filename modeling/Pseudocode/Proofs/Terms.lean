import Pseudocode.Proofs.Course
import Pseudocode.Proofs.Storing

/-!
# The terms on which a program runs

Which reasons a program can have to stop depends on what occurs in it, and on what it comes to
there: only a MOD has the remainder of an infinite number taken (`Expr.MeetsInfinity`), only a FOR
loop moves its variable on, and cannot move it on from a text (`Form.FindsText`). `Terms` gives the
expressions and statements that occur, closed under taking parts, and the reasons to stop that may
come of them. `Eval.Abides T e m post` says that the step `e`, from a machine on the terms `T`, ends
on them, with `post` of what it gives, or stops for a reason that they have. There is one rule for
each step of the evaluator, and the two at the end close the circle.

A sound machine rules out most ways to break down: what is found as an array has cells, what is
assigned is a variable, and what is declared has bounds. A FOR loop never finds its variable without
a number when it asks whether to go on: the variable has just been assigned a whole number by the
start of the loop, or by its last step, which has broken down if it found a text.

Results:
* `abides_advance`: moving a loop variable on, with what happens to one that holds no number.
* `abides_runFor`: a FOR loop finds a whole number in its variable at the start of each round.
* `evaluate_abides`: an expression gives a proper value or stops for a reason that the terms have.
-/

namespace Pseudocode

open Eval

/-! ## What occurs in a program -/

/-- The indices of a target. -/
def Target.indices : Target → List Expr
  | .element _ _ indices => indices
  | _ => []

/-- The expressions of a CASE label. -/
def CaseLabel.operands : CaseLabel → List Expr
  | .value e => [e]
  | .range _ low high => [low, high]

/-- The expressions that a form has itself, outside its blocks. -/
def Form.operands : Form → List Expr
  | assign t value => value :: t.indices
  | output values => values
  | input t => t.indices
  | ifThen test _ arms _ => test :: arms.map Arm.condition
  | whileDo test _ | repeatUntil _ test => [test]
  | forTo _ start stop step _ => [start, stop, step]
  | caseOf selector branches _ => selector :: branches.flatMap (·.label.operands)
  | call _ arguments => arguments
  | returnValue e | fileOpen e _ | fileClose e => [e]
  | fileRead name t => name :: t.indices
  | fileWrite name data => [name, data]
  | _ => []

theorem Expr.Writable.part {e x : Expr} (h : e.Writable) (hx : x ∈ e.parts) : x.Writable := by
  cases h with
  | literal => cases hx
  | var => cases hx
  | element _ _ _ hi => exact hi x hx
  | binary _ _ hl hr =>
    simp only [Expr.parts, List.mem_cons, List.not_mem_nil, or_false] at hx
    rcases hx with rfl | rfl
    · exact hl
    · exact hr
  | not _ he => exact List.mem_singleton.mp hx ▸ he
  | neg _ he => exact List.mem_singleton.mp hx ▸ he
  | call _ _ ha => exact ha x hx

theorem Target.Writable.index {t : Target} {e : Expr} (h : t.Writable) (he : e ∈ t.indices) :
    e.Writable := by
  cases h with
  | var => cases he
  | element _ _ _ hi => exact hi e he

theorem CaseLabel.Writable.operand {label : CaseLabel} {e : Expr} (h : label.Writable)
    (he : e ∈ label.operands) : e.Writable := by
  cases h with
  | value hv => exact List.mem_singleton.mp he ▸ hv
  | range _ hl hh =>
    simp only [CaseLabel.operands, List.mem_cons, List.not_mem_nil, or_false] at he
    rcases he with rfl | rfl
    · exact hl
    · exact hh

theorem Form.Writable.operand {form : Form} {e : Expr} (h : form.Writable)
    (he : e ∈ form.operands) : e.Writable := by
  cases h with
  | declare => cases he
  | assign ht hv =>
    rcases List.mem_cons.mp he with rfl | he
    · exact hv
    · exact ht.index he
  | output _ hv => exact hv e he
  | input ht => exact ht.index he
  | ifThen hc _ hac _ _ =>
    rcases List.mem_cons.mp he with rfl | he
    · exact hc
    · obtain ⟨a, ha, rfl⟩ := List.mem_map.mp he
      exact hac a ha
  | whileDo hc _ => exact List.mem_singleton.mp he ▸ hc
  | repeatUntil hc _ => exact List.mem_singleton.mp he ▸ hc
  | forTo _ h₁ h₂ h₃ _ =>
    simp only [Form.operands, List.mem_cons, List.not_mem_nil, or_false] at he
    rcases he with rfl | rfl | rfl
    · exact h₁
    · exact h₂
    · exact h₃
  | caseOf hs hl _ _ _ =>
    rcases List.mem_cons.mp he with rfl | he
    · exact hs
    · obtain ⟨b, hb, he⟩ := List.mem_flatMap.mp he
      exact (hl b hb).operand he
  | procedure => cases he
  | function => cases he
  | call _ ha => exact ha e he
  | returnValue hv => exact List.mem_singleton.mp he ▸ hv
  | fileOpen hn _ => exact List.mem_singleton.mp he ▸ hn
  | fileClose hn => exact List.mem_singleton.mp he ▸ hn
  | fileRead hn ht =>
    rcases List.mem_cons.mp he with rfl | he
    · exact hn
    · exact ht.index he
  | fileWrite hn hd =>
    simp only [Form.operands, List.mem_cons, List.not_mem_nil, or_false] at he
    rcases he with rfl | rfl
    · exact hn
    · exact hd

theorem Form.Writable.inside {form : Form} (h : form.Writable) {b : Block} (hb : b ∈ form.blocks)
    {t : Stmt} (ht : t ∈ b) : t.form.Writable := by
  cases h with
  | ifThen _ hbody _ harms ho =>
    simp only [Form.blocks, List.mem_cons, List.mem_append, List.mem_map, Option.mem_toList] at hb
    rcases hb with rfl | ⟨a, ha, rfl⟩ | hb
    · exact hbody t ht
    · exact harms a ha t ht
    · exact ho b hb t ht
  | whileDo _ hbody => exact hbody t (List.mem_singleton.mp hb ▸ ht)
  | repeatUntil _ hbody => exact hbody t (List.mem_singleton.mp hb ▸ ht)
  | forTo _ _ _ _ hbody => exact hbody t (List.mem_singleton.mp hb ▸ ht)
  | caseOf _ _ _ hbranches ho =>
    simp only [Form.blocks, List.mem_append, List.mem_map, Option.mem_toList] at hb
    rcases hb with ⟨a, ha, rfl⟩ | hb
    · exact hbranches a ha t ht
    · exact ho b hb t ht
  | procedure _ _ hbody => exact hbody t (List.mem_singleton.mp hb ▸ ht)
  | function _ _ _ hbody => exact hbody t (List.mem_singleton.mp hb ▸ ht)
  | _ => cases hb

/-- Where a program may have come to: the variables have evolved, and the known routines have only
statements that occur in it. -/
structure Machine.ComesTo (start : Machine) (occurs : Stmt → Prop) (m : Machine) : Prop where
  evolves : Evolves start m
  procedures : ∀ name p, m.procedures.find? name = some p → ∀ s ∈ p.body, occurs s
  functions : ∀ name f, m.functions.find? name = some f → ∀ s ∈ f.body, occurs s

/-- **A MOD without a remainder.** Its operands are evaluated one after the other, with `memory` the
variables then. -/
inductive Expr.MeetsInfinity (start : Machine) (occurs : Stmt → Prop) : Expr → Memory → Prop
  | mod {n : Nat} {scope : Scope} {line : Int} {left right : Expr} {a b : Value} {m m₁ m₂ : Machine}
      (hm : start.ComesTo occurs m) (hleft : evaluate n scope left m = .ok a m₁)
      (hright : evaluate n scope right m₁ = .ok b m₂) (h : a.LacksRemainder b) :
      MeetsInfinity start occurs (.binary line left .mod right) m₂.memory

/-- A block comes to its end, in a function body or in a run. -/
inductive Block.Completes (n : Nat) (scope : Scope) (b : Block) (m : Machine)
    (after : Scope) (m' : Machine) : Prop
  | run (h : runBlock (runStatement n) scope b m = .ok (after, none) m')
  | executed (h : (executeBlock (execute n) scope b).Reaches m after m')

/-- **A FOR loop with a text in its variable at the end of a round.** The loop is started, its
rounds up to `m₂` change the variables, and it goes on for one more, with `memory` the variables
then. -/
inductive Form.FindsText (start : Machine) (occurs : Stmt → Prop) : Form → Memory → Prop
  | forTo {n : Nat} {scope inner before after : Scope} {name : String} {first last step : Expr}
      {body : Block} {c : Counter} {text : String} {m m₁ m₂ m₃ : Machine}
      (hm : start.ComesTo occurs m)
      (hstart : startFor (evaluate n) scope name first last step m = .ok (c, inner) m₁)
      (hrounds : Evolves m₁ m₂) (hm₂ : start.ComesTo occurs m₂)
      (hgoes : c.continues m₂ = .ok true m₂) (hround : Block.Completes n before body m₂ after m₃)
      (htext : c.value m₃ = .text text) :
      FindsText start occurs (.forTo name first last step body) m₃.memory

/-- What occurs in a program that begins with a machine, and why it may stop. -/
structure Terms where
  start : Machine
  expr : Expr → Prop
  stmt : Stmt → Prop
  /-- The reasons to stop, with the variables as they are left. -/
  ok : Halt → Memory → Prop
  expr_writable : ∀ {e}, expr e → e.Writable
  stmt_writable : ∀ {s}, stmt s → s.form.Writable
  part : ∀ {e}, expr e → ∀ x ∈ e.parts, expr x
  operand : ∀ {s}, stmt s → ∀ e ∈ s.form.operands, expr e
  inside : ∀ {s}, stmt s → ∀ b ∈ s.form.blocks, ∀ t ∈ b, stmt t
  fault : ∀ {cause} line memory, cause ≠ .loopVariableNotNumeric → ok (.fault cause line) memory
  relined : ∀ {cause memory} line, ok (.fault cause 0) memory → ok (.fault cause line) memory
  cancelled : ∀ line memory, ok (.cancelled line) memory
  exhausted : ∀ memory, ok .exhausted memory
  digits : ∀ memory, ok (.breakdown .tooManyDigits) memory
  remainder : ∀ {e memory}, expr e → e.MeetsInfinity start stmt memory →
    ok (.breakdown .infiniteRemainder) memory
  advance : ∀ {s memory}, stmt s → s.form.FindsText start stmt memory →
    ok (.breakdown .notNumeric) memory

theorem Terms.reasons (T : Terms) (memory : Memory) : Reasons (T.ok · memory) :=
  ⟨fun h _ => T.fault 0 memory h, T.digits memory⟩

/-- A machine that the program may have come to, and whose limits are usable unless the terms allow
that they are not. -/
structure Machine.OnTerms (T : Terms) (m : Machine) : Prop extends T.start.ComesTo T.stmt m where
  limits : m.settings.maxDispatches = .unusable ∨ m.settings.maxDepth = .unusable →
    ∀ memory, T.ok (.breakdown .unusableLimit) memory

theorem Machine.OnTerms.sound {T : Terms} {m : Machine} (hm : m.OnTerms T) : m.Sound :=
  hm.evolves.sound

theorem Machine.OnTerms.of_eq {T : Terms} {m m' : Machine} (hm : m.OnTerms T) (h : Evolves m m')
    (hp : m'.procedures = m.procedures) (hf : m'.functions = m.functions)
    (hs : m'.settings = m.settings) : m'.OnTerms T :=
  ⟨⟨hm.evolves.trans h, hp ▸ hm.procedures, hf ▸ hm.functions⟩, hs ▸ hm.limits⟩

/-- What a step from `m` comes to on the terms. -/
def Terms.Admits (T : Terms) (m : Machine) {α : Type} (post : α → Machine → Prop) :
    EStateM.Result Halt Machine α → Prop
  | .ok x m' => Evolves m m' ∧ m'.OnTerms T ∧ post x m'
  | .error h m' => Evolves m m' ∧ T.ok h m'.memory

/-- From a machine on the terms, a step ends on the terms, with `post` of what it gives, or stops
for a reason that they have. Either way the variables have evolved. -/
def Eval.Abides (T : Terms) {α : Type} (e : Eval α) (m : Machine) (post : α → Machine → Prop) :
    Prop :=
  m.OnTerms T → T.Admits m post (e m)

variable {T : Terms}

/-! ## One step after the other -/

section Sequences

variable {α β : Type} {m : Machine} {e : Eval α} {p : α → Machine → Prop} {q : β → Machine → Prop}

theorem Eval.Abides.ok (h : e.Abides T m p) (hm : m.OnTerms T) {x : α} {m' : Machine}
    (he : e m = .ok x m') : Evolves m m' ∧ m'.OnTerms T ∧ p x m' := by
  have := h hm
  rwa [he] at this

theorem Eval.Abides.error (h : e.Abides T m p) (hm : m.OnTerms T) {halt : Halt} {m' : Machine}
    (he : e m = .error halt m') : Evolves m m' ∧ T.ok halt m'.memory := by
  have := h hm
  rwa [he] at this

/-- A step that always ends, with the same routines and settings. -/
theorem abides_change {x : α} {m' : Machine} (he : e m = .ok x m')
    (hevolves : m.Sound → Evolves m m') (hp : m'.procedures = m.procedures)
    (hf : m'.functions = m.functions) (hs : m'.settings = m.settings) (hx : p x m') :
    e.Abides T m p := by
  intro hm
  rw [he]
  exact ⟨hevolves hm.sound, hm.of_eq (hevolves hm.sound) hp hf hs, hx⟩

theorem abides_pure {x : α} (h : m.OnTerms T → p x m) : (pure x : Eval α).Abides T m p :=
  fun hm => ⟨.refl hm.sound, hm, h hm⟩

theorem abides_throw {halt : Halt} (h : T.ok halt m.memory) : (throw halt : Eval α).Abides T m p :=
  fun hm => ⟨.refl hm.sound, h⟩

theorem abides_exhausted : (throw .exhausted : Eval α).Abides T m p :=
  abides_throw (T.exhausted _)

theorem abides_fault {cause : Fault} (h : cause ≠ .loopVariableNotNumeric) :
    (fault cause : Eval α).Abides T m p :=
  abides_throw (T.fault 0 _ h)

/-- An attempt does not touch the machine. -/
theorem abides_attempt {a : Attempt α} (h : Confined (T.ok · m.memory) a) :
    (attempt a).Abides T m fun x m' => m' = m ∧ a = .ok x := by
  cases a with
  | ok x => exact abides_pure fun _ => ⟨rfl, rfl⟩
  | error halt => exact abides_throw (h halt rfl)

theorem abides_get {k : Machine → Eval β} (h : (k m).Abides T m q) :
    ((get : Eval Machine) >>= k).Abides T m q :=
  h

theorem Eval.Abides.imp {p' : α → Machine → Prop} (h : e.Abides T m p)
    (himp : ∀ x m', m'.OnTerms T → p x m' → p' x m') : e.Abides T m p' := by
  intro hm
  have h := h hm
  cases he : e m with
  | ok x m' =>
    rw [he] at h
    exact ⟨h.1, h.2.1, himp x m' h.2.1 h.2.2⟩
  | error halt m' =>
    rw [he] at h
    exact h

/-- That a step gave its result may be added to what is known of it. -/
theorem Eval.Abides.given (h : e.Abides T m p) :
    e.Abides T m fun x m' => e m = .ok x m' ∧ p x m' := by
  intro hm
  have h := h hm
  cases he : e m with
  | ok x m' =>
    rw [he] at h
    exact ⟨h.1, h.2.1, rfl, h.2.2⟩
  | error halt m' =>
    rw [he] at h
    exact h

/-- **The rule of sequence.** -/
theorem Eval.Abides.bind {k : α → Eval β} (h : e.Abides T m p)
    (hk : ∀ x m', Evolves m m' → p x m' → (k x).Abides T m' q) : (e >>= k).Abides T m q := by
  intro hm
  cases he : e m with
  | error halt m₁ =>
    rw [bind_eq_error.mpr (Or.inl he)]
    exact h.error hm he
  | ok x m₁ =>
    obtain ⟨hfirst, hm₁, hx⟩ := h.ok hm he
    have hrest := hk x m₁ hfirst hx hm₁
    cases hke : k x m₁ with
    | error halt m₂ =>
      rw [hke] at hrest
      rw [bind_eq_error.mpr (Or.inr ⟨x, m₁, he, hke⟩)]
      exact ⟨hfirst.trans hrest.1, hrest.2⟩
    | ok y m₂ =>
      rw [hke] at hrest
      rw [bind_eq_ok.mpr ⟨x, m₁, he, hke⟩]
      exact ⟨hfirst.trans hrest.1, hrest.2⟩

theorem abides_mapM {f : α → Eval β} {l : List α}
    (h : ∀ x ∈ l, ∀ m, (f x).Abides T m fun _ _ => True) (m : Machine) :
    (l.mapM f).Abides T m fun ys _ => ys.length = l.length := by
  induction l generalizing m with
  | nil => exact abides_pure fun _ => rfl
  | cons x rest ih =>
    rw [List.mapM_cons]
    refine (h x List.mem_cons_self m).bind fun y m₁ _ _ => ?_
    refine (ih (fun x hx => h x (List.mem_cons_of_mem _ hx)) m₁).bind fun ys m₂ _ hys => ?_
    exact abides_pure fun _ => congrArg (· + 1) hys

/-- A fault that is charged to a line is still one that the terms have. -/
theorem Terms.ok_charge (T : Terms) {halt : Halt} (h : T.ok halt m.memory) (line : Int) :
    T.ok (m.charge line halt).1 (m.charge line halt).2.memory := by
  unfold Machine.charge
  split
  · exact T.relined line h
  · exact h

theorem abides_located (line : Int) (h : e.Abides T m p) : (located line e).Abides T m p := by
  intro hm
  have h := h hm
  unfold located
  cases he : e m with
  | ok x m' =>
    rw [he] at h
    exact h
  | error halt m' =>
    rw [he] at h
    exact ⟨h.1.trans (.charge h.1.sound line halt), T.ok_charge h.2 line⟩

theorem Machine.OnTerms.enterCall (hm : m.OnTerms T) (f : CallFrame) : (m.enterCall f).OnTerms T :=
  hm.of_eq (.of_eq hm.sound rfl rfl rfl) rfl rfl rfl

theorem Machine.OnTerms.leaveCall (hm : m.OnTerms T) (f : CallFrame) : (m.leaveCall f).OnTerms T :=
  hm.of_eq (.of_eq hm.sound rfl rfl rfl) rfl rfl rfl

theorem Machine.OnTerms.confined_checkDepth (hm : m.OnTerms T) (depth : Nat) :
    Confined (T.ok · m.memory) (m.checkDepth depth) :=
  m.confined_checkDepth (T.reasons _) depth fun h => hm.limits (Or.inr h) _

/-- A call: what is said of its result says nothing about the machine. -/
theorem abides_inCall (f : CallFrame) {P : α → Prop}
    (h : e.Abides T (m.enterCall f) fun x _ => P x) : (inCall f e).Abides T m fun x _ => P x := by
  intro hm
  have henter : Evolves m (m.enterCall f) := .of_eq hm.sound rfl rfl rfl
  cases hd : m.checkDepth (m.depth + 1) with
  | error halt =>
    rw [inCall_refused hd]
    exact ⟨.refl hm.sound, hm.confined_checkDepth _ halt hd⟩
  | ok _ =>
    cases he : e (m.enterCall f) with
    | error halt m' =>
      obtain ⟨hevolves, hok⟩ := h.error (hm.enterCall f) he
      rw [inCall_error hd he]
      exact ⟨(henter.trans hevolves).trans (.of_eq hevolves.sound rfl rfl rfl), hok⟩
    | ok x m' =>
      obtain ⟨hevolves, hm', hx⟩ := h.ok (hm.enterCall f) he
      rw [inCall_ok hd he]
      exact ⟨(henter.trans hevolves).trans (.of_eq hevolves.sound rfl rfl rfl), hm'.leaveCall f, hx⟩

theorem abides_checkCancelled : checkCancelled.Abides T m fun _ _ => True := by
  refine abides_get ?_
  split
  · exact abides_throw (T.cancelled _ _)
  · exact abides_pure fun _ => trivial

theorem abides_dispatch (line : Int) : (dispatch line).Abides T m fun _ _ => True := by
  intro hm
  have hcounted : Evolves m m.counted := .of_eq hm.sound rfl rfl rfl
  rw [dispatch_apply]
  cases hallows : m.settings.maxDispatches.allows (m.dispatches + 1) with
  | error halt =>
    have hconfined :
        Confined (T.ok · m.memory) (m.settings.maxDispatches.allows (m.dispatches + 1)) :=
      Limit.confined_allows _ _ fun h => hm.limits (Or.inl h) _
    exact ⟨hcounted, hconfined halt hallows⟩
  | ok allowed =>
    cases allowed with
    | false => exact ⟨hcounted, T.fault line _ (by simp)⟩
    | true =>
      dsimp only
      split
      · exact ⟨hcounted, T.cancelled _ _⟩
      · have hreached : Evolves m (m.counted.reached line) := .of_eq hm.sound rfl rfl rfl
        exact ⟨hreached, hm.of_eq hreached rfl rfl rfl, trivial⟩

end Sequences

/-! ## Variables -/

section Variables

variable {m m' : Machine} {l : Location}

theorem abides_locateVariable (scope : Scope) (name : String) :
    (locateVariable scope name).Abides T m fun _ m' => m' = m :=
  abides_get ((abides_attempt (Memory.confined_locate (T.reasons _) _ _ _)).imp fun _ _ _ h => h.1)

theorem abides_locateArray (scope : Scope) (name : String) :
    (locateArray scope name).Abides T m fun l m' => m' = m ∧ ArrayAt l m := by
  refine abides_get ?_
  split
  · exact abides_fault (by simp)
  · next l hl =>
    split
    · next harray =>
      refine abides_pure fun _ => ⟨rfl, ?_⟩
      cases hv : m.memory.at? l with
      | none =>
        rw [hv] at harray
        cases harray
      | some v =>
        rw [hv] at harray
        exact .of_isArray hv harray
    · exact abides_fault (by simp)

theorem abides_variableAt (l : Location) (name : String) :
    (variableAt l name).Abides T m fun v m' => m' = m ∧ m.memory.at? l = some v := by
  refine abides_get ?_
  split
  · next v hv => exact abides_pure fun _ => ⟨rfl, hv⟩
  · exact abides_fault (by simp)

theorem abides_readVariable (scope : Scope) (name : String) :
    (readVariable scope name).Abides T m fun v _ => v.IsProper := by
  refine (abides_locateVariable scope name).bind fun l m₁ _ _ => ?_
  refine (abides_variableAt l name).bind ?_
  rintro v _ - ⟨rfl, hv⟩
  split
  · exact abides_fault (by simp)
  · split
    · next value hvalue => exact abides_pure fun hm => (hm.sound.store _ _ hv).held_proper hvalue
    · exact abides_fault (by simp)

/-- A scalar is assigned, and holds the value then. -/
theorem abides_assign (hl : ScalarAt l m) {value : Value} (hvalue : value.IsProper) :
    (updateVariable l (·.assign value)).Abides T m fun _ m' =>
      ∃ type, m'.memory.at? l = some (.scalar type (some value)) := by
  obtain ⟨type, held, hat⟩ := hl.exists_at?
  have hassigned :
      (m.memory.update l (·.assign value)).at? l = some (.scalar type (some value)) := by
    show (m.memory.store.modify l.index (·.assign value))[l.index]? = _
    rw [Array.getElem?_modify, if_pos rfl, show m.memory.store[l.index]? = _ from hat]
    rfl
  exact abides_change rfl (fun hm => .of_event hm (.assigned hat hvalue) rfl fun h =>
    h.update l fun v _ => v.legible_assign value) rfl rfl rfl ⟨type, hassigned⟩

/-- A new variable. -/
theorem abides_declareVariable {scope : Scope} {name : String} (hname : scope.IsLocal ∨ IsName name)
    {v : Variable} (hv : v.Makes m.memory) :
    (declareVariable scope name v).Abides T m fun found m' =>
      m'.memory.at? found.1 = some v ∧ (scope.IsLocal → found.2.IsLocal) := by
  have hstore : (m.memory.declare scope name v).2.2.store = m.memory.store.push v := by
    cases scope <;> rfl
  refine abides_change rfl (fun hm => .of_event hm hv.fits hstore fun h =>
    (h.allocate (hv.legible h)).bind hname _) rfl rfl rfl ⟨?_, fun h =>
    (m.memory.declare_isLocal h name v).1⟩
  show (m.memory.declare scope name v).2.2.store[m.memory.store.size]? = some v
  rw [hstore, Array.getElem?_push, if_pos rfl]

theorem abides_bindName {scope : Scope} (hscope : scope.IsLocal) (name : String) (l : Location) :
    (bindName scope name l).Abides T m fun after _ => after.IsLocal := by
  obtain ⟨hlocal, hmemory⟩ := m.memory.bind_isLocal hscope name l
  exact abides_change rfl (fun hm => .of_eq hm hmemory rfl rfl) rfl rfl rfl hlocal

/-- Where a value can be stored: a scalar, or an array for an element. -/
structure Destination.Sound (d : Destination) (m : Machine) : Prop where
  scalar : d.indices = none → ScalarAt d.location m
  array : d.indices ≠ none → ArrayAt d.location m

theorem Destination.Sound.evolves {d : Destination} (h : d.Sound m) (hm : Evolves m m') :
    d.Sound m' :=
  ⟨fun hd => (h.scalar hd).evolves hm, fun hd => (h.array hd).evolves hm⟩

theorem abides_inputType {d : Destination} (hd : d.Sound m) :
    d.inputType.Abides T m fun _ m' => m' = m := by
  refine (abides_variableAt _ _).bind ?_
  rintro v _ hevolves ⟨rfl, hv⟩
  split
  · exact abides_pure fun _ => rfl
  · next hindices =>
    obtain ⟨element, grid, rfl⟩ := (hd.array (by simp [hindices])).array hevolves.sound hv
    exact abides_pure fun _ => rfl

/-- A cell is filled. -/
theorem abides_fill {element : DataType} {grid : Grid}
    (hl : m.memory.at? l = some (.array element grid)) {k : Nat} (hk : k < grid.cells.size)
    {value : Value} (hvalue : value.IsProper) :
    (updateVariable l (·.putAt k value)).Abides T m fun _ _ => True :=
  abides_change rfl (fun hm => .of_event hm (.filled hl hk hvalue) rfl fun h =>
    h.update l fun _ hv => hv.putAt k value) rfl rfl rfl trivial

/-- **A value is stored** in a scalar, or in a cell that the array has. -/
theorem abides_store {d : Destination} (hd : d.Sound m) {value : Value} (hvalue : value.IsProper) :
    (d.store value).Abides T m fun _ _ => True := by
  unfold Destination.store
  split
  · next hnone => exact (abides_assign (hd.scalar hnone) hvalue).imp fun _ _ _ _ => trivial
  · next indices hindices =>
    refine (abides_variableAt d.location d.name).bind ?_
    rintro v _ hevolves ⟨rfl, hv⟩
    obtain ⟨element, grid, rfl⟩ := (hd.array (by simp [hindices])).array hevolves.sound hv
    refine (abides_attempt (grid.confined_locate (T.reasons _) d.name indices)).bind ?_
    rintro k _ - ⟨rfl, hk⟩
    obtain ⟨hbox, rfl⟩ := grid.inBox_of_locate hk
    exact abides_fill hv (grid.size_cells ▸ hbox.offset_lt) hvalue

/-- DECLARE makes a blank scalar or a blank array. -/
theorem abides_performDeclare (scope : Scope) {name typeName : String} {shape : Shape}
    (hn : IsName name) (ht : IsTypeName typeName) (hs : shape.Writable) :
    (performDeclare scope name typeName shape).Abides T m fun _ _ => True := by
  refine (abides_attempt (confined_resolve (T.reasons _) _)).bind ?_
  rintro type m - ⟨rfl, htype⟩
  have hconfined : Confined (T.ok · m.memory) (shape.variable type) := by
    cases hs with
    | scalar => exact confined_ok _
    | @array bounds hne _ =>
      cases bounds with
      | nil => exact absurd rfl hne
      | cons d rest => exact confined_ok _
  refine (abides_attempt hconfined).bind ?_
  rintro v m _ ⟨rfl, hv⟩
  have hmakes : v.Makes m.memory := makes_shape _ (resolve_ne_array ht.upper_ne type htype) hs hv
  exact (abides_declareVariable (.inr hn) hmakes).bind fun _ _ _ _ => abides_pure fun _ => trivial

/-! ## Counting loops -/

/-- The loop variable holds a whole number. -/
def Counter.Counting (c : Counter) (m : Machine) : Prop :=
  ∃ type n, m.memory.at? c.location = some (.scalar type (some (.int n)))

theorem Counter.Counting.heldAt {c : Counter} (h : c.Counting m) : HeldAt c.location m := by
  obtain ⟨type, n, h⟩ := h
  exact ⟨type, .int n, h⟩

theorem Counter.value_of_at? {c : Counter} {type : DataType} {v : Value}
    (h : m.memory.at? c.location = some (.scalar type (some v))) : c.value m = v := by
  rw [Counter.value, h]
  rfl

theorem abides_loopVariable (scope : Scope) {name : String} (hn : IsName name) :
    (loopVariable scope name).Abides T m fun found m' => ScalarAt found.1 m' := by
  refine abides_get ?_
  split
  · exact (abides_declareVariable (.inr hn) (makes_scalar _ none (by decide) (by simp))).imp
      fun _ _ _ h => .of_at? h.1
  · refine (abides_variableAt _ _).bind ?_
    rintro v _ - ⟨rfl, hv⟩
    split
    · exact abides_fault (by simp)
    · next harray => exact abides_pure fun hm => .of_not_isArray hm.sound hv harray

/-- A loop whose variable holds a whole number is not stopped for it. -/
theorem abides_continues {c : Counter} (hc : c.Counting m) :
    c.continues.Abides T m fun goesOn m' => m' = m ∧ c.continues m = .ok goesOn m := by
  obtain ⟨type, n, hc⟩ := hc
  refine (Eval.Abides.given (p := fun _ m' => m' = m) (abides_get ?_)).imp ?_
  · rw [Counter.value_of_at? hc]
    exact abides_pure fun _ => rfl
  · rintro goesOn _ - ⟨hgoes, rfl⟩
    exact ⟨rfl, hgoes⟩

/-- **A loop variable is moved on** from its floor, and holds a whole number then. A text has no
floor: there the loop breaks down. -/
theorem abides_advance {c : Counter} (hl : HeldAt c.location m)
    (htext : ∀ text, c.value m = .text text → T.ok (.breakdown .notNumeric) m.memory) :
    c.advance.Abides T m fun _ m' => c.Counting m' := by
  obtain ⟨type, v, hv⟩ := hl
  intro hm
  have hproper : v.IsProper := (hm.sound.store _ _ hv).held_proper rfl
  have hconfined : Confined (T.ok · m.memory) (c.value m).floor := by
    rw [Counter.value_of_at? hv]
    refine v.confined_floor (T.reasons _) ?_
    rintro (⟨s, rfl⟩ | rfl)
    · exact htext s (Counter.value_of_at? hv)
    · cases hproper
  refine (abides_get ((abides_attempt hconfined).bind ?_)) hm
  rintro n _ - ⟨rfl, -⟩
  refine (abides_assign (.of_at? hv) (.int (n + c.step))).imp ?_
  rintro _ _ - ⟨type, hassigned⟩
  exact ⟨type, _, hassigned⟩

/-- A loop may break down at a text that a round from `m` or later leaves in its variable. -/
def Counter.MayBreakDown (T : Terms) (c : Counter)
    (round : Scope → Machine → Scope → Machine → Prop) (m : Machine) : Prop :=
  ∀ ⦃before m₁ after m₂ text⦄, Evolves m m₁ → m₁.OnTerms T → c.continues m₁ = .ok true m₁ →
    round before m₁ after m₂ → c.value m₂ = .text text → T.ok (.breakdown .notNumeric) m₂.memory

theorem Counter.MayBreakDown.evolves {c : Counter}
    {round : Scope → Machine → Scope → Machine → Prop} (h : c.MayBreakDown T round m)
    (hm : Evolves m m') : c.MayBreakDown T round m' :=
  fun _ _ _ _ _ hm' => h (hm.trans hm')

/-- A FOR loop that has been started breaks down as the terms allow. -/
theorem Terms.mayBreakDown {s : Stmt} (hs : T.stmt s) {name : String} {first last step : Expr}
    {body : Block} (hform : s.form = .forTo name first last step body) {n : Nat} {scope : Scope}
    {started : Counter × Scope} (hm : m.OnTerms T)
    (hstart : startFor (evaluate n) scope name first last step m = .ok started m') :
    started.1.MayBreakDown T (fun before m₁ => Block.Completes n before body m₁) m' :=
  fun _ _ _ _ _ hrounds hm₁ hgoes hround htext =>
    T.advance hs (hform ▸ .forTo hm.toComesTo hstart hrounds hm₁.toComesTo hgoes hround htext)

end Variables

/-! ## Steps with expressions inside -/

/-- Expressions on the terms give proper values, or stop for a reason that the terms have. -/
def Terms.Evaluates (T : Terms) (expr : Scope → Expr → Eval Value) : Prop :=
  ∀ scope e, T.expr e → ∀ m, (expr scope e).Abides T m fun v _ => v.IsProper

section Expressions

variable {expr : Scope → Expr → Eval Value} (hx : T.Evaluates expr) {m : Machine}
include hx

theorem abides_evaluateIndices (scope : Scope) {indices : List Expr}
    (hi : ∀ e ∈ indices, T.expr e) :
    (evaluateIndices (expr scope) indices).Abides T m fun _ _ => True :=
  (abides_mapM (fun e he m => (hx scope e (hi e he) m).bind fun v _ _ _ =>
    (abides_attempt (confined_toIndex (T.reasons _) v)).imp fun _ _ _ _ =>
      trivial) m).imp fun _ _ _ _ => trivial

theorem abides_resolveTarget (scope : Scope) {t : Target} (ht : t.Writable)
    (hi : ∀ e ∈ t.indices, T.expr e) :
    (resolveTarget expr scope t).Abides T m fun d m' => d.Sound m' := by
  cases ht with
  | element line ha hne _ =>
    refine (abides_locateArray scope _).bind ?_
    rintro l _ - ⟨rfl, hl⟩
    refine (abides_evaluateIndices hx scope hi).bind fun is m₁ hm₁ _ => ?_
    refine (abides_attempt (confined_elementLabel (T.reasons _) _ is)).bind ?_
    rintro label _ - ⟨rfl, -⟩
    exact abides_pure fun _ => ⟨fun h => (by cases h), fun _ => hl.evolves hm₁⟩
  | var line hname =>
    refine (abides_locateVariable scope _).bind fun l m₁ _ _ => ?_
    refine (abides_variableAt l _).bind ?_
    rintro v _ - ⟨rfl, hv⟩
    split
    · exact abides_fault (by simp)
    · next harray =>
      exact abides_pure fun hm =>
        ⟨fun _ => .of_not_isArray hm.sound hv harray, fun h => absurd rfl h⟩

theorem abides_performAssign (scope : Scope) {t : Target} {value : Expr} (ht : t.Writable)
    (hi : ∀ e ∈ t.indices, T.expr e) (hv : T.expr value) :
    (performAssign expr scope t value).Abides T m fun _ _ => True :=
  (hx scope value hv m).bind fun _ _ _ hproper =>
      (abides_resolveTarget hx scope ht hi).bind fun _ _ _ hd =>
    abides_store hd hproper

theorem abides_condition (scope : Scope) (keyword : String) {e : Expr} (he : T.expr e) :
    (condition expr scope keyword e).Abides T m fun _ _ => True := by
  refine (hx scope e he m).bind fun v m₁ _ _ => ?_
  split
  · exact abides_pure fun _ => trivial
  · exact abides_fault (by simp)

theorem abides_chooseElse (scope : Scope) (otherwise : Option Block) {arms : List Arm}
    (hc : ∀ a ∈ arms, T.expr a.condition) (m : Machine) :
    (chooseElse expr scope otherwise arms).Abides T m fun _ _ => True := by
  induction arms generalizing m with
  | nil => exact abides_pure fun _ => trivial
  | cons arm rest ih =>
    refine (abides_condition hx scope _ (hc arm List.mem_cons_self)).bind fun c m₁ _ _ => ?_
    cases c with
    | true => exact abides_pure fun _ => trivial
    | false => exact ih (fun a ha => hc a (List.mem_cons_of_mem _ ha)) m₁

theorem abides_labelCovers (scope : Scope) (selector : Value) {label : CaseLabel}
    (hl : ∀ e ∈ label.operands, T.expr e) :
    (labelCovers expr scope selector label).Abides T m fun _ _ => True := by
  cases label with
  | value e =>
    exact (hx scope e (hl e (by simp [CaseLabel.operands])) m).bind fun v _ _ _ =>
      (abides_attempt (confined_equals (T.reasons _) selector v)).imp fun _ _ _ _ => trivial
  | range line low high =>
    refine (hx scope low (hl low (by simp [CaseLabel.operands])) m).bind fun a m₁ _ _ =>
      (hx scope high (hl high (by simp [CaseLabel.operands])) m₁).bind fun b m₂ _ _ => ?_
    split
    · exact abides_pure fun _ => trivial
    · exact abides_fault (by simp)

theorem abides_chooseBranch (scope : Scope) (selector : Value) (otherwise : Option Block)
    {branches : List Branch} (hl : ∀ b ∈ branches, ∀ e ∈ b.label.operands, T.expr e) (m : Machine) :
    (chooseBranch expr scope selector otherwise branches).Abides T m fun _ _ => True := by
  induction branches generalizing m with
  | nil => exact abides_pure fun _ => trivial
  | cons branch rest ih =>
    refine (abides_labelCovers hx scope selector (hl branch List.mem_cons_self)).bind
      fun c m₁ _ _ => ?_
    cases c with
    | true => exact abides_pure fun _ => trivial
    | false => exact ih (fun b hb => hl b (List.mem_cons_of_mem _ hb)) m₁

section Statements

variable {s : Stmt} (hs : T.stmt s)
include hs

omit hx in
/-- What is inside a statement on the terms is on the terms, and so is nothing at all. -/
theorem Terms.chosen {b : Block} (hb : b ∈ s.form.blocks ∨ b = []) : ∀ t ∈ b, T.stmt t := by
  rcases hb with hb | rfl
  · exact T.inside hs b hb
  · exact fun _ h => absurd h (by simp)

theorem abides_chooseIf (scope : Scope) {test : Expr} {body : Block} {arms : List Arm}
    {otherwise : Option Block} (h : s.form = .ifThen test body arms otherwise) :
    (chooseIf expr scope test body arms otherwise).Abides T m fun b _ => ∀ t ∈ b, T.stmt t := by
  have hoperands : ∀ e ∈ (Form.ifThen test body arms otherwise).operands, T.expr e :=
    h ▸ T.operand hs
  refine (Eval.Abides.given (p := fun _ _ => True) ?_).imp fun b m' _ hb =>
    T.chosen hs (h ▸ chooseIf_mem hb.1)
  refine (abides_condition hx scope _ (hoperands _ List.mem_cons_self)).bind fun c m₁ _ _ => ?_
  cases c with
  | true => exact abides_pure fun _ => trivial
  | false =>
    exact abides_chooseElse hx scope otherwise
      (fun a ha => hoperands _ (List.mem_cons_of_mem _ (List.mem_map_of_mem ha))) m₁

theorem abides_chooseCase (scope : Scope) {selector : Expr} {branches : List Branch}
    {otherwise : Option Block} (h : s.form = .caseOf selector branches otherwise) :
    (chooseCase expr scope selector branches otherwise).Abides T m fun b _ =>
      ∀ t ∈ b, T.stmt t := by
  have hoperands : ∀ e ∈ (Form.caseOf selector branches otherwise).operands, T.expr e :=
    h ▸ T.operand hs
  refine (Eval.Abides.given (p := fun _ _ => True) ?_).imp fun b m' _ hb =>
    T.chosen hs (h ▸ chooseCase_mem hb.1)
  refine (hx scope selector (hoperands _ List.mem_cons_self) m).bind fun v m₁ _ _ => ?_
  exact abides_chooseBranch hx scope v otherwise
    (fun b hb e he => hoperands e (List.mem_cons_of_mem _ (List.mem_flatMap.mpr ⟨b, hb, he⟩))) m₁

theorem abides_startFor (scope : Scope) {name : String} {start stop step : Expr} {body : Block}
    (h : s.form = .forTo name start stop step body) :
    (startFor expr scope name start stop step).Abides T m fun started m' =>
      started.1.Counting m' := by
  have hoperands : ∀ e ∈ (Form.forTo name start stop step body).operands, T.expr e :=
    h ▸ T.operand hs
  have hbounds :
      ∀ scope m, (loopBounds (expr scope) start stop step).Abides T m fun _ _ => True := by
    intro scope m
    refine (hx scope start (hoperands _ (by simp [Form.operands])) m).bind fun a m _ _ =>
      (hx scope stop (hoperands _ (by simp [Form.operands])) m).bind fun b m _ _ =>
      (hx scope step (hoperands _ (by simp [Form.operands])) m).bind fun c m _ _ => ?_
    split
    · exact (abides_attempt (confined_floors (T.reasons _) _ _ _)).imp fun _ _ _ _ => trivial
    · exact abides_fault (by simp)
  have hn : IsName name := by
    have hwritable := T.stmt_writable hs
    rw [h] at hwritable
    cases hwritable with
    | forTo hn => exact hn
  refine (abides_loopVariable scope hn).bind fun found m₁ _ hl => ?_
  refine (hbounds found.2 m₁).bind fun bounds m₂ hm₂ _ => ?_
  obtain ⟨first, last, stride⟩ := bounds
  dsimp only
  split
  · exact abides_fault (by simp)
  · refine (abides_assign (hl.evolves hm₂) (.int first)).bind ?_
    rintro _ m₃ - ⟨type, hassigned⟩
    exact abides_pure fun _ => ⟨type, first, hassigned⟩

end Statements

/-! ## Arguments -/

/-- The variable of a parameter passed by value is a scalar with a proper value, or the copy of an
array. -/
theorem abides_copyArgument (caller : Scope) (p : Param) {argument : Expr} (ha : T.expr argument) :
    (copyArgument expr caller p argument).Abides T m fun v m' => v.Makes m'.memory := by
  unfold copyArgument
  split
  · refine abides_get ?_
    dsimp only
    split
    · next v hsource =>
      split
      · next harray =>
        refine abides_pure fun hm => ?_
        have hat : ∃ l, m.memory.at? l = some v := by
          cases argument with
          | var line name =>
            obtain ⟨l, -, hl⟩ := Option.bind_eq_some_iff.mp hsource
            exact ⟨l, hl⟩
          | _ => cases hsource
        obtain ⟨l, hl⟩ := hat
        obtain ⟨element, grid, rfl⟩ := (hm.sound.store _ _ hl).array_of_isArray harray
        exact makes_copy hl
      · exact abides_fault (by simp)
    · exact abides_fault (by simp)
  · next hname =>
    refine (hx caller argument ha m).bind fun value m₁ _ hvalue => ?_
    refine (abides_attempt (confined_resolve (T.reasons _) _)).bind ?_
    rintro type _ - ⟨rfl, htype⟩
    refine abides_pure fun _ => makes_scalar _ _ (resolve_ne_array hname type htype) ?_
    rintro v ⟨⟩
    exact hvalue

theorem abides_bindArgument (caller : Scope) {callee : Scope} (hc : callee.IsLocal) (p : Param)
    {argument : Expr} (ha : T.expr argument) :
    (bindArgument expr caller callee p argument).Abides T m fun after _ => after.IsLocal := by
  unfold bindArgument
  split
  · split
    · exact (abides_locateVariable caller _).bind fun l m₁ _ _ => abides_bindName hc p.name l
    · exact abides_fault (by simp)
  · refine (abides_copyArgument hx caller p ha).bind fun v m₁ _ hv => ?_
    exact (abides_declareVariable (.inl hc) hv).bind fun found _ _ hfound =>
      abides_pure fun _ => hfound.2 hc

theorem abides_bindArguments (caller : Scope) {callee : Scope} (hc : callee.IsLocal)
    (params : List Param) {arguments : List Expr} (ha : ∀ e ∈ arguments, T.expr e) (m : Machine) :
    (bindArguments expr caller callee params arguments).Abides T m fun _ _ => True := by
  induction params generalizing callee arguments m with
  | nil => exact abides_pure fun _ => trivial
  | cons p params ih =>
    cases arguments with
    | nil => exact abides_pure fun _ => trivial
    | cons argument arguments =>
      refine (abides_bindArgument hx caller hc p (ha argument List.mem_cons_self)).bind
        fun callee m₁ _ hc => ?_
      exact ih hc (fun e he => ha e (List.mem_cons_of_mem _ he)) m₁

end Expressions

/-! ## Function bodies -/

/-- What a statement returns is proper. -/
def Outcome.IsProper (o : Outcome) : Prop :=
  ∀ v ∈ o.2, v.IsProper

theorem Outcome.isProper_none (scope : Scope) : Outcome.IsProper (scope, none) :=
  fun _ h => absurd h (by simp)

/-- Statements on the terms return proper values, or stop for a reason that the terms have. -/
def Terms.Runs (T : Terms) (stmt : Scope → Stmt → Eval Outcome) : Prop :=
  ∀ scope s, T.stmt s → ∀ m, (stmt scope s).Abides T m fun o _ => Outcome.IsProper o

section Bodies

variable {stmt : Scope → Stmt → Eval Outcome} {test : Scope → Eval Bool}
  {body : Scope → Eval Outcome}

theorem abides_runBlock (hs : T.Runs stmt) (scope : Scope) {b : Block}
    (hb : ∀ s ∈ b, T.stmt s) (m : Machine) :
    (runBlock stmt scope b).Abides T m fun o _ => Outcome.IsProper o := by
  induction b generalizing scope m with
  | nil => exact abides_pure fun _ => Outcome.isProper_none scope
  | cons s rest ih =>
    refine (hs scope s (hb s List.mem_cons_self) m).bind fun o m₁ _ ho => ?_
    obtain ⟨scope, _ | value⟩ := o
    · exact ih scope (fun t ht => hb t (List.mem_cons_of_mem _ ht)) m₁
    · exact abides_pure fun _ => ho

variable (ht : ∀ scope m, (test scope).Abides T m fun _ _ => True)
  (hb : ∀ scope m, (body scope).Abides T m fun o _ => Outcome.IsProper o)
include hb

section Tests

include ht

theorem abides_runWhile (n : Nat) (scope : Scope) (m : Machine) :
    (runWhile test body n scope).Abides T m fun o _ => Outcome.IsProper o := by
  induction n generalizing scope m with
  | zero => exact abides_exhausted
  | succ n ih =>
    refine (ht scope m).bind fun c m₁ _ _ => ?_
    cases c with
    | false => exact abides_pure fun _ => Outcome.isProper_none scope
    | true =>
      refine (hb scope m₁).bind fun o m₂ _ ho => ?_
      obtain ⟨scope, _ | value⟩ := o
      · exact ih scope m₂
      · exact abides_pure fun _ => ho

theorem abides_runRepeat (n : Nat) (scope : Scope) (m : Machine) :
    (runRepeat test body n scope).Abides T m fun o _ => Outcome.IsProper o := by
  induction n generalizing scope m with
  | zero => exact abides_exhausted
  | succ n ih =>
    refine (hb scope m).bind fun o m₁ _ ho => ?_
    obtain ⟨scope, _ | value⟩ := o
    · refine (ht scope m₁).bind fun c m₂ _ _ => ?_
      cases c with
      | true => exact abides_pure fun _ => Outcome.isProper_none scope
      | false => exact ih scope m₂
    · exact abides_pure fun _ => ho

end Tests

/-- **A FOR loop finds a whole number in its variable** at the start of each round, the first one
included. -/
theorem abides_runFor {c : Counter} (n : Nat) (scope : Scope) {m : Machine} (hc : c.Counting m)
    (htext : c.MayBreakDown T (fun before m₁ after m₂ => body before m₁ = .ok (after, none) m₂) m) :
    (runFor c body n scope).Abides T m fun o _ => Outcome.IsProper o := by
  induction n generalizing scope m with
  | zero => exact abides_exhausted
  | succ n ih =>
    refine (abides_continues hc).bind ?_
    rintro goesOn _ - ⟨rfl, hgoes⟩
    cases goesOn with
    | false => exact abides_pure fun _ => Outcome.isProper_none scope
    | true =>
      intro hm
      refine (hb scope _).given.bind (fun o m₂ hm₂ ho => ?_) hm
      obtain ⟨after, _ | value⟩ := o
      · refine (abides_advance (hc.heldAt.evolves hm₂) fun text =>
          htext (.refl hm.sound) hm hgoes ho.1).bind ?_
        exact fun _ m₃ hm₃ hcounting => ih after hcounting (htext.evolves (hm₂.trans hm₃))
      · exact abides_pure fun _ => ho.2

end Bodies

section Evaluators

variable {n : Nat} (hx : T.Evaluates (evaluate n)) (hr : T.Runs (runStatement n)) {m : Machine}
include hx hr

theorem abides_runForm (bound : Nat) (scope : Scope) {s : Stmt} (hs : T.stmt s) :
    (runForm ⟨evaluate n, runStatement n⟩ bound scope s.form).Abides T m fun o _ =>
      Outcome.IsProper o := by
  have hblock : ∀ {b : Block}, (∀ t ∈ b, T.stmt t) → ∀ scope m,
      (runBlock (runStatement n) scope b).Abides T m fun o _ => Outcome.IsProper o :=
    fun hb scope m => abides_runBlock hr scope hb m
  have hwritable := T.stmt_writable hs
  have hoperand := T.operand hs
  have hinside := T.inside hs
  cases hform : s.form with
  | declare name typeName shape =>
    rw [hform] at hwritable
    cases hwritable with
    | declare hn ht hshape =>
      exact (abides_performDeclare scope hn ht hshape).bind fun scope _ _ _ =>
        abides_pure fun _ => Outcome.isProper_none scope
  | assign t value =>
    rw [hform] at hwritable hoperand
    cases hwritable with
    | assign ht _ =>
      refine (abides_performAssign hx scope ht (fun e he => hoperand e (List.mem_cons_of_mem _ he))
        (hoperand value List.mem_cons_self)).bind fun _ _ _ _ => ?_
      exact abides_pure fun _ => Outcome.isProper_none scope
  | ifThen test body arms otherwise =>
    exact (abides_chooseIf hx hs scope hform).bind fun b m₁ _ hb => hblock hb scope m₁
  | caseOf selector branches otherwise =>
    exact (abides_chooseCase hx hs scope hform).bind fun b m₁ _ hb => hblock hb scope m₁
  | whileDo test body =>
    rw [hform] at hoperand hinside
    exact abides_runWhile (fun scope m => abides_condition hx scope _
      (hoperand test List.mem_cons_self)) (hblock (hinside body List.mem_cons_self)) bound scope m
  | repeatUntil body test =>
    rw [hform] at hoperand hinside
    exact abides_runRepeat (fun scope m => abides_condition hx scope _
      (hoperand test List.mem_cons_self)) (hblock (hinside body List.mem_cons_self)) bound scope m
  | forTo name start stop step body =>
    intro hm
    refine (abides_startFor hx hs scope hform).given.bind ?_ hm
    rintro started m₁ - ⟨hstart, hcounting⟩
    rw [hform] at hinside
    exact abides_runFor (hblock (hinside body List.mem_cons_self)) bound started.2 hcounting
      fun _ _ _ _ _ hm₁ hterms hgoes hround =>
      T.mayBreakDown hs hform hm hstart hm₁ hterms hgoes (.run hround)
  | returnValue e =>
    rw [hform] at hoperand
    refine (hx scope e (hoperand e List.mem_cons_self) m).bind fun v m₁ _ hv =>
      abides_pure fun _ => ?_
    rintro _ ⟨⟩
    exact hv
  | _ => exact abides_fault (by simp)

theorem abides_runDispatched (bound : Nat) (scope : Scope) {s : Stmt} (hs : T.stmt s) :
    (runDispatched ⟨evaluate n, runStatement n⟩ bound scope s).Abides T m fun o _ =>
      Outcome.IsProper o := by
  refine (abides_dispatch s.line).bind fun _ m₁ _ _ => ?_
  split
  · exact abides_located s.line (abides_runForm hx hr bound scope hs)
  · exact abides_throw (T.fault _ _ (by simp))

/-! ## Expressions -/

theorem abides_callFunction (scope : Scope) {f : Routine} (hf : ∀ s ∈ f.body, T.stmt s)
    {arguments : List Expr} (ha : ∀ e ∈ arguments, T.expr e) (line : Int) :
    (callFunction ⟨evaluate n, runStatement n⟩ scope f arguments line).Abides T m fun v _ =>
      v.IsProper := by
  unfold callFunction
  split
  · exact abides_fault (by simp)
  · refine (abides_inCall (P := Outcome.IsProper) _ ?_).bind fun o m₁ _ ho => ?_
    · exact (abides_bindArguments hx scope freshScope_isLocal f.params ha _).bind
          fun callee m₁ _ _ =>
        abides_runBlock hr callee hf m₁
    · obtain ⟨_, _ | value⟩ := o
      · exact abides_fault (by simp)
      · exact abides_pure fun _ => ho value rfl

omit hx hr in
theorem abides_drawFor (b : Builtin) : (drawFor b).Abides T m fun _ _ => True := by
  refine abides_get ?_
  dsimp only
  split
  · exact abides_change rfl (fun hm => .of_eq hm rfl rfl rfl) rfl rfl rfl trivial
  · exact abides_pure fun _ => trivial

omit hr in
/-- The number of arguments is right when a built-in function is applied. -/
theorem abides_callBuiltin (scope : Scope) (b : Builtin) {arguments : List Expr}
    (ha : ∀ e ∈ arguments, T.expr e) :
    (callBuiltin ⟨evaluate n, runStatement n⟩ scope b arguments).Abides T m fun v _ =>
      v.IsProper := by
  refine (abides_attempt (confined_checkArity (T.reasons _) b _)).bind ?_
  rintro _ _ - ⟨rfl, harity⟩
  have hlength : arguments.length = b.arity := by
    unfold Builtin.checkArity at harity
    split at harity
    · next h => exact Int.ofNat.inj h
    · cases harity
  refine (abides_mapM (fun e he m => (hx scope e (ha e he) m).imp fun _ _ _ _ => trivial) _).bind
    fun values m₂ _ hvalues => ?_
  refine (abides_drawFor b).bind fun draw m₃ _ _ => abides_get ?_
  refine (abides_attempt (b.confined_apply (T.reasons _) _ draw values ?_)).imp ?_
  · exact fun hne => absurd (hvalues.trans hlength) hne
  · rintro v _ - ⟨-, hv⟩
    exact Builtin.apply_proper b _ draw values v hv

theorem abides_callNamed (scope : Scope) (line : Int) (name : String) {arguments : List Expr}
    (ha : ∀ e ∈ arguments, T.expr e) :
    (callNamed ⟨evaluate n, runStatement n⟩ scope line name arguments).Abides T m fun v _ =>
      v.IsProper := by
  unfold callNamed
  split
  · exact abides_callBuiltin hx scope _ ha
  · refine abides_get ?_
    split
    · next f hf => exact fun hm => abides_callFunction hx hr scope (hm.functions name f hf) ha _ hm
    · split
      · exact abides_fault (by simp)
      · exact abides_fault (by simp)

omit hr in
theorem abides_element (scope : Scope) (line : Int) (name : String) {indices : List Expr}
    (hi : ∀ e ∈ indices, T.expr e) :
    (evaluateForm ⟨evaluate n, runStatement n⟩ scope (.element line name indices)).Abides T m
      fun v _ => v.IsProper := by
  refine (abides_locateArray scope name).bind ?_
  rintro l _ - ⟨rfl, hl⟩
  refine (abides_evaluateIndices hx scope hi).bind fun is m₂ hm₂ _ => ?_
  refine (abides_variableAt l name).bind ?_
  rintro v _ hevolves ⟨rfl, hv⟩
  obtain ⟨element, grid, rfl⟩ := (hl.evolves hm₂).array hevolves.sound hv
  refine (abides_attempt (grid.confined_get (T.reasons _) name is)).imp ?_
  rintro value _ - ⟨-, hvalue⟩
  exact (hevolves.sound.store _ _ hv).getElement_proper name is value hvalue

/-- **An expression by its outermost form.** -/
theorem abides_evaluateForm (scope : Scope) {e : Expr} (he : T.expr e) :
    (evaluateForm ⟨evaluate n, runStatement n⟩ scope e).Abides T m fun v _ => v.IsProper := by
  have hwritable := T.expr_writable he
  have hpart := T.part he
  cases hwritable with
  | @literal line v hv =>
    refine abides_pure fun _ => ?_
    cases v with
    | absent => exact hv.elim
    | bool b => exact .bool b
    | int n => exact .int n
    | real x => exact .real x
    | text s => exact .text s
  | var line hname => exact abides_readVariable scope _
  | element line hname hne hi => exact abides_element hx scope line _ hpart
  | @binary line left op right hop hl hr =>
    intro hm
    have hleft := hx scope left (hpart left (by simp [Expr.parts])) m
    refine hleft.given.bind (fun a m₁ _ ha => ?_) hm
    have hright := hx scope right (hpart right (by simp [Expr.parts])) m₁
    refine hright.given.bind fun b m₂ _ hb => ?_
    refine (abides_attempt (op.confined_apply (T.reasons _) a b ?_)).imp ?_
    · rintro rfl hlacks
      exact T.remainder he (.mod hm.toComesTo ha.1 hb.1 hlacks)
    · rintro v _ - ⟨-, hv⟩
      exact BinaryOp.apply_proper op a b v hv
  | @not line operand _ =>
    refine (hx scope operand (hpart operand (by simp [Expr.parts])) m).bind fun a m₁ _ _ => ?_
    refine (abides_attempt (UnaryOp.confined_apply (T.reasons _) .not a)).imp ?_
    rintro v _ - ⟨-, hv⟩
    exact UnaryOp.apply_proper .not a v hv
  | @neg line operand _ =>
    refine (hx scope operand (hpart operand (by simp [Expr.parts])) m).bind fun a m₁ _ _ => ?_
    refine (abides_attempt (UnaryOp.confined_apply (T.reasons _) .neg a)).imp ?_
    rintro v _ - ⟨-, hv⟩
    exact UnaryOp.apply_proper .neg a v hv
  | call line hf ha => exact abides_callNamed hx hr scope line _ hpart

end Evaluators

theorem evaluate_runStatement_abide (n : Nat) :
    T.Evaluates (evaluate n) ∧ T.Runs (runStatement n) := by
  induction n with
  | zero => exact ⟨fun _ _ _ _ => abides_exhausted, fun _ _ _ _ => abides_exhausted⟩
  | succ n ih =>
    exact ⟨fun scope _ he _ => abides_evaluateForm ih.1 ih.2 scope he,
      fun scope _ hs _ => abides_runDispatched ih.1 ih.2 n scope hs⟩

/-- **An expression gives a proper value or stops for a reason that the terms have.** -/
theorem evaluate_abides (n : Nat) : T.Evaluates (evaluate n) :=
  (evaluate_runStatement_abide n).1

end Pseudocode

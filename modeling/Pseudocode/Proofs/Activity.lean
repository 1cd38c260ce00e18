import Pseudocode.Proofs.Steps

/-!
# What a step can do

Whatever an expression or a statement does to the machine is made of a few actions: drawing a random
number, writing a variable, declaring one, passing an argument, entering and leaving a call,
counting a statement, noting something. `Acts r scope m scope' m'` says that a sequence of them
leads from `m` to `m'` and from the local names `scope` to `scope'`. The role `r` tells who acts and
limits what it may do:

* `Role.calling lent out`: an expression or a CALL. It has no variables of its own to write, and
  passes only the names in `lent` by reference.
* `Role.binding caller lent`: a call under way whose parameters are being bound.
* `Role.running own held out`: statements of a body, or of the program. They write the variables
  that the names in `own` are bound to (as a rule, all names), and the variables of the loops around
  them (`held`).

`out` is what may happen beside the variables, such as changes of the files. What holds of all
activity is proved by induction on `Acts`; that a step acts in its role is proved elsewhere, rule by
rule.

Results:
* `Acts.stable`: a property that no single action destroys holds after all activity.
* `Acts.globals_eq`: the global names stay as they are, unless statements of the program itself run.
* `Acts.dispatches_le`: the count of statements never goes back.
-/

namespace Pseudocode

/-- Nothing happens beside the variables. -/
def Nothing (_ _ : Machine) : Prop := False

/-- Who acts, and what it may do. -/
inductive Role where
  | calling (lent : String → Prop) (out : Machine → Machine → Prop)
  | binding (caller : Scope) (lent : String → Prop)
  | running (own : String → Prop) (held : Location → Prop) (out : Machine → Machine → Prop)

/-- What may happen beside the variables. -/
def Role.out : Role → Machine → Machine → Prop
  | calling _ out | running _ _ out => out
  | binding _ _ => Nothing

/-- Any name at all. -/
def Everything (_ : String) : Prop := True

/-- No variable is held by a loop. -/
def Unheld (_ : Location) : Prop := False

/-- The activity of one role, from a scope and a machine to others. -/
inductive Acts : Role → Scope → Machine → Scope → Machine → Prop
  | refl {r : Role} {scope : Scope} {m : Machine} : Acts r scope m scope m
  | trans {r : Role} {scope scope₁ scope₂ : Scope} {m m₁ m₂ : Machine}
      (first : Acts r scope m scope₁ m₁) (second : Acts r scope₁ m₁ scope₂ m₂) :
      Acts r scope m scope₂ m₂
  | outside {r : Role} {scope : Scope} {m m' : Machine} (h : r.out m m') : Acts r scope m scope m'
  | draw {lent : String → Prop} {out : Machine → Machine → Prop} {scope : Scope} {m : Machine}
      (random : Number.Generator) :
      Acts (.calling lent out) scope m scope { m with random := random }
  /-- A call: its parameters are bound and its body runs. Either may stop halfway. -/
  | call {lent : String → Prop} {out : Machine → Machine → Prop} {scope callee callee' : Scope}
      {m n n' : Machine} (f : CallFrame)
      (binding : Acts (.binding scope lent) freshScope (m.enterCall f) callee n)
      (body : Acts (.running Everything Unheld out) callee n callee' n') :
      Acts (.calling lent out) scope m scope (n'.leaveCall f)
  /-- An argument passed by reference. -/
  | refer {caller callee : Scope} {lent : String → Prop} {m : Machine} {x : String} {l : Location}
      (p : String) (hx : lent x) (hl : m.memory.lookup? caller x = some l) :
      Acts (.binding caller lent) callee m (m.memory.bind callee p l).1
        { m with memory := (m.memory.bind callee p l).2 }
  /-- An argument passed by value. -/
  | copy {caller callee : Scope} {lent : String → Prop} {m : Machine} (p : String) (v : Variable) :
      Acts (.binding caller lent) callee m (m.memory.declare callee p v).2.1
        { m with memory := (m.memory.declare callee p v).2.2 }
  | argument {caller callee : Scope} {lent : String → Prop} {m m' : Machine}
      (h : Acts (.calling lent Nothing) caller m caller m') :
      Acts (.binding caller lent) callee m callee m'
  /-- An expression in a statement, or a CALL. -/
  | inner {own lent : String → Prop} {held : Location → Prop} {out out' : Machine → Machine → Prop}
      {scope : Scope} {m m' : Machine} (hown : ∀ x, lent x → own x)
      (hout : ∀ m m', out' m m' → out m m') (h : Acts (.calling lent out') scope m scope m') :
      Acts (.running own held out) scope m scope m'
  | write {own : String → Prop} {held : Location → Prop} {out : Machine → Machine → Prop}
      {scope : Scope} {m : Machine} {l : Location} (f : Variable → Variable)
      (hl : (∃ x, own x ∧ m.memory.lookup? scope x = some l) ∨ held l) :
      Acts (.running own held out) scope m scope { m with memory := m.memory.update l f }
  | declare {own : String → Prop} {held : Location → Prop} {out : Machine → Machine → Prop}
      {scope : Scope} {m : Machine} (x : String) (v : Variable) :
      Acts (.running own held out) scope m (m.memory.declare scope x v).2.1
        { m with memory := (m.memory.declare scope x v).2.2 }
  /-- A loop holds on to the variable that its name was bound to when it started. -/
  | hold {own : String → Prop} {held : Location → Prop} {out : Machine → Machine → Prop}
      {scope scope' : Scope} {m m' : Machine} {x : String} {l : Location} (hx : own x)
      (hl : m.memory.lookup? scope x = some l)
      (h : Acts (.running own (fun k => held k ∨ k = l) out) scope m scope' m') :
      Acts (.running own held out) scope m scope' m'
  | counted {own : String → Prop} {held : Location → Prop} {out : Machine → Machine → Prop}
      {scope : Scope} {m : Machine} : Acts (.running own held out) scope m scope m.counted
  | reached {own : String → Prop} {held : Location → Prop} {out : Machine → Machine → Prop}
      {scope : Scope} {m : Machine} (line : Int) :
      Acts (.running own held out) scope m scope (m.reached line)
  | note {own : String → Prop} {held : Location → Prop} {out : Machine → Machine → Prop}
      {scope : Scope} {m : Machine} (n : Note) :
      Acts (.running own held out) scope m scope (m.note n)

variable {r : Role} {scope scope' : Scope} {m m' : Machine}

/-! ## Invariants of activity -/

/-- A property of machines that no action on variables, calls and counters destroys. -/
structure Stable (I : Machine → Prop) : Prop where
  memory : ∀ {m} x, I m → I { m with memory := x }
  random : ∀ {m} x, I m → I { m with random := x }
  enterCall : ∀ {m} f, I m → I (m.enterCall f)
  leaveCall : ∀ {m} f, I m → I (m.leaveCall f)
  counted : ∀ {m}, I m → I m.counted
  reached : ∀ {m} line, I m → I (m.reached line)
  note : ∀ {m} n, I m → I (m.note n)

/-- **A stable property survives all activity**, if what happens beside the variables keeps it. -/
theorem Acts.stable {I : Machine → Prop} (hI : Stable I) (h : Acts r scope m scope' m')
    (hout : ∀ m m', r.out m m' → I m → I m') : I m → I m' := by
  induction h with
  | refl => exact id
  | trans _ _ ih₁ ih₂ => exact fun hm => ih₂ hout (ih₁ hout hm)
  | outside h => exact hout _ _ h
  | draw random => exact hI.random random
  | call f _ _ ihb ihr =>
    exact fun hm => hI.leaveCall f (ihr hout (ihb (fun _ _ h => h.elim) (hI.enterCall f hm)))
  | refer => exact hI.memory _
  | copy => exact hI.memory _
  | argument _ ih => exact ih fun _ _ h => h.elim
  | inner _ hle _ ih => exact ih fun _ _ h => hout _ _ (hle _ _ h)
  | write => exact hI.memory _
  | declare => exact hI.memory _
  | hold _ _ _ ih => exact ih hout
  | counted => exact hI.counted
  | reached line => exact hI.reached line
  | note n => exact hI.note n

theorem stable_true : Stable fun _ => True :=
  ⟨fun _ h => h, fun _ h => h, fun _ h => h, fun _ h => h, fun h => h, fun _ h => h, fun _ h => h⟩

/-- The functions that are known stay the same. -/
theorem stable_functions (F : Table Routine) : Stable (·.functions = F) :=
  ⟨fun _ h => h, fun _ h => h, fun _ h => h, fun _ h => h, fun h => h, fun _ h => h, fun _ h => h⟩

/-- The settings stay the same. -/
theorem stable_settings (s : Settings) : Stable (·.settings = s) :=
  ⟨fun _ h => h, fun _ h => h, fun _ h => h, fun _ h => h, fun h => h, fun _ h => h, fun _ h => h⟩

/-- The count of statements never goes back. -/
theorem stable_dispatches (n : Nat) : Stable (n ≤ ·.dispatches) :=
  ⟨fun _ h => h, fun _ h => h, fun _ h => h, fun _ h => h, fun h => Nat.le_succ_of_le h,
    fun _ h => h, fun _ h => h⟩

/-! ## Scopes -/

/-- Calling ends in the scope it began in. -/
theorem Acts.scope_eq {lent : String → Prop} {out : Machine → Machine → Prop}
    (h : Acts (.calling lent out) scope m scope' m') : scope' = scope := by
  generalize hr : Role.calling lent out = r at h
  induction h with
  | trans _ _ ih₁ ih₂ => rw [ih₂ hr, ih₁ hr]
  | _ => first | rfl | cases hr

/-- A scope with local names. -/
def Scope.IsLocal : Scope → Prop
  | .global => False
  | .local _ => True

theorem freshScope_isLocal : freshScope.IsLocal :=
  trivial

theorem Memory.bind_isLocal (mem : Memory) {scope : Scope} (h : scope.IsLocal) (x : String)
    (l : Location) : (mem.bind scope x l).1.IsLocal ∧ (mem.bind scope x l).2 = mem := by
  cases scope with
  | global => exact h.elim
  | «local» names => exact ⟨trivial, rfl⟩

theorem Memory.declare_isLocal (mem : Memory) {scope : Scope} (h : scope.IsLocal) (x : String)
    (v : Variable) :
    (mem.declare scope x v).2.1.IsLocal ∧ (mem.declare scope x v).2.2.globals = mem.globals := by
  cases scope with
  | global => exact h.elim
  | «local» names => exact ⟨trivial, rfl⟩

/-- The roles that cannot bind global names: calls, and whoever has local names. -/
def Role.SparesGlobals : Role → Scope → Prop
  | calling _ _, _ => True
  | binding _ _, callee => callee.IsLocal
  | running _ _ _, scope => scope.IsLocal

/-- **The global names stay bound as they are**, unless statements of the program itself run. -/
theorem Acts.globals_eq (h : Acts r scope m scope' m')
    (hout : ∀ m m', r.out m m' → m'.memory.globals = m.memory.globals)
    (hr : r.SparesGlobals scope) :
    m'.memory.globals = m.memory.globals ∧ r.SparesGlobals scope' := by
  induction h with
  | refl => exact ⟨rfl, hr⟩
  | trans _ _ ih₁ ih₂ =>
    obtain ⟨h₁, hr₁⟩ := ih₁ hout hr
    obtain ⟨h₂, hr₂⟩ := ih₂ hout hr₁
    exact ⟨h₂.trans h₁, hr₂⟩
  | outside h => exact ⟨hout _ _ h, hr⟩
  | draw => exact ⟨rfl, hr⟩
  | call f _ _ ihb ihr =>
    obtain ⟨hb, hcallee⟩ := ihb (fun _ _ h => h.elim) trivial
    exact ⟨(ihr hout hcallee).1.trans hb, trivial⟩
  | @refer _ callee _ m _ l p =>
    obtain ⟨hlocal, hmem⟩ := m.memory.bind_isLocal hr p l
    exact ⟨congrArg Memory.globals hmem, hlocal⟩
  | @copy _ callee _ m p v =>
    obtain ⟨hlocal, hmem⟩ := m.memory.declare_isLocal hr p v
    exact ⟨hmem, hlocal⟩
  | argument _ ih => exact ⟨(ih (fun _ _ h => h.elim) trivial).1, hr⟩
  | inner _ hle _ ih => exact ⟨(ih (fun _ _ h => hout _ _ (hle _ _ h)) trivial).1, hr⟩
  | write => exact ⟨rfl, hr⟩
  | @declare _ _ _ scope m x v =>
    obtain ⟨hlocal, hmem⟩ := m.memory.declare_isLocal hr x v
    exact ⟨hmem, hlocal⟩
  | hold _ _ _ ih => exact ih hout hr
  | counted => exact ⟨rfl, hr⟩
  | reached => exact ⟨rfl, hr⟩
  | note => exact ⟨rfl, hr⟩

theorem Memory.lookup?_congr {mem mem' : Memory} (h : mem'.globals = mem.globals) (scope : Scope)
    (x : String) : mem'.lookup? scope x = mem.lookup? scope x := by
  unfold Memory.lookup?
  rw [h]

/-- Evaluating an expression leaves every name bound as it is. -/
theorem Acts.lookup?_eq {lent : String → Prop} (h : Acts (.calling lent Nothing) scope m scope' m')
    (other : Scope) (x : String) : m'.memory.lookup? other x = m.memory.lookup? other x :=
  Memory.lookup?_congr (h.globals_eq (fun _ _ h => h.elim) trivial).1 other x

/-! ## Counting statements -/

/-- What happens beside the variables leaves the settings alone and does not turn back the count. -/
structure Aside (out : Machine → Machine → Prop) : Prop where
  settings : ∀ {m m'}, out m m' → m'.settings = m.settings
  dispatches : ∀ {m m'}, out m m' → m.dispatches ≤ m'.dispatches

theorem aside_nothing : Aside Nothing :=
  ⟨fun h => h.elim, fun h => h.elim⟩

/-- At least one statement is counted between two machines, and the first was within the limit. -/
structure Counts (m m' : Machine) : Prop where
  settings : m'.settings = m.settings
  allowed : m.settings.maxDispatches.allows (m.dispatches + 1) = .ok true
  dispatches : m.dispatches < m'.dispatches

variable {m₁ m₂ : Machine}

theorem Acts.settings_eq (h : Acts r scope m scope' m₁) (hout : Aside r.out) :
    m₁.settings = m.settings :=
  h.stable (stable_settings m.settings) (fun _ _ h hm => (hout.settings h).trans hm) rfl

theorem Acts.dispatches_le (h : Acts r scope m scope' m₁) (hout : Aside r.out) :
    m.dispatches ≤ m₁.dispatches :=
  h.stable (stable_dispatches m.dispatches) (fun _ _ h hm => Nat.le_trans hm (hout.dispatches h))
    (Nat.le_refl _)

theorem Limit.allows_antitone {l : Limit} {count count' : Nat} (h : l.allows count' = .ok true)
    (hle : count ≤ count') : l.allows count = .ok true := by
  cases l with
  | atMost n =>
    simp only [Limit.allows, Except.ok.injEq, decide_eq_true_eq] at h ⊢
    omega
  | endless => rfl
  | unusable => cases h

theorem Counts.before (h : Counts m₁ m₂) (acts : Acts r scope m scope' m₁) (hout : Aside r.out) :
    Counts m m₂ := by
  have hsettings := acts.settings_eq hout
  have hle := acts.dispatches_le hout
  refine ⟨h.settings.trans hsettings, ?_, Nat.lt_of_le_of_lt hle h.dispatches⟩
  rw [← hsettings]
  exact Limit.allows_antitone h.allowed (Nat.succ_le_succ hle)

theorem Counts.after (h : Counts m m₁) (acts : Acts r scope m₁ scope' m₂) (hout : Aside r.out) :
    Counts m m₂ :=
  ⟨(acts.settings_eq hout).trans h.settings, h.allowed,
    Nat.lt_of_lt_of_le h.dispatches (acts.dispatches_le hout)⟩

/-- A block that has ended: an empty one has done nothing, any other has been counted. -/
def Block.Spends (b : Block) (m m' : Machine) : Prop :=
  if b = [] then m' = m else Counts m m'

theorem Block.Spends.counts {b : Block} {m m' : Machine} (h : b.Spends m m') (hb : b ≠ []) :
    Counts m m' := by
  unfold Block.Spends at h
  rwa [if_neg hb] at h

end Pseudocode

import Pseudocode.Proofs.Activity
import Pseudocode.Proofs.Comparison

/-!
# Manners of evaluation

Laws about all that steps do have a common shape: something holds of the machine between them, a
step makes certain changes only, and it stops in certain ways only. A `Manner` states the three and
asks that they allow what every step may do. A `Calling` also allows calls, and a `Performing` what
statements do beside.

`Eval.Obeys M e` says that the step `e` keeps to the manner `M`. A manner is a comparison of every
step with itself, so the rules of the evaluator keep to every manner that is kept by the expressions
and statements inside, and the forms of statement belong to every class of parts of a run that is
closed under sequence and holds the steps that keep to `M`.
-/

namespace Pseudocode

open Eval

/-- What holds between steps, the changes that a step makes, and how it stops. -/
structure Manner where
  pre : Machine → Prop
  go : Machine → Machine → Prop
  stop : Machine → Halt → Machine → Prop
  stable : Stable pre
  memory : ∀ (m : Machine) x, go m { m with memory := x }
  trans : ∀ {m n k}, go m n → go n k → go m k
  after : ∀ {m n k h}, go m n → stop n h k → stop m h k
  failed : ∀ {h : Halt} (m : Machine), h.IsFailure → stop m h m

/-- A manner that allows calls of the functions that are known. -/
structure Calling extends Manner where
  good : Stmt → Prop
  known : ∀ {m name f}, pre m → m.functions.find? name = some f → ∀ s ∈ f.body, good s
  random : ∀ (m : Machine) x, go m { m with random := x }
  enterCall : ∀ (m : Machine) f, go m (m.enterCall f)
  leaveCall : ∀ (m : Machine) f, go m (m.leaveCall f)
  onward : ∀ {m n k h}, stop m h n → go n k → stop m h k

/-- A manner that allows what statements do beside: work on the files, notes, and rounds of loops
until the bound is exhausted. -/
structure Performing extends Manner where
  files : ∀ (m : Machine) x, go m { m with files := x }
  shelved : ∀ {m : Machine} x, pre m → pre { m with files := x }
  note : ∀ {x : Note} (m : Machine), x.IsRoutine → go m (m.note x)
  exhausted : ∀ m, stop m .exhausted m

/-- What a step from `m` may come to. -/
def Manner.Allows (M : Manner) (m : Machine) {α : Type} : EStateM.Result Halt Machine α → Prop
  | .ok _ n => M.go m n ∧ M.pre n
  | .error h n => M.stop m h n

namespace Manner

variable (M : Manner) {α β : Type} {m m' : Machine} {e : Eval α}

theorem refl (m : Machine) : M.go m m :=
  M.memory m m.memory

/-- One machine, compared with itself. -/
def Same (m m' : Machine) : Prop :=
  m' = m ∧ M.pre m

variable {M}

theorem Same.agrees (h : M.Same m m') : m.Agrees m' :=
  h.1 ▸ .refl m

theorem allows_pure (h : M.Same m m') (x : α) : M.Allows m ((pure x : Eval α) m) :=
  ⟨M.refl m, h.2⟩

theorem allows_failed {h : Halt} (_ : M.Same m m') (hh : h.IsFailure) :
    M.Allows m ((throw h : Eval α) m) :=
  M.failed m hh

theorem allows_write {x : α} {memory : Memory} (h : M.Same m m')
    (he : e m = .ok x { m with memory := memory }) : M.Allows m (e m) := by
  rw [he]
  exact ⟨M.memory m memory, M.stable.memory memory h.2⟩

theorem allows_bind {k : α → Eval β} (he : M.Allows m (e m))
    (hk : ∀ x n n', e m = .ok x n → M.Same n n' → M.Allows n (k x n)) :
    M.Allows m ((e >>= k) m) := by
  cases hfirst : e m with
  | error h n =>
    rw [bind_eq_error.mpr (Or.inl hfirst)]
    rwa [hfirst] at he
  | ok x n =>
    rw [hfirst] at he
    obtain ⟨hgo, hn⟩ := he
    have hsecond := hk x n n hfirst ⟨rfl, hn⟩
    cases hrest : k x n with
    | error h n' =>
      rw [hrest] at hsecond
      rw [bind_eq_error.mpr (Or.inr ⟨x, n, hfirst, hrest⟩)]
      exact M.after hgo hsecond
    | ok y n' =>
      rw [hrest] at hsecond
      rw [bind_eq_ok.mpr ⟨x, n, hfirst, hrest⟩]
      exact ⟨M.trans hgo hsecond.1, hsecond.2⟩

variable (M)

/-- A manner as a comparison of every step with itself. -/
def comparison : Comparison where
  R := M.Same
  At m _ e _ := M.Allows m (e m)
  agrees := Same.agrees
  pure := allows_pure
  failed := allows_failed
  write h he _ := allows_write h he
  get := id
  bind := allows_bind

end Manner

/-- A step that keeps to a manner. -/
def Eval.Obeys (M : Manner) {α : Type} (e : Eval α) : Prop :=
  M.comparison.Relates e e

section Obeys

variable {M : Manner} {α : Type} {e : Eval α} {m n : Machine}

theorem Eval.obeys_of_allows (h : ∀ m, M.pre m → M.Allows m (e m)) : e.Obeys M :=
  fun m _ hm => h m hm.2

theorem Eval.Obeys.allows (he : e.Obeys M) (hm : M.pre m) : M.Allows m (e m) :=
  he m m ⟨rfl, hm⟩

theorem Eval.Obeys.ok (he : e.Obeys M) (hm : M.pre m) {x : α} (h : e m = .ok x n) :
    M.go m n ∧ M.pre n := by
  have := he.allows hm
  rwa [h] at this

theorem Eval.Obeys.error (he : e.Obeys M) (hm : M.pre m) {halt : Halt} (h : e m = .error halt n) :
    M.stop m halt n := by
  have := he.allows hm
  rwa [h] at this

end Obeys

/-! ## Calls -/

namespace Calling

variable {C : Calling} {m m' : Machine}

theorem known_same {name : String} {f : Routine} (h : C.Same m m') :
    m.functions.find? name = some f → ∀ s ∈ f.body, C.good s :=
  C.known h.2

theorem allows_draw (h : C.Same m m') (x : Number.Generator) :
    C.Allows m ((modify fun m => { m with random := x } : Eval Unit) m) :=
  ⟨C.random m x, C.stable.random x h.2⟩

theorem relates_inCall {α : Type} {e e' : Eval α} (f : CallFrame)
    (he : C.toManner.comparison.Relates e e') :
    C.toManner.comparison.Relates (inCall f e) (inCall f e') := by
  have he : e.Obeys C.toManner := he
  refine obeys_of_allows fun m hm => ?_
  cases hd : m.checkDepth (m.depth + 1) with
  | error h =>
    rw [inCall_refused hd]
    exact C.failed m (m.confined_depth h hd)
  | ok _ =>
    have hentered := C.stable.enterCall f hm
    cases hbody : e (m.enterCall f) with
    | error h n =>
      rw [inCall_error hd hbody]
      exact C.onward (C.after (C.enterCall m f) (he.error hentered hbody)) (C.leaveCall n f)
    | ok x n =>
      rw [inCall_ok hd hbody]
      obtain ⟨hgo, hn⟩ := he.ok hentered hbody
      exact ⟨C.trans (C.trans (C.enterCall m f) hgo) (C.leaveCall n f), C.stable.leaveCall f hn⟩

def comparison (C : Calling) : CallingComparison where
  toComparison := C.toManner.comparison
  good := C.good
  known := known_same
  draw := allows_draw
  inCall := relates_inCall

end Calling

/-! ## Parts of a run -/

namespace Performing

variable {P : Performing} {m m' : Machine}

theorem allows_shelve (h : P.Same m m') (x : FileTable) :
    P.Allows m ((modify fun m => { m with files := x } : Eval Unit) m) :=
  ⟨P.files m x, P.shelved x h.2⟩

theorem allows_note {x : Note} (h : P.Same m m') (hx : x.IsRoutine) :
    P.Allows m (Pseudocode.note x m) :=
  ⟨P.note m hx, P.stable.note x h.2⟩

theorem obeys_exhausted {α : Type} : (throw .exhausted : Eval α).Obeys P.toManner :=
  obeys_of_allows fun m _ => P.exhausted m

theorem relates_exhausted {α : Type} {n' : Nat} (rounds' : Nat → Eval α) (_ : 0 = n')
    (_ : rounds' 0 = throw .exhausted) :
    P.toManner.comparison.Relates (throw .exhausted) (rounds' n') :=
  P.obeys_exhausted

theorem succ_of_eq {n n' : Nat} (h : n + 1 = n') : ∃ k, n' = k + 1 :=
  ⟨n, h.symm⟩

def comparison (P : Performing) : PerformingComparison where
  toComparison := P.toManner.comparison
  shelve := allows_shelve
  note := allows_note
  Within := Eq
  pred := Nat.succ.inj
  succ_left := succ_of_eq
  exhausted := relates_exhausted

/-- A class of parts of a run that is closed under sequence and holds the steps in a manner. -/
structure Class (P : Performing) where
  Has : ∀ {α : Type}, Action α → Prop
  pure : ∀ {α : Type} (x : α), Has (pure x : Action α)
  bind : ∀ {α β : Type} {a : Action α} {k : α → Action β}, Has a → (∀ x, Has (k x)) → Has (a >>= k)
  step : ∀ {α β : Type} {e : Eval α} {k : α → Action β}, e.Obeys P.toManner →
    (∀ x, (∃ m n, P.pre m ∧ e m = .ok x n) → Has (k x)) → Has ((liftM e : Action α) >>= k)

namespace Class

variable (S : P.Class) {α β : Type}

theorem step_same {e e' : Eval α} {k : α → Action β} (he : P.comparison.Relates e e')
    (hk : ∀ x, (∃ m m' n, P.comparison.R m m' ∧ e m = .ok x n) → S.Has (k x)) :
    S.Has ((liftM e : Action α) >>= k) := by
  refine S.step he fun x hx => hk x ?_
  obtain ⟨m, n, hm, he⟩ := hx
  exact ⟨m, m, n, ⟨rfl, hm⟩, he⟩

theorem get_same {k : Machine → Action β} (hk : ∀ m m', P.comparison.R m m' → S.Has (k m)) :
    S.Has ((liftM (get : Eval Machine) : Action Machine) >>= k) := by
  refine S.step (obeys_of_allows fun m hm => ⟨P.refl m, hm⟩) ?_
  rintro m ⟨_, _, hm, ⟨⟩⟩
  exact hk m m ⟨rfl, hm⟩

theorem exhausted_same {n' : Nat} (rounds' : Nat → Action Scope) (_ : 0 = n')
    (_ : rounds' 0 = liftM (throw .exhausted : Eval Scope)) :
    S.Has (liftM (throw .exhausted : Eval Scope)) := by
  have hstep := S.step (P.obeys_exhausted (α := Scope)) fun x _ => S.pure x
  exact hstep

/-- The parts of a class, compared with themselves. -/
def parts : Parts P.comparison where
  Has a _ := S.Has a
  pure := S.pure
  bind := S.bind
  step := S.step_same
  get := S.get_same
  exhausted := S.exhausted_same

theorem executeBlock {stmt : Scope → Stmt → Action Scope} {b : Block}
    (hb : ∀ s ∈ b, ∀ scope, S.Has (stmt scope s)) (scope : Scope) :
    S.Has (executeBlock stmt scope b) :=
  @Parts.has_executeBlock P.comparison S.parts stmt stmt b hb scope

end Class

end Performing

end Pseudocode

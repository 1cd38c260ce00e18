import Pseudocode.Host
import Pseudocode.Proofs.Manners

/-!
# Disciplines of a run

A law about all that a run does tells which statements may occur, which changes of the machine a
step may make, and in which ways it may stop. A `Discipline` states the three, together with what
the host may do, and asks that they allow what every rule does: variables, files and counters change
freely, notes are written that belong to the rules (`Note.IsRoutine`), and what a rule raises itself
is charged to no statement yet (`Halt.IsRaised`).

The steps of a run keep to the manner of the discipline. `Action.Obeys D a` says of parts of a run
that they keep to the discipline `D`, and `Run.Obeys D ends r` of a whole run, which begins no
statement but good ones and comes to an end in `ends`. How a statement is dispatched and charged is
not among the rules here: that is where disciplines differ.

Results:
* `obeys_runForm`: function bodies.
* `obeys_perform`: the forms of statement.
* `Run.Obeys.drain`, `Run.Obeys.begun`: a whole run, with the host that answers it.
-/

namespace Pseudocode

open Eval

/-! ## What may occur -/

/-- A reason to stop as a rule raises it: a fault is charged to no statement yet, and the number of
statements is not the rules' affair. -/
def Halt.IsRaised : Halt → Prop
  | .fault cause line => cause ≠ .dispatchLimit ∧ line = 0
  | _ => True

theorem Halt.IsFailure.isRaised {h : Halt} (hf : h.IsFailure) : h.IsRaised := by
  cases h with
  | fault cause line => exact hf
  | _ => trivial

/-- A machine that knows no routines but such as consist of good statements. -/
structure Machine.Knows (good : Stmt → Prop) (m : Machine) : Prop where
  procedures : ∀ name p, m.procedures.find? name = some p → ∀ s ∈ p.body, good s
  functions : ∀ name f, m.functions.find? name = some f → ∀ s ∈ f.body, good s

theorem Machine.Knows.of_eq {good : Stmt → Prop} {m n : Machine} (hm : m.Knows good)
    (hp : n.procedures = m.procedures) (hf : n.functions = m.functions) : n.Knows good :=
  ⟨hp ▸ hm.procedures, hf ▸ hm.functions⟩

/-- A new machine knows nothing. -/
theorem Machine.knows_of_empty {good : Stmt → Prop} {m : Machine} (hp : m.procedures = {})
    (hf : m.functions = {}) : m.Knows good := by
  refine ⟨fun name p h => ?_, fun name f h => ?_⟩
  · rw [hp] at h
    cases h
  · rw [hf] at h
    cases h

/-- What a run may do: the statements that occur in it, the changes that its steps make, and how
they stop. -/
structure Discipline where
  good : Stmt → Prop
  go : Machine → Machine → Prop
  stop : Machine → Halt → Machine → Prop
  /-- What a host may reply to a query, and the machine that it resumes the run with. -/
  host : Machine → (q : Query) → q.Reply → Machine → Prop
  inside : ∀ {s}, good s → ∀ b ∈ s.form.blocks, ∀ t ∈ b, good t
  trans : ∀ {m n k}, go m n → go n k → go m k
  unwritten : ∀ {m n : Machine}, n.journal = m.journal → go m n
  note : ∀ {x : Note} (m : Machine), x.IsRoutine → go m (m.note x)
  raised : ∀ {h : Halt} (m : Machine), h.IsRaised → stop m h m
  after : ∀ {m n k h}, go m n → stop n h k → stop m h k
  onward : ∀ {m n k h}, stop m h n → go n k → stop m h k
  answered : ∀ {m n q x}, host m q (.ok x) n → go m n
  refused : ∀ {m n q h}, host m q (.error h) n → stop m h n
  taught : ∀ {m n q reply}, host m q reply n → n.procedures = m.procedures ∧
    n.functions = m.functions

namespace Discipline

variable (D : Discipline)

theorem refl (m : Machine) : D.go m m :=
  D.unwritten rfl

theorem enterCall (m : Machine) (f : CallFrame) : D.go m (m.enterCall f) :=
  D.trans (n := { m with depth := m.depth + 1, stack := m.stack.push f }) (D.unwritten rfl)
    (D.note _ (.entered _ _ _))

theorem leaveCall (m : Machine) (f : CallFrame) : D.go m (m.leaveCall f) :=
  D.trans (n := { m with depth := m.depth - 1, stack := m.stack.pop }) (D.unwritten rfl)
    (D.note _ (.left _ _))

theorem register (m : Machine) (form : Form) : D.go m (m.register form) := by
  cases form with
  | procedure name params body =>
    exact D.trans (n := { m with procedures := m.procedures.insert name ⟨name, params, body⟩ })
      (D.unwritten rfl) (D.note _ (.registered _ _))
  | function name params returns body =>
    exact D.trans (n := { m with functions := m.functions.insert name ⟨name, params, body⟩ })
      (D.unwritten rfl) (D.note _ (.registered _ _))
  | _ => exact D.refl m

/-- What is inside a good statement is good, and so is nothing at all. -/
theorem chosen {s : Stmt} (hs : D.good s) {b : Block} (hb : b ∈ s.form.blocks ∨ b = []) :
    ∀ t ∈ b, D.good t := by
  rcases hb with hb | rfl
  · exact D.inside hs b hb
  · exact fun _ h => absurd h (by simp)

/-- What a discipline asks of the steps. -/
def manner : Manner where
  pre := Machine.Knows D.good
  go := D.go
  stop := D.stop
  stable := ⟨fun _ h => h.of_eq rfl rfl, fun _ h => h.of_eq rfl rfl, fun _ h => h.of_eq rfl rfl,
    fun _ h => h.of_eq rfl rfl, fun h => h.of_eq rfl rfl, fun _ h => h.of_eq rfl rfl,
    fun _ h => h.of_eq rfl rfl⟩
  memory _ _ := D.unwritten rfl
  trans := D.trans
  after := D.after
  failed m h := D.raised m h.isRaised

instance : Coe Discipline Manner :=
  ⟨Discipline.manner⟩

def calling : Calling where
  toManner := D.manner
  good := D.good
  known h hf := h.functions _ _ hf
  random _ _ := D.unwritten rfl
  enterCall := D.enterCall
  leaveCall := D.leaveCall
  onward := D.onward

def performing : Performing where
  toManner := D.manner
  files _ _ := D.unwritten rfl
  shelved _ h := h.of_eq rfl rfl
  note := D.note
  exhausted m := D.raised m trivial

end Discipline

variable {D : Discipline}

/-- A good routine becomes known. -/
theorem Machine.Knows.register {m : Machine} (hm : m.Knows D.good) {s : Stmt} (hs : D.good s) :
    (m.register s.form).Knows D.good := by
  have hinside := D.inside hs
  cases hform : s.form with
  | procedure name params body =>
    rw [hform] at hinside
    have hbody := hinside body List.mem_cons_self
    exact ⟨Table.forall_find?_insert
      (P := fun r : Routine => ∀ s ∈ r.body, D.good s) hm.procedures hbody, hm.functions⟩
  | function name params returns body =>
    rw [hform] at hinside
    have hbody := hinside body List.mem_cons_self
    exact ⟨hm.procedures,
      Table.forall_find?_insert (P := fun r : Routine => ∀ s ∈ r.body, D.good s) hm.functions hbody⟩
  | _ => exact hm

/-! ## Function bodies -/

theorem obeys_checkCancelled : checkCancelled.Obeys D := by
  refine obeys_of_allows fun m hm => ?_
  rw [checkCancelled_apply]
  split
  · exact D.raised m trivial
  · exact ⟨D.refl m, hm⟩

/-- **The forms of statement of a function body.** -/
theorem obeys_runForm {ev : Evaluator} (hx : ∀ scope e, (ev.expr scope e).Obeys D)
    (hr : ∀ scope s, D.good s → (ev.stmt scope s).Obeys D) (bound : Nat) (scope : Scope)
    {s : Stmt} (hs : D.good s) : (runForm ev bound scope s.form).Obeys D :=
  @relates_runForm D.performing.comparison ev ev hx bound bound rfl scope s.form fun _ hb scope =>
    relates_runBlock (fun t ht scope => hr scope t (D.chosen hs hb t ht)) scope

/-! ## Parts of a run -/

/-- However the host replies within a discipline, the run begins good statements only, and ends in
`ends`. -/
inductive Run.Obeys (D : Discipline) (ends : Except Halt Unit → Machine → Prop) : Run → Prop
  | finished {ending : Except Halt Unit} {m : Machine} (h : ends ending m) :
      Obeys D ends (.finished ending m)
  | asking {q : Query} {m : Machine} {resume : q.Reply → Machine → Run}
      (hgood : ∀ s, q = .began s → D.good s)
      (rest : ∀ reply n, D.host m q reply n → Obeys D ends (resume reply n)) :
      Obeys D ends (.asking q m resume)

/-- A part of a run that keeps to a discipline, if what follows it does. -/
def Action.Obeys (D : Discipline) {α : Type} (a : Action α) : Prop :=
  ∀ (ends : Except Halt Unit → Machine → Prop) (m : Machine) (next : α → Machine → Run)
    (stop : Halt → Machine → Run), m.Knows D.good →
    (∀ x n, D.go m n → n.Knows D.good → (next x n).Obeys D ends) →
      (∀ h n, D.stop m h n → (stop h n).Obeys D ends) → (a m next stop).Obeys D ends

section Parts

variable {α β : Type} {a : Action α}

theorem Action.obeys_pure (x : α) : (pure x : Action α).Obeys D :=
  fun _ m _ _ hm hnext _ => hnext x m (D.refl m) hm

theorem Action.Obeys.bind {k : α → Action β} (ha : a.Obeys D) (hk : ∀ x, (k x).Obeys D) :
    (a >>= k).Obeys D := by
  intro ends m next stop hm hnext hstop
  refine ha ends m _ stop hm (fun x n hgo hn => ?_) hstop
  exact hk x ends n next stop hn (fun y n' hgo' => hnext y n' (D.trans hgo hgo'))
    fun h n' hn' => hstop h n' (D.after hgo hn')

/-- A step that needs nothing from the host, with the values that it can give. -/
theorem Action.obeys_step {e : Eval α} {k : α → Action β} (he : e.Obeys D)
    (hk : ∀ x, (∃ m n, m.Knows D.good ∧ e m = .ok x n) → (k x).Obeys D) :
    ((liftM e : Action α) >>= k).Obeys D := by
  intro ends m next stop hm hnext hstop
  show ((liftM e : Action α) m (fun x n => k x n next stop) stop).Obeys D ends
  cases hstep : e m with
  | ok x n =>
    obtain ⟨hgo, hn⟩ := he.ok hm hstep
    rw [Action.lift_ok _ stop hstep]
    exact hk x ⟨m, n, hm, hstep⟩ ends n next stop hn (fun y n' hgo' =>
      hnext y n' (D.trans hgo hgo')) fun h n' hn' => hstop h n' (D.after hgo hn')
  | error h n =>
    rw [Action.lift_error _ stop hstep]
    exact hstop h n (he.error hm hstep)

/-- The parts of a run that keep to a discipline. -/
def Discipline.actions (D : Discipline) : D.performing.Class where
  Has := Action.Obeys D
  pure := Action.obeys_pure
  bind := Action.Obeys.bind
  step := Action.obeys_step

theorem Action.obeys_lift {e : Eval α} (he : e.Obeys D) : (liftM e : Action α).Obeys D :=
  D.actions.parts.lift he

theorem Action.obeys_ask {q : Query} (hq : ∀ s, q = .began s → D.good s) :
    (Action.ask q).Obeys D := by
  intro ends m next stop hm hnext hstop
  refine .asking hq fun reply n hhost => ?_
  cases reply with
  | ok x =>
    obtain ⟨hp, hf⟩ := D.taught hhost
    exact hnext x n (D.answered hhost) (hm.of_eq hp hf)
  | error h => exact hstop h n (D.refused hhost)

theorem Action.obeys_inCall (f : CallFrame) (ha : a.Obeys D) : (Action.inCall f a).Obeys D := by
  intro ends m next stop hm hnext hstop
  unfold Action.inCall
  cases hd : m.checkDepth (m.depth + 1) with
  | error h => exact hstop h m (D.raised m (m.confined_depth h hd).isRaised)
  | ok _ =>
    refine ha ends _ _ _ (D.manner.stable.enterCall f hm) (fun x n hgo hn => ?_) fun h n hn => ?_
    · exact hnext x _ (D.trans (D.trans (D.enterCall m f) hgo) (D.leaveCall n f))
        (D.manner.stable.leaveCall f hn)
    · exact hstop h _ (D.onward (D.after (D.enterCall m f) hn) (D.leaveCall n f))

end Parts

/-! ## Statements -/

section Statements

variable {expr : Scope → Expr → Eval Value} (hx : ∀ scope e, (expr scope e).Obeys D)
  {block : Scope → Block → Action Scope}
  (hblock : ∀ scope b, (∀ s ∈ b, D.good s) → (block scope b).Obeys D)
include hx hblock

theorem obeys_performCall (scope : Scope) (name : String) (arguments : List Expr) (line : Int) :
    (performCall expr block scope name arguments line).Obeys D := by
  refine D.actions.get_same fun m _ hm => ?_
  split
  · next p hp =>
    split
    · exact Action.obeys_lift (relates_fault (by simp))
    · refine Action.obeys_inCall _ ?_
      refine (Action.obeys_lift
        (relates_bindArguments (fun e _ => hx scope e) freshScope p.params)).bind ?_
      intro callee
      exact (hblock callee p.body (hm.2.procedures name p hp)).bind fun _ => Action.obeys_pure ()
  · split
    · exact Action.obeys_lift (relates_fault (by simp))
    · exact Action.obeys_lift (relates_fault (by simp))

/-- **The forms of statement.** -/
theorem obeys_perform (bound : Nat) (scope : Scope) (line : Int) {s : Stmt} (hs : D.good s) :
    (perform expr block bound scope line s.form).Obeys D := by
  cases hform : s.form.isCompound with
  | false =>
    have hask : ∀ {q : Query}, q.IsInner → (Action.ask q).Obeys D := by
      intro q hq
      refine Action.obeys_ask fun t ht => ?_
      subst ht
      exact hq.elim
    -- A procedure or function becomes known.
    have hregister : (modify (·.register s.form) : Eval Unit).Obeys D :=
      obeys_of_allows fun m hm => ⟨D.register m s.form, hm.register hs⟩
    exact D.actions.parts.has_performSimple hask hx scope block block bound bound line hform
      fun _ => hregister
  | true =>
    exact D.actions.parts.has_performCompound hx block block rfl scope line hform
      (fun _ b hb scope => hblock scope b (D.chosen hs hb))
      fun name arguments _ => obeys_performCall hx hblock scope name arguments line

end Statements

/-! ## Whole runs -/

theorem Machine.Knows.registerAll {m : Machine} (hm : m.Knows D.good) {program : Block}
    (h : ∀ s ∈ program, D.good s) : (m.registerAll program).Knows D.good :=
  List.foldlRecOn program _ hm fun _ hn s hs => hn.register (h s hs)

theorem Discipline.registerAll (D : Discipline) (m : Machine) (program : Block) :
    D.go m (m.registerAll program) :=
  List.foldlRecOn program _ (D.refl m) fun n hn s _ => D.trans hn (D.register n s.form)

section Hosts

variable {σ : Type} {host : Host σ}

/-- A host that keeps to a discipline. -/
def Host.Obeys (D : Discipline) (host : Host σ) : Prop :=
  ∀ s m q, D.host m q (host.reply s m q).1 (host.reply s m q).2.2

/-- The statement that a query announces the beginning of. -/
def Query.began? : Query → Option Stmt
  | .began s => some s
  | _ => none

/-- The statements that begin in a run that a host answers. -/
def Run.begun (host : Host σ) : Run → σ → List Stmt
  | .finished _ _, _ => []
  | .asking q m resume, s =>
    q.began?.toList ++
      (resume (host.reply s m q).1 (host.reply s m q).2.2).begun host (host.reply s m q).2.1

variable {ends : Except Halt Unit → Machine → Prop} {r : Run}

/-- **A run that keeps to a discipline**, with a host that does: where it ends. -/
theorem Run.Obeys.drain (h : r.Obeys D ends) (hhost : host.Obeys D) (s : σ) :
    ends (r.drain host s).1 (r.drain host s).2.1 := by
  induction h generalizing s with
  | finished h => exact h
  | @asking q m resume _ _ ih => exact ih _ _ (hhost s m q) _

/-- It begins good statements only. -/
theorem Run.Obeys.begun (h : r.Obeys D ends) (hhost : host.Obeys D) (s : σ) :
    ∀ t ∈ r.begun host s, D.good t := by
  induction h generalizing s with
  | finished h => exact fun _ ht => absurd ht List.not_mem_nil
  | @asking q m resume hgood _ ih =>
    intro t ht
    rcases List.mem_append.mp ht with ht | ht
    · refine hgood t ?_
      cases q with
      | began s => rw [List.mem_singleton.mp ht]
      | _ => cases ht
    · exact ih _ _ (hhost s m q) _ t ht

end Hosts

end Pseudocode

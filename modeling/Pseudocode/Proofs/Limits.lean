import Pseudocode.Host
import Pseudocode.Proofs.Truncation

/-!
# Limits only cut runs short

The comparison of `Truncation`, from steps to whole runs. `Run.Trims` says of two runs that they put
the same queries as long as they are resumed alike and end alike, unless the first is cut short;
`Action.TrimsAt` says it of parts of runs. Drained with the same inputs and files, two such runs
differ only if the first is cut short, and then its output is how the other's begins
(`Run.Trims.drained`).

Results:
* `execute_trims`, `executeProgram_trims`: statements and programs, under any `Truncation`.
* **`runWithin_stable`**: a run that ends under a bound is the same under every larger one.
* **`limits_only_cut_runs_short`**: larger limits on dispatches and on calls change nothing about a
  run that no guard stops, and only add to the output of one that a guard stops.
-/

namespace Pseudocode

open Eval

/-- Two runs put the same queries, as long as they are resumed alike, and end alike, unless the
first is cut short. -/
inductive Run.Trims (cut : Halt → Prop) (R : Machine → Machine → Prop) : Run → Run → Prop
  | cut (h : Halt) (m : Machine) (r' : Run) (hc : cut h) :
      Run.Trims cut R (.finished (.error h) m) r'
  | finished (ending : Except Halt Unit) (m m' : Machine) (hR : R m m') :
      Run.Trims cut R (.finished ending m) (.finished ending m')
  | asking (q : Query) (m m' : Machine) (resume resume' : q.Reply → Machine → Run) (hR : R m m')
      (hk : ∀ reply n n', R n n' → Run.Trims cut R (resume reply n) (resume' reply n')) :
      Run.Trims cut R (.asking q m resume) (.asking q m' resume')

/-- What follows two parts of runs: the same where they end alike, and a run that is cut short where
the first part was. -/
structure Follows (cut : Halt → Prop) (R : Machine → Machine → Prop) {α : Type}
    (next : α → Machine → Run) (stop : Halt → Machine → Run) (next' : α → Machine → Run)
    (stop' : Halt → Machine → Run) : Prop where
  ends : ∀ a n n', R n n' → Run.Trims cut R (next a n) (next' a n')
  stops : ∀ h n n', R n n' → Run.Trims cut R (stop h n) (stop' h n')
  cuts : ∀ h n r', cut h → Run.Trims cut R (stop h n) r'

/-- From `m` and `m'` two parts of runs come to the same, or the first is cut short. -/
def Action.TrimsAt (cut : Halt → Prop) (R : Machine → Machine → Prop) {α : Type} (m m' : Machine)
    (a a' : Action α) : Prop :=
  ∀ next stop next' stop', Follows cut R next stop next' stop' →
    Run.Trims cut R (a m next stop) (a' m' next' stop')

/-- From all related machines two parts of runs come to the same, or the first is cut short. -/
def Action.Trims (cut : Halt → Prop) (R : Machine → Machine → Prop) {α : Type} (a a' : Action α) :
    Prop :=
  ∀ m m', R m m' → Action.TrimsAt cut R m m' a a'

/-! ## One part after the other -/

namespace Action

section Parts

variable {cut : Halt → Prop} {R : Machine → Machine → Prop} {α β : Type} {m m' : Machine}

theorem trimsAt_pure (hR : R m m') (x : α) : Action.TrimsAt cut R m m' (pure x) (pure x) :=
  fun _ _ _ _ F => F.ends x m m' hR

theorem trimsAt_bind {a a' : Action α} {k k' : α → Action β} (ha : Action.TrimsAt cut R m m' a a')
    (hk : ∀ x, Action.Trims cut R (k x) (k' x)) :
    Action.TrimsAt cut R m m' (a >>= k) (a' >>= k') := fun next stop next' stop' F =>
  ha _ _ _ _ ⟨fun x n n' hR => hk x n n' hR next stop next' stop' F, F.stops, F.cuts⟩

theorem trims_bind {a a' : Action α} {k k' : α → Action β} (ha : Action.Trims cut R a a')
    (hk : ∀ x, Action.Trims cut R (k x) (k' x)) : Action.Trims cut R (a >>= k) (a' >>= k') :=
  fun m m' hR => trimsAt_bind (ha m m' hR) hk

/-- A step that needs nothing from the host, and what follows each of its values. -/
theorem trimsAt_step {e e' : Eval α} {k k' : α → Action β} (he : Pseudocode.TrimsAt cut R m m' e e')
    (hk : ∀ x, (∃ n, e m = .ok x n) → Action.Trims cut R (k x) (k' x)) :
    Action.TrimsAt cut R m m' ((liftM e : Action α) >>= k) ((liftM e' : Action α) >>= k') := by
  intro next stop next' stop' F
  show Run.Trims cut R ((liftM e : Action α) m (fun x n => k x n next stop) stop)
    ((liftM e' : Action α) m' (fun x n => k' x n next' stop') stop')
  rcases he with ⟨h, n, he, hc⟩ | ⟨x, n, n', he, he', hR⟩ | ⟨h, n, n', he, he', hR⟩
  · rw [lift_error _ _ he]
    exact F.cuts h n _ hc
  · rw [lift_ok _ _ he, lift_ok _ _ he']
    exact hk x ⟨n, he⟩ n n' hR next stop next' stop' F
  · rw [lift_error _ _ he, lift_error _ _ he']
    exact F.stops h n n' hR

theorem trimsAt_lift {e e' : Eval α} (he : Pseudocode.TrimsAt cut R m m' e e') :
    Action.TrimsAt cut R m m' (liftM e) (liftM e') :=
  trimsAt_step (k := pure) he fun x _ _ _ hR => trimsAt_pure hR x

theorem trims_get {k k' : Machine → Action β}
    (hk : ∀ m m', R m m' → Action.Trims cut R (k m) (k' m')) :
    Action.Trims cut R (liftM (get : Eval Machine) >>= k) (liftM (get : Eval Machine) >>= k') :=
  fun m m' hR => hk m m' hR m m' hR

theorem trims_step {e e' : Eval α} {k k' : α → Action β} (he : Pseudocode.Trims cut R e e')
    (hk : ∀ x, (∃ m m' n, R m m' ∧ e m = .ok x n) → Action.Trims cut R (k x) (k' x)) :
    Action.Trims cut R ((liftM e : Action α) >>= k) ((liftM e' : Action α) >>= k') := by
  refine fun m m' hR => trimsAt_step (he m m' hR) fun x hx => ?_
  obtain ⟨n, hx⟩ := hx
  exact hk x ⟨m, m', n, hR, hx⟩

/-- A loop that has used up the first bound: both have, or the first is cut short. -/
theorem trims_exhausted {n' : Nat} (rounds' : Nat → Action Scope) (hw : Within cut 0 n')
    (h0 : rounds' 0 = liftM (throw .exhausted : Eval Scope)) :
    Action.Trims cut R (liftM (throw .exhausted : Eval Scope)) (rounds' n') := by
  intro m m' hR
  rcases hw with rfl | ⟨-, hc⟩
  · rw [h0]
    exact Action.trimsAt_lift (trimsAt_throw hR _)
  · exact fun next stop next' stop' F => F.cuts .exhausted m _ hc

theorem trims_ask (q : Query) : Action.Trims cut R (Action.ask q) (Action.ask q) := by
  intro m m' hR next stop next' stop' F
  refine .asking q m m' _ _ hR fun reply n n' hR => ?_
  cases reply with
  | ok x => exact F.ends x n n' hR
  | error h => exact F.stops h n n' hR

variable (T : Truncation cut R)
include T

theorem trimsAt_located {a a' : Action α} (line : Int) (ha : Action.TrimsAt cut R m m' a a') :
    Action.TrimsAt cut R m m' (Action.located line a) (Action.located line a') := by
  intro next stop next' stop' F
  refine ha _ _ _ _ ⟨F.ends, fun h n n' hR => ?_, fun h n r' hc =>
    F.cuts _ _ r' (T.charge hc n line)⟩
  obtain ⟨hcause, hR⟩ := T.charged hR line h
  show Run.Trims cut R (stop (n.charge line h).1 (n.charge line h).2)
    (stop' (n'.charge line h).1 (n'.charge line h).2)
  rw [hcause]
  exact F.stops _ _ _ hR

theorem trims_inCall {a a' : Action α} (f : CallFrame) (ha : Action.Trims cut R a a') :
    Action.Trims cut R (Action.inCall f a) (Action.inCall f a') := by
  intro m m' hR next stop next' stop' F
  unfold Action.inCall
  rcases T.depthLimit hR (m.depth + 1) with hdepth | ⟨hdepth, hc⟩
  · rw [(T.inStep hR).depth, hdepth]
    cases m.checkDepth (m.depth + 1) with
    | error h => exact F.stops h m m' hR
    | ok u =>
      refine ha _ _ (T.enterCall hR f) _ _ _ _
        ⟨fun x n n' hR => ?_, fun h n n' hR => ?_, fun h n r' hc => ?_⟩
      · exact F.ends x _ _ (T.leaveCall hR f)
      · exact F.stops h _ _ (T.leaveCall hR f)
      · exact F.cuts h _ r' hc
  · rw [hdepth]
    exact F.cuts _ m _ hc

end Parts

end Action

/-! ## Statements -/

/-- The parts of two runs that come to the same, or of which the first is cut short. -/
def Truncation.parts {cut : Halt → Prop} {R : Machine → Machine → Prop} (T : Truncation cut R) :
    Parts T.performing where
  Has := Action.Trims cut R
  pure x _ _ hR := Action.trimsAt_pure hR x
  bind := Action.trims_bind
  step := Action.trims_step
  get := Action.trims_get
  exhausted := Action.trims_exhausted

section Rules

variable {cut : Halt → Prop} {R : Machine → Machine → Prop} (T : Truncation cut R)
  {expr expr' : Scope → Expr → Eval Value} {stmt stmt' : Scope → Stmt → Action Scope}
  (hx : ∀ scope e, Trims cut R (expr scope e) (expr' scope e))
  (hs : ∀ scope s, Action.Trims cut R (stmt scope s) (stmt' scope s))
include T

theorem trims_executeBlock (hs : ∀ scope s, Action.Trims cut R (stmt scope s) (stmt' scope s))
    (scope : Scope) (b : Block) :
    Action.Trims cut R (executeBlock stmt scope b) (executeBlock stmt' scope b) :=
  T.parts.has_executeBlock (fun s _ scope => hs scope s) scope

include hx hs

theorem trims_performCall (scope : Scope) (name : String) (arguments : List Expr) (line : Int) :
    Action.Trims cut R (performCall expr (executeBlock stmt) scope name arguments line)
      (performCall expr' (executeBlock stmt') scope name arguments line) := by
  refine T.parts.get fun m m' hR => ?_
  unfold Table.contains
  rw [(T.agrees hR).procedure, (T.agrees hR).function]
  split
  · split
    · exact T.parts.lift (relates_fault (by simp))
    · refine Action.trims_inCall T _ (T.parts.step ?_ fun callee _ => ?_)
      · exact relates_bindArguments (L := T.comparison) (fun e _ => hx scope e) freshScope _
      · exact T.parts.returning (trims_executeBlock T hs callee _) ()
  · split
    · exact T.parts.lift (relates_fault (by simp))
    · exact T.parts.lift (relates_fault (by simp))

theorem trims_perform {n n' : Nat} (hw : Within cut n n') (scope : Scope)
    (line : Int) (form : Form) :
    Action.Trims cut R (perform expr (executeBlock stmt) n scope line form)
      (perform expr' (executeBlock stmt') n' scope line form) := by
  cases hform : form.isCompound with
  | false =>
    exact T.parts.has_performSimple (fun _ => Action.trims_ask _) hx scope _ _ n n' line hform
      fun _ _ _ hR => .ends () _ _ rfl rfl (T.register hR form)
  | true =>
    exact T.parts.has_performCompound hx _ _ hw scope line hform
      (fun _ b _ scope => trims_executeBlock T hs scope b)
      (fun name arguments _ => trims_performCall T hx hs scope name arguments line)

omit hx hs in
theorem trims_checkCancelled : Trims cut R checkCancelled checkCancelled := by
  intro m m' hR
  refine trimsAt_get ?_
  rw [(T.inStep hR).cancelRequested, (T.inStep hR).line]
  split
  · exact trimsAt_throw hR _
  · exact trimsAt_pure hR _

theorem trims_performLocated {n n' : Nat} (hw : Within cut n n') (scope : Scope)
    (line : Int) (form : Form) :
    Action.Trims cut R (performLocated expr (executeBlock stmt) n scope line form)
      (performLocated expr' (executeBlock stmt') n' scope line form) := by
  intro m m' hR
  have hperform := Action.trimsAt_located T line (trims_perform T hx hs hw scope line form m m' hR)
  cases form with
  | inert kind => exact Action.trimsAt_lift (trimsAt_throw hR _)
  | _ => exact hperform

theorem trims_executeDispatched {n n' : Nat} (hw : Within cut n n') (scope : Scope) (s : Stmt) :
    Action.Trims cut R (executeDispatched expr (executeBlock stmt) n scope s)
      (executeDispatched expr' (executeBlock stmt') n' scope s) := by
  intro m m' hR
  refine Action.trimsAt_bind (Action.trimsAt_lift (trims_dispatch T s.line m m' hR))
    fun _ l l' hR => ?_
  refine Action.trimsAt_bind (Action.trims_ask _ l l' hR) fun _ l l' hR => ?_
  refine Action.trimsAt_bind (Action.trimsAt_lift (trims_checkCancelled T l l' hR))
    fun _ l l' hR => ?_
  refine Action.trimsAt_bind (trims_performLocated T hx hs hw scope s.line s.form l l' hR)
    fun after l l' hR => ?_
  exact Action.trimsAt_bind (Action.trims_ask _ l l' hR) fun _ _ _ hR => Action.trimsAt_pure hR _

end Rules

/-- **Statements** under a bound and under one that is within it. -/
theorem execute_trims {cut : Halt → Prop} {R : Machine → Machine → Prop} (T : Truncation cut R)
    {n n' : Nat} (hw : Within cut n n') (scope : Scope) (s : Stmt) :
    Action.Trims cut R (execute n scope s) (execute n' scope s) := by
  induction n generalizing n' scope s with
  | zero => exact Action.trims_exhausted (execute · scope s) hw rfl
  | succ n ih =>
    obtain ⟨k, rfl⟩ := hw.succ_left
    exact trims_executeDispatched T (evaluate_runStatement_trims T hw.pred).1 (ih hw.pred) hw.pred
      scope s

theorem Truncation.registerAll {cut : Halt → Prop} {R : Machine → Machine → Prop}
    (T : Truncation cut R) (program : Block) {m m' : Machine} (hR : R m m') :
    R (m.registerAll program) (m'.registerAll program) := by
  unfold Machine.registerAll
  induction program generalizing m m' with
  | nil => exact hR
  | cons s rest ih => exact ih (T.register hR s.form)

/-- **Programs** under a bound and under one that is within it. -/
theorem executeProgram_trims {cut : Halt → Prop} {R : Machine → Machine → Prop}
    (T : Truncation cut R) {n n' : Nat} (hw : Within cut n n') (program : Block)
    {m m' : Machine} (hR : R m m') :
    Run.Trims cut R (executeProgram n program m) (executeProgram n' program m') := by
  refine trims_executeBlock T (execute_trims T hw) .global _ _ _
    (T.registerAll program (T.update hR .rewound))
    _ _ _ _ ⟨fun _ n n' hR => ?_, fun h n n' hR => ?_, fun h n r' hc => ?_⟩
  · exact .finished _ _ _ (T.update hR .settled)
  · exact .finished _ _ _ (T.update hR .settled)
  · exact .cut h _ r' hc

/-! ## Draining -/

/-- A run adds to the lines that were handed out before it. -/
theorem output_prefix_drain (r : Run) (s : Supply) :
    s.output.toList <+: (r.drain Supply.host s).2.2.output.toList := by
  induction r generalizing s with
  | finished ending m => exact List.prefix_rfl
  | asking q m resume ih =>
    have hreply : s.output.toList <+: (s.reply q).2.output.toList := by
      cases q with
      | output line => simp [Supply.reply]
      | input label type =>
        unfold Supply.reply
        cases s.inputs <;> exact List.prefix_rfl
      | _ => exact List.prefix_rfl
    exact hreply.trans (ih (s.reply q).1 m (s.reply q).2)

/-- Drained with the same inputs and files, two runs that put the same queries have the same ending,
related machines and the same supply left, or the first is cut short and its output is a prefix of
the second's. -/
theorem Run.Trims.drained {cut : Halt → Prop} {R : Machine → Machine → Prop} {r r' : Run}
    (h : Run.Trims cut R r r') (s : Supply) :
    (∃ halt, (r.drain Supply.host s).1 = .error halt ∧ cut halt ∧
      (r.drain Supply.host s).2.2.output.toList <+:
        (r'.drain Supply.host s).2.2.output.toList) ∨
    ((r'.drain Supply.host s).1 = (r.drain Supply.host s).1 ∧
      R (r.drain Supply.host s).2.1 (r'.drain Supply.host s).2.1 ∧
      (r'.drain Supply.host s).2.2 = (r.drain Supply.host s).2.2) := by
  induction h generalizing s with
  | cut halt m r' hc => exact Or.inl ⟨halt, rfl, hc, output_prefix_drain r' s⟩
  | finished ending m m' hR => exact Or.inr ⟨rfl, hR, rfl⟩
  | asking q m m' resume resume' hR _ ih => exact ih (s.reply q).1 m m' hR (s.reply q).2

/-! ## The bound of a run -/

/-- The same machine under two bounds: only running out of the smaller one may tell the runs
apart. -/
theorem truncation_bound : Truncation (· = .exhausted) Eq where
  inStep := by rintro m _ rfl; exact ⟨.refl m, rfl, rfl, rfl, rfl⟩
  dispatchLimit h count := Or.inl (by rw [h])
  depthLimit h depth := Or.inl (by rw [h])
  charge h m line := by rw [h]; rfl
  update h _ := by rw [h]
  register h form := by rw [h]

theorem runWithin_eq (n : Nat) (program : Block) (m : Machine) (s : Supply) :
    runWithin n program m s =
      ⟨((executeProgram n program m).drain Supply.host s).1,
        ((executeProgram n program m).drain Supply.host s).2.1,
        ((executeProgram n program m).drain Supply.host s).2.2⟩ := rfl

/-- **A run that ends under a bound is the same under every larger one.** -/
theorem runWithin_stable {n n' : Nat} (hn : n ≤ n') (program : Block) (m : Machine) (s : Supply)
    (h : (runWithin n program m s).ending ≠ .error .exhausted) :
    runWithin n' program m s = runWithin n program m s := by
  have htrims := executeProgram_trims truncation_bound (Or.inr ⟨hn, rfl⟩) program (Eq.refl m)
  rcases htrims.drained s with ⟨halt, hending, rfl, -⟩ | ⟨hending, hm, hs⟩
  · exact absurd hending h
  · rw [runWithin_eq, runWithin_eq, hending, ← hm, hs]

/-! ## The limits of a run -/

/-- One limit is at most another. A limit that cannot be compared with counts is only at most
itself. -/
instance : LE Limit where
  le
    | .atMost n, .atMost n' => n ≤ n'
    | .atMost _, .endless => True
    | .endless, .endless => True
    | .unusable, .unusable => True
    | _, _ => False

/-- A larger limit says the same of a count, or the smaller one does not allow it. -/
theorem Limit.allows_of_le {l l' : Limit} (h : l ≤ l') (count : Nat) :
    l'.allows count = l.allows count ∨ l.allows count = .ok false := by
  cases l with
  | atMost n =>
    by_cases hn : (count : Int) ≤ n
    · cases l' with
      | atMost n' =>
        have hn' : (count : Int) ≤ n' := Int.le_trans hn h
        exact Or.inl (by simp [Limit.allows, hn, hn'])
      | endless => exact Or.inl (by simp [Limit.allows, hn])
      | unusable => exact absurd h id
    · exact Or.inr (by simp [Limit.allows, hn])
  | endless =>
    cases l' with
    | endless => exact Or.inl rfl
    | _ => exact absurd h id
  | unusable =>
    cases l' with
    | unusable => exact Or.inl rfl
    | _ => exact absurd h id

/-- The machine under other limits. -/
def Machine.limited (m : Machine) (dispatches depth : Limit) : Machine :=
  { m with settings := { m.settings with maxDispatches := dispatches, maxDepth := depth } }

/-- The reasons for which the guards against endless runs stop a program. -/
def Halt.isGuard : Halt → Prop
  | .fault .dispatchLimit _ | .fault .depthLimit _ => True
  | _ => False

section Guards

variable {a a' d d' : Limit}

/-- The first machine has the limits `a` and `d`, and the second is the first under others. -/
def Relimited (a d a' d' : Limit) (m m' : Machine) : Prop :=
  m.settings.maxDispatches = a ∧ m.settings.maxDepth = d ∧ m' = m.limited a' d'

/-- A machine under smaller and larger limits: only the guards may tell the runs apart. -/
theorem truncation_limits (ha : a ≤ a') (hd : d ≤ d') :
    Truncation Halt.isGuard (Relimited a d a' d') where
  inStep := by
    rintro m _ ⟨-, -, rfl⟩
    exact ⟨⟨rfl, rfl, rfl, rfl, rfl, rfl, fun _ => rfl, fun _ => rfl⟩, rfl, rfl, rfl, rfl⟩
  dispatchLimit := by
    rintro m _ ⟨rfl, -, rfl⟩ count
    rcases Limit.allows_of_le ha count with h | h
    · exact Or.inl h
    · exact Or.inr ⟨h, fun _ => trivial⟩
  depthLimit := by
    rintro m _ ⟨-, rfl, rfl⟩ depth
    unfold Machine.checkDepth
    rcases Limit.allows_of_le hd depth with h | h
    · refine Or.inl ?_
      rw [show (m.limited a' d').settings.maxDepth = d' from rfl, h]
      rfl
    · exact Or.inr ⟨by rw [h]; rfl, trivial⟩
  charge := by
    intro h hc m line
    unfold Machine.charge
    split
    · rename_i cause
      cases cause <;> first | exact trivial | exact hc
    · exact hc
  update := by
    rintro m _ f ⟨ha, hd, rfl⟩ hf
    cases hf <;> exact ⟨ha, hd, rfl⟩
  register := by
    rintro m _ ⟨ha, hd, rfl⟩ form
    cases form <;> exact ⟨ha, hd, rfl⟩

/-- A run failed with the given message. -/
def Report.failedWith (r : Report) (message : String) : Prop :=
  ∃ cause line, r.ending = .error (.fault cause line) ∧ cause.message = message

/-- A run that a guard stopped failed with the message of that guard. -/
theorem Report.failedWith_of_isGuard {r : Report} {h : Halt} (hr : r.ending = .error h)
    (hg : h.isGuard) :
    r.failedWith "Execution timeout: Possible infinite loop" ∨
      r.failedWith "Maximum recursion depth exceeded" := by
  unfold Halt.isGuard at hg
  split at hg
  · exact Or.inl ⟨_, _, hr, rfl⟩
  · exact Or.inr ⟨_, _, hr, rfl⟩
  · cases hg

/-- **Limits only cut runs short.** Take one program, machine, inputs and files, and limits on
dispatches and calls that do not exceed others. If no guard stops the run under the smaller limits,
the run under the larger ones ends alike, with the same machine but for its limits and the same
output and requests for input. If a guard stops it, what it has handed out by then is how the output
of the run under the larger limits begins. -/
theorem limits_only_cut_runs_short (bound : Nat) (program : Block) (m : Machine) (s : Supply)
    (ha : a ≤ a') (hd : d ≤ d') :
    let tight := runWithin bound program (m.limited a d) s
    let loose := runWithin bound program (m.limited a' d') s
    let guarded := tight.failedWith "Execution timeout: Possible infinite loop" ∨
      tight.failedWith "Maximum recursion depth exceeded"
    (¬guarded → loose.ending = tight.ending ∧ loose.machine = tight.machine.limited a' d' ∧
      loose.supply = tight.supply) ∧
    (guarded → tight.supply.output.toList <+: loose.supply.output.toList) := by
  intro tight loose guarded
  have htrims := executeProgram_trims (truncation_limits ha hd) (Or.inl rfl) program
    (show Relimited a d a' d' (m.limited a d) (m.limited a' d') from ⟨rfl, rfl, rfl⟩) (n := bound)
  rcases htrims.drained s with ⟨h, hending, hg, hprefix⟩ | ⟨hending, ⟨-, -, hm⟩, hs⟩
  · exact ⟨fun hn => absurd (Report.failedWith_of_isGuard hending hg) hn, fun _ => hprefix⟩
  · have hsupply : loose.supply = tight.supply := hs
    exact ⟨fun _ => ⟨hending, hm, hsupply⟩, fun _ => hsupply ▸ List.prefix_rfl⟩

/-- An endless loop that hands out a line in each round. -/
def endlessOutput : Block :=
  [.mk 1 (.whileDo (.literal 1 (.bool true)) [.mk 2 (.output [.literal 2 (.text "again")])])]

/-- The guard on dispatches stops the endless loop. -/
theorem endlessOutput_guarded :
    (runWithin 9 endlessOutput (({} : Machine).limited (.atMost 3) (.atMost 5)) {}).failedWith
      "Execution timeout: Possible infinite loop" :=
  ⟨.dispatchLimit, 2, by rfl, rfl⟩

/-- Under three dispatches the output of the endless loop is how its output under five begins. -/
theorem limits_cut_endless_output_short :
    Limit.atMost 3 ≤ .atMost 5 ∧ Limit.atMost 5 ≤ .endless ∧
      (runWithin 9 endlessOutput
          (({} : Machine).limited (.atMost 3) (.atMost 5)) {}).supply.output.toList <+:
        (runWithin 9 endlessOutput
          (({} : Machine).limited (.atMost 5) .endless) {}).supply.output.toList := by
  have ha : Limit.atMost 3 ≤ .atMost 5 := show (3 : Int) ≤ 5 by decide
  have hd : Limit.atMost 5 ≤ .endless := trivial
  exact ⟨ha, hd,
    (limits_only_cut_runs_short 9 endlessOutput {} {} ha hd).2 (Or.inl endlessOutput_guarded)⟩

end Guards

end Pseudocode

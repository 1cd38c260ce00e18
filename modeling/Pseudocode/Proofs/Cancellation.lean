import Pseudocode.Proofs.Control
import Pseudocode.Proofs.Standstill

/-!
# A cancelled run winds down

A host may ask for a cancellation while it holds a run at a line of output or before a statement.
From then on no statement is dispatched, but there may be work left that needs none: statements that
are under way come to their end, loop variables move on, conditions of loops are evaluated, calls
are left. `Run.WindsDown` says what the rest of the run can be. Its only queries tell that
statements under way have ended, and it ends for one of a few reasons (`Aftermath`), or as usual if
there was no statement left.

That the rest needs no more than a certain bound is part of the statement. A loop under way at a
suspension has a statement in its body, since one is under way there. So the next round is refused
at once, and all that a loop still needs is a bound above the size of its condition. Each level of
nesting and each round of a loop announces a statement; so after `k` queries no bound in a run has
gone down by more than `k` (the number `spare` in `Run.Heeds`).

Results:
* `execute_heeds`: statements, wherever they are suspended.
* `executeProgram_heeds`: programs.
* `cancellation_stops_at_the_next_statement`: what follows a cancellation.
-/

namespace Pseudocode

open Eval

/-! ## What is left of a cancelled run -/

/-- The same reason to stop, or a fault without a line that has been charged to a statement. -/
def Halt.ChargedAs (h h' : Halt) : Prop :=
  h' = h ∨ ∃ cause line, h = .fault cause 0 ∧ h' = .fault cause line

theorem Halt.ChargedAs.refl (h : Halt) : h.ChargedAs h :=
  Or.inl rfl

theorem Halt.ChargedAs.trans {h h₁ h₂ : Halt} (h₁₂ : h.ChargedAs h₁) (h₂₃ : h₁.ChargedAs h₂) :
    h.ChargedAs h₂ := by
  rcases h₁₂ with rfl | ⟨cause, line, rfl, rfl⟩
  · exact h₂₃
  · rcases h₂₃ with rfl | ⟨cause', line', hcause, rfl⟩
    · exact Or.inr ⟨cause, line, rfl, rfl⟩
    · cases hcause
      exact Or.inr ⟨cause, line', rfl, rfl⟩

theorem Halt.chargedAs_charge (m : Machine) (line : Int) (h : Halt) :
    h.ChargedAs (m.charge line h).1 := by
  unfold Machine.charge
  split
  · exact Or.inr ⟨_, line, rfl, rfl⟩
  · exact .refl _

/-- The condition that a WHILE or REPEAT evaluates before or after each round, with its keyword. -/
def Form.loopTest? : Form → Option (String × Expr)
  | .whileDo test _ => some ("WHILE", test)
  | .repeatUntil _ test => some ("UNTIL", test)
  | _ => none

/-- Why a run stops that was cancelled at the machine `m₀`, with the statements `whole` under
way. -/
inductive Aftermath (m₀ : Machine) (whole : List Stmt) : Halt → Machine → Prop
  /-- It was held before a statement. -/
  | held {m : Machine} (lull : Lull m₀ m) : Aftermath m₀ whole (.cancelled m₀.line) m
  /-- The next statement is refused: it is counted, but it is cancelled or one too many. -/
  | refused {h₀ h : Halt} {m : Machine} (why : m₀.Refuses h₀) (charged : h₀.ChargedAs h)
      (lull : Lull m₀.counted m) :
      Aftermath m₀ whole h m
  /-- The condition of a loop under way fails. -/
  | condition {s : Stmt} {keyword : String} {test : Expr} {n : Nat} {scope : Scope}
      {m₁ m₂ m : Machine} {h₀ h : Halt} (under : s ∈ whole)
      (loop : s.form.loopTest? = some (keyword, test)) (before : Lull m₀ m₁)
      (fails : condition (evaluate n) scope keyword test m₁ = .error h₀ m₂) (bare : h₀.IsBare)
      (charged : h₀.ChargedAs h) (lull : Lull m₀ m) : Aftermath m₀ whole h m
  /-- The variable of a FOR under way cannot be moved on. -/
  | advance {s : Stmt} {name : String} {start stop step : Expr} {body : Block} {n : Nat}
      {scope : Scope} {c : Counter} {inner : Scope} {m₁ m₂ m₃ m₄ m : Machine} {h₀ h : Halt}
      (under : s ∈ whole) (loop : s.form = .forTo name start stop step body)
      (started : startFor (evaluate n) scope name start stop step m₁ = .ok (c, inner) m₂)
      (before : Lull m₀ m₃) (fails : c.advance m₃ = .error h₀ m₄) (bare : h₀.IsBare)
      (charged : h₀.ChargedAs h) (lull : Lull m₀ m) :
      Aftermath m₀ whole h m

/-- Calls that are left and a line that is charged do not matter for why a run stops. -/
theorem Aftermath.later {m₀ m m' : Machine} {whole : List Stmt} {h h' : Halt}
    (ha : Aftermath m₀ whole h m) (hc : h.ChargedAs h') (hl : Lull m m') :
    Aftermath m₀ whole h' m' := by
  cases ha with
  | held lull =>
    rcases hc with rfl | ⟨_, _, hc, -⟩
    · exact .held (lull.trans hl)
    · cases hc
  | refused why charged lull => exact .refused why (charged.trans hc) (lull.trans hl)
  | condition under loop before fails bare charged lull =>
    exact .condition under loop before fails bare (charged.trans hc) (lull.trans hl)
  | advance under loop started before fails bare charged lull =>
    exact .advance under loop started before fails bare (charged.trans hc) (lull.trans hl)

/-- **What is left of a run** that was cancelled at the machine `m₀` with the statements `whole`
under way. Of these, `under` have not ended yet, innermost first. The host only hears that they end,
as long as they do; no statement is counted on the way, unless the run stops with it; and once the
run has ended no cancellation is pending. -/
inductive Run.WindsDown (m₀ : Machine) (whole : List Stmt) : List Stmt → Run → Prop
  | ends {s : Stmt} {under : List Stmt} {m : Machine}
      {resume : Query.Reply (.ended s) → Machine → Run} (lull : Lull m₀ m)
      (rest : ∀ m', HostChange m m' → m'.cancelRequested = true →
        WindsDown m₀ whole under (resume (.ok ()) m')) :
      WindsDown m₀ whole (s :: under) (.asking (.ended s) m resume)
  /-- There was no statement left. -/
  | done {m : Machine} (lull : Lull m₀ m) (settled : m.cancelRequested = false) :
      WindsDown m₀ whole [] (.finished (.ok ()) m)
  | stops {under : List Stmt} {h : Halt} {m : Machine} (why : Aftermath m₀ whole h m)
      (settled : m.cancelRequested = false) : WindsDown m₀ whole under (.finished (.error h) m)

/-! ## Runs that heed a cancellation -/

/-- The queries at which a host can cancel a run: a line of output, and the announcement of a
statement. -/
def Query.IsPause : Query → Prop
  | .output _ | .began _ => True
  | _ => False

/-- The statements under way after a query has been answered, from those before it. -/
def Query.underWay : Query → List Stmt → List Stmt
  | .began s, under => s :: under
  | .ended _, under => under.tail
  | _, under => under

/-- A bound that is not exhausted by the conditions of the loops under way. -/
structure Roomy (spare : Nat) (whole : List Stmt) : Prop where
  pos : 0 < spare
  tests : ∀ s ∈ whole, ∀ keyword test, s.form.loopTest? = some (keyword, test) → sizeOf test < spare

/-- Wherever the run is suspended at a pause and cancelled, it winds down, if `spare` is a bound
with room for the statements `under` way there; with each query less of the bound is to spare. -/
inductive Run.Heeds : Nat → List Stmt → Run → Prop
  | finished {spare : Nat} {under : List Stmt} (ending : Except Halt Unit) (m : Machine) :
      Heeds spare under (.finished ending m)
  | asking {spare : Nat} {under : List Stmt} {q : Query} {m : Machine}
      {resume : q.Reply → Machine → Run} (pause : q.IsPause → Roomy spare under →
        ∀ a m', HostChange m m' → m'.Cancelled → (resume (.ok a) m').WindsDown m under under)
      (rest : ∀ reply m', Heeds (spare - 1) (q.underWay under) (resume reply m')) :
      Heeds spare under (.asking q m resume)

theorem Roomy.mono {spare spare' : Nat} {whole : List Stmt} (h : Roomy spare whole)
    (hle : spare ≤ spare') : Roomy spare' whole :=
  ⟨Nat.lt_of_lt_of_le h.pos hle, fun s hs keyword test ht =>
    Nat.lt_of_lt_of_le (h.tests s hs keyword test ht) hle⟩

theorem Run.Heeds.mono {spare spare' : Nat} {under : List Stmt} {r : Run} (h : r.Heeds spare under)
    (hle : spare' ≤ spare) : r.Heeds spare' under := by
  induction h generalizing spare' with
  | finished ending m => exact .finished ending m
  | asking pause _ ih =>
    exact .asking (fun hq hr => pause hq (hr.mono hle)) fun reply m' => ih reply m' (by omega)

/-- A machine of a run that winds down: `under` are those of the statements `whole` that have not
ended yet, and the bound has room. -/
structure Winding (spare : Nat) (under : List Stmt) (m₀ : Machine)
    (whole : List Stmt) (m : Machine) : Prop where
  under : under <:+ whole
  room : Roomy spare whole
  lull : Lull m₀ m
  pending : m.Cancelled

/-- What follows winds down, if it follows in a run that does. -/
def Ebbs (spare : Nat) (under : List Stmt) {α : Type} (next : α → Machine → Run) : Prop :=
  ∀ m₀ whole x m, Winding spare under m₀ whole m → (next x m).WindsDown m₀ whole under

/-- What follows a stop: the run ends for that reason, without another statement. -/
def Sinks (stop : Halt → Machine → Run) : Prop :=
  ∀ h m, ∃ h' m', stop h m = .finished (.error h') m' ∧ h.ChargedAs h' ∧ Lull m m' ∧
    m'.cancelRequested = false

/-- What follows a part of a run heeds a cancellation, however the part ends. -/
structure Receives (spare : Nat) (under : List Stmt) {α : Type} (next : α → Machine → Run)
    (stop : Halt → Machine → Run) : Prop where
  heeds : ∀ x m, (next x m).Heeds spare under
  ebbs : Ebbs spare under next
  sinks : Sinks stop

/-- A part of a run that heeds a cancellation, if what follows does; at least `spent` queries are in
it. -/
def Action.Heeds (spare spent : Nat) (under : List Stmt) {α : Type} (a : Action α) : Prop :=
  ∀ m next stop, Receives (spare - spent) under next stop → (a m next stop).Heeds spare under

/-- A part of a run that winds down, if what follows does. -/
def Action.Ebbs (spare : Nat) (under : List Stmt) {α : Type} (a : Action α) : Prop :=
  ∀ m₀ whole m next stop, Winding spare under m₀ whole m →
    Pseudocode.Ebbs spare under next → Sinks stop →
    (a m next stop).WindsDown m₀ whole under

theorem Winding.mono {spare spare' : Nat} {under : List Stmt} {m₀ m : Machine} {whole : List Stmt}
    (w : Winding spare under m₀ whole m) (hle : spare ≤ spare') : Winding spare' under m₀ whole m :=
  ⟨w.under, w.room.mono hle, w.lull, w.pending⟩

theorem Winding.next {spare : Nat} {under : List Stmt} {m₀ m m' : Machine} {whole : List Stmt}
    (w : Winding spare under m₀ whole m) (hl : Lull m m') (hm' : m'.Cancelled) :
    Winding spare under m₀ whole m' :=
  ⟨w.under, w.room, w.lull.trans hl, hm'⟩

theorem Receives.mono {spare spare' : Nat} {under : List Stmt} {α : Type} {next : α → Machine → Run}
    {stop : Halt → Machine → Run} (h : Receives spare under next stop) (hle : spare' ≤ spare) :
    Receives spare' under next stop :=
  ⟨fun x m => (h.heeds x m).mono hle, fun m₀ whole x m w =>
    h.ebbs m₀ whole x m (w.mono hle), h.sinks⟩

/-- A stop heeds a cancellation: there is nothing left to suspend. -/
theorem Sinks.heeds {stop : Halt → Machine → Run} (hs : Sinks stop) (spare : Nat)
    (under : List Stmt) (h : Halt) (m : Machine) : (stop h m).Heeds spare under := by
  obtain ⟨h', m', heq, -⟩ := hs h m
  rw [heq]
  exact .finished _ _

theorem Sinks.windsDown {stop : Halt → Machine → Run} (hs : Sinks stop) {m₀ : Machine}
    {whole : List Stmt} (under : List Stmt) {h : Halt} {m : Machine} (ha : Aftermath m₀ whole h m) :
    (stop h m).WindsDown m₀ whole under := by
  obtain ⟨h', m', heq, hc, hl, hm'⟩ := hs h m
  rw [heq]
  exact .stops (ha.later hc hl) hm'

theorem HostChange.lull {m m' : Machine} (h : HostChange m m') : Lull m m' := by
  obtain ⟨cancel, journal, rfl⟩ := h
  exact ⟨rfl, rfl, rfl, rfl, rfl, rfl, rfl⟩

/-! ## One part after the other -/

section Parts

variable {spare spent : Nat} {under : List Stmt} {α β : Type}

theorem Action.heeds_pure (x : α) : (pure x : Action α).Heeds spare 0 under :=
  fun m _ _ hr => hr.heeds x m

theorem Action.ebbs_pure (x : α) : (pure x : Action α).Ebbs spare under :=
  fun m₀ whole m _ _ w hnext _ => hnext m₀ whole x m w

theorem Action.Heeds.bind {a : Action α} {k : α → Action β} (ha : a.Heeds spare spent under)
    (hk : ∀ x, (k x).Heeds (spare - spent) 0 under) (he : ∀ x, (k x).Ebbs (spare - spent) under) :
    (a >>= k).Heeds spare spent under := fun m next stop hr =>
  ha m _ stop
    ⟨fun x m' => hk x m' next stop hr, fun m₀ whole x m' w =>
      he x m₀ whole m' next stop w hr.ebbs hr.sinks, hr.sinks⟩

/-- A part that is followed by a result. -/
theorem Action.Heeds.returning {a : Action α} (ha : a.Heeds spare spent under) (y : β) :
    (a >>= fun _ => pure y).Heeds spare spent under :=
  ha.bind (fun _ => Action.heeds_pure y) fun _ => Action.ebbs_pure y

/-- A step that needs nothing from the host, and what follows it. -/
theorem Action.heeds_step {e : Eval α} {k : α → Action β}
    (hk : ∀ x m m', e m = .ok x m' → (k x).Heeds spare spent under) :
    ((liftM e : Action α) >>= k).Heeds spare spent under := by
  intro m next stop hr
  show ((liftM e : Action α) m (fun x m => k x m next stop) stop).Heeds spare under
  cases he : e m with
  | ok x m' =>
    rw [Action.lift_ok _ stop he]
    exact hk x m m' he m' next stop hr
  | error h m' =>
    rw [Action.lift_error _ stop he]
    exact hr.sinks.heeds spare under h m'

theorem Action.heeds_lift (e : Eval α) : (liftM e : Action α).Heeds spare 0 under :=
  Action.heeds_step (k := pure) fun x _ _ _ => Action.heeds_pure x

/-- A line of output. -/
theorem Action.heeds_output (line : String) : (Action.ask (.output line)).Heeds spare 0 under := by
  intro m next stop hr
  refine .asking (fun _ hroom a m' hc hm' => ?_) fun reply m' => ?_
  · exact hr.ebbs m under a m' ⟨List.suffix_refl under, hroom, hc.lull, hm'⟩
  · cases reply with
    | ok a => exact (hr.heeds a m').mono (by omega)
    | error h => exact hr.sinks.heeds _ _ h m'

/-- A query at which the host cannot cancel, and what follows it. -/
theorem Action.heeds_request {q : Query} {k : q.Answer → Action β} (hq : ¬ q.IsPause)
    (hunder : q.underWay under = under) (hk : ∀ a spare, (k a).Heeds spare 0 under) :
    (Action.ask q >>= k).Heeds spare 0 under := by
  intro m next stop hr
  refine .asking (fun h => absurd h hq) fun reply m' => ?_
  rw [hunder]
  cases reply with
  | ok a => exact hk a (spare - 1) m' next stop (hr.mono (by omega))
  | error h => exact hr.sinks.heeds _ _ h m'

theorem Sinks.located {stop : Halt → Machine → Run} (hs : Sinks stop) (line : Int) :
    Sinks fun h m => stop (m.charge line h).1 (m.charge line h).2 := by
  intro h m
  obtain ⟨h', m', heq, hc, hl, hm'⟩ := hs (m.charge line h).1 (m.charge line h).2
  have hcharge : Lull m (m.charge line h).2 := by
    unfold Machine.charge
    split
    · exact ⟨rfl, rfl, rfl, rfl, rfl, rfl, rfl⟩
    · exact .refl m
  exact ⟨h', m', heq, (Halt.chargedAs_charge m line h).trans hc, hcharge.trans hl, hm'⟩

theorem Action.Heeds.located {a : Action α} (ha : a.Heeds spare spent under) (line : Int) :
    (Action.located line a).Heeds spare spent under := fun m next _ hr =>
  ha m next _ ⟨hr.heeds, hr.ebbs, hr.sinks.located line⟩

theorem Action.Heeds.inCall {a : Action α} (ha : a.Heeds spare spent under) (f : CallFrame) :
    (Action.inCall f a).Heeds spare spent under := by
  intro m next stop hr
  unfold Action.inCall
  cases m.checkDepth (m.depth + 1) with
  | error h => exact hr.sinks.heeds spare under h m
  | ok _ =>
    refine ha _ _ _ ⟨fun x m' => hr.heeds x _, fun m₀ whole x m' w => ?_, fun h m' => ?_⟩
    · exact hr.ebbs m₀ whole x _
        (w.next (idling.leaveCall m' f) (idling.stable.leaveCall f w.pending))
    · obtain ⟨h', m'', heq, hc, hl, hm''⟩ := hr.sinks h (m'.leaveCall f)
      exact ⟨h', m'', heq, hc, (idling.leaveCall m' f).trans hl, hm''⟩

end Parts

open Pseudocode.Action (heeds_step heeds_lift heeds_pure heeds_output ebbs_pure)

/-! ## Blocks and loops -/

section Blocks

variable {spare n : Nat} {under : List Stmt} {m₀ m : Machine} {whole : List Stmt}

/-- A step of a run that winds down, and what follows it. -/
theorem Winding.step (w : Winding spare under m₀ whole m) {α : Type} {e : Eval α}
    (he : e.Obeys idling.toManner) {next : α → Machine → Run} {stop : Halt → Machine → Run}
    (hstop : Sinks stop) (hok : ∀ x m', e m = .ok x m' → Winding spare under m₀ whole m' →
      (next x m').WindsDown m₀ whole under)
    (herror : ∀ h m', e m = .error h m' → h.IsBare → Lull m₀ m' → Aftermath m₀ whole h m') :
    ((liftM e : Action α) m next stop).WindsDown m₀ whole under := by
  cases hm : e m with
  | ok x m' =>
    obtain ⟨hl, hm'⟩ := he.ok w.pending hm
    rw [Action.lift_ok next stop hm]
    exact hok x m' hm (w.next hl hm')
  | error h m' =>
    rw [Action.lift_error next stop hm]
    rcases he.error w.pending hm with ⟨hl, hb⟩ | ⟨hl, hr⟩
    · exact hstop.windsDown under (herror h m' hm hb (w.lull.trans hl))
    · exact hstop.windsDown under (.refused (hr.of_lull w.lull) (.refl h) (w.lull.counted.trans hl))

/-- The next statement is refused, whatever would follow it. -/
theorem Winding.execute (w : Winding spare under m₀ whole m) (hn : spare ≤ n) (scope : Scope)
    (s : Stmt) (next : Scope → Machine → Run) {stop : Halt → Machine → Run} (hstop : Sinks stop) :
    (execute n scope s m next stop).WindsDown m₀ whole under := by
  obtain ⟨k, rfl⟩ : ∃ k, n = k + 1 := ⟨n - 1, by have := w.room.pos; omega⟩
  obtain ⟨h, hd, hr⟩ := dispatch_refused w.pending s.line
  show ((liftM (dispatch s.line) : Action Unit) m _ stop).WindsDown m₀ whole under
  rw [Action.lift_error _ stop hd]
  exact hstop.windsDown under (.refused (hr.of_lull w.lull) (.refl h) w.lull.counted)

theorem ebbs_executeBlock (hn : spare ≤ n) (scope : Scope) (b : Block) :
    (executeBlock (execute n) scope b).Ebbs spare under := by
  cases b with
  | nil => exact ebbs_pure scope
  | cons s rest => exact fun m₀ whole m _ _ w _ hstop => w.execute hn scope s _ hstop

section Loops

variable {s : Stmt} {keyword : String} {test : Expr} {head : Stmt} {body : Block} {rounds : Nat}

/-- The condition of a loop under way. -/
theorem Winding.condition (w : Winding spare under m₀ whole m) (hn : spare ≤ n) (hs : s ∈ under)
    (hloop : s.form.loopTest? = some (keyword, test)) (scope : Scope) {next : Bool → Machine → Run}
    {stop : Halt → Machine → Run} (hstop : Sinks stop)
    (hnext : ∀ c m', Winding spare under m₀ whole m' → (next c m').WindsDown m₀ whole under) :
    ((liftM (condition (evaluate n) scope keyword test) : Action Bool) m next stop).WindsDown
      m₀ whole under := by
  have hs' : s ∈ whole := w.under.subset hs
  have hsize : sizeOf test < n := Nat.lt_of_lt_of_le (w.room.tests s hs' keyword test hloop) hn
  refine w.step (relates_condition (evaluate_idles hsize scope) keyword) hstop
    (fun c m' _ w' => hnext c m' w') ?_
  exact fun h m' he hb hl => .condition hs' hloop w.lull he hb (.refl h) hl

theorem ebbs_executeWhile (hs : s ∈ under) (hloop : s.form.loopTest? = some (keyword, test))
    (hn : spare ≤ n) (hr : spare ≤ rounds) (scope : Scope) :
    (executeWhile (fun scope => condition (evaluate n) scope keyword test)
      (fun scope =>
        executeBlock (execute n) scope (head :: body)) rounds scope).Ebbs spare under := by
  intro m₀ whole m next stop w hnext hstop
  obtain ⟨r, rfl⟩ : ∃ r, rounds = r + 1 := ⟨rounds - 1, by have := w.room.pos; omega⟩
  refine w.condition hn hs hloop scope hstop fun c m' w' => ?_
  cases c with
  | true => exact w'.execute hn scope head _ hstop
  | false => exact hnext m₀ whole scope m' w'

theorem ebbs_executeRepeat (hn : spare ≤ n) (hr : spare ≤ rounds)
    (test : Scope → Eval Bool) (scope : Scope) :
    (executeRepeat test
      (fun scope => executeBlock (execute n) scope (head :: body)) rounds scope).Ebbs
      spare under := by
  intro m₀ whole m next stop w hnext hstop
  obtain ⟨r, rfl⟩ : ∃ r, rounds = r + 1 := ⟨rounds - 1, by have := w.room.pos; omega⟩
  exact w.execute hn scope head _ hstop

/-- A loop variable that has been moved on holds a number. -/
theorem Counter.continues_of_advance {c : Counter} {m' : Machine} (h : c.advance m = .ok () m') :
    ∃ goesOn, c.continues m' = .ok goesOn m' := by
  obtain ⟨k, -, hvalue⟩ := Counter.value_advance h
  refine ⟨if 0 < c.step then (Numeric.int (k + c.step)).le (.int c.stop) else
    (Numeric.int c.stop).le (.int (k + c.step)), ?_⟩
  refine bind_eq_ok.mpr ⟨m', m', rfl, ?_⟩
  rw [hvalue]
  rfl

variable {name : String} {start stop step : Expr} {c : Counter} {outer inner : Scope}
  {m₁ m₂ : Machine} {block : Block}

/-- After a round, the loop variable moves on and the next round is refused, if there is one. -/
theorem ebbs_executeFor (hs : s ∈ under) (hloop : s.form = .forTo name start stop step block)
    (hstart : startFor (evaluate n) outer name start stop step m₁ = .ok (c, inner) m₂)
    (hn : spare ≤ n) (hr : spare ≤ rounds) (scope : Scope) :
    ((liftM c.advance : Action Unit) >>= fun _ =>
      executeFor c (fun scope =>
          executeBlock (execute n) scope (head :: body)) rounds scope).Ebbs spare under := by
  intro m₀ whole m next stop w hnext hstop
  obtain ⟨r, rfl⟩ : ∃ r, rounds = r + 1 := ⟨rounds - 1, by have := w.room.pos; omega⟩
  refine w.step (relates_advance c) hstop (fun _ m' hmoves w' => ?_) fun h m' he hb hl => ?_
  · obtain ⟨goesOn, hgoes⟩ := Counter.continues_of_advance hmoves
    show ((liftM c.continues : Action Bool) m' _ stop).WindsDown m₀ whole under
    rw [Action.lift_ok _ stop hgoes]
    cases goesOn with
    | true => exact w'.execute hn scope head _ hstop
    | false => exact hnext m₀ whole scope m' w'
  · exact .advance (w.under.subset hs) hloop hstart w.lull he hb (.refl h) hl

end Loops

variable (hexecute : ∀ spare under scope s, spare ≤ n → (execute n scope s).Heeds spare 1 under)
include hexecute

theorem heeds_executeBlock_cons (under : List Stmt) (hn : spare ≤ n) (scope : Scope)
    (s : Stmt) (rest : Block) :
    (executeBlock (execute n) scope (s :: rest)).Heeds spare 1 under := by
  induction rest generalizing spare scope s with
  | nil => exact (hexecute spare under scope s hn).bind (fun x => heeds_pure x) fun x => ebbs_pure x
  | cons t rest ih =>
    refine (hexecute spare under scope s hn).bind (fun after => ?_) fun after =>
      ebbs_executeBlock (by omega) after _
    exact fun m next stop hr => ih (by omega) after t m next stop (hr.mono (by omega))

theorem heeds_executeBlock (hn : spare ≤ n) (scope : Scope) (b : Block) :
    (executeBlock (execute n) scope b).Heeds spare 0 under := by
  cases b with
  | nil => exact heeds_pure scope
  | cons s rest =>
    exact fun m next stop hr =>
      heeds_executeBlock_cons hexecute under hn scope s rest m next stop (hr.mono (by omega))

section Loops

variable {s : Stmt} {keyword : String} {test : Expr} {body : Block} {rounds : Nat}

/-- WHILE. A loop with an empty body is never suspended; with any other, each round announces a
statement. -/
theorem heeds_executeWhile (hs : s ∈ under) (hloop : s.form.loopTest? = some (keyword, test))
    (hn : spare ≤ n) (hr : body ≠ [] → spare ≤ rounds) (scope : Scope) :
    (executeWhile (fun scope => condition (evaluate n) scope keyword test)
      (fun scope => executeBlock (execute n) scope body) rounds scope).Heeds spare 0 under := by
  induction rounds generalizing spare scope with
  | zero => exact heeds_lift _
  | succ rounds ih =>
    refine heeds_step fun c _ _ _ => ?_
    cases c with
    | false => exact heeds_pure scope
    | true =>
      cases body with
      | nil => exact ih hn (fun h => absurd rfl h) scope
      | cons head rest =>
        have hr : spare ≤ rounds + 1 := hr (by simp)
        have hround := (heeds_executeBlock_cons hexecute under hn scope head rest).bind
          (fun after => ih (by omega) (fun _ => by omega) after)
          fun after => ebbs_executeWhile hs hloop (by omega) (by omega) after
        exact fun m next stop h => hround m next stop (h.mono (by omega))

theorem heeds_executeRepeat (hs : s ∈ under) (hloop : s.form.loopTest? = some (keyword, test))
    (hn : spare ≤ n) (hr : body ≠ [] → spare ≤ rounds) (scope : Scope) :
    (executeRepeat (fun scope => condition (evaluate n) scope keyword test)
      (fun scope => executeBlock (execute n) scope body) rounds scope).Heeds spare 0 under := by
  induction rounds generalizing spare scope with
  | zero => exact heeds_lift _
  | succ rounds ih =>
    cases body with
    | nil =>
      refine heeds_step (e := condition (evaluate n) scope keyword test) fun c _ _ _ => ?_
      cases c with
      | true => exact heeds_pure scope
      | false => exact ih hn (fun h => absurd rfl h) scope
    | cons head rest =>
      have hr : spare ≤ rounds + 1 := hr (by simp)
      refine fun m next stop h => (heeds_executeBlock_cons hexecute under hn scope head rest).bind
        (fun after => heeds_step fun c _ _ _ => ?_) (fun after m₀ whole m next stop w hnext hstop =>
        ?_) m next stop (h.mono (by omega))
      · cases c with
        | true => exact heeds_pure after
        | false => exact ih (by omega) (fun _ => by omega) after
      · refine w.condition (n := n) (by omega) hs hloop after hstop fun c m' w' => ?_
        cases c with
        | true => exact hnext m₀ whole after m' w'
        | false =>
          exact ebbs_executeRepeat (by omega)
            (by omega) _ after m₀ whole m' next stop w' hnext hstop

theorem heeds_executeFor {name : String} {start stop step : Expr} {c : Counter}
    {outer inner : Scope} {m₁ m₂ : Machine} (hs : s ∈ under)
    (hloop : s.form = .forTo name start stop step body)
    (hstart : startFor (evaluate n) outer name start stop step m₁ = .ok (c, inner) m₂)
    (hn : spare ≤ n) (hr : body ≠ [] → spare ≤ rounds) (scope : Scope) :
    (executeFor c
      (fun scope => executeBlock (execute n) scope body) rounds scope).Heeds spare 0 under := by
  induction rounds generalizing spare scope with
  | zero => exact heeds_lift _
  | succ rounds ih =>
    refine heeds_step fun goesOn _ _ _ => ?_
    cases goesOn with
    | false => exact heeds_pure scope
    | true =>
      cases body with
      | nil =>
        exact heeds_step (e := c.advance) fun _ _ _ _ => ih hn (fun h => absurd rfl h) scope
      | cons head rest =>
        have hr : spare ≤ rounds + 1 := hr (by simp)
        have hround := (heeds_executeBlock_cons hexecute under hn scope head rest).bind
          (fun after => heeds_step (e := c.advance) fun _ _ _ _ =>
          ih (by omega) (fun _ => by omega) after)
          fun after => ebbs_executeFor hs hloop hstart (by omega) (by omega) after
        exact fun m next stop h => hround m next stop (h.mono (by omega))

end Loops

end Blocks

/-! ## Statements -/

section Statements

variable {spare n : Nat} {under : List Stmt}

/-- The text of a file may be asked for before what follows. -/
theorem heeds_obtainUpload {β : Type} {k : Upload → Action β}
    (hk : ∀ a spare, (k a).Heeds spare 0 under) (name mode : String) :
    (obtainUpload name mode >>= k).Heeds spare 0 under := by
  refine heeds_step (e := get) fun known m _ _ => ?_
  show ((if known.files.wantsUpload name mode then Action.ask (.upload name) else pure .missing) >>=
    k).Heeds spare 0 under
  split
  · exact Action.heeds_request id rfl hk
  · exact hk .missing spare

variable (hexecute : ∀ spare under scope s, spare ≤ n → (execute n scope s).Heeds spare 1 under)
include hexecute

theorem heeds_performCall (hn : spare ≤ n) (scope : Scope) (name : String)
    (arguments : List Expr) (line : Int) :
    (performCall (evaluate n)
      (executeBlock (execute n)) scope name arguments line).Heeds spare 0 under := by
  refine heeds_step (e := get) fun known _ _ _ => ?_
  split
  · split
    · exact heeds_lift _
    · refine Action.Heeds.inCall (heeds_step fun callee _ _ _ => ?_) _
      exact (heeds_executeBlock hexecute hn callee _).returning ()
  · split
    · exact heeds_lift _
    · exact heeds_lift _

/-- **The forms of statement.** -/
theorem heeds_perform {s : Stmt} (hs : s ∈ under) (hn : spare ≤ n) (scope : Scope) :
    (perform (evaluate n)
      (executeBlock (execute n)) n scope s.line s.form).Heeds spare 0 under := by
  have hblock : ∀ b, (executeBlock (execute n) scope b).Heeds spare 0 under :=
    heeds_executeBlock hexecute hn scope
  cases hform : s.form with
  | declare name typeName shape => exact heeds_lift _
  | assign t value => exact (heeds_lift _).returning scope
  | output values => exact heeds_step fun text _ _ _ => (heeds_output text).returning scope
  | input t =>
    refine Action.Heeds.returning (heeds_step (e := get) fun known _ _ _ => ?_) scope
    split
    · refine heeds_step fun d _ _ _ => heeds_step fun type _ _ _ => ?_
      exact Action.heeds_request id rfl fun text spare =>
        heeds_step fun _ _ _ _ => heeds_output text
    · exact heeds_lift _
  | ifThen test body arms otherwise => exact heeds_step fun b _ _ _ => hblock b
  | caseOf selector branches otherwise => exact heeds_step fun b _ _ _ => hblock b
  | whileDo test body =>
    exact heeds_executeWhile hexecute hs (by rw [hform]; rfl) hn (fun _ => hn) scope
  | repeatUntil body test =>
    exact heeds_executeRepeat hexecute hs (by rw [hform]; rfl) hn (fun _ => hn) scope
  | forTo name start stop step body =>
    refine heeds_step fun started _ _ hstart => ?_
    exact heeds_executeFor hexecute hs hform hstart hn (fun _ => hn) started.2
  | call name arguments =>
    exact (heeds_performCall hexecute hn scope name arguments s.line).returning scope
  | fileOpen name mode =>
    refine Action.Heeds.returning (heeds_step fun name _ _ _ => ?_) scope
    refine heeds_obtainUpload (fun upload spare => heeds_step fun h _ _ _ => ?_) name mode
    exact heeds_step fun _ _ _ _ => heeds_output _
  | fileClose name =>
    refine Action.Heeds.returning (heeds_step fun name _ _ _ => heeds_step fun h _ _ _ => ?_) scope
    exact heeds_step fun _ _ _ _ => heeds_output _
  | fileRead name t =>
    exact Action.Heeds.returning (heeds_step fun line _ _ _ => heeds_output line) scope
  | fileWrite name data =>
    refine Action.Heeds.returning (heeds_step fun written _ _ _ => ?_) scope
    refine heeds_step (e := get) fun known _ _ _ => ?_
    split
    · exact heeds_output _
    · exact heeds_pure _
  | returnValue e => exact heeds_lift _
  | inert kind => exact heeds_lift _
  | procedure name params body => exact (heeds_lift _).returning scope
  | function name params returns body => exact (heeds_lift _).returning scope

theorem heeds_performLocated {s : Stmt} (hs : s ∈ under) (hn : spare ≤ n) (scope : Scope) :
    (performLocated (evaluate n)
      (executeBlock (execute n)) n scope s.line s.form).Heeds spare 0 under := by
  have hperform := (heeds_perform hexecute hs hn scope).located s.line
  cases hform : s.form with
  | inert kind => exact heeds_lift _
  | _ => rw [hform] at hperform; exact hperform

omit hexecute in
/-- A statement that is held before it begins does not begin once it is cancelled. -/
theorem checkCancelled_of_cancelled {m : Machine} (hm : m.Cancelled) :
    checkCancelled m = .error (.cancelled m.line) m := by
  rw [checkCancelled_apply, if_pos hm.requested]

/-- A statement is announced, executed and announced again. -/
theorem heeds_executeDispatched (hn : spare ≤ n + 1) (scope : Scope) (s : Stmt) :
    (executeDispatched (evaluate n) (executeBlock (execute n)) n scope s).Heeds spare 1 under := by
  intro m next stop hr
  have hended : Receives (spare - 1) (s :: under) (fun after m =>
    Action.ask (.ended s) m (fun _ => next after) stop)
      stop := by
    refine ⟨fun after m => .asking (fun h => h.elim) fun reply m' =>
      ?_, fun m₀ whole after m w => ?_, hr.sinks⟩
    · cases reply with
      | ok a => exact (hr.heeds after m').mono (by omega)
      | error h => exact hr.sinks.heeds _ _ h m'
    · refine .ends w.lull fun m' hc hreq => hr.ebbs m₀ whole after m' ?_
      exact ⟨(List.suffix_cons s under).trans w.under, w.room, w.lull.trans hc.lull,
        ⟨hreq, by rw [hc.lull.settings]; exact w.pending.usable⟩⟩
  show ((liftM (dispatch s.line) : Action Unit) m _ stop).Heeds spare under
  cases hd : dispatch s.line m with
  | error h m' =>
    rw [Action.lift_error _ stop hd]
    exact hr.sinks.heeds _ _ h m'
  | ok u m₁ =>
    rw [Action.lift_ok _ stop hd]
    refine .asking (fun _ hroom a m' hc hm' => ?_) fun reply m' => ?_
    · show ((liftM checkCancelled : Action Unit) m' _ stop).WindsDown m₁ under under
      rw [Action.lift_error _ stop (checkCancelled_of_cancelled hm'), hc.lull.line]
      exact hr.sinks.windsDown under (.held hc.lull)
    · cases reply with
      | error h => exact hr.sinks.heeds _ _ h m'
      | ok a =>
        have hperform : ((liftM checkCancelled : Action Unit) >>= fun _ =>
            performLocated (evaluate n) (executeBlock (execute n)) n scope s.line s.form).Heeds
              (spare - 1) 0 (s :: under) :=
          heeds_step fun _ _ _ _ =>
            heeds_performLocated hexecute List.mem_cons_self (by omega) scope
        exact hperform m' _ stop hended

end Statements

/-- **Statements heed a cancellation**, wherever they are suspended. -/
theorem execute_heeds (n spare : Nat) (under : List Stmt) (scope : Scope)
    (s : Stmt) (hn : spare ≤ n) : (execute n scope s).Heeds spare 1 under := by
  induction n generalizing spare under scope s with
  | zero => exact fun m next stop hr => hr.sinks.heeds spare under .exhausted m
  | succ n ih =>
    exact heeds_executeDispatched (fun spare under scope s h => ih spare under scope s h) hn scope s

/-- **So do programs.** -/
theorem executeProgram_heeds (n : Nat) (program : Block) (m : Machine) :
    (executeProgram n program m).Heeds n [] := by
  have hsettled : ∀ m : Machine, Lull m m.settled := fun m => ⟨rfl, rfl, rfl, rfl, rfl, rfl, rfl⟩
  refine heeds_executeBlock (execute_heeds n) (Nat.le_refl n) .global _ _ _ _ ⟨fun _ m =>
    .finished _ _, ?_, ?_⟩
  · exact fun m₀ whole _ m w => .done (w.lull.trans (hsettled m)) rfl
  · exact fun h m => ⟨h, m.settled, rfl, .refl h, hsettled m, rfl⟩

/-! ## Suspensions -/

/-- A run once a host has answered `k` queries, with the host's state and the statements under way,
innermost first. A run that ends earlier stays as it is. -/
def Run.after {σ : Type} (host : Host σ) : Nat → Run → σ → List Stmt → Run × σ × List Stmt
  | k + 1, .asking q m resume, s, under =>
    let (reply, s, m) := host.reply s m q
    after host k (resume reply m) s (q.underWay under)
  | _, r, s, under => (r, s, under)

section Suspensions

variable {σ : Type} {host : Host σ} {r r' : Run}

/-- Each query that has been answered leaves less to spare. -/
theorem Run.Heeds.after {spare : Nat} {under : List Stmt}
    (h : r.Heeds spare under) (k : Nat) (s : σ) :
    (r.after host k s under).1.Heeds (spare - k) (r.after host k s under).2.2 := by
  induction k generalizing r spare s under with
  | zero => exact h
  | succ k ih =>
    cases h with
    | finished ending m => exact .finished ending m
    | asking pause rest =>
      rw [show spare - (k + 1) = spare - 1 - k by omega]
      exact ih (rest _ _) _

/-- With replies of a discreet host a run goes on as any host may let it. -/
theorem Run.reaches_after (hd : host.Discreet) (k : Nat) (r : Run) (s : σ) (under : List Stmt) :
    r.Reaches (r.after host k s under).1 := by
  induction k generalizing r s under with
  | zero => exact .refl r
  | succ k ih =>
    cases r with
    | finished ending m => exact .refl _
    | asking q m resume => exact .resumed _ (hd s m q) (ih _ _ _)

/-- Runs under a bound and under a larger one are suspended alike. -/
theorem Run.Trims.after (h : Run.Trims (· = .exhausted) Eq r r') {k : Nat} {s s₁ : σ}
    {under under₁ : List Stmt} {q : Query} {m : Machine} {resume : q.Reply → Machine → Run}
    (hat : r.after host k s under = (.asking q m resume, s₁, under₁)) :
    ∃ resume', r'.after host k s under = (.asking q m resume', s₁, under₁) := by
  induction k generalizing r r' s under with
  | zero =>
    cases hat
    cases h with
    | asking q m m' resume resume' hR _ =>
      cases hR
      exact ⟨resume', rfl⟩
  | succ k ih =>
    cases h with
    | cut halt n r' hc => cases hat
    | finished ending n n' hR => cases hat
    | asking q n n' resume resume' hR hk =>
      cases hR
      exact ih (hk _ _ _ rfl) hat

end Suspensions

/-- A limit that counts cannot be held against stops a program before its first query. -/
theorem executeProgram_of_unusable {m : Machine} (hm : m.settings.maxDispatches = .unusable)
    (n : Nat) (program : Block) :
    ∃ ending m', executeProgram n program m = .finished ending m' := by
  have hsettings : (m.rewound.registerAll program).settings = m.settings :=
    (sameCalls_registerAll program m.rewound).settings
  unfold executeProgram
  cases program.filter fun s => !s.form.isDefinition with
  | nil => exact ⟨_, _, rfl⟩
  | cons s rest =>
    cases n with
    | zero => exact ⟨_, _, rfl⟩
    | succ n =>
      have hd := dispatch_apply s.line (m.rewound.registerAll program)
      rw [hsettings, hm] at hd
      exact ⟨_, _, Action.lift_error _ _ hd⟩

/-- Some bound has room for the statements under way. -/
theorem exists_roomy (whole : List Stmt) : ∃ spare, Roomy spare whole := by
  induction whole with
  | nil => exact ⟨1, Nat.one_pos, fun s hs => absurd hs (List.not_mem_nil)⟩
  | cons t whole ih =>
    obtain ⟨spare, hpos, htests⟩ := ih
    cases ht : t.form.loopTest? with
    | none =>
      refine ⟨spare, hpos, fun s hs keyword test hloop => ?_⟩
      rcases List.mem_cons.mp hs with rfl | hs
      · rw [ht] at hloop
        cases hloop
      · exact htests s hs keyword test hloop
    | some found =>
      refine ⟨max spare (sizeOf found.2 + 1), by omega, fun s hs keyword test hloop => ?_⟩
      rcases List.mem_cons.mp hs with rfl | hs
      · rw [ht] at hloop
        cases hloop
        exact Nat.lt_of_lt_of_le (Nat.lt_succ_self _) (Nat.le_max_right _ _)
      · exact Nat.lt_of_lt_of_le (htests s hs keyword test hloop) (Nat.le_max_left _ _)

/-- **A cancellation stops a program at the next statement.** Let a program be suspended, after any
number of queries, at a line of output or before a statement. Under every bound that is large enough
it is suspended alike, and once it is cancelled there and resumed, it winds down: no statement is
dispatched, no line is handed out, nothing is asked for, and the files, the procedures and the
functions stay as they are. The run ends with the cancellation, or because the next statement would
be one too many, or because a loop under way cannot evaluate its condition or move its variable on,
or as usual if no statement was left; and no cancellation is pending then. -/
theorem cancellation_stops_at_the_next_statement (program : Block) (m : Machine) {σ : Type}
    {host : Host σ} (hd : host.Discreet) (s : σ) (n k : Nat) {q : Query} {m₁ : Machine}
    {resume : q.Reply → Machine → Run} {s₁ : σ} {under : List Stmt}
    (hat : (executeProgram n program m).after host k s [] = (.asking q m₁ resume, s₁, under))
    (hq : q.IsPause) :
    ∃ N, ∀ n' ≥ N, ∃ resume' : q.Reply → Machine → Run,
      (executeProgram n' program m).after host k s [] = (.asking q m₁ resume', s₁, under) ∧
      ∀ a m₂, HostChange m₁ m₂ → m₂.cancelRequested = true →
        (resume' (.ok a) m₂).WindsDown m₁ under under := by
  have hsettings : m₁.settings = m.settings := by
    have hreach := Run.reaches_after hd k (executeProgram n program m) s []
    rw [hat] at hreach
    exact ((executeProgram_orderly n program m).reaches hreach).inOrder.under
  have husable : m₁.settings.maxDispatches ≠ .unusable := by
    intro hunusable
    rw [hsettings] at hunusable
    obtain ⟨ending, m', heq⟩ := executeProgram_of_unusable hunusable n program
    rw [heq] at hat
    cases k <;> cases hat
  obtain ⟨room, hroom⟩ := exists_roomy under
  refine ⟨max n (k + room), fun n' hn' => ?_⟩
  have hlarger : Within (· = .exhausted) n n' := Or.inr ⟨by omega, rfl⟩
  obtain ⟨resume', hat'⟩ :=
    (executeProgram_trims truncation_bound hlarger program (Eq.refl m)).after hat
  refine ⟨resume', hat', fun a m₂ hc hreq => ?_⟩
  have hheeds : ((executeProgram n' program m).after host k s []).1.Heeds (n' - k)
      ((executeProgram n' program m).after host k s []).2.2 :=
        (executeProgram_heeds n' program m).after k s
  rw [hat'] at hheeds
  cases hheeds with
  | asking pause _ =>
    exact pause hq (hroom.mono (by omega)) a m₂ hc ⟨hreq, by rw [hc.lull.settings]; exact husable⟩

/-- The line of output at which a run is suspended. -/
def Run.line? : Run → Option String
  | .asking (.output line) _ _ => some line
  | _ => none

theorem Run.eq_asking_of_line? {r : Run} {line : String} (h : r.line? = some line) :
    ∃ m resume, r = .asking (.output line) m resume := by
  cases r with
  | finished ending m => cases h
  | asking q m resume =>
    cases q with
    | output line' =>
      cases h
      exact ⟨m, resume, rfl⟩
    | _ => cases h

/-- A loop around a loop, whose condition calls a function:
```
FUNCTION more() RETURNS BOOLEAN
  RETURN TRUE
ENDFUNCTION
WHILE more()
  FOR i <- 1 TO 3
    OUTPUT i
  NEXT i
ENDWHILE
``` -/
def countingAgain : Block :=
  [.mk 1 (.function "more" [] "BOOLEAN" [.mk 2 (.returnValue (.literal 2 (.bool true)))]),
    .mk 4 (.whileDo (.call 4 "more" [])
      [.mk 5 (.forTo "i" (.literal 5 (.int 1)) (.literal 5 (.int 3)) (.literal 5 (.int 1))
        [.mk 6 (.output [.var 6 "i"])])])]

/-- It is cancelled in the last round of the inner loop, at its third line. -/
theorem counting_again_is_cancelled :
    Supply.host.Discreet ∧ Query.IsPause (.output "3") ∧
      ∃ m₁ resume s₁ under,
        (executeProgram 20 countingAgain {}).after Supply.host 9 {} [] =
          (.asking (.output "3") m₁ resume, s₁, under) ∧
        s₁.output = #["1", "2"] ∧ under.map Stmt.line = [6, 5, 4] ∧
        ∃ N, ∀ n' ≥ N, ∃ resume' : Query.Reply (.output "3") → Machine → Run,
          (executeProgram n' countingAgain {}).after Supply.host 9 {} [] =
            (.asking (.output "3") m₁ resume', s₁, under) ∧
          ∀ a m₂, HostChange m₁ m₂ → m₂.cancelRequested = true →
            (resume' (.ok a) m₂).WindsDown m₁ under under := by
  have hshown :
      ((executeProgram 20 countingAgain {}).after Supply.host 9 {} []).1.line? = some "3" ∧
      ((executeProgram 20 countingAgain {}).after Supply.host 9 {} []).2.1.output = #["1", "2"] ∧
      ((executeProgram 20 countingAgain {}).after Supply.host 9 {} []).2.2.map Stmt.line =
        [6, 5, 4] := by
    decide +kernel
  revert hshown
  generalize hat : (executeProgram 20 countingAgain {}).after Supply.host 9 {} [] = situation
  rintro ⟨hline, houtput, hlines⟩
  obtain ⟨r, s₁, under⟩ := situation
  obtain ⟨m₁, resume, rfl⟩ := Run.eq_asking_of_line? hline
  exact ⟨Supply.discreet, trivial, m₁, resume, s₁, under, rfl, houtput, hlines,
    cancellation_stops_at_the_next_statement countingAgain {} Supply.discreet {} 20 9 hat trivial⟩

end Pseudocode

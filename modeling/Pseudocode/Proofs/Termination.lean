import Pseudocode.Proofs.Execution
import Pseudocode.Proofs.Limits
import Pseudocode.Proofs.Streaming

/-!
# Only idle loops run forever

Statements are counted when they are dispatched, and a limit stops a run that dispatches too many. A
WHILE or REPEAT loop with an empty body dispatches nothing: it is the one way to run forever. A
program is busy if it has no such loop at any depth, procedures and functions included.

That busy programs come to an end is proved in three layers, one inside the other:

* Statements: by induction on the number of dispatches that remain (`counting k K` is the regime in
  which at most `K` remain). Whatever is inside a statement runs with fewer remaining.
* Loops: a round of a WHILE or REPEAT loop dispatches something, so fewer remain for the next. A FOR
  loop with an empty body dispatches nothing, but from its second round on its variable holds a
  whole number, which every round brings nearer to the end (`Counter.lasts`).
* Expressions: by induction on the text, as calls go on to statements.

Results:
* `runStatement_performs`, `execute_executes`: busy statements come to an end, in function bodies
  and in a run.
* `exists_report_of_busy`: so do busy programs, with one report under all large bounds.
* `idleLoop_exhausts`: the idle loop uses up every bound, once it is dispatched.
* `idleLoop_refused`: under a limit of no dispatches the idle loop is refused where it begins.
* `only_idle_loops_run_forever`: all of it together.
-/

namespace Pseudocode

open Eval Filter

/-! ## Rounds that come to an end -/

/-- Rounds last if each of them lowers a measure, as long as a property holds. -/
theorem lasts_of_measure {ok : Halt → Prop} {step : Machine → Machine → Prop} {I : Machine → Prop}
    (μ : Machine → Nat) (hstep : ∀ m m', I m → step m m' → I m' ∧ μ m' < μ m) {bound : Nat → Nat}
    (hb : Tendsto bound atTop atTop) {m : Machine} (hm : I m) : Lasts ok step bound m := by
  induction hμ : μ m using Nat.strong_induction_on generalizing m bound with
  | _ k ih =>
    refine .more (hb.eventually_ne_atTop 0) fun m' hm' => ?_
    obtain ⟨hI, hlt⟩ := hstep m m' hm hm'
    exact ih (μ m') (hμ ▸ hlt) ((tendsto_sub_atTop_nat 1).comp hb) hI rfl

theorem Numeric.int_le_int {a b : Int} : (Numeric.int a).le (.int b) = true ↔ a ≤ b := by
  simp only [Numeric.le, Numeric.compare?]
  cases h : compare a b with
  | lt => simp [(compare_lt_iff_lt.mp h).le]
  | eq => simp [(compare_eq_iff_eq.mp h).le]
  | gt => simp [compare_gt_iff_gt.mp h]

theorem Variable.held?_assign (v : Variable) (value : Value) :
    (v.assign value).held? = some value := by
  cases v <;> rfl

namespace Counter

variable {c : Counter} {m m' : Machine}

theorem continues_eq_ok {goesOn : Bool} (h : c.continues m = .ok goesOn m') :
    ∃ v, (c.value m).numeric? = some v ∧
      goesOn = if 0 < c.step then v.le (.int c.stop) else (Numeric.int c.stop).le v := by
  obtain ⟨_, _, hget, h⟩ := bind_eq_ok.mp h
  cases hget
  cases hv : (c.value m).numeric? with
  | none =>
    simp only [hv] at h
    cases h
  | some v =>
    simp only [hv] at h
    cases h
    exact ⟨v, rfl, rfl⟩

theorem advance_eq_ok (h : c.advance m = .ok () m') :
    ∃ n, (c.value m).floor = .ok n ∧
      m' = { m with memory := m.memory.update c.location (·.assign (.int (n + c.step))) } := by
  obtain ⟨_, _, hget, h⟩ := bind_eq_ok.mp h
  cases hget
  obtain ⟨n, _, hfloor, h⟩ := bind_eq_ok.mp h
  cases hvalue : (c.value m).floor with
  | error =>
    rw [hvalue] at hfloor
    cases hfloor
  | ok n' =>
    rw [hvalue] at hfloor
    cases hfloor
    cases h
    exact ⟨n, rfl, rfl⟩

/-- The variable is moved on from its floor. -/
theorem value_advance (hmoves : c.advance m = .ok () m') :
    ∃ n, (c.value m).floor = .ok n ∧ c.value m' = .int (n + c.step) := by
  obtain ⟨n, hn, rfl⟩ := advance_eq_ok hmoves
  refine ⟨n, hn, ?_⟩
  cases hat : m.memory.at? c.location with
  | none =>
    rw [Counter.value, hat] at hn
    cases hn
  | some x =>
    have hupdate : ∀ f, (m.memory.update c.location f).at? c.location = some (f x) := by
      intro f
      unfold Memory.at? at hat ⊢
      simp [Memory.update, Array.getElem?_modify, hat]
    rw [Counter.value]
    simp only [hupdate, Option.bind_some, Variable.held?_assign, Option.getD_some]

/-- The number of rounds that an empty loop still takes when its variable is at `n`, or more. -/
def roundsLeft (c : Counter) (n : Int) : Nat :=
  if 0 < c.step then (c.stop + 1 - n).toNat else (n + 1 - c.stop).toNat

/-- An empty loop comes to its end: after one round its variable holds a whole number, and each
round after that brings it nearer to the end. -/
theorem lasts (hc : c.step ≠ 0) {ok : Halt → Prop} {bound : Nat → Nat}
    (hb : Tendsto bound atTop atTop) (m : Machine) :
    Lasts ok (fun m m' => c.continues m = .ok true m ∧ c.advance m = .ok () m') bound m := by
  refine .more (hb.eventually_ne_atTop 0) fun m₁ hm₁ => ?_
  obtain ⟨n, -, hn⟩ := value_advance hm₁.2
  have hsteps : ∀ m m', (∃ n, c.value m = .int n) →
      c.continues m = .ok true m ∧ c.advance m = .ok () m' →
      (∃ n, c.value m' = .int n) ∧
        c.roundsLeft ((c.value m').floor.toOption.getD 0) <
          c.roundsLeft ((c.value m).floor.toOption.getD 0) := by
    rintro m m' ⟨n, hn⟩ ⟨hgoes, hmoves⟩
    obtain ⟨n', hfloor, hn'⟩ := value_advance hmoves
    obtain ⟨v, hv, hle⟩ := continues_eq_ok hgoes
    rw [hn] at hfloor hv
    cases hfloor
    cases hv
    refine ⟨⟨_, hn'⟩, ?_⟩
    rw [hn, hn']
    show c.roundsLeft (n + c.step) < c.roundsLeft n
    unfold roundsLeft
    split at hle
    · have := Numeric.int_le_int.mp hle.symm
      rw [if_pos ‹_›, if_pos ‹_›]
      omega
    · have := Numeric.int_le_int.mp hle.symm
      rw [if_neg ‹_›, if_neg ‹_›]
      omega
  exact lasts_of_measure (fun m => c.roundsLeft ((c.value m).floor.toOption.getD 0)) hsteps
    ((tendsto_sub_atTop_nat 1).comp hb) ⟨_, hn⟩

end Counter

/-! ## Busy programs -/

/-- A WHILE or REPEAT loop with nothing in its body. -/
def Form.isIdle : Form → Bool
  | whileDo _ body | repeatUntil body _ => body.isEmpty
  | _ => false

/-- A statement with no idle loop at any depth. -/
abbrev Stmt.Busy (s : Stmt) : Prop :=
  s.Everywhere (·.isIdle = false)

/-- A block with no idle loop at any depth. -/
abbrev Block.Busy (b : Block) : Prop :=
  b.Everywhere (·.isIdle = false)

/-- No procedure or function that is known has an idle loop. -/
structure Machine.Busy (m : Machine) : Prop where
  functions : ∀ {name f}, m.functions.find? name = some f → Block.Busy f.body
  procedures : ∀ {name f}, m.procedures.find? name = some f → Block.Busy f.body

theorem Machine.Busy.register {m : Machine} (h : m.Busy) {form : Form}
    (hf : ∀ b ∈ form.blocks, Block.Busy b) : (m.register form).Busy := by
  cases form with
  | procedure name params body =>
    refine ⟨h.functions, fun {other f} hfind => ?_⟩
    exact Table.forall_find?_insert (P := fun f : Routine => Block.Busy f.body) (fun _ _ =>
      h.procedures) (hf body List.mem_cons_self) other f hfind
  | function name params returns body =>
    refine ⟨fun {other f} hfind => ?_, h.procedures⟩
    exact Table.forall_find?_insert (P := fun f : Routine => Block.Busy f.body) (fun _ _ =>
      h.functions) (hf body List.mem_cons_self) other f hfind
  | _ => exact h

/-! ## The count runs out -/

/-- The number of statements that may still be dispatched under a limit. -/
def Machine.remaining (m : Machine) (k : Int) : Nat :=
  (k - m.dispatches).toNat

theorem Counts.remaining_lt {m m' : Machine} {k : Int} (h : Counts m m')
    (hk : m.settings.maxDispatches = .atMost k) : m'.remaining k < m.remaining k := by
  have hallowed := h.allowed
  have hcount := h.dispatches
  rw [hk] at hallowed
  simp only [Limit.allows, Except.ok.injEq, decide_eq_true_eq] at hallowed
  unfold Machine.remaining
  omega

/-- A machine under a limit on dispatches that allows at most `K` more, with busy routines. -/
structure Ready (k : Int) (K : Nat) (m : Machine) : Prop where
  limit : m.settings.maxDispatches = .atMost k
  remaining : m.remaining k ≤ K
  busy : m.Busy

variable {k : Int} {K : Nat}

theorem stable_ready : Stable (Ready k K) where
  memory _ h := { h with busy := { h.busy with } }
  random _ h := { h with busy := { h.busy with } }
  enterCall _ h := { h with busy := { h.busy with } }
  leaveCall _ h := { h with busy := { h.busy with } }
  counted {m} h := by
    refine ⟨h.limit, ?_, h.busy.functions, h.busy.procedures⟩
    have hle := h.remaining
    have hcount : m.counted.dispatches = m.dispatches + 1 := rfl
    unfold Machine.remaining at hle ⊢
    omega
  reached _ h := { h with busy := { h.busy with } }
  note _ h := { h with busy := { h.busy with } }

theorem Ready.outside {m m' : Machine} (hm : Ready k K m) (h : Outside Stmt.Busy m m') :
    Ready k K m' := by
  cases h with
  | files t => exact ⟨hm.limit, hm.remaining, hm.busy.functions, hm.busy.procedures⟩
  | register form hform =>
    have hlimit : (m.register form).settings = m.settings := by cases form <;> rfl
    have hcount : (m.register form).dispatches = m.dispatches := by cases form <;> rfl
    refine ⟨hlimit ▸ hm.limit, ?_, hm.busy.register hform⟩
    have hle := hm.remaining
    unfold Machine.remaining at hle ⊢
    rwa [hcount]
  | host cancel journal => exact ⟨hm.limit, hm.remaining, hm.busy.functions, hm.busy.procedures⟩

theorem Ready.registerAll {m : Machine} (hm : Ready k K m) {program : Block} (hp : program.Busy) :
    Ready k K (m.registerAll program) := by
  unfold Machine.registerAll
  induction program generalizing m with
  | nil => exact hm
  | cons s rest ih =>
    obtain ⟨hs, hrest⟩ := Block.everywhere_cons.mp hp
    exact ih (hm.outside (.register s.form fun b hb => hs.inside hb)) hrest

/-- After a dispatch one statement less remains. -/
theorem Ready.counts {m m' : Machine} (hm : Ready k (K + 1) m) (hc : Counts m m')
    (hm' : Ready k (K + 1) m') : Ready k K m' :=
  ⟨hm'.limit,
    Nat.le_of_lt_succ (Nat.lt_of_lt_of_le (hc.remaining_lt hm.limit) hm.remaining), hm'.busy⟩

/-- Busy statements under a limit on dispatches; they may stop for any reason but want of steps. -/
def counting (k : Int) (K : Nat) : Regime where
  ok h := h ≠ .exhausted
  pre := Ready k K
  good := Stmt.Busy
  ok_of_ne := id
  stable := stable_ready
  function_good hm hf := hm.busy.functions hf

/-- The rounds of every loop but an idle one come to an end. -/
theorem Form.roundsLast_of_busy {form : Form} (h : form.isIdle = false) :
    form.RoundsLast (counting k K) fun n => n := by
  have hcounts : ∀ m, Ready k K m → Lasts (· ≠ .exhausted) Counts (fun n => n) m := fun m hm =>
    lasts_of_measure (I := fun m => m.settings.maxDispatches = .atMost k) (·.remaining k)
      (fun m m' hk (hc : Counts m m') => ⟨by rw [hc.settings]; exact hk, hc.remaining_lt hk⟩)
      tendsto_id hm.limit
  cases form with
  | whileDo test body =>
    have hne : body ≠ [] := by rintro rfl; cases h
    exact ⟨Counts, fun m m' hc => hc hne, hcounts⟩
  | repeatUntil body test =>
    have hne : body ≠ [] := by rintro rfl; cases h
    exact ⟨Counts, fun m m' hc => hc hne, hcounts⟩
  | forTo name start stop step body =>
    intro c hc
    by_cases hne : body = []
    · subst hne
      refine ⟨_, fun m m₁ m' hgoes hsame hmoves => ?_, fun m _ => c.lasts hc tendsto_id m⟩
      obtain rfl : m₁ = m := hsame
      exact ⟨hgoes, hmoves⟩
    · refine ⟨Counts, fun m m₁ m' _ hspent hmoves => ?_, hcounts⟩
      obtain ⟨n, -, rfl⟩ := Counter.advance_eq_ok hmoves
      have hcount := hspent.counts hne
      exact ⟨hcount.settings, hcount.allowed, hcount.dispatches⟩
  | _ => trivial

/-! ## Expressions and statements -/

theorem Expr.sizeOf_lt_of_mem_parts {e part : Expr} (h : part ∈ e.parts) :
    sizeOf part < sizeOf e := by
  cases e with
  | element line name indices =>
    have hlt : sizeOf part < sizeOf indices := List.sizeOf_lt_of_mem h
    simp only [element.sizeOf_spec]
    omega
  | binary line left op right =>
    simp only [Expr.parts, List.mem_cons, List.not_mem_nil, or_false] at h
    rcases h with rfl | rfl <;> simp only [binary.sizeOf_spec] <;> omega
  | unary line op operand =>
    simp only [Expr.parts, List.mem_cons, List.not_mem_nil, or_false] at h
    subst h
    simp only [unary.sizeOf_spec]
    omega
  | call line name arguments =>
    have hlt : sizeOf part < sizeOf arguments := List.sizeOf_lt_of_mem h
    simp only [call.sizeOf_spec]
    omega
  | _ => cases h

/-- Induction over the parts of expressions. -/
theorem Expr.parts_induction {P : Expr → Prop} (h : ∀ e, (∀ part ∈ e.parts, P part) → P e)
    (e : Expr) : P e :=
  h e fun part _ => Expr.parts_induction h part
termination_by sizeOf e
decreasing_by exact Expr.sizeOf_lt_of_mem_parts ‹_›

/-- Expressions come to an end, if the statements of functions do. -/
theorem evaluate_settled (hs : ∀ s, s.Busy → Performs (counting k K) runStatement s) (scope : Scope)
    (e : Expr) : Settled (counting k K) Everything scope evaluate e := by
  induction e using Expr.parts_induction with
  | h e ih =>
    intro m hm
    refine Settles.shift ?_
    exact (settles_evaluateForm ih hs (fun _ _ _ _ _ _ _ _ _ => trivial) hm).congr
      (.of_forall fun n => by rw [evaluate])

/-- **Busy statements of function bodies come to an end**: induction on the number of statements
that may still be dispatched. -/
theorem runStatement_performs (s : Stmt) (hs : s.Busy) :
    Performs (counting k K) runStatement s := by
  induction K generalizing s with
  | zero =>
    intro held scope m hm
    have hdispatched : Settles (counting k 0) (.running Everything held Nothing) scope m
        (fun n => runDispatched ⟨evaluate n, runStatement n⟩ n scope s) Prod.fst
        fun _ m' => Counts m m' :=
      settles_runDispatched hm fun m₁ _ hc =>
        absurd (Nat.lt_of_lt_of_le (hc.remaining_lt hm.limit) hm.remaining) (Nat.not_lt_zero _)
    exact (hdispatched.congr (.of_forall fun n => by rw [runStatement])).shift
  | succ K ih =>
    intro held scope m hm
    have hdispatched : Settles (counting k (K + 1)) (.running Everything held Nothing) scope m
        (fun n => runDispatched ⟨evaluate n, runStatement n⟩ n scope s) Prod.fst
        fun _ m' => Counts m m' := by
      refine settles_runDispatched hm fun m₁ hm₁ hc => ?_
      have hform : Settles (counting k K) (.running Everything held Nothing) scope m₁
          (fun n => runForm ⟨evaluate n, runStatement n⟩ n scope s.form) Prod.fst fun _ _ => True :=
        settles_runForm (evaluate_settled ih) (fun b hb t ht => ih t (hs.inside hb t ht))
          (Form.roundsLast_of_busy hs.here) (hm.counts hc hm₁)
      exact hform.weaken (fun m h => ⟨h.limit, Nat.le_succ_of_le h.remaining, h.busy⟩) fun _ h => h
    exact (hdispatched.congr (.of_forall fun n => by rw [runStatement])).shift

/-- **Busy statements come to an end**, whatever a discreet host answers that does not stop them for
want of steps. -/
theorem execute_executes {σ : Type} {host : Host σ} (H : ∀ K, (counting k K).Hosted host) (t : Stmt)
    (ht : t.Busy) : Executes (counting k K) host execute t := by
  induction K generalizing t with
  | zero =>
    intro held scope m s hm
    have hdispatched : Action.Settles (counting k 0) host
        (.running Everything held (Outside Stmt.Busy)) scope m s
        (fun n => executeDispatched (evaluate n) (executeBlock (execute n)) n scope t) id
        fun _ m' => Counts m m' :=
      settles_executeDispatched (H 0) hm fun m₁ s₁ _ hc _ =>
        absurd (Nat.lt_of_lt_of_le (hc.remaining_lt hm.limit) hm.remaining) (Nat.not_lt_zero _)
    exact hdispatched.shift
  | succ K ih =>
    intro held scope m s hm
    have hdispatched : Action.Settles (counting k (K + 1)) host
        (.running Everything held (Outside Stmt.Busy)) scope m s
        (fun n => executeDispatched (evaluate n) (executeBlock (execute n)) n scope t) id
        fun _ m' => Counts m m' := by
      refine settles_executeDispatched (H (K + 1)) hm fun m₁ s₁ hm₁ hc _ => ?_
      have hform : Action.Settles (counting k K) host (.running Everything held (Outside Stmt.Busy))
          scope m₁ s₁ (fun n => perform (evaluate n)
          (executeBlock (execute n)) n scope t.line t.form) id fun _ _ => True :=
        settles_perform (H K) (evaluate_settled runStatement_performs) (fun _ => trivial)
          (fun b hb u hu => ht.inside hb u hu) ih (Form.roundsLast_of_busy ht.here)
          (hm.counts hc hm₁) t.line
      exact hform.weaken (fun m h => ⟨h.limit, Nat.le_succ_of_le h.remaining, h.busy⟩) fun _ h => h
    exact hdispatched.shift

/-! ## Programs -/

theorem counting_hosted : (counting k K).Hosted Supply.host where
  discreet s m q := ⟨m.cancelRequested, m.journal, rfl⟩
  reply_ok {s m q h} hr := by
    have hreply : ∃ x, (Supply.host.reply s m q).1 = .ok x := by
      cases q with
      | input label type =>
        show ∃ x, (s.reply (.input label type)).1 = .ok x
        unfold Supply.reply
        cases s.inputs <;> exact ⟨_, rfl⟩
      | _ => exact ⟨_, rfl⟩
    obtain ⟨x, hx⟩ := hreply
    rw [hx] at hr
    cases hr
  outside hout hm := hm.outside hout
  procedure_good hm hp := hm.busy.procedures hp

/-- **A busy program comes to an end.** -/
theorem exists_report_of_busy {program : Block} (hp : program.Busy) {m : Machine} (hm : m.Busy)
    (hk : m.settings.maxDispatches = .atMost k) (s : Supply) :
    ∃ r : Report, r.ending ≠ .error .exhausted ∧ ∀ᶠ n in atTop, runWithin n program m s = r := by
  have hrewound : Ready k k.toNat m.rewound :=
    ⟨hk, by simp [Machine.remaining, Machine.rewound], hm.functions, hm.procedures⟩
  have hblock : Action.Settles (counting k k.toNat) Supply.host
      (.running Everything Unheld (Outside Stmt.Busy)) .global (m.rewound.registerAll program) s
      (fun n => executeBlock (execute n) .global (program.filter fun t => !t.form.isDefinition)) id
      fun _ _ => True :=
    (settles_executeBlock (fun t ht =>
      execute_executes (fun _ => counting_hosted) t (hp t (List.mem_filter.mp ht).1))
      (hrewound.registerAll hp)).done
  rcases hblock with ⟨x, m', s', ha, -, -, -⟩ | ⟨h, m', s', -, ha, -, hne⟩
  · refine ⟨⟨.ok (), m'.settled, s'⟩, nofun, ha.mono fun n hn => ?_⟩
    rw [runWithin_eq, executeProgram, hn]
    rfl
  · refine ⟨⟨.error h, m'.settled, s'⟩, fun hh => hne (Except.error.inj hh), ha.mono fun n hn => ?_⟩
    rw [runWithin_eq, executeProgram, hn]
    rfl

/-! ## The idle loop -/

/-- `WHILE TRUE DO ENDWHILE`. -/
def idleLoop (line line' : Int) : Stmt :=
  .mk line (.whileDo (.literal line' (.bool true)) [])

theorem runWhile_idle (n rounds : Nat) (line : Int) (scope : Scope) (m : Machine) :
    runWhile (fun scope => condition (evaluate n) scope "WHILE" (.literal line (.bool true)))
      (fun scope => runBlock (runStatement n) scope []) rounds scope m = .error .exhausted m := by
  induction rounds with
  | zero => rfl
  | succ rounds ih =>
    cases n with
    | zero => rfl
    | succ n => exact ih

/-- In a function body an idle loop uses up every bound, once it is dispatched. -/
theorem runStatement_idleLoop (n : Nat) (line line' : Int) (scope : Scope) {m : Machine}
    (hallowed : m.settings.maxDispatches.allows (m.dispatches + 1) = .ok true)
    (hc : m.cancelRequested = false) :
    ∃ m', runStatement n scope (idleLoop line line') m = .error .exhausted m' := by
  cases n with
  | zero => exact ⟨m, rfl⟩
  | succ n =>
    refine ⟨m.counted.reached line, ?_⟩
    rw [runStatement]
    refine bind_eq_error.mpr (Or.inr ⟨(), _, dispatch_eq_ok.mpr ⟨hallowed, hc, rfl⟩, ?_⟩)
    show located line (runWhile _ _ n scope) (m.counted.reached line) = _
    unfold located
    rw [runWhile_idle]
    rfl

/-- To the plainest host a run is the same with its announcements and without. -/
theorem Run.drain_unannounced (r : Run) (s : Supply) :
    r.unannounced.drain Supply.host s = r.drain Supply.host s := by
  induction r generalizing s with
  | finished ending m => rfl
  | asking q m resume ih =>
    cases q with
    | began t => exact ih (.ok ()) m s
    | ended t => exact ih (.ok ()) m s
    | output line => exact ih (.ok ()) m _
    | input label type => exact ih _ m _
    | upload name => exact ih _ m s

/-- **The idle loop runs forever** once it is dispatched: its rounds dispatch nothing. -/
theorem idleLoop_exhausts (n : Nat) (line line' : Int) {m : Machine}
    (hallowed : m.settings.maxDispatches.allows 1 = .ok true) (hc : m.cancelRequested = false)
    (s : Supply) : (runWithin n [idleLoop line line'] m s).ending = .error .exhausted := by
  have hshared : (idleLoop line line').Everywhere (·.isShared) := by
    simp [idleLoop, Stmt.everywhere_mk, Form.blocks, Form.isShared, Block.everywhere_nil]
  have hagree : AgreeAt m.rewound (execute n .global (idleLoop line line'))
      (runStatement n .global (idleLoop line line')) := execute_agreeAt n hshared
  obtain ⟨m', hidle⟩ := runStatement_idleLoop n line line' .global (m := m.rewound) hallowed hc
  rcases hagree with ⟨after, m₁, he, -⟩ | ⟨h, m₁, he, ha⟩
  · rw [hidle] at he
    cases he
  · rw [hidle] at he
    cases he
    have hrun : executeProgram n [idleLoop line line'] m =
        execute n .global (idleLoop line line') m.rewound (fun _ m => .finished (.ok ()) m.settled)
          fun h m => .finished (.error h) m.settled := rfl
    rw [runWithin_eq, hrun, ← Run.drain_unannounced, ha]
    rfl

/-- Where the first dispatch is one too many, the idle loop is refused: the run ends at its line. -/
theorem idleLoop_refused (n : Nat) (line line' : Int) {m : Machine}
    (hrefused : m.settings.maxDispatches.allows 1 = .ok false) (s : Supply) :
    (runWithin (n + 1) [idleLoop line line'] m s).ending =
      .error (.fault .dispatchLimit line) := by
  have hdispatch : dispatch line m.rewound =
      .error (.fault .dispatchLimit line) m.rewound.counted := by
    have hallows : m.rewound.settings.maxDispatches.allows (m.rewound.dispatches + 1) = .ok false :=
      hrefused
    rw [dispatch_apply, hallows]
  have hrun : executeProgram (n + 1) [idleLoop line line'] m =
      .finished (.error (.fault .dispatchLimit line)) m.rewound.counted.settled :=
    Action.lift_error _ _ hdispatch
  rw [runWithin_eq, hrun]
  rfl

/-! ## Only idle loops run forever -/

/-- **Only idle loops run forever.** A program without an idle loop, on a machine that knows none
and under any whole limit on dispatches, comes to one and the same end under all bounds large
enough. An idle loop comes to no end under any bound, if the limit lets it be dispatched at all. If
the limit does not, the loop is refused at its dispatch: under any bound that lets a statement
begin, the run ends with the fault of the guard on dispatches, charged to the loop's line. -/
theorem only_idle_loops_run_forever :
    (∀ (k : Int) (program : Block) (m : Machine) (s : Supply), program.Busy → m.Busy →
      m.settings.maxDispatches = .atMost k →
      ∃ r : Report, r.ending ≠ .error .exhausted ∧ ∃ n, ∀ n' ≥ n, runWithin n' program m s = r) ∧
    (∀ (k : Int) (line line' : Int) (m : Machine) (s : Supply) (n : Nat), 1 ≤ k →
      m.settings.maxDispatches = .atMost k → m.cancelRequested = false →
      (runWithin n [idleLoop line line'] m s).ending = .error .exhausted) ∧
    (∀ (k : Int) (line line' : Int) (m : Machine) (s : Supply) (n : Nat), k ≤ 0 → 1 ≤ n →
      m.settings.maxDispatches = .atMost k →
      (runWithin n [idleLoop line line'] m s).ending = .error (.fault .dispatchLimit line)) ∧
    Fault.dispatchLimit.message = "Execution timeout: Possible infinite loop" := by
  refine ⟨?_, ?_, ?_, rfl⟩
  · intro k program m s hp hm hk
    obtain ⟨r, hne, hr⟩ := exists_report_of_busy hp hm hk s
    exact ⟨r, hne, eventually_atTop.mp hr⟩
  · intro k line line' m s n hone hk hc
    refine idleLoop_exhausts n line line' ?_ hc s
    rw [hk]
    simp [Limit.allows, hone]
  · intro k line line' m s n hnone hn hk
    obtain ⟨n, rfl⟩ := Nat.exists_eq_add_of_le' hn
    have hrefused : ¬ (1 : Int) ≤ k := by omega
    refine idleLoop_refused n line line' ?_ s
    rw [hk]
    simp [Limit.allows, hrefused]

/-- A loop that hands out a line in each round ends; the idle loop does not, unless no statement may
be dispatched at all. -/
theorem endless_output_ends_idle_loop_does_not :
    endlessOutput.Busy ∧ ({} : Machine).Busy ∧
      (∃ r : Report, r.ending ≠ .error .exhausted ∧
        ∃ n, ∀ n' ≥ n, runWithin n' endlessOutput {} {} = r) ∧
      (∀ n, (runWithin n [idleLoop 1 1] {} {}).ending = .error .exhausted) ∧
      ∀ n ≥ 1, (runWithin n [idleLoop 4 4] { settings.maxDispatches := .atMost (-1) } {}).ending =
        .error (.fault .dispatchLimit 4) := by
  have hbusy : endlessOutput.Busy := by
    simp [endlessOutput, Block.everywhere_cons, Block.everywhere_nil, Stmt.everywhere_mk,
      Form.blocks, Form.isIdle]
  have hfresh : ({} : Machine).Busy := by
    constructor
    · intro name f h
      cases h
    · intro name f h
      cases h
  obtain ⟨hends, hforever, hrefused, -⟩ := only_idle_loops_run_forever
  exact ⟨hbusy, hfresh, hends 10000 endlessOutput {} {} hbusy hfresh rfl,
    fun n => hforever 10000 1 1 {} {} n (by decide) rfl rfl,
    fun n hn => hrefused (-1) 4 4 _ {} n (by decide) hn rfl⟩

/-- Under a limit of no dispatches at all, the idle loop is stopped where it begins. -/
theorem idle_loop_needs_a_dispatch :
    ¬∀ (k : Int) (n : Nat),
      (runWithin n [idleLoop 1 1] { settings := { maxDispatches := .atMost k } } {}).ending =
        .error .exhausted := by
  intro h
  have hends :
      (runWithin 1 [idleLoop 1 1] { settings := { maxDispatches := .atMost 0 } } {}).ending =
      .error (.fault .dispatchLimit 1) := rfl
  cases hends.symm.trans (h 0 1)

end Pseudocode

import Pseudocode.Proofs.Course
import Pseudocode.Proofs.Discipline
import Pseudocode.Proofs.Stepping
import Pseudocode.Proofs.TokenOrder

/-!
# The statement that a fault is charged to

Where a fault is raised, several statements are under way, one inside the other: a loop in a
procedure, the CALL that called it, and so on, down to the statement of a function body that is
being run for an expression. The fault is charged to the innermost of them.

Which statements are under way is observed from outside the rules. A watched run is the plain one
with three marks in its journal for each statement: it comes up, it has been dispatched, it has been
executed. Nothing is marked while a run is unwound, so the marks that a run leaves tell what was
under way where it stopped (`Machine.underWay`). No rule reads the journal, so watching changes
nothing else.

Results:
* `watchedProgram_alike`: the watched run puts the queries of the plain one and ends as it does.
* `Charged.located`: a statement charges to its own line what is not charged to one inside it.
* `watchedProgram_blames`: a fault that ends a watched run bears the line of the innermost statement
  under way.
* `faults_bear_the_line_of_the_innermost_statement`: both for whole runs of parsed programs.
-/

namespace Pseudocode

open Eval

/-! ## Statements under way -/

/-- A statement that has come up and has not been executed yet. -/
structure Progress where
  line : Int
  /-- Whether it has been dispatched. -/
  begun : Bool
  deriving DecidableEq, Repr

/-- The mark of a statement that comes up. -/
def Stmt.comingMark (s : Stmt) : Note :=
  .paused s.line

/-- The mark of a statement that has been dispatched. -/
def Stmt.begunMark (s : Stmt) : Note :=
  .entered "statement" s.form.keyword 0

/-- The mark of a statement that has been executed. -/
def Stmt.endedMark (s : Stmt) : Note :=
  .left "statement" s.form.keyword

/-- The statements under way after a note, innermost first. -/
def Note.track : Note → List Progress → List Progress
  | .paused line, up => ⟨line, false⟩ :: up
  | .entered kind _ _,
    up => if kind = "statement" then up.modifyHead ({ · with begun := true }) else up
  | .left kind _, up => if kind = "statement" then up.tail else up
  | _, up => up

/-- **The statements under way**, innermost first, as the marks in the journal tell. -/
def Machine.underWay (m : Machine) : List Progress :=
  m.journal.foldr Note.track []

theorem Machine.underWay_note (m : Machine) (x : Note) : (m.note x).underWay = x.track m.underWay :=
  rfl

theorem Machine.underWay_comingMark (m : Machine) (s : Stmt) :
    (m.note s.comingMark).underWay = ⟨s.line, false⟩ :: m.underWay :=
  rfl

theorem Machine.underWay_begunMark {m : Machine} {p : Progress} {up : List Progress}
    (h : m.underWay = p :: up) (s : Stmt) :
    (m.note s.begunMark).underWay = { p with begun := true } :: up := by
  rw [underWay_note, h]
  rfl

theorem Machine.underWay_endedMark (m : Machine) (s : Stmt) :
    (m.note s.endedMark).underWay = m.underWay.tail :=
  rfl

/-- What the rules write is no mark. -/
theorem Note.IsRoutine.track {x : Note} (h : x.IsRoutine) (up : List Progress) :
    x.track up = up := by
  cases h with
  | entered kind name depth => cases kind <;> rfl
  | left kind name => cases kind <;> rfl
  | _ => rfl

/-! ## Watched runs -/

/-- Runs a statement of a function body that has been dispatched. -/
def runLocated (ev : Evaluator) (bound : Nat) (scope : Scope) (s : Stmt) : Eval Outcome :=
  if s.form.allowedInFunction then located s.line (runForm ev bound scope s.form)
  else throw (.fault (.unsupportedInFunction s.form.keyword) s.line)

/-- Runs a statement of a function body, with its marks. -/
def runWatched (ev : Evaluator) (bound : Nat) (scope : Scope) (s : Stmt) : Eval Outcome := do
  note s.comingMark
  dispatch s.line
  note s.begunMark
  let outcome ← runLocated ev bound scope s
  note s.endedMark
  return outcome

mutual
/-- The value of an expression, with marks for the statements of the functions that it calls. -/
def evaluateWatched : Nat → Scope → Expr → Eval Value
  | 0, _, _ => throw .exhausted
  | n + 1, scope, e => evaluateForm ⟨evaluateWatched n, runStatementWatched n⟩ scope e

/-- Runs a statement of a function body, with marks for it and for all inside. -/
def runStatementWatched : Nat → Scope → Stmt → Eval Outcome
  | 0, _, _ => throw .exhausted
  | n + 1, scope, s => runWatched ⟨evaluateWatched n, runStatementWatched n⟩ n scope s
end

/-- Dispatches and executes a statement, with its marks. -/
def executeDispatchedWatched (expr : Scope → Expr → Eval Value)
    (block : Scope → Block → Action Scope) (bound : Nat) (scope : Scope) (s : Stmt) :
    Action Scope := do
  (note s.comingMark : Eval Unit)
  (dispatch s.line : Eval Unit)
  (note s.begunMark : Eval Unit)
  Action.ask (.began s)
  (checkCancelled : Eval Unit)
  let scope ← performLocated expr block bound scope s.line s.form
  Action.ask (.ended s)
  (note s.endedMark : Eval Unit)
  return scope

/-- Executes a statement, with marks for it and for all inside. -/
def executeWatched : Nat → Scope → Stmt → Action Scope
  | 0, _, _ => (throw .exhausted : Eval Scope)
  | n + 1, scope, s =>
    executeDispatchedWatched (evaluateWatched n) (executeBlock (executeWatched n)) n scope s

/-- Executes a program, with marks for all its statements. -/
def watchedProgram (bound : Nat) (program : Block) (m : Machine) : Run :=
  executeBlock (executeWatched bound) .global (program.filter fun s => !s.form.isDefinition)
    (m.rewound.registerAll program) (fun _ m => .finished (.ok ()) m.settled)
    fun h m => .finished (.error h) m.settled

/-! ## Watching changes nothing -/

section Erasure

variable {α : Type} {m m' : Machine}

theorem SameButNotes.note_right (h : SameButNotes m m') (x : Note) :
    SameButNotes m (m'.note x) := by
  obtain ⟨journal, rfl⟩ := h
  exact ⟨x :: journal, rfl⟩

/-- Two steps of which the second has notes of its own give the same. -/
abbrev EvalAlike (e e' : Eval α) : Prop :=
  Trims (fun _ => False) SameButNotes e e'

/-- Two parts of runs of which the second has notes of its own come to the same. -/
abbrev Action.Alike (a a' : Action α) : Prop :=
  Action.Trims (fun _ => False) SameButNotes a a'

/-- A mark before a step. -/
theorem EvalAlike.marked {e e' : Eval α} (h : EvalAlike e e') (x : Note) :
    EvalAlike e (note x >>= fun _ => e') := by
  intro m m' hR
  rcases h m (m'.note x)
    (hR.note_right x) with ⟨_, _, _, ⟨⟩⟩ | ⟨a, n, n', he, he', hR⟩ | ⟨h, n, n', he, he', hR⟩
  · exact .ends a n n' he he' hR
  · exact .stops h n n' he he' hR

/-- A mark after a step. -/
theorem EvalAlike.marked_after {e e' : Eval α} (h : EvalAlike e e') (x : Note) :
    EvalAlike e (do
      let a ← e'
      note x
      return a) := by
  intro m m' hR
  rcases h m m' hR with ⟨_, _, _, ⟨⟩⟩ | ⟨a, n, n', he, he', hR⟩ | ⟨h, n, n', he, he', hR⟩
  · exact .ends a n (n'.note x) he (bind_ok he') (hR.note_right x)
  · exact .stops h n n' he (bind_eq_error.mpr (Or.inl he')) hR

/-- A mark before a part of a run. -/
theorem Action.Alike.marked {a a' : Action α} (h : Action.Alike a a') (x : Note) :
    Action.Alike a ((liftM (note x) : Action Unit) >>= fun _ => a') :=
  fun m m' hR => h m (m'.note x) (hR.note_right x)

theorem runWatched_alike (ev ev' : Evaluator)
    (hx : ∀ scope e, EvalAlike (ev.expr scope e) (ev'.expr scope e))
    (hr : ∀ scope s, EvalAlike (ev.stmt scope s) (ev'.stmt scope s)) (bound : Nat)
    (scope : Scope) (s : Stmt) :
    EvalAlike (runDispatched ev bound scope s) (runWatched ev' bound scope s) := by
  have hdispatch := trims_dispatch truncation_journal s.line
  have hform : EvalAlike (runForm ev bound scope s.form) (runForm ev' bound scope s.form) :=
    trims_runForm truncation_journal hx hr (Or.inl rfl) scope s.form
  have hlocated : EvalAlike (runLocated ev bound scope s) (runLocated ev' bound scope s) := by
    intro n n' hR
    unfold runLocated
    split
    · exact trimsAt_located truncation_journal s.line (hform n n' hR)
    · exact trimsAt_throw hR _
  refine EvalAlike.marked (fun m m' hR =>
    trimsAt_bind (hdispatch m m' hR) fun _ n n' _ hR => ?_) s.comingMark
  exact (hlocated.marked_after s.endedMark).marked s.begunMark n n' hR

theorem evaluateWatched_alike (n : Nat) :
    (∀ scope e, EvalAlike (evaluate n scope e) (evaluateWatched n scope e)) ∧
      ∀ scope s, EvalAlike (runStatement n scope s) (runStatementWatched n scope s) := by
  induction n with
  | zero => exact ⟨fun _ _ _ _ hR => trimsAt_throw hR _, fun _ _ _ _ hR => trimsAt_throw hR _⟩
  | succ n ih =>
    refine ⟨fun scope e => ?_, fun scope s => ?_⟩
    · exact trims_evaluateForm truncation_journal ih.1 ih.2 scope e
    · exact runWatched_alike ⟨evaluate n, runStatement n⟩
        ⟨evaluateWatched n, runStatementWatched n⟩ ih.1 ih.2 n scope s

section Parts

variable {expr expr' : Scope → Expr → Eval Value}
  (hx : ∀ scope e, EvalAlike (expr scope e) (expr' scope e))
  {stmt stmt' : Scope → Stmt → Action Scope}
  (hs : ∀ scope s, Action.Alike (stmt scope s) (stmt' scope s))
include hx hs

theorem executeDispatchedWatched_alike (bound : Nat) (scope : Scope) (s : Stmt) :
    Action.Alike (executeDispatched expr (executeBlock stmt) bound scope s)
      (executeDispatchedWatched expr' (executeBlock stmt') bound scope s) := by
  have hperform :=
    trims_performLocated truncation_journal hx hs (Or.inl rfl) (n := bound) scope s.line s.form
  refine Action.Alike.marked (fun m m' hR => ?_) s.comingMark
  refine Action.trimsAt_bind
    (Action.trimsAt_lift (trims_dispatch truncation_journal s.line m m' hR)) fun _ => ?_
  refine Action.Alike.marked (fun m m' hR => ?_) s.begunMark
  refine Action.trimsAt_bind (Action.trims_ask _ m m' hR) fun _ n n' hR => ?_
  refine Action.trimsAt_bind (Action.trimsAt_lift (trims_checkCancelled truncation_journal n n' hR))
    fun _ n n' hR => ?_
  refine Action.trimsAt_bind (hperform n n' hR) fun after n n' hR => ?_
  refine Action.trimsAt_bind (Action.trims_ask _ n n' hR) fun _ => ?_
  exact Action.Alike.marked (fun m m' hR => Action.trimsAt_pure hR after) s.endedMark

end Parts

theorem executeWatched_alike (n : Nat) (scope : Scope) (s : Stmt) :
    Action.Alike (execute n scope s) (executeWatched n scope s) := by
  induction n generalizing scope s with
  | zero => exact fun m m' hR => Action.trimsAt_lift (trimsAt_throw hR _)
  | succ n ih => exact executeDispatchedWatched_alike (evaluateWatched_alike n).1 ih n scope s

/-- **The watched run puts the queries of the plain one and ends as it does.** -/
theorem watchedProgram_alike (bound : Nat) (program : Block) (m : Machine) :
    (executeProgram bound program m).Alike (watchedProgram bound program m) := by
  have hstart : SameButNotes (m.rewound.registerAll program) (m.rewound.registerAll program) :=
    .refl _
  refine trims_executeBlock truncation_journal (executeWatched_alike bound) .global _ _ _ hstart _ _
    _ _ ⟨fun _ n n' hR => ?_, fun h n n' hR => ?_, fun _ _ _ hc => hc.elim⟩
  · exact .finished _ _ _ (truncation_journal.update hR .settled)
  · exact .finished _ _ _ (truncation_journal.update hR .settled)

end Erasure

/-! ## Who is charged -/

/-- A fault bears the line of the innermost statement under way, which came up inside those before.
It has been dispatched, unless its dispatch is what failed. -/
def Blamed (before : List Progress) (h : Halt) (after : List Progress) : Prop :=
  ∀ cause line, h = .fault cause line → 1 ≤ line ∧ ∃ begun inner,
    after = ⟨line, begun⟩ :: (inner ++ before) ∧ (begun = false ↔ cause = .dispatchLimit)

/-- A fault is charged to a statement inside those before, or it is still to be charged to the
innermost of them. -/
def Charged (before : List Progress) (h : Halt) (after : List Progress) : Prop :=
  Blamed before h after ∨ h.IsRaised ∧ after = before

section Charges

variable {up after : List Progress} {h : Halt} {p : Progress}

theorem Blamed.of_not_fault (hf : ∀ cause line, h ≠ .fault cause line) : Blamed up h after :=
  fun cause line hh => absurd hh (hf cause line)

/-- What is charged inside a statement is charged inside those around it. -/
theorem Blamed.outward (hb : Blamed (p :: up) h after) : Blamed up h after := by
  intro cause line hh
  obtain ⟨hpos, begun, inner, hafter, hbegun⟩ := hb cause line hh
  refine ⟨hpos, begun, inner ++ [p], ?_, hbegun⟩
  rw [hafter, List.append_assoc, List.singleton_append]

theorem Machine.underWay_charge (m : Machine) (line : Int) (h : Halt) :
    (m.charge line h).2.underWay = m.underWay := by
  unfold Machine.charge
  split
  · rw [underWay_note, (Note.IsRoutine.failed _ _).track]
  · rfl

/-- **A statement charges to its own line what is not charged to one inside it.** -/
theorem Charged.located {m : Machine} {line : Int}
    (hc : Charged (⟨line, true⟩ :: up) h m.underWay) (hpos : 1 ≤ line) :
    Blamed up (m.charge line h).1 (m.charge line h).2.underWay := by
  rw [m.underWay_charge]
  cases h with
  | fault cause line' =>
    -- a fault that has a line is left as it is, so it must be one that is charged inside
    by_cases hzero : line' = 0
    · subst hzero
      rcases hc with hb | ⟨⟨hcause, -⟩, hsame⟩
      · have := (hb cause 0 rfl).1
        omega
      · rintro _ _ ⟨⟩
        exact ⟨hpos, true, [], hsame, by simp [hcause]⟩
    · have hkeeps : (m.charge line (.fault cause line')).1 = .fault cause line' := by
        simp [Machine.charge, hzero]
      rcases hc with hb | ⟨⟨-, hraised⟩, -⟩
      · rw [hkeeps]
        exact hb.outward
      · exact absurd hraised hzero
  | _ => exact .of_not_fault (by simp [Machine.charge])

end Charges

/-- A statement that stands, with all inside it, on the lines of a source. -/
def Stmt.Lined (s : Stmt) : Prop :=
  ∀ t ∈ s.statements, 1 ≤ t.line

theorem Stmt.Lined.line_pos {s : Stmt} (hs : s.Lined) : 1 ≤ s.line :=
  hs s s.mem_statements_self

theorem Stmt.Lined.inside {s : Stmt} (hs : s.Lined) (b : Block) (hb : b ∈ s.form.blocks)
    (t : Stmt) (ht : t ∈ b) : t.Lined :=
  fun u hu => hs u (Stmt.mem_statements.mpr (.inr ⟨b, hb, mem_blockStatements.mpr ⟨t, ht, hu⟩⟩))

/-- What a host may do while statements are watched: ask for a cancellation, and stop the run, with
a fault only where something is asked of it. -/
def Query.MayGet (m : Machine) (q : Query) (reply : q.Reply) (n : Machine) : Prop :=
  (∃ cancel, n = { m with cancelRequested := cancel }) ∧
    ∀ h, reply = .error h → h.IsRaised ∧ ∀ cause line, h = .fault cause line → q.IsInner

/-- **The discipline of charging**: no step that ends leaves a statement under way, and what stops
one is charged. -/
def charging : Discipline where
  good := Stmt.Lined
  go m n := n.underWay = m.underWay
  stop m h n := Charged m.underWay h n.underWay
  host := Query.MayGet
  inside := fun hs b hb t ht => hs.inside b hb t ht
  trans := fun h₁ h₂ => h₂.trans h₁
  unwritten := fun h => congrArg (List.foldr Note.track []) h
  note := fun m hx => hx.track m.underWay
  raised := fun _ hh => Or.inr ⟨hh, rfl⟩
  after := fun hgo hstop => hgo ▸ hstop
  onward := fun hstop hgo => hgo ▸ hstop
  answered := by
    rintro m _ q x ⟨⟨cancel, rfl⟩, -⟩
    rfl
  refused := by
    rintro m _ q h ⟨⟨cancel, rfl⟩, herror⟩
    exact Or.inr ⟨(herror h rfl).1, rfl⟩
  taught := by
    rintro m _ q reply ⟨⟨cancel, rfl⟩, -⟩
    exact ⟨rfl, rfl⟩

/-! ## Statements are charged -/

section Statements

variable {s : Stmt} {m n : Machine}

/-- A statement whose dispatch fails has come up. -/
theorem blamed_dispatch (hpos : 1 ≤ s.line) {h : Halt}
    (hd : dispatch s.line (m.note s.comingMark) = .error h n) : Blamed m.underWay h n.underWay := by
  rw [dispatch_apply] at hd
  split at hd
  · next h' hallows =>
    cases hd
    refine .of_not_fault fun cause line => ?_
    have hlimit :
        Confined (· ≠ .fault cause line) (m.settings.maxDispatches.allows (m.dispatches + 1)) :=
      Limit.confined_allows _ _ (by simp)
    exact hlimit h hallows
  · cases hd
    rintro _ _ ⟨⟩
    exact ⟨hpos, false, [], rfl, by simp⟩
  · split at hd
    · cases hd
      exact .of_not_fault (by simp)
    · cases hd

/-- A statement that has been dispatched is the innermost one under way. -/
theorem underWay_dispatched {u : Unit} (hd : dispatch s.line (m.note s.comingMark) = .ok u n) :
    (n.note s.begunMark).underWay = ⟨s.line, true⟩ :: m.underWay := by
  obtain ⟨-, -, rfl⟩ := dispatch_eq_ok.mp hd
  exact Machine.underWay_begunMark (m.underWay_comingMark s) s

theorem Machine.Knows.dispatched {good : Stmt → Prop} (hm : m.Knows good) {u : Unit}
    (hd : dispatch s.line (m.note s.comingMark) = .ok u n) : (n.note s.begunMark).Knows good := by
  obtain ⟨-, -, rfl⟩ := dispatch_eq_ok.mp hd
  exact hm.of_eq rfl rfl

section Evaluators

variable {ev : Evaluator} (hx : ∀ scope e, (ev.expr scope e).Obeys charging)
  (hr : ∀ scope s, s.Lined → (ev.stmt scope s).Obeys charging) (hs : s.Lined)
  (bound : Nat) (scope : Scope)
include hx hr hs

theorem runLocated_ok (hm : m.Knows Stmt.Lined) {o : Outcome}
    (he : runLocated ev bound scope s m = .ok o n) :
    n.underWay = m.underWay ∧ n.Knows Stmt.Lined := by
  unfold runLocated at he
  split at he
  · cases hform : runForm ev bound scope s.form m with
    | ok o' n' =>
      rw [located_ok s.line hform] at he
      cases he
      exact (obeys_runForm hx hr bound scope hs).ok hm hform
    | error h n' =>
      rw [located_error s.line hform] at he
      cases he
  · cases he

theorem runLocated_error (hm : m.Knows Stmt.Lined) {up : List Progress}
    (hup : m.underWay = ⟨s.line, true⟩ :: up) {h : Halt}
    (he : runLocated ev bound scope s m = .error h n) : Blamed up h n.underWay := by
  unfold runLocated at he
  split at he
  · cases hform : runForm ev bound scope s.form m with
    | ok o n' =>
      rw [located_ok s.line hform] at he
      cases he
    | error h' n' =>
      have hstop : Charged m.underWay h' n'.underWay :=
        (obeys_runForm hx hr bound scope hs).error hm hform
      rw [hup] at hstop
      rw [located_error s.line hform] at he
      cases he
      exact hstop.located hs.line_pos
  · cases he
    rintro _ _ ⟨⟩
    exact ⟨hs.line_pos, true, [], hup, by simp⟩

/-- **A statement of a function body** ends with nothing more under way, or what stops it is
charged. -/
theorem obeys_runWatched : (runWatched ev bound scope s).Obeys charging := by
  refine obeys_of_allows fun m hm => ?_
  show charging.manner.Allows m ((dispatch s.line >>= fun _ => note s.begunMark >>= fun _ =>
    runLocated ev bound scope s >>= fun o => note s.endedMark >>= fun _ =>
      pure o) (m.note s.comingMark))
  cases hd : dispatch s.line (m.note s.comingMark) with
  | error h n =>
    rw [bind_eq_error.mpr (Or.inl hd)]
    exact Or.inl (blamed_dispatch hs.line_pos hd)
  | ok _ n =>
    have hup := underWay_dispatched hd
    have hn := hm.dispatched hd
    rw [bind_ok hd]
    show charging.manner.Allows m ((runLocated ev bound scope s >>= fun o => note s.endedMark >>=
      fun _ => pure o) (n.note s.begunMark))
    cases hbody : runLocated ev bound scope s (n.note s.begunMark) with
    | error h k =>
      rw [bind_eq_error.mpr (Or.inl hbody)]
      exact Or.inl (runLocated_error hx hr hs bound scope hn hup hbody)
    | ok o k =>
      obtain ⟨hsame, hk⟩ := runLocated_ok hx hr hs bound scope hn hbody
      rw [bind_ok hbody]
      refine ⟨?_, hk.of_eq rfl rfl⟩
      show (k.note s.endedMark).underWay = m.underWay
      rw [k.underWay_endedMark, hsame, hup, List.tail_cons]

end Evaluators

theorem evaluateWatched_obeys (n : Nat) :
    (∀ scope e, (evaluateWatched n scope e).Obeys charging) ∧
      ∀ scope s, s.Lined → (runStatementWatched n scope s).Obeys charging := by
  induction n with
  | zero =>
    exact ⟨fun _ _ => charging.performing.obeys_exhausted, fun _ _ _ =>
      charging.performing.obeys_exhausted⟩
  | succ n ih =>
    refine ⟨fun scope e => ?_, fun scope s hs => ?_⟩
    · exact @relates_evaluateForm charging.calling.comparison
        ⟨evaluateWatched n, runStatementWatched n⟩ _ scope ih.2 e fun part _ => ih.1 scope part
    · exact @obeys_runWatched s ⟨evaluateWatched n, runStatementWatched n⟩ ih.1 ih.2 hs n scope

/-- A part of a run ends with nothing more under way, or what stops it is charged to a statement
inside it. -/
def Action.Blames {α : Type} (a : Action α) : Prop :=
  ∀ (ends : Except Halt Unit → Machine → Prop) (m : Machine) (next : α → Machine → Run)
    (stop : Halt → Machine → Run), m.Knows Stmt.Lined →
    (∀ x n, n.underWay = m.underWay → n.Knows Stmt.Lined → (next x n).Obeys charging ends) →
      (∀ h n, Blamed m.underWay h n.underWay → (stop h n).Obeys charging ends) →
        (a m next stop).Obeys charging ends

theorem Action.Blames.obeys {α : Type} {a : Action α} (ha : a.Blames) : a.Obeys charging :=
  fun ends m next stop hm hnext hstop => ha ends m next stop hm hnext fun h n hb =>
    hstop h n (Or.inl hb)

section Parts

variable {expr : Scope → Expr → Eval Value} (hx : ∀ scope e, (expr scope e).Obeys charging)
  {block : Scope → Block → Action Scope}
  (hblock : ∀ scope b, (∀ s ∈ b, s.Lined) → (block scope b).Obeys charging) (hs : s.Lined)
  (bound : Nat) (scope : Scope) {ends : Except Halt Unit → Machine → Prop}
  {next : Scope → Machine → Run} {stop : Halt → Machine → Run}
include hx hblock hs

theorem performLocated_blames (hm : m.Knows Stmt.Lined) {up : List Progress}
    (hup : m.underWay = ⟨s.line, true⟩ :: up)
    (hnext : ∀ x n, n.underWay = m.underWay → n.Knows Stmt.Lined → (next x n).Obeys charging ends)
    (hstop : ∀ h n, Blamed up h n.underWay → (stop h n).Obeys charging ends) :
    (performLocated expr block bound scope s.line s.form m next stop).Obeys charging ends := by
  have hperform :
    (Action.located s.line (perform expr block bound scope s.line s.form) m next stop).Obeys
      charging ends := by
    refine obeys_perform hx hblock bound scope s.line hs ends m next _ hm hnext
      fun h n hcharged => ?_
    have hcharged : Charged m.underWay h n.underWay := hcharged
    rw [hup] at hcharged
    exact hstop _ _ (hcharged.located hs.line_pos)
  cases hform : s.form with
  | inert kind =>
    refine hstop _ _ ?_
    rintro _ _ ⟨⟩
    exact ⟨hs.line_pos, true, [], hup, by simp⟩
  | _ =>
    rw [hform] at hperform
    exact hperform

/-- **A statement** ends with nothing more under way, or what stops it is charged. -/
theorem executeDispatchedWatched_blames :
    (executeDispatchedWatched expr block bound scope s).Blames := by
  intro ends m next stop hm hnext hstop
  show ((liftM (dispatch s.line) : Action Unit) (m.note s.comingMark) _ stop).Obeys charging ends
  cases hd : dispatch s.line (m.note s.comingMark) with
  | error h n =>
    rw [Action.lift_error _ _ hd]
    exact hstop h n (blamed_dispatch hs.line_pos hd)
  | ok u n =>
    have hup := underWay_dispatched hd
    have hn := hm.dispatched hd
    rw [Action.lift_ok _ _ hd]
    -- the announcements are made outside the charge of the statement, so the host may not fail
    -- there
    refine .asking (fun t ht => by cases ht; exact hs) fun reply k hhost => ?_
    obtain ⟨⟨cancel, rfl⟩, herror⟩ := hhost
    cases reply with
    | error h => exact hstop h _ (.of_not_fault fun cause line hh => (herror h rfl).2 cause line hh)
    | ok _ =>
      show ((liftM checkCancelled : Action Unit) _ _ stop).Obeys charging ends
      cases cancel with
      | true =>
        rw [Action.lift_error _ _ ((checkCancelled_apply _).trans (if_pos rfl))]
        exact hstop _ _ (.of_not_fault (by simp))
      | false =>
        rw [Action.lift_ok _ _ ((checkCancelled_apply _).trans (if_neg Bool.false_ne_true))]
        refine performLocated_blames hx hblock hs bound scope (hn.of_eq rfl rfl) hup
          (fun x k hsame hk => ?_) hstop
        refine .asking (fun t ht => by cases ht) fun reply l hhost => ?_
        obtain ⟨⟨cancel, rfl⟩, herror⟩ := hhost
        cases reply with
        | error h =>
          exact hstop h _ (.of_not_fault fun cause line hh => (herror h rfl).2 cause line hh)
        | ok _ =>
          refine hnext x _ ?_ (hk.of_eq rfl rfl)
          show k.underWay.tail = m.underWay
          rw [hsame]
          exact congrArg List.tail hup

end Parts

theorem executeBlock_blames {stmt : Scope → Stmt → Action Scope}
    (hstmt : ∀ scope s, s.Lined → (stmt scope s).Blames) (scope : Scope) {b : Block}
    (hb : ∀ s ∈ b, s.Lined) : (executeBlock stmt scope b).Blames := by
  induction b generalizing scope with
  | nil => exact fun _ m _ _ hm hnext _ => hnext scope m rfl hm
  | cons s rest ih =>
    intro ends m next stop hm hnext hstop
    refine hstmt scope s (hb s List.mem_cons_self) ends m _ stop hm
      (fun scope n hsame hn => ?_) hstop
    have hrest := ih scope fun t ht => hb t (List.mem_cons_of_mem _ ht)
    refine hrest ends n next stop hn (fun x k hk => ?_) fun h k hk => ?_
    · exact hnext x k (hk.trans hsame)
    · exact hstop h k (hsame ▸ hk)

theorem executeWatched_blames (n : Nat) (scope : Scope) {s : Stmt} (hs : s.Lined) :
    (executeWatched n scope s).Blames := by
  induction n generalizing scope s with
  | zero => exact fun _ m _ _ _ _ hstop => hstop _ m (.of_not_fault (by simp))
  | succ n ih =>
    refine executeDispatchedWatched_blames (evaluateWatched_obeys n).1
      (fun scope b hb => ?_) hs n scope
    exact charging.actions.executeBlock (fun s hs scope => (ih scope (hb s hs)).obeys) scope

end Statements

/-- **A fault that ends a watched run is charged to the innermost statement under way.** -/
theorem watchedProgram_blames (bound : Nat) {program : Block} (hp : ∀ s ∈ program, s.Lined)
    {m : Machine} (hm : m.Knows Stmt.Lined) :
    (watchedProgram bound program m).Obeys charging fun ending n =>
      ∀ h, ending = .error h → Blamed m.underWay h n.underWay := by
  have hstart : (m.rewound.registerAll program).underWay = m.underWay :=
    charging.registerAll m.rewound program
  have hrewound : m.rewound.Knows charging.good := hm.of_eq rfl rfl
  have hknows : (m.rewound.registerAll program).Knows Stmt.Lined :=
    hrewound.registerAll hp
  refine executeBlock_blames (fun scope s hs => executeWatched_blames bound scope hs) .global
    (fun s hs => hp s (List.mem_filter.mp hs).1) _ _ _ _ hknows (fun _ n _ _ => ?_) fun h n hb => ?_
  · refine .finished ?_
    rintro _ ⟨⟩
  · refine .finished ?_
    rintro _ ⟨⟩
    exact hstart ▸ hb

/-! ## Whole runs -/

theorem lined_of_parseSource {source : String} {program : Block}
    (hp : parseSource source = .ok program) : ∀ s ∈ program, s.Lined :=
  fun s hs t ht => line_pos_of_parseSource hp t (mem_blockStatements.mpr ⟨s, hs, ht⟩)

/-- A host whose replies do not depend on the notes, which it leaves alone. -/
def Host.IgnoresNotes {σ : Type} (host : Host σ) : Prop :=
  ∀ s m journal q, host.reply s { m with journal := journal } q =
    ((host.reply s m q).1, (host.reply s m q).2.1,
      { (host.reply s m q).2.2 with journal := journal })

theorem Run.Alike.drain {r r' : Run} (h : r.Alike r') {σ : Type} {host : Host σ}
    (hnotes : host.IgnoresNotes) (s : σ) :
    (r'.drain host s).1 = (r.drain host s).1 ∧
      SameButNotes (r.drain host s).2.1 (r'.drain host s).2.1 ∧
      (r'.drain host s).2.2 = (r.drain host s).2.2 := by
  induction h generalizing s with
  | cut halt m r' hc => exact hc.elim
  | finished ending m m' hR => exact ⟨rfl, hR, rfl⟩
  | asking q m m' resume resume' hR _ ih =>
    obtain ⟨journal, rfl⟩ := hR
    rw [Run.drain, Run.drain, hnotes s m journal q]
    exact ih _ _ _ ⟨journal, rfl⟩ _

/-- **Every fault that ends a run of a parsed program bears the line of a statement, the innermost
one under way.** The watched run ends like the plain one and tells which statements those are; the
innermost has been dispatched, unless the fault is that it was one statement too many. -/
theorem faults_bear_the_line_of_the_innermost_statement {source : String} {program : Block}
    (hp : parseSource source = .ok program) (bound : Nat) {m : Machine} (hm : m.Knows Stmt.Lined)
    {σ : Type} {host : Host σ} (hnotes : host.IgnoresNotes)
    (hreplies : ∀ s m (q : Query), q.MayGet m (host.reply s m q).1 (host.reply s m q).2.2) (s : σ) :
    let plain := (executeProgram bound program m).drain host s
    let watched := (watchedProgram bound program m).drain host s
    watched.1 = plain.1 ∧ SameButNotes plain.2.1 watched.2.1 ∧ watched.2.2 = plain.2.2 ∧
      ∀ cause line, plain.1 = .error (.fault cause line) → 1 ≤ line ∧ ∃ begun inner,
        watched.2.1.underWay = ⟨line, begun⟩ :: (inner ++ m.underWay) ∧
          (begun = false ↔ cause = .dispatchLimit) := by
  intro plain watched
  obtain ⟨hending, hmachine, hstate⟩ := (watchedProgram_alike bound program m).drain hnotes s
  refine ⟨hending, hmachine, hstate, fun cause line hfault => ?_⟩
  have hblamed := (watchedProgram_blames bound (lined_of_parseSource hp) hm).drain hreplies s
  exact hblamed _ (hending.trans hfault) cause line rfl

/-- A loop whose condition calls a function that returns nothing. -/
def silentFunction : String :=
  "FUNCTION f() RETURNS INTEGER\nDECLARE x : INTEGER\nENDFUNCTION\nWHILE f() DO\nENDWHILE\n"

theorem Supply.ignoresNotes : Supply.host.IgnoresNotes :=
  fun _ _ _ _ => rfl

theorem Supply.mayGet (s : Supply) (m : Machine) (q : Query) :
    q.MayGet m (Supply.host.reply s m q).1 (Supply.host.reply s m q).2.2 := by
  refine ⟨⟨m.cancelRequested, rfl⟩, fun h hh => ?_⟩
  cases q with
  | input label type =>
    obtain ⟨inputs, uploads, requested, output⟩ := s
    cases inputs <;> cases hh
  | _ => cases hh

/-- The loop is blamed, not the body of the function. -/
theorem silent_function_is_charged_to_the_loop :
    ∃ program, parseSource silentFunction = .ok program ∧
      Machine.Knows Stmt.Lined {} ∧ Supply.host.IgnoresNotes ∧
      (∀ s m (q : Query), q.MayGet m (Supply.host.reply s m q).1 (Supply.host.reply s m q).2.2) ∧
      ((executeProgram plenty program {}).drain Supply.host {}).1 =
      .error (.fault (.noReturn "f") 4) ∧
      ∃ begun inner, ((watchedProgram plenty program {}).drain Supply.host {}).2.1.underWay =
      ⟨4, begun⟩ :: (inner ++ []) ∧ (begun = false ↔ Fault.noReturn "f" = .dispatchLimit) := by
  have hparsed : ((parseSource silentFunction).toOption.map fun program =>
      ((executeProgram plenty program {}).drain Supply.host {}).1) =
          some (.error (.fault (.noReturn "f") 4)) := by
    decide +kernel
  have hknows : Machine.Knows Stmt.Lined {} := Machine.knows_of_empty rfl rfl
  obtain ⟨program, hp, hending⟩ := exists_of_parseSource hparsed
  obtain ⟨-, -, -, hblamed⟩ := faults_bear_the_line_of_the_innermost_statement hp plenty hknows
    Supply.ignoresNotes Supply.mayGet {}
  exact ⟨program, hp, hknows, Supply.ignoresNotes, Supply.mayGet, hending, (hblamed _ _ hending).2⟩

end Pseudocode

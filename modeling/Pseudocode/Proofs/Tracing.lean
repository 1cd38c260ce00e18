import Mathlib.Data.List.ReduceOption
import Pseudocode.Proofs.Announcements
import Pseudocode.Proofs.Stepping
import Pseudocode.Proofs.Storage
import Pseudocode.Trace

/-!
# Traces account for runs

Recording a trace does not change a run, as long as the inputs suffice and every number that is held
when a row is recorded can be written. The statements that end in the plain run (`Run.completions`),
each with the machine as it is then and the lines that it has printed, tell what the trace is: it
has one row for each of them that is simple, in order.

Results:
* `Run.InOrder.lines_eq`: the lines of the simple statements that end are all that is printed.
* `Run.InOrder.begun_eq`: a simple statement that begins ends, unless the run stops in it.
* `Run.InOrder.traced`: the run that is traced beside the plain one.
* `trace_accounts_for_the_run`: all three for whole programs.
-/

namespace Pseudocode

/-! ## Statements that end -/

/-- A statement that has ended: the machine as it is then, and the lines that were printed since it
began. -/
structure Completion where
  stmt : Stmt
  machine : Machine
  lines : List String

/-- Whether no statements run inside the one that has ended. -/
def Completion.isSimple (c : Completion) : Bool :=
  !c.stmt.form.isCompound

/-- The statements that end in a run that is answered from a supply. The marks tell, for each
statement under way, innermost first, how many lines had been printed when it began. -/
def Run.completions : Run → Supply → List Nat → List Completion
  | .finished _ _, _, _ => []
  | .asking (.began _) m resume, s,
    marks => (resume (.ok ()) m).completions s (s.output.size :: marks)
  | .asking (.ended t) m resume, s, marks =>
    ⟨t, m, s.output.toList.drop (marks.headD 0)⟩ :: (resume (.ok ()) m).completions s marks.tail
  | .asking q m resume, s, marks =>
    let (reply, s) := s.reply q
    (resume reply m).completions s marks

/-- The simple statements that end. -/
def Run.simpleCompletions (r : Run) (s : Supply) (marks : List Nat) : List Completion :=
  (r.completions s marks).filter Completion.isSimple

/-- The simple statements that begin. -/
def Run.simpleBegun (r : Run) (s : Supply) : List Stmt :=
  ((r.moments s).map Moment.stmt).filter fun t => !t.form.isCompound

section Completions

variable {m : Machine} {t : Stmt} (s : Supply) (marks : List Nat)

theorem simpleCompletions_began (resume : Query.Reply (.began t) → Machine → Run) :
    (Run.asking (.began t) m resume).simpleCompletions s marks =
      (resume (.ok ()) m).simpleCompletions s (s.output.size :: marks) := rfl

theorem simpleCompletions_ended (ht : t.form.isCompound = false)
    (resume : Query.Reply (.ended t) → Machine → Run) :
    (Run.asking (.ended t) m resume).simpleCompletions s marks =
      ⟨t, m, s.output.toList.drop (marks.headD 0)⟩ ::
        (resume (.ok ()) m).simpleCompletions s marks.tail :=
  List.filter_cons_of_pos (by rw [Completion.isSimple, ht]; rfl)

theorem simpleCompletions_closed (ht : t.form.isCompound = true)
    (resume : Query.Reply (.ended t) → Machine → Run) :
    (Run.asking (.ended t) m resume).simpleCompletions s marks =
      (resume (.ok ()) m).simpleCompletions s marks.tail :=
  List.filter_cons_of_neg (by rw [Completion.isSimple, ht]; exact Bool.false_ne_true)

end Completions

/-! ## Requests -/

section Requests

variable {q : Query} (hq : q.IsRequest) (s : Supply)
include hq

/-- A request is answered, and prints nothing. -/
theorem Supply.reply_request : ∃ a, (s.reply q).1 = .ok a ∧ (s.reply q).2.output = s.output := by
  cases q with
  | input label type =>
    cases hs : s.inputs with
    | nil => exact ⟨"", by rw [Supply.reply]; simp only [hs], by rw [Supply.reply]; simp only [hs]⟩
    | cons text rest =>
      exact ⟨text, by rw [Supply.reply]; simp only [hs], by rw [Supply.reply]; simp only [hs]⟩
  | upload name => exact ⟨_, rfl, rfl⟩
  | _ => exact hq.elim

theorem simpleCompletions_request (marks : List Nat) {m : Machine}
    (resume : q.Reply → Machine → Run) :
    (Run.asking q m resume).simpleCompletions s marks =
      (resume (s.reply q).1 m).simpleCompletions (s.reply q).2 marks := by
  cases q with
  | input label type => rfl
  | upload name => rfl
  | _ => exact hq.elim

theorem simpleBegun_request {m : Machine} (resume : q.Reply → Machine → Run) :
    (Run.asking q m resume).simpleBegun s = (resume (s.reply q).1 m).simpleBegun (s.reply q).2 := by
  cases q with
  | input label type => rfl
  | upload name => rfl
  | _ => exact hq.elim

end Requests

/-! ## The lines of a run -/

/-- How many lines had been printed when the simple statement under way began; outside one, how many
have been. -/
def Stage.mark (stage : Stage) (s : Supply) (marks : List Nat) : Nat :=
  match stage with
  | .between => s.output.size
  | .inside _ _ => marks.headD 0

theorem Stmt.mark_stage (t : Stmt) (s : Supply) (marks : List Nat) :
    t.stage.mark s (s.output.size :: marks) = s.output.size := by
  unfold Stmt.stage
  split <;> rfl

/-- The lines that a stage of a run leaves to be accounted for: as long as the run may stop,
none. -/
structure Stage.Marked (stage : Stage) (s : Supply) (marks : List Nat) : Prop where
  le : stage.mark s marks ≤ s.output.size
  eq : stage.MayStop → stage.mark s marks = s.output.size

theorem marked_between (s : Supply) (marks : List Nat) : Stage.Marked .between s marks :=
  ⟨Nat.le_refl _, fun _ => rfl⟩

theorem Stmt.marked_stage (t : Stmt) (s : Supply) (marks : List Nat) :
    t.stage.Marked s (s.output.size :: marks) :=
  ⟨Nat.le_of_eq (t.mark_stage s marks), fun _ => t.mark_stage s marks⟩

/-- **The lines of the simple statements that end are all that is printed.** -/
theorem Run.InOrder.lines_eq {stage : Stage} {r : Run} (h : r.InOrder stage) {s : Supply}
    {marks : List Nat} (hmarks : stage.Marked s marks) :
    (r.simpleCompletions s marks).flatMap Completion.lines =
      (r.drain Supply.host s).2.2.output.toList.drop (stage.mark s marks) := by
  have hnothing : ∀ (s : Supply) {k : Nat}, k = s.output.size → [] = s.output.toList.drop k := by
    rintro s _ rfl
    exact (List.drop_eq_nil_of_le (Nat.le_of_eq Array.length_toList)).symm
  induction h generalizing s marks with
  | done m => exact hnothing s rfl
  | stops hs halt m => exact hnothing s (hmarks.eq hs)
  | begins t _ ih =>
    rw [simpleCompletions_began, ih (t.marked_stage s marks), t.mark_stage]
    rfl
  | @requests t q hq m resume _ ih =>
    obtain ⟨a, ha, hout⟩ := s.reply_request hq
    have hmarks' : Stage.Marked (.inside t false) (s.reply q).2 marks :=
      ⟨by rw [hout]; exact hmarks.le, fun h => by rw [hout]; exact hmarks.eq h⟩
    have hrest := ih a hmarks'
    rw [← ha] at hrest
    rw [simpleCompletions_request hq, hrest]
    rfl
  | @prints t line m resume _ ih =>
    have hle : marks.headD 0 ≤ (s.output.push line).size := by
      rw [Array.size_push]
      exact Nat.le_succ_of_le hmarks.le
    exact @ih { s with output := s.output.push line } marks ⟨hle, fun h => Bool.noConfusion h⟩
  | @ends t printed ht m resume _ ih =>
    -- What comes after the statement is added to the lines that it has printed.
    obtain ⟨more, hmore⟩ := output_prefix_drain (resume (.ok ()) m) s
    have hle : marks.headD 0 ≤ s.output.toList.length := by
      rw [Array.length_toList]
      exact hmarks.le
    rw [simpleCompletions_ended s marks ht, List.flatMap_cons, ih (marked_between s marks.tail)]
    show s.output.toList.drop (marks.headD 0) ++
      ((resume (.ok ()) m).drain Supply.host s).2.2.output.toList.drop s.output.size =
      ((resume (.ok ()) m).drain Supply.host s).2.2.output.toList.drop (marks.headD 0)
    rw [← hmore, ← Array.length_toList, List.drop_left, List.drop_append_of_le_length hle]
  | closes ht _ ih =>
    rw [simpleCompletions_closed s marks ht, ih (marked_between s marks.tail)]
    rfl

/-! ## What begins and what ends -/

/-- The simple statement under way. -/
def Stage.underWay : Stage → List Stmt
  | .between => []
  | .inside t _ => [t]

theorem simpleBegun_began {t : Stmt} {m : Machine}
    (resume : Query.Reply (.began t) → Machine → Run) (s : Supply) :
    (Run.asking (.began t) m resume).simpleBegun s = t.stage.underWay ++
      (resume (.ok ()) m).simpleBegun s := by
  unfold Stmt.stage
  cases ht : t.form.isCompound with
  | true => exact List.filter_cons_of_neg (by rw [ht]; exact Bool.false_ne_true)
  | false => exact List.filter_cons_of_pos (by rw [ht]; rfl)

/-- **A simple statement that begins ends**, unless the run stops in it. -/
theorem Run.InOrder.begun_eq {stage : Stage} {r : Run} (h : r.InOrder stage) (s : Supply)
    (marks : List Nat) :
    ∃ left : List Stmt, stage.underWay ++
      r.simpleBegun s = (r.simpleCompletions s marks).map Completion.stmt ++ left ∧
      left.length ≤ 1 ∧ ((r.drain Supply.host s).1 = .ok () → left = []) := by
  induction h generalizing s marks with
  | done m => exact ⟨[], rfl, Nat.zero_le 1, fun _ => rfl⟩
  | @stops stage _ halt m =>
    refine ⟨stage.underWay, List.append_nil _, ?_, fun h => by cases h⟩
    cases stage with
    | between => exact Nat.zero_le 1
    | inside t printed => exact Nat.le_refl 1
  | @begins t m resume _ ih =>
    obtain ⟨left, heq, hleft⟩ := ih s (s.output.size :: marks)
    exact ⟨left, (simpleBegun_began resume s).trans heq, hleft⟩
  | @requests t q hq m resume _ ih =>
    obtain ⟨a, ha, -⟩ := s.reply_request hq
    have hrest := ih a (s.reply q).2 marks
    rw [← ha] at hrest
    rw [simpleBegun_request hq, simpleCompletions_request hq]
    exact hrest
  | @prints t line m resume _ ih => exact ih { s with output := s.output.push line } marks
  | @ends t printed ht m resume _ ih =>
    obtain ⟨left, heq, hleft⟩ := ih s marks.tail
    refine ⟨left, ?_, hleft⟩
    rw [simpleCompletions_ended s marks ht, List.map_cons, List.cons_append, ← heq]
    rfl
  | closes ht _ ih =>
    rw [simpleCompletions_closed s marks ht]
    exact ih s marks.tail

/-! ## What a row shows -/

/-- A row shows a statement that has ended: the global variables are those of the machine as it is
then. -/
structure TraceRow.Records (row : TraceRow) (c : Completion) : Prop where
  line : row.line = c.stmt.line
  statement : row.statement = c.stmt.describe
  globals : c.machine.memory.snapshot = .ok row.globals
  output : row.output = c.lines

/-- The values that a variable holds, as a whole or in its cells. -/
def Variable.values : Variable → List Value
  | .scalar _ held => held.toList
  | .array _ grid => grid.cells.toList.reduceOption
  | .replaced _ _ value => [value]

/-- All values but the whole numbers with too many digits to be written. -/
def Value.isShort : Value → Bool
  | .int n => Number.isWritable n
  | _ => true

/-- The global variables hold no whole number with too many digits to be written. -/
def Machine.Showable (m : Machine) : Prop :=
  ∀ entry ∈ m.memory.globalVariables, ∀ value ∈ entry.2.values, value.isShort = true

instance (m : Machine) : Decidable m.Showable :=
  inferInstanceAs
    (Decidable (∀ entry ∈ m.memory.globalVariables, ∀ value ∈ entry.2.values, value.isShort = true))

theorem mapM_ok {α β : Type} {f : α → Attempt β} {l : List α} (h : ∀ x ∈ l, ∃ y, f x = .ok y) :
    ∃ ys, l.mapM f = .ok ys := by
  induction l with
  | nil => exact ⟨[], rfl⟩
  | cons x l ih =>
    obtain ⟨y, hy⟩ := h x List.mem_cons_self
    obtain ⟨ys, hys⟩ := ih fun x' hx' => h x' (List.mem_cons_of_mem x hx')
    exact ⟨y :: ys, by rw [List.mapM_cons, hy, hys]; rfl⟩

theorem Value.shown_ok {value : Value} (h : value.isShort = true) :
    ∃ text, value.shown = .ok text := by
  cases value with
  | int n =>
    have hn : Number.isWritable n = true := h
    exact ⟨toString n, by rw [Value.shown, Value.shown?, Number.wholeText?, if_pos hn]; rfl⟩
  | _ => exact ⟨_, rfl⟩

theorem shownCells_ok {v : Variable} (hv : v.Sound)
    (h : ∀ value ∈ v.values, value.isShort = true) (name : String) :
    ∃ cells, shownCells name v = .ok cells := by
  cases hv with
  | @scalar type held ht _ =>
    have harray := Variable.isArray_scalar ht held
    cases held with
    | none => exact ⟨_, by rw [shownCells, harray]; rfl⟩
    | some value =>
      obtain ⟨text, htext⟩ := Value.shown_ok (h value List.mem_cons_self)
      exact ⟨[(name, text)], by rw [shownCells, harray]; simp only [Variable.held?, htext]; rfl⟩
  | @array element grid _ _ =>
    apply mapM_ok
    rintro ⟨indices, value⟩ hmem
    obtain ⟨⟨indices', cell⟩, hcell, hvalue⟩ := List.mem_filterMap.mp hmem
    obtain ⟨value', rfl, heq⟩ := Option.map_eq_some_iff.mp hvalue
    obtain ⟨rfl, rfl⟩ := Prod.mk.inj heq
    obtain ⟨text, htext⟩ :=
      Value.shown_ok (h value' (List.reduceOption_mem_iff.mpr (List.of_mem_zip hcell).2))
    exact ⟨_,
      congrArg (fun shown => shown >>= fun text => pure (elementKey name indices', text)) htext⟩

/-- The global variables of a sound machine can be shown, as long as the numbers they hold can be
written. -/
theorem snapshot_ok {m : Machine} (hm : m.Sound) (h : m.Showable) :
    ∃ globals, m.memory.snapshot = .ok globals := by
  have hcells :
      ∀ entry ∈ m.memory.globalVariables, ∃ cells, shownCells entry.1 entry.2 = .ok cells := by
    rintro ⟨name, v⟩ hmem
    obtain ⟨⟨name', l⟩, -, hat⟩ := List.mem_filterMap.mp hmem
    obtain ⟨v', hv', heq⟩ := Option.map_eq_some_iff.mp hat
    obtain ⟨rfl, rfl⟩ := Prod.mk.inj heq
    exact shownCells_ok (hm.store l.index v' hv') (h (name', v') hmem) name'
  obtain ⟨cells, hall⟩ := mapM_ok hcells
  exact ⟨_, by rw [Memory.snapshot]; exact congrArg (· >>= _) hall⟩

/-! ## The recorder beside the supply -/

/-- A recorder and a supply that answer alike and have printed the same lines. -/
structure Recorder.Shares (rec : Recorder) (s : Supply) : Prop where
  inputs : rec.inputs = s.inputs
  uploads : rec.uploads = s.uploads
  output : rec.output = s.output

/-- Inside a simple statement, the recorder has the lines that were printed since it began. -/
def Stage.Produced (stage : Stage) (rec : Recorder) (s : Supply) (marks : List Nat) : Prop :=
  match stage with
  | .between => True
  | .inside _ _ => marks.headD 0 ≤ s.output.toList.length ∧
    rec.produced.toList = s.output.toList.drop (marks.headD 0)

theorem Stmt.produced_stage (t : Stmt) (rec : Recorder) (s : Supply) (marks : List Nat) :
    t.stage.Produced { rec with produced := #[] } s (s.output.size :: marks) := by
  unfold Stmt.stage
  split
  · trivial
  · have hsize : s.output.toList.length = s.output.size := Array.length_toList
    exact ⟨Nat.le_of_eq hsize.symm, (List.drop_eq_nil_of_le (Nat.le_of_eq hsize)).symm⟩

theorem Stage.Produced.print {t : Stmt} {rec : Recorder} {s : Supply} {marks : List Nat}
    (h : Stage.Produced (.inside t false) rec s marks) (line : String) :
    Stage.Produced (.inside t true)
      { rec with produced := rec.produced.push line, output := rec.output.push line }
      { s with output := s.output.push line } marks := by
  obtain ⟨hle, hlines⟩ := h
  unfold Stage.Produced
  rw [Array.toList_push, Array.toList_push, hlines,
    List.drop_append_of_le_length hle, List.length_append]
  exact ⟨Nat.le_add_right_of_le hle, rfl⟩

/-- What the recorder has after a run that the supply answers: the run goes the same way, and there
are new rows for the simple statements that have ended. -/
structure TracedBeside (r : Run) (s : Supply) (marks : List Nat) (rec : Recorder)
    (traced : Except Halt Unit × Machine × Recorder) (rows : List TraceRow) : Prop where
  ending : traced.1 = (r.drain Supply.host s).1
  machine : traced.2.1 = (r.drain Supply.host s).2.1
  output : traced.2.2.output = (r.drain Supply.host s).2.2.output
  used : traced.2.2.used + s.requested.size = rec.used + (r.drain Supply.host s).2.2.requested.size
  rows_eq : traced.2.2.rows.toList = rec.rows.toList ++ rows
  records : List.Forall₂ TraceRow.Records rows (r.simpleCompletions s marks)
  steps : rows.map TraceRow.step = List.range' (rec.rows.size + 1) rows.length

/-- A run only adds to the inputs that have been asked for. -/
theorem requested_le_drain (r : Run) (s : Supply) :
    s.requested.size ≤ (r.drain Supply.host s).2.2.requested.size := by
  induction r generalizing s with
  | finished ending m => exact Nat.le_refl _
  | asking q m resume ih =>
    refine Nat.le_trans ?_ (ih (s.reply q).1 m (s.reply q).2)
    cases q with
    | input label type =>
      unfold Supply.reply
      cases s.inputs <;> simp
    | _ => exact Nat.le_refl _

theorem Recorder.drain_asking (q : Query) (m : Machine)
    (resume : q.Reply → Machine → Run) (rec : Recorder) :
    (Run.asking q m resume).drain Recorder.host rec =
      (resume (rec.reply m q).1 m).drain Recorder.host (rec.reply m q).2 := rfl

/-- What the recorder and the supply have in common after a request, as long as the inputs
suffice. -/
theorem Recorder.reply_request {q : Query} (hq : q.IsRequest) {rec : Recorder} {s : Supply}
    (h : rec.Shares s) (m : Machine)
    (hinputs : (s.reply q).2.requested.size ≤ s.requested.size + s.inputs.length) :
    (rec.reply m q).1 = (s.reply q).1 ∧ (rec.reply m q).2.Shares (s.reply q).2 ∧
      (rec.reply m q).2.used + s.requested.size = rec.used + (s.reply q).2.requested.size ∧
      (rec.reply m q).2.produced = rec.produced ∧ (rec.reply m q).2.rows = rec.rows ∧
      (s.reply q).2.requested.size + (s.reply q).2.inputs.length = s.requested.size +
        s.inputs.length := by
  obtain ⟨_, _, requested, _⟩ := s
  obtain ⟨inputs, used, uploads, produced, rows, output⟩ := rec
  obtain ⟨rfl, rfl, rfl⟩ := h
  cases q with
  | upload name => exact ⟨rfl, ⟨rfl, rfl, rfl⟩, rfl, rfl, rfl, rfl⟩
  | input label type =>
    cases inputs with
    | nil =>
      have hpushed : (requested.push (label, type)).size ≤ requested.size := hinputs
      rw [Array.size_push] at hpushed
      omega
    | cons text rest =>
      refine ⟨rfl, ⟨rfl, rfl, rfl⟩, ?_, rfl, rfl, ?_⟩
      · show used + 1 + requested.size = used + (requested.push (label, type)).size
        rw [Array.size_push]
        omega
      · show (requested.push (label, type)).size + rest.length = requested.size + (rest.length + 1)
        rw [Array.size_push]
        omega
  | _ => exact hq.elim

section Ended

variable {t : Stmt} (rec : Recorder) (m : Machine)

theorem Recorder.reply_ended (ht : t.form.isCompound = false) {globals : Table String}
    (hglobals : m.memory.snapshot = .ok globals) :
    rec.reply m (.ended t) = (.ok (), { rec with
      rows := rec.rows.push
          ⟨rec.rows.size + 1, t.line, t.describe, globals, rec.produced.toList⟩ }) := by
  rw [Recorder.reply, Recorder.record, ht, hglobals]
  rfl

theorem Recorder.reply_closed (ht : t.form.isCompound = true) :
    rec.reply m (.ended t) = (.ok (), rec) := by
  rw [Recorder.reply, Recorder.record, ht]
  rfl

end Ended

theorem Run.Always.here {I : Machine → Prop} {q : Query} {m : Machine}
    {resume : q.Reply → Machine → Run} (h : (Run.asking q m resume).Always I) : I m := by
  cases h with
  | asking _ h _ => exact h

theorem Run.Always.after {I : Machine → Prop} {q : Query} {m : Machine}
    {resume : q.Reply → Machine → Run} (h : (Run.asking q m resume).Always I) (reply : q.Reply) :
    (resume reply m).Always I := by
  cases h with
  | asking _ _ rest => exact rest reply m (.refl m)

/-- A request changes neither the rows nor, together, the inputs asked for and the inputs used. -/
theorem TracedBeside.request {q : Query} (hq : q.IsRequest) {m : Machine}
    {resume : q.Reply → Machine → Run} {s : Supply} {marks : List Nat} {rec rec' : Recorder}
    {traced : Except Halt Unit × Machine × Recorder} {rows : List TraceRow}
    (hused : rec'.used + s.requested.size = rec.used + (s.reply q).2.requested.size)
    (hkept : rec'.rows = rec.rows)
    (h : TracedBeside (resume (s.reply q).1 m) (s.reply q).2 marks rec' traced rows) :
    TracedBeside (.asking q m resume) s marks rec traced rows := by
  refine ⟨h.ending, h.machine, h.output, ?_, hkept ▸ h.rows_eq, ?_, hkept ▸ h.steps⟩
  · have hlater := h.used
    show _ = rec.used +
      ((resume (s.reply q).1 m).drain Supply.host (s.reply q).2).2.2.requested.size
    omega
  · rw [simpleCompletions_request hq]
    exact h.records

/-- A row before the rows of the rest of the run. -/
theorem TracedBeside.row {t : Stmt} (ht : t.form.isCompound = false) {m : Machine}
    {resume : Query.Reply (.ended t) → Machine → Run} {s : Supply} {marks : List Nat}
    {rec : Recorder} {traced : Except Halt Unit × Machine × Recorder} {row : TraceRow}
    {rows : List TraceRow} (hstep : row.step = rec.rows.size + 1)
    (hrow : row.Records ⟨t, m, s.output.toList.drop (marks.headD 0)⟩) (h : TracedBeside
      (resume (.ok ()) m) s marks.tail { rec with rows := rec.rows.push row } traced rows) :
    TracedBeside (.asking (.ended t) m resume) s marks rec traced (row :: rows) := by
  refine ⟨h.ending, h.machine, h.output, h.used, ?_, ?_, ?_⟩
  · rw [h.rows_eq, Array.toList_push, List.append_assoc]
    rfl
  · rw [simpleCompletions_ended s marks ht]
    exact .cons hrow h.records
  · rw [List.map_cons, h.steps, List.length_cons, List.range'_succ, Array.size_push, hstep]

/-- **The run that is traced goes beside the plain one**, as long as the inputs suffice and the
numbers that are held when a row is recorded can be written. -/
theorem Run.InOrder.traced {stage : Stage} {r : Run} (h : r.InOrder stage)
    (hsound : r.Always Machine.Sound) {s : Supply} {rec : Recorder} {marks : List Nat}
    (hshares : rec.Shares s) (hproduced : stage.Produced rec s marks)
    (hinputs : (r.drain Supply.host s).2.2.requested.size ≤ s.requested.size + s.inputs.length)
    (hshow : ∀ c ∈ r.simpleCompletions s marks, c.machine.Showable) :
    ∃ rows, TracedBeside r s marks rec (r.drain Recorder.host rec) rows := by
  induction h generalizing s rec marks with
  | done m => exact ⟨[], rfl, rfl, hshares.output, rfl, (List.append_nil _).symm, .nil, rfl⟩
  | stops _ halt m => exact ⟨[], rfl, rfl, hshares.output, rfl, (List.append_nil _).symm, .nil, rfl⟩
  | @begins t m resume _ ih =>
    obtain ⟨rows, hrows⟩ :=
      @ih (hsound.after _) s { rec with produced := #[] } (s.output.size :: marks)
      ⟨hshares.inputs, hshares.uploads, hshares.output⟩ (t.produced_stage rec s marks) hinputs hshow
    exact ⟨rows, hrows.ending, hrows.machine, hrows.output, hrows.used, hrows.rows_eq,
      hrows.records, hrows.steps⟩
  | @requests t q hq m resume _ ih =>
    obtain ⟨a, ha, hout⟩ := s.reply_request hq
    have hasked := requested_le_drain (resume (s.reply q).1 m) (s.reply q).2
    obtain ⟨hreply, hshares', hused, hprod, hkept, hsizes⟩ :=
      Recorder.reply_request hq hshares m (hasked.trans hinputs)
    have hproduced' : Stage.Produced (.inside t false) (rec.reply m q).2 (s.reply q).2 marks := by
      unfold Stage.Produced
      rw [hprod, hout]
      exact hproduced
    have hinputs' : ((resume (.ok a) m).drain Supply.host (s.reply q).2).2.2.requested.size ≤
        (s.reply q).2.requested.size + (s.reply q).2.inputs.length := by
      rw [hsizes, ← ha]
      exact hinputs
    rw [simpleCompletions_request hq, ha] at hshow
    obtain ⟨rows, hrows⟩ := ih a (hsound.after _) hshares' hproduced' hinputs' hshow
    rw [← ha] at hrows
    rw [Recorder.drain_asking, hreply]
    exact ⟨rows, hrows.request hq hused hkept⟩
  | @prints t line m resume _ ih =>
    have hshares' : Recorder.Shares
        { rec with produced := rec.produced.push line, output := rec.output.push line }
        { s with output := s.output.push line } :=
      ⟨hshares.inputs, hshares.uploads, congrArg (·.push line) hshares.output⟩
    obtain ⟨rows, hrows⟩ := ih (hsound.after _) hshares' (hproduced.print line) hinputs hshow
    exact ⟨rows, hrows.ending, hrows.machine, hrows.output, hrows.used, hrows.rows_eq,
      hrows.records, hrows.steps⟩
  | @ends t printed ht m resume _ ih =>
    rw [simpleCompletions_ended s marks ht] at hshow
    obtain ⟨globals, hglobals⟩ := snapshot_ok hsound.here (hshow _ List.mem_cons_self)
    have hrest : ∀ c ∈ (resume (.ok ()) m).simpleCompletions s marks.tail, c.machine.Showable :=
      fun c hc => hshow c (List.mem_cons_of_mem _ hc)
    let row : TraceRow := ⟨rec.rows.size + 1, t.line, t.describe, globals, rec.produced.toList⟩
    have hshares' : Recorder.Shares { rec with rows := rec.rows.push row } s :=
      ⟨hshares.inputs, hshares.uploads, hshares.output⟩
    have hrow : row.Records ⟨t, m, s.output.toList.drop (marks.headD 0)⟩ :=
      ⟨rfl, rfl, hglobals, hproduced.2⟩
    obtain ⟨rows, hrows⟩ := ih (hsound.after _) hshares' trivial hinputs hrest
    rw [Recorder.drain_asking, Recorder.reply_ended rec m ht hglobals]
    exact ⟨row :: rows, hrows.row ht rfl hrow⟩
  | @closes t ht m resume _ ih =>
    rw [simpleCompletions_closed s marks ht] at hshow
    obtain ⟨rows, hrows⟩ := ih (hsound.after _) hshares trivial hinputs hshow
    refine ⟨rows, ?_⟩
    rw [Recorder.drain_asking, Recorder.reply_closed rec m ht]
    refine ⟨hrows.ending, hrows.machine, hrows.output, hrows.used, hrows.rows_eq, ?_, hrows.steps⟩
    rw [simpleCompletions_closed s marks ht]
    exact hrows.records

/-! ## Programs -/

/-- A trace accounts for a run of a program that is answered from a supply. The run comes to the
same; there is one row, in order and with its number, for each simple statement that has ended, and
the lines of the rows are all that was printed. Every simple statement that began has ended, but for
the last one of a run that stops. -/
structure TraceAccounts (program : Block) (m : Machine) (s : Supply)
    (traced : Except Halt Unit × Machine × Recorder) : Prop where
  ending : traced.1 = (runProgram program m s).ending
  machine : traced.2.1 = (runProgram program m s).machine
  output : traced.2.2.output = (runProgram program m s).supply.output
  used : traced.2.2.used = (runProgram program m s).supply.requested.size
  rows : List.Forall₂ TraceRow.Records traced.2.2.rows.toList
    ((executeProgram plenty program m).simpleCompletions s [])
  steps : traced.2.2.rows.toList.map TraceRow.step = List.range' 1 traced.2.2.rows.size
  lines :
    traced.2.2.rows.toList.flatMap TraceRow.output = (runProgram program m s).supply.output.toList
  begun : ∃ left, (executeProgram plenty program m).simpleBegun s =
    ((executeProgram plenty program m).simpleCompletions s []).map Completion.stmt ++ left ∧
      left.length ≤ 1 ∧ ((runProgram program m s).ending = .ok () → left = [])

/-- The lines of rows are those of the statements they show. -/
theorem flatMap_output_of_records {rows : List TraceRow} {completions : List Completion}
    (h : List.Forall₂ TraceRow.Records rows completions) :
    rows.flatMap TraceRow.output = completions.flatMap Completion.lines := by
  induction h with
  | nil => rfl
  | cons hrow _ ih => rw [List.flatMap_cons, List.flatMap_cons, hrow.output, ih]

/-- **A trace accounts for the run.** Recording the trace of a program does not change what the
program does, as long as the inputs suffice and no global variable holds a number too long to be
written when a simple statement ends. -/
theorem trace_accounts_for_the_run {program : Block} (hw : Block.Writable program) {m : Machine}
    (hm : m.Sound) (hinput : m.takesInput = true) (inputs : List String) (uploads : String → Upload)
    (henough : (runProgram program m { inputs, uploads }).supply.requested.size ≤ inputs.length)
    (hshow : ∀ c ∈ (executeProgram plenty program m).simpleCompletions { inputs, uploads } [],
      c.machine.Showable) :
    TraceAccounts program m { inputs, uploads } (traceProgram program m { inputs, uploads }) := by
  have horder := executeProgram_inOrder plenty program m
  have hsound : (executeProgram plenty program m).Always Machine.Sound :=
    (executeProgram_evolves plenty hw hm).imp fun _ h => h.sound
  have henough' :
      (runProgram program m { inputs, uploads }).supply.requested.size ≤ 0 + inputs.length := by
    rw [Nat.zero_add]
    exact henough
  obtain ⟨rows, hrows⟩ :=
    @Run.InOrder.traced _ _ horder hsound { inputs, uploads } { inputs, uploads } []
    ⟨rfl, rfl, rfl⟩ trivial henough' hshow
  have hsame : { m with takesInput := true } = m := by rw [← hinput]
  rw [traceProgram, hsame]
  have hall : ((executeProgram plenty program m).drain Recorder.host
      { inputs, uploads }).2.2.rows.toList = rows :=
    hrows.rows_eq
  refine ⟨hrows.ending, hrows.machine, hrows.output, hrows.used.trans (Nat.zero_add _), ?_, ?_, ?_,
    horder.begun_eq { inputs, uploads } []⟩
  · rw [hall]
    exact hrows.records
  · rw [← Array.length_toList, hall]
    exact hrows.steps
  · rw [hall, flatMap_output_of_records hrows.records, horder.lines_eq (marked_between _ [])]
    rfl

/-- A program that asks for a text and prints it in a procedure, and stops at a variable that was
never declared. -/
def echoingProgram : Block :=
  [.mk 1 (.declare "a" "STRING" .scalar),
    .mk 2 (.procedure "f" [] [.mk 3 (.output [.literal 3 (.text "x"), .var 3 "a"])]),
    .mk 5 (.input (.var 5 "a")),
    .mk 6 (.call "f" []),
    .mk 7 (.output [.var 7 "b"])]

theorem echoingProgram_writable : Block.Writable echoingProgram := by
  have ha : IsName "a" := by decide +kernel
  have hb : IsName "b" := by decide +kernel
  have hf : IsName "f" := by decide +kernel
  have htype : IsTypeName "STRING" := ⟨.stringKw, by decide, by decide⟩
  intro t ht
  simp only [echoingProgram, List.mem_cons, List.not_mem_nil, or_false] at ht
  rcases ht with rfl | rfl | rfl | rfl | rfl
  · exact .declare ha htype .scalar
  · refine .procedure hf (by simp) ?_
    simp only [List.mem_singleton, forall_eq]
    refine .output (by simp) ?_
    simp only [List.mem_cons, List.not_mem_nil, or_false, forall_eq_or_imp, forall_eq]
    exact ⟨.literal 3 ⟨by decide, Or.inl (by decide)⟩, .var 3 ha⟩
  · exact .input (.var 5 ha)
  · exact .call hf (by simp)
  · exact .output (by simp) (by simpa using .var 7 hb)

theorem echoing_trace_accounts_for_the_run :
    (runProgram echoingProgram { takesInput := true }
      { inputs := ["y", "z"] }).supply.output.toList = ["y", "x y"] ∧
    TraceAccounts echoingProgram { takesInput := true } { inputs := ["y", "z"] }
      (traceProgram echoingProgram { takesInput := true } { inputs := ["y", "z"] }) :=
  ⟨by decide +kernel, trace_accounts_for_the_run echoingProgram_writable
    (Machine.sound_of_empty rfl rfl rfl) rfl ["y", "z"] _ (by decide +kernel) (by decide +kernel)⟩

/-- A loop that leaves its counter with more digits than can be written, and a line while the
counter is so long. -/
def longCounter : Block :=
  [.mk 1 (.forTo "i" (.literal 1 (.int (Number.writeLimit - 1)))
    (.literal 1 (.int (Number.writeLimit - 1))) (.literal 1 (.int 1)) []),
    .mk 3 (.output [.literal 3 (.text "a")]), .mk 4 (.assign (.var 4 "i") (.literal 4 (.int 0)))]

theorem longCounter_writable : Block.Writable longCounter := by
  have hi : IsName "i" := by decide +kernel
  have hlimit : 1 < Number.writeLimit := by decide +kernel
  intro t ht
  simp only [longCounter, List.mem_cons, List.not_mem_nil, or_false] at ht
  rcases ht with rfl | rfl | rfl
  · have hlast : (Expr.literal 1 (.int (Number.writeLimit - 1))).Writable :=
      .int 1 (by omega) (by omega)
    exact .forTo hi hlast hlast (.int 1 (by omega) (by omega)) (by simp)
  · refine .output (by simp) ?_
    simp only [List.mem_singleton, forall_eq]
    exact .literal 3 ⟨by decide, Or.inl (by decide)⟩
  · exact .assign (.var 4 hi) (.int 4 (by omega) (by omega))

/-- The plain run ends well and asks for nothing; the one that is traced stops after its line, and
has no row. -/
theorem trace_stops_at_a_long_counter :
    Block.Writable longCounter ∧
    (runProgram longCounter { takesInput := true } {}).ending.isOk = true ∧
    (runProgram longCounter { takesInput := true } {}).supply.requested.size = 0 ∧
    (runProgram longCounter { takesInput := true } {}).supply.output.toList = ["a"] ∧
    (traceProgram longCounter { takesInput := true } {}).1.isOk = false ∧
    (traceProgram longCounter { takesInput := true } {}).2.2.output.toList = ["a"] ∧
    (traceProgram longCounter { takesInput := true } {}).2.2.rows.size = 0 :=
  ⟨longCounter_writable, by decide +kernel, by decide +kernel, by decide +kernel, by decide +kernel,
    by decide +kernel, by decide +kernel⟩

end Pseudocode

import Pseudocode.Proofs.Control

/-!
# Pulling a run line by line

A run that is pulled hands out its lines one at a time; a run that is executed collects them. The
two coincide, because a pull only goes on to the next line: nothing is done ahead of it, and nothing
is left undone. A pulled run that is closed is unwound from the line that it stands at, and nothing
but the calls, the cancellation and the notes changes.

The comparison is by induction on pulls (`Run.pull_induction`): the run after a pull is a part of
the run before it, so what holds of a run whenever it holds after the next line holds of every run.

Results:
* `Run.drain_of_line`, `Run.drain_of_ended`: draining a run goes through the lines that pulls stop
  at.
* `Session.pulled_drain`: pulling a run to its end gives what draining it gives.
* `Run.cut_of_line`: a run that is stopped at a line ends as if it were closed there.
* `pulled_runs_coincide_with_executed_ones`: sessions.
-/

namespace Pseudocode

/-! ## One pull -/

/-- A supply with another output. -/
def Supply.withOutput (s : Supply) (output : Array String) : Supply :=
  { s with output := output }

/-- A query that hands out a line. -/
def Query.isOutput : Query → Bool
  | .output _ => true
  | _ => false

/-- A query hands out a line, or it is another one. -/
@[elab_as_elim]
theorem Query.output_cases {motive : Query → Prop} (output : ∀ line, motive (.output line))
    (other : ∀ q, q.isOutput = false → motive q) (q : Query) : motive q := by
  cases hq : q.isOutput with
  | true =>
    cases q with
    | output line => exact output line
    | _ => cases hq
  | false => exact other q hq

/-- Only a line that is handed out has to do with the output. -/
theorem Supply.reply_withOutput {q : Query} (hq : q.isOutput = false) (s : Supply)
    (o : Array String) :
    (s.withOutput o).reply q = ((s.reply q).1, (s.reply q).2.withOutput o) := by
  cases q with
  | output line => cases hq
  | input label type =>
    obtain ⟨inputs, uploads, requested, output⟩ := s
    cases inputs with
    | nil => rfl
    | cons text rest => rfl
  | _ => rfl

theorem Run.pull_asking {q : Query} (hq : q.isOutput = false) (m : Machine)
    (resume : q.Reply → Machine → Run) (s : Supply) :
    (Run.asking q m resume).pull s = (resume (s.reply q).1 m).pull (s.reply q).2 := by
  cases q with
  | output line => cases hq
  | _ => rfl

/-- **Induction on pulls**: the run after a line is a part of the run before it. -/
theorem Run.pull_induction {P : Run → Supply → Prop}
    (step : ∀ r s, (∀ text m resume s', r.pull s = (.line text m resume, s') → P (resume m) s') →
      P r s) (r : Run) (s : Supply) : P r s := by
  have hall : ∀ s, P r s ∧
      ∀ text m resume s', r.pull s = (.line text m resume, s') → P (resume m) s' := by
    induction r with
    | finished ending m =>
      intro s
      have hnone :
          ∀ text m' resume s', (Run.finished ending m).pull s = (.line text m' resume, s') →
          P (resume m') s' := fun _ _ _ _ h => by cases h
      exact ⟨step _ _ hnone, hnone⟩
    | asking q m resume ih =>
      intro s
      have hlines : ∀ text m' resume' s',
          (Run.asking q m resume).pull s = (.line text m' resume', s') → P (resume' m') s' := by
        intro text m' resume' s' h
        cases q using Query.output_cases with
        | output line =>
          cases h
          exact (ih _ _ _).1
        | other q hq =>
          rw [Run.pull_asking hq] at h
          exact (ih _ _ _).2 text m' resume' s' h
      exact ⟨step _ _ hlines, hlines⟩
  exact (hall s).1

theorem Run.drain_asking {q : Query} (hq : q.isOutput = false) (m : Machine)
    (resume : q.Reply → Machine → Run) (s : Supply) (o : Array String) :
    (Run.asking q m resume).drain Supply.host (s.withOutput o) =
      (resume (s.reply q).1 m).drain Supply.host ((s.reply q).2.withOutput o) := by
  show (resume ((s.withOutput o).reply q).1 m).drain Supply.host ((s.withOutput o).reply q).2 = _
  rw [Supply.reply_withOutput hq]

/-- Draining a run goes through the first line that a pull stops at. -/
theorem Run.drain_of_line {r : Run} {s s' : Supply} {text : String} {m : Machine}
    {resume : Machine → Run} (h : r.pull s = (.line text m resume, s')) (o : Array String) :
    r.drain Supply.host (s.withOutput o) =
      (resume m).drain Supply.host (s'.withOutput (o.push text)) := by
  induction r generalizing s with
  | finished => cases h
  | asking q m resume ih =>
    cases q using Query.output_cases with
    | output line =>
      cases h
      rfl
    | other q hq =>
      rw [Run.pull_asking hq] at h
      rw [Run.drain_asking hq]
      exact ih _ _ h

theorem Run.drain_of_ended {r : Run} {s s' : Supply} {ending : Except Halt Unit} {m : Machine}
    (h : r.pull s = (.ended ending m, s')) (o : Array String) :
    r.drain Supply.host (s.withOutput o) = (ending, m, s'.withOutput o) := by
  induction r generalizing s with
  | finished =>
    cases h
    rfl
  | asking q m resume ih =>
    cases q using Query.output_cases with
    | output line => cases h
    | other q hq =>
      rw [Run.pull_asking hq] at h
      rw [Run.drain_asking hq]
      exact ih _ _ h

/-- Pulling leaves the collected output alone. -/
theorem Run.pull_output (r : Run) (s : Supply) : (r.pull s).2.output = s.output := by
  induction r generalizing s with
  | finished => rfl
  | asking q m resume ih =>
    cases q using Query.output_cases with
    | output line => rfl
    | other q hq =>
      have hreply : (s.reply q).2.output = s.output := by
        have hsame := Supply.reply_withOutput hq s s.output
        exact congrArg (fun p => p.2.output) hsame
      rw [Run.pull_asking hq, ih, hreply]

/-! ## All pulls -/

/-- What the last pull gives, for the way a run ends. -/
def Pulled.ofEnding : Except Halt Unit → Pulled
  | .ok _ => .done
  | .error h => .failed h

namespace Session

variable {s : Session} {r : Run}

/-- The session after a number of pulls. -/
def pulled : Session → Nat → Session
  | s, 0 => s
  | s, k + 1 => pulled s.next.2 k

/-- The run that is left to pull. -/
def rest? (s : Session) : Option Run :=
  match s.phase with
  | some (.created program) => some (executeProgram plenty program s.machine)
  | some (.suspended resume) => some (resume s.machine)
  | _ => none

theorem next_eq_settle (h : s.rest? = some r) : s.next = s.settle r := by
  unfold rest? at h
  unfold Session.next
  cases hp : s.phase with
  | none =>
    rw [hp] at h
    cases h
  | some phase =>
    rw [hp] at h
    cases phase with
    | finished => cases h
    | _ =>
      cases h
      rfl

/-- A pull that stops at a line. -/
theorem next_of_line {s' : Supply} {text : String} {m : Machine} {resume : Machine → Run}
    (hr : s.rest? = some r) (hp : r.pull s.supply = (.line text m resume, s')) :
    s.next = (.line text, { s with
      machine := m, supply := s', phase := some (.suspended resume), running := true }) := by
  rw [next_eq_settle hr, Session.settle, hp]

/-- A pull that gets to the end. -/
theorem next_of_ended {s' : Supply} {ending : Except Halt Unit} {m : Machine}
    (hr : s.rest? = some r) (hp : r.pull s.supply = (.ended ending m, s')) :
    s.next = (.ofEnding ending, { s with
      machine := m, supply := s', phase := some .finished, running := false }) := by
  rw [next_eq_settle hr, Session.settle, hp]
  cases ending <;> rfl

/-- **Pulling a run to its end gives what draining it gives**: the same lines, then the same ending,
in the same machine, with the same inputs used up. -/
theorem pulled_drain (hr : s.rest? = some r) (o : Array String) :
    ∃ lines : List String,
      (r.drain Supply.host (s.supply.withOutput o)).2.2.output.toList = o.toList ++ lines ∧
      (∀ k text, lines[k]? = some text → (s.pulled k).next.1 = .line text) ∧
      (s.pulled lines.length).next =
        (.ofEnding (r.drain Supply.host (s.supply.withOutput o)).1, { s with
          machine := (r.drain Supply.host (s.supply.withOutput o)).2.1
          supply := (r.drain Supply.host (s.supply.withOutput o)).2.2.withOutput s.supply.output
          phase := some .finished
          running := false }) := by
  generalize hs : s.supply = supply
  induction r, supply using Run.pull_induction generalizing s o with
  | step r supply ih =>
    subst hs
    cases hp : r.pull s.supply with
    | mk outcome supply' =>
      have houtput : supply'.output = s.supply.output := by
        have hkept := r.pull_output s.supply
        rw [hp] at hkept
        exact hkept
      cases outcome with
      | ended ending m =>
        refine ⟨[], ?_, ?_, ?_⟩
        · rw [Run.drain_of_ended hp]
          exact (List.append_nil _).symm
        · intro k text hk
          cases hk
        · show s.next = _
          rw [next_of_ended hr hp, Run.drain_of_ended hp, ← houtput]
          rfl
      | line text m resume =>
        have hnext := next_of_line hr hp
        have hrest : s.next.2.rest? = some (resume m) := by rw [hnext]; rfl
        have hsupply : s.next.2.supply = supply' := by rw [hnext]
        obtain ⟨lines, hlines, hpulled, hend⟩ :=
          ih text m resume supply' hp hrest (o.push text) hsupply
        refine ⟨text :: lines, ?_, ?_, ?_⟩
        · rw [Run.drain_of_line hp, hlines, Array.toList_push, List.append_assoc]
          rfl
        · intro k text' hk
          cases k with
          | zero =>
            cases hk
            show s.next.1 = _
            rw [hnext]
          | succ k => exact hpulled k text' hk
        · show (s.next.2.pulled lines.length).next = _
          rw [hend, Run.drain_of_line hp, hnext, houtput]

/-- A run that has begun to be pulled is sound, whatever the session was before. -/
theorem pulled_sound {settings : Settings} (hr : s.rest? = some r)
    (h : r.Orderly settings) (k : Nat) : (s.pulled (k + 1)).Sound settings := by
  have hfirst : s.next.2.Sound settings := by
    rw [next_eq_settle hr]
    exact (settle_sound h).1
  have hmore : ∀ k (t : Session), t.Sound settings → (t.pulled k).Sound settings := by
    intro k
    induction k with
    | zero => exact fun _ ht => ht
    | succ k ih => exact fun t ht => ih t.next.2 ht.next.1
  exact hmore k s.next.2 hfirst

/-- A line comes from a run that is left to pull. -/
theorem exists_pull_of_line {text : String} (h : s.next.1 = .line text) :
    ∃ r m resume supply, s.rest? = some r ∧ r.pull s.supply = (.line text m resume, supply) := by
  cases hr : s.rest? with
  | none =>
    unfold rest? at hr
    unfold Session.next at h
    cases hp : s.phase with
    | none =>
      rw [hp] at h
      cases h
    | some phase =>
      rw [hp] at hr h
      cases phase with
      | finished => cases h
      | _ => cases hr
  | some r =>
    cases hp : r.pull s.supply with
    | mk outcome supply =>
      cases outcome with
      | line text' m resume =>
        rw [next_of_line hr hp] at h
        cases h
        exact ⟨r, m, resume, supply, rfl, hp⟩
      | ended ending m =>
        rw [next_of_ended hr hp] at h
        cases ending <;> cases h

/-- A session that has just been given a line is suspended there. -/
theorem isSuspended_of_line {k : Nat} {text : String} (h : (s.pulled k).next.1 = .line text) :
    (s.pulled (k + 1)).isSuspended = true := by
  induction k generalizing s with
  | succ k ih => exact ih h
  | zero =>
    obtain ⟨r, m, resume, supply, hr, hp⟩ := exists_pull_of_line (s := s) h
    show s.next.2.isSuspended = true
    rw [next_of_line hr hp]
    rfl

/-- Closing a suspended run leaves its calls and resets the cancellation, and changes nothing
else. -/
theorem Sound.close_eq {settings : Settings} (h : s.Sound settings) (hs : s.isSuspended = true) :
    ∃ journal, s.close = { s with
      machine := { s.machine with
        stack := ⟨s.machine.stack.mainLine, []⟩
        depth := 0
        cancelRequested := false
        journal := journal }
      phase := some .finished
      running := false } := by
  rcases h with ⟨hn, -, -, -⟩ | ⟨resume, hp, hm, -⟩
  · rw [hn] at hs
    cases hs
  · obtain ⟨journal, hunwound⟩ := s.machine.unwound_eq
    refine ⟨journal, ?_⟩
    have hdepth : s.machine.depth - s.machine.stack.calls.length = 0 := by
      rw [hm.depth, Nat.sub_self]
    rw [close_of_isSuspended hs, hunwound, hdepth]

end Session

/-! ## Stopping at a line -/

/-- A host that answers from a supply and stops the run at a line, after letting some lines pass. -/
structure Cutoff where
  supply : Supply
  passing : Nat

/-- The replies of a host that stops the run for a given reason. -/
def Cutoff.host (h : Halt) : Host Cutoff where
  reply c m
    | .output _ =>
      match c.passing with
      | 0 => (.error h, c, m)
      | n + 1 => (.ok (), ⟨c.supply, n⟩, m)
    | q => ((c.supply.reply q).1, ⟨(c.supply.reply q).2, c.passing⟩, m)

section Stopping

variable {settings : Settings} {r : Run} {s s' : Supply} {text : String} {m : Machine}
  {resume : Machine → Run} {h : Halt}

theorem Cutoff.reply_other {q : Query} (hq : q.isOutput = false) (c : Cutoff) (m : Machine) :
    (Cutoff.host h).reply c m q = ((c.supply.reply q).1, ⟨(c.supply.reply q).2, c.passing⟩, m) := by
  cases q with
  | output line => cases hq
  | _ => rfl

/-- **A run that is stopped at its next line ends as if it were closed there.** -/
theorem Run.cut_of_line (hr : r.Orderly settings) (hh : ¬ h.IsUncharged)
    (hp : r.pull s = (.line text m resume, s')) :
    r.drain (Cutoff.host h) ⟨s, 0⟩ = (.error h, m.unwound, ⟨s', 0⟩) := by
  induction hr generalizing s with
  | finished => cases hp
  | @asking q m₀ resume₀ here later ih =>
    cases q using Query.output_cases with
    | output line =>
      cases hp
      show (resume₀ (.error h) m).drain (Cutoff.host h) ⟨s', 0⟩ = _
      rw [here.stopped h m (.refl m) hh]
      rfl
    | other q hq =>
      rw [Run.pull_asking hq] at hp
      rw [Run.drain, Cutoff.reply_other hq]
      exact ih _ m₀ (.refl m₀) hp

theorem Run.cut_past_line (hp : r.pull s = (.line text m resume, s')) (n : Nat) :
    r.drain (Cutoff.host h) ⟨s, n + 1⟩ = (resume m).drain (Cutoff.host h) ⟨s', n⟩ := by
  induction r generalizing s with
  | finished => cases hp
  | asking q m₀ resume₀ ih =>
    cases q using Query.output_cases with
    | output line =>
      cases hp
      rfl
    | other q hq =>
      rw [Run.pull_asking hq] at hp
      rw [Run.drain, Cutoff.reply_other hq]
      exact ih _ m₀ hp

/-- Stopping a run at any of its lines ends it where the pulled run stands after that line. -/
theorem Session.cut_eq {t : Session} (hr : t.rest? = some r) (ho : r.Orderly settings)
    (hh : ¬ h.IsUncharged) {k : Nat} (hk : ∀ j ≤ k, ∃ text, (t.pulled j).next.1 = .line text) :
    r.drain (Cutoff.host h) ⟨t.supply, k⟩ =
      (.error h, (t.pulled (k + 1)).machine.unwound, ⟨(t.pulled (k + 1)).supply, 0⟩) := by
  induction k generalizing t r with
  | zero =>
    obtain ⟨text, htext⟩ := hk 0 (Nat.le_refl 0)
    obtain ⟨r', m, resume, supply, hr', hp⟩ := Session.exists_pull_of_line (s := t) htext
    cases hr.symm.trans hr'
    show _ = (_, t.next.2.machine.unwound, _)
    rw [Run.cut_of_line ho hh hp, Session.pulled, Session.next_of_line hr hp]
    rfl
  | succ k ih =>
    obtain ⟨text, htext⟩ := hk 0 (Nat.zero_le _)
    obtain ⟨r', m, resume, supply, hr', hp⟩ := Session.exists_pull_of_line (s := t) htext
    cases hr.symm.trans hr'
    have hnext := Session.next_of_line hr hp
    have hrest : t.next.2.rest? = some (resume m) := by rw [hnext]; rfl
    have horderly : (resume m).Orderly settings := by
      have hpull := ho.pull t.supply
      rw [hp] at hpull
      exact hpull.2 m (.refl m)
    have hcut := ih hrest horderly fun j hj => hk (j + 1) (Nat.succ_le_succ hj)
    have hsupply : t.next.2.supply = supply := by rw [hnext]
    rw [hsupply] at hcut
    rw [Run.cut_past_line hp, hcut]
    rfl

end Stopping

/-! ## Sessions -/

theorem Session.ofEnding_execute (s : Session) (program : Block) :
    Pulled.ofEnding (runProgram program s.machine (s.supply.withOutput #[])).ending =
      (s.execute program).2.1.elim .done .failed := by
  unfold Session.execute Supply.withOutput
  generalize runProgram program s.machine _ = report
  obtain ⟨ending, machine, supply⟩ := report
  cases ending <;> rfl

/-- **A run that is pulled and one that is executed coincide.** The pulls give the lines of the
executed run in order, then how it ends, and leave the same machine with the same inputs used up.
Closing the pulled run at any line changes nothing but the calls, the cancellation and the notes of
the machine as it was when that line was handed out, and is what stopping the executed run at that
line for any reason comes to. Closing a run that was never pulled changes nothing at all. -/
theorem pulled_runs_coincide_with_executed_ones (s : Session) (program : Block) :
    let pulling := s.start program
    let executed := s.execute program
    (∀ k text, executed.1[k]? = some text → (pulling.pulled k).next.1 = .line text) ∧
    (pulling.pulled executed.1.length).next =
      (executed.2.1.elim .done .failed, { executed.2.2 with
        supply := executed.2.2.supply.withOutput s.supply.output
        phase := some .finished }) ∧
    (∀ k < executed.1.length,
      let line := pulling.pulled (k + 1)
      (∃ journal, line.close = { line with
        machine := { line.machine with
          stack := ⟨line.machine.stack.mainLine, []⟩
          depth := 0
          cancelRequested := false
          journal := journal }
        phase := some .finished
        running := false }) ∧
      ∀ h, ¬ h.IsUncharged →
        (executeProgram plenty program s.machine).drain (Cutoff.host h) ⟨s.supply, k⟩ =
          (.error h, line.close.machine, ⟨line.supply, 0⟩)) ∧
    pulling.close = { pulling with phase := some .finished } := by
  intro pulling executed
  have hrest : pulling.rest? = some (executeProgram plenty program s.machine) := rfl
  have horderly := executeProgram_orderly plenty program s.machine
  obtain ⟨lines, hlines, hpulled, hend⟩ := Session.pulled_drain hrest #[]
  have hexecuted : executed.1 = lines := hlines
  have hline : ∀ k < lines.length, ∃ text, (pulling.pulled k).next.1 = .line text :=
    fun k hk => ⟨lines[k], hpulled k _ (List.getElem?_eq_getElem hk)⟩
  rw [hexecuted]
  refine ⟨hpulled, ?_, fun k hk => ?_, rfl⟩
  · rw [hend]
    exact Prod.ext (Session.ofEnding_execute s program) rfl
  · obtain ⟨text, htext⟩ := hline k hk
    have hclose :=
      (Session.pulled_sound hrest horderly k).close_eq (Session.isSuspended_of_line htext)
    refine ⟨hclose, fun h hh => ?_⟩
    have hcut := Session.cut_eq hrest horderly hh fun j hj => hline j (Nat.lt_of_le_of_lt hj hk)
    rw [Session.close_of_isSuspended (Session.isSuspended_of_line htext)]
    exact hcut

/-- Two calls deep at its only line, a run is closed there; executing the program would have given
that line and come to its end. -/
theorem nested_output_is_pulled_and_closed :
    let s := Session.fresh {} false {} {}
    (s.execute nestedOutput).1 = ["deep"] ∧
      ((s.start nestedOutput).pulled 0).next.1 = .line "deep" ∧
      ((s.start nestedOutput).pulled 1).next.1 = .done ∧
      ((s.start nestedOutput).pulled 1).machine.depth = 2 ∧
      ((s.start nestedOutput).pulled 1).close.machine.depth = 0 := by
  intro s
  have hlines : (s.execute nestedOutput).1 = ["deep"] := by decide +kernel
  have hhalt : (s.execute nestedOutput).2.1 = none :=
    Option.isNone_iff_eq_none.mp (by decide +kernel)
  have hlaw := pulled_runs_coincide_with_executed_ones s nestedOutput
  dsimp only at hlaw
  rw [hlines, hhalt] at hlaw
  obtain ⟨hpulled, hend, hclosed, -⟩ := hlaw
  obtain ⟨⟨journal, hclose⟩, -⟩ := hclosed 0 (by decide)
  exact ⟨hlines, hpulled 0 "deep" rfl, congrArg Prod.fst hend, by decide +kernel, by rw [hclose]⟩

end Pseudocode

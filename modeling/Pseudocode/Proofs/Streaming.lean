import Pseudocode.Execute
import Pseudocode.Proofs.Forms

/-!
# The two ways to execute a block agree

A block is executed as a run that talks to the host, or, in a function body, in one go. For the
forms that both ways know (`Form.isShared`: declarations, assignments, branches and loops, but no
RETURN) the run does nothing but announce its statements. `Run.unannounced` is the run as it is for
a host that lets every statement begin and end without a word, so without pauses.

Results:
* `execute_agreeAt`, `executeBlock_agreeAt`: a statement or a block, executed under any bound and
  followed by anything, comes to the function-body execution under the same bound.
* **`streaming_agrees_with_function_bodies`**: both complete with the same scope and machine and
  nothing returned, or both stop with the same reason at the same machine, or neither ends under any
  bound. In the run no line is handed out and nothing is asked for.
-/

namespace Pseudocode

open Eval

/-- The run with every announcement of a statement answered at once and the machine left as it
is. -/
def Run.unannounced : Run → Run
  | finished ending m => finished ending m
  | asking (.began _) m resume => (resume (.ok ()) m).unannounced
  | asking (.ended _) m resume => (resume (.ok ()) m).unannounced
  | asking q m resume => asking q m fun reply m => (resume reply m).unannounced

/-- The forms that may stand in a function body, RETURN apart. -/
def Form.isShared : Form → Bool
  | declare .. | assign .. | ifThen .. | whileDo .. | repeatUntil .. | forTo .. | caseOf .. => true
  | _ => false

/-- From the machine `m`, the part `a` of a run comes to the function-body step `e`, with nothing
but announcements on the way. -/
inductive AgreeAt (m : Machine) (a : Action Scope) (e : Eval Outcome) : Prop
  /-- `e` ends without a RETURN, and what follows `a` is reached with the same scope and machine. -/
  | ends (after : Scope) (m' : Machine) (he : e m = .ok (after, none) m')
      (ha : ∀ next stop, (a m next stop).unannounced = (next after m').unannounced)
  /-- `e` stops, and `a` stops for the same reason at the same machine. -/
  | stops (h : Halt) (m' : Machine) (he : e m = .error h m')
      (ha : ∀ next stop, (a m next stop).unannounced = (stop h m').unannounced)

/-! ## One step after the other -/

variable {α : Type} {m : Machine} {scope : Scope}

theorem agreeAt_pure : AgreeAt m (pure scope) (pure (scope, none)) :=
  .ends scope m rfl fun _ _ => rfl

theorem agreeAt_throw (h : Halt) : AgreeAt m (liftM (throw h : Eval Scope)) (throw h) :=
  .stops h m rfl fun _ _ => rfl

/-- A step that both ways take first, from a machine on which the rest agrees. -/
theorem agreeAt_step {e : Eval α} {a : α → Action Scope} {b : α → Eval Outcome}
    (h : ∀ x m', e m = .ok x m' → AgreeAt m' (a x) (b x)) :
    AgreeAt m (liftM e >>= a) (e >>= b) := by
  have hseq : ∀ next stop, (liftM e >>= a) m next stop =
      (liftM e : Action α) m (fun x m' => a x m' next stop) stop := fun _ _ => rfl
  cases he : e m with
  | ok x m' =>
    rcases h x m' he with ⟨after, m₁, hb, ha⟩ | ⟨r, m₁, hb, ha⟩
    · exact .ends after m₁ (bind_eq_ok.mpr ⟨x, m', he, hb⟩) fun next stop => by
        rw [hseq, Action.lift_ok _ _ he, ha]
    · exact .stops r m₁ (bind_eq_error.mpr (Or.inr ⟨x, m', he, hb⟩)) fun next stop => by
        rw [hseq, Action.lift_ok _ _ he, ha]
  | error r m' =>
    exact .stops r m' (bind_eq_error.mpr (Or.inl he)) fun next stop => by
      rw [hseq, Action.lift_error _ _ he]

/-- A statement or a round, and what follows it unless it returned. -/
theorem agreeAt_seq {a : Action Scope} {e : Eval Outcome} {k : Scope → Action Scope}
    {l : Outcome → Eval Outcome} (h : AgreeAt m a e)
    (hk : ∀ after m', AgreeAt m' (k after) (l (after, none))) : AgreeAt m (a >>= k) (e >>= l) := by
  rcases h with ⟨after, m', he, ha⟩ | ⟨r, m', he, ha⟩
  · have hseq : ∀ next stop, ((a >>= k) m next stop).unannounced =
        (k after m' next stop).unannounced := fun next stop => ha _ stop
    rcases hk after m' with ⟨last, m₁, hl, hk⟩ | ⟨r, m₁, hl, hk⟩
    · exact .ends last m₁ (bind_eq_ok.mpr ⟨_, m', he, hl⟩) fun next stop => by rw [hseq, hk]
    · exact .stops r m₁ (bind_eq_error.mpr (Or.inr ⟨_, m', he, hl⟩)) fun next stop => by
        rw [hseq, hk]
  · exact .stops r m' (bind_eq_error.mpr (Or.inl he)) fun next stop => ha _ stop

/-- Both ways charge what stops inside to the same line. -/
theorem agreeAt_located {a : Action Scope} {e : Eval Outcome} (line : Int) (h : AgreeAt m a e) :
    AgreeAt m (Action.located line a) (located line e) := by
  rcases h with ⟨after, m', he, ha⟩ | ⟨r, m', he, ha⟩
  · exact .ends after m' (located_ok line he) fun next stop => ha next _
  · exact .stops (m'.charge line r).1 (m'.charge line r).2 (located_error line he)
      fun next stop => ha next _

/-! ## Blocks and loops -/

section Loops

variable {stmt : Scope → Stmt → Action Scope} {run : Scope → Stmt → Eval Outcome}

theorem executeBlock_agreeAt {b : Block}
    (h : ∀ s ∈ b, ∀ scope m, AgreeAt m (stmt scope s) (run scope s)) :
    AgreeAt m (executeBlock stmt scope b) (runBlock run scope b) := by
  induction b generalizing scope m with
  | nil => exact agreeAt_pure
  | cons s rest ih =>
    refine agreeAt_seq (h s List.mem_cons_self scope m) fun after m' => ?_
    exact ih fun t ht => h t (List.mem_cons_of_mem s ht)

variable {test : Scope → Eval Bool} {body : Scope → Action Scope} {round : Scope → Eval Outcome}

theorem executeWhile_agreeAt (h : ∀ scope m, AgreeAt m (body scope) (round scope)) (n : Nat) :
    AgreeAt m (executeWhile test body n scope) (runWhile test round n scope) := by
  induction n generalizing scope m with
  | zero => exact agreeAt_throw .exhausted
  | succ n ih =>
    refine agreeAt_step fun c m' _ => ?_
    cases c with
    | true => exact agreeAt_seq (h scope m') fun after m₁ => ih
    | false => exact agreeAt_pure

theorem executeRepeat_agreeAt (h : ∀ scope m, AgreeAt m (body scope) (round scope)) (n : Nat) :
    AgreeAt m (executeRepeat test body n scope) (runRepeat test round n scope) := by
  induction n generalizing scope m with
  | zero => exact agreeAt_throw .exhausted
  | succ n ih =>
    refine agreeAt_seq (h scope m) fun after m' => agreeAt_step fun c m₁ _ => ?_
    cases c with
    | true => exact agreeAt_pure
    | false => exact ih

theorem executeFor_agreeAt (c : Counter) (h : ∀ scope m, AgreeAt m (body scope) (round scope))
    (n : Nat) : AgreeAt m (executeFor c body n scope) (runFor c round n scope) := by
  induction n generalizing scope m with
  | zero => exact agreeAt_throw .exhausted
  | succ n ih =>
    refine agreeAt_step fun goesOn m' _ => ?_
    cases goesOn with
    | true => exact agreeAt_seq (h scope m') fun after m₁ => agreeAt_step fun _ m₂ _ => ih
    | false => exact agreeAt_pure

end Loops

/-! ## Statements -/

section Statements

variable {expr : Scope → Expr → Eval Value} {stmt : Scope → Stmt → Action Scope}
  {run : Scope → Stmt → Eval Outcome}

/-- A shared form agrees as soon as the statements inside it do. -/
theorem perform_agreeAt {form : Form} (hf : form.isShared = true) (bound : Nat) (line : Int)
    (h : ∀ b ∈ form.blocks, ∀ s ∈ b, ∀ scope m, AgreeAt m (stmt scope s) (run scope s)) :
    AgreeAt m (perform expr (executeBlock stmt) bound scope line form)
      (runForm ⟨expr, run⟩ bound scope form) := by
  have hblock : ∀ b ∈ form.blocks, ∀ scope m,
      AgreeAt m (executeBlock stmt scope b) (runBlock run scope b) :=
    fun b hb scope m => executeBlock_agreeAt (h b hb)
  have hchosen : ∀ b, b ∈ form.blocks ∨ b = [] → ∀ scope m,
      AgreeAt m (executeBlock stmt scope b) (runBlock run scope b) := by
    rintro b (hb | rfl) scope m
    · exact hblock b hb scope m
    · exact agreeAt_pure
  cases form with
  | declare name typeName shape => exact agreeAt_step fun after m' _ => agreeAt_pure
  | assign t value => exact agreeAt_step fun _ m' _ => agreeAt_pure
  | ifThen test body elseIfs otherwise =>
    exact agreeAt_step fun b m' hb => hchosen b (chooseIf_mem hb) scope m'
  | caseOf selector branches otherwise =>
    exact agreeAt_step fun b m' hb => hchosen b (chooseCase_mem hb) scope m'
  | whileDo test body => exact executeWhile_agreeAt (hblock body List.mem_cons_self) bound
  | repeatUntil body test => exact executeRepeat_agreeAt (hblock body List.mem_cons_self) bound
  | forTo name start stop step body =>
    exact agreeAt_step fun started m' _ =>
      executeFor_agreeAt started.1 (hblock body List.mem_cons_self) bound
  | _ => cases hf

theorem Form.allowed_of_isShared {form : Form} (h : form.isShared = true) :
    form.allowedInFunction = true := by
  cases form <;> first | rfl | cases h

/-- The announcement that a statement begins does not show, nor does the check for a cancellation
after it when none is pending. -/
theorem agreeAt_began {a : Action Scope} {e : Eval Outcome} (s : Stmt)
    (hc : m.cancelRequested = false) (h : AgreeAt m a e) :
    AgreeAt m (do
      Action.ask (.began s)
      (checkCancelled : Eval Unit)
      a) e := by
  have hcheck : checkCancelled m = .ok () m := by
    show (if m.cancelRequested then throw (.cancelled m.line) else pure () : Eval Unit) m = _
    rw [hc]
    rfl
  have hbegan : ∀ next stop, ((do
      Action.ask (.began s)
      (checkCancelled : Eval Unit)
      a : Action Scope) m next stop).unannounced = (a m next stop).unannounced := by
    intro next stop
    show (Action.ofEval checkCancelled m (fun _ m => a m next stop) stop).unannounced = _
    unfold Action.ofEval
    rw [hcheck]
  rcases h with ⟨after, m', he, ha⟩ | ⟨r, m', he, ha⟩
  · exact .ends after m' he fun next stop => by rw [hbegan, ha]
  · exact .stops r m' he fun next stop => by rw [hbegan, ha]

/-- The announcement that a statement has ended does not show. -/
theorem agreeAt_ended {a : Action Scope} {e : Eval Outcome} (s : Stmt) (h : AgreeAt m a e) :
    AgreeAt m (do
      let after ← a
      Action.ask (.ended s)
      return after) e := by
  rcases h with ⟨after, m', he, ha⟩ | ⟨r, m', he, ha⟩
  · exact .ends after m' he fun next stop => (ha _ stop).trans rfl
  · exact .stops r m' he fun next stop => ha _ stop

/-- A dispatched statement of a shared form agrees as soon as the statements inside it do. -/
theorem executeDispatched_agreeAt {s : Stmt} (hf : s.form.isShared = true) (bound : Nat)
    (h : ∀ b ∈ s.form.blocks, ∀ t ∈ b, ∀ scope m, AgreeAt m (stmt scope t) (run scope t)) :
    AgreeAt m (executeDispatched expr (executeBlock stmt) bound scope s)
      (runDispatched ⟨expr, run⟩ bound scope s) := by
  refine agreeAt_step fun _ m' hd => ?_
  obtain ⟨-, hc, rfl⟩ := dispatch_eq_ok.mp hd
  rw [if_pos (Form.allowed_of_isShared hf)]
  refine agreeAt_began s hc (agreeAt_ended s ?_)
  have hlocated : AgreeAt (m.counted.reached s.line)
      (Action.located s.line (perform expr (executeBlock stmt) bound scope s.line s.form))
      (located s.line (runForm ⟨expr, run⟩ bound scope s.form)) :=
    agreeAt_located s.line (perform_agreeAt hf bound s.line h)
  cases hform : s.form with
  | inert => rw [hform] at hf; cases hf
  | _ => rw [hform] at hlocated; exact hlocated

end Statements

/-- **A statement of shared forms agrees with its function-body execution** under every bound. -/
theorem execute_agreeAt (n : Nat) {s : Stmt} (hs : s.Everywhere (·.isShared)) :
    AgreeAt m (execute n scope s) (runStatement n scope s) := by
  induction n generalizing m scope s with
  | zero => exact agreeAt_throw .exhausted
  | succ n ih =>
    rw [runStatement]
    exact executeDispatched_agreeAt hs.here n fun b hb t ht scope m => ih (hs.inside hb t ht)

/-- The part of a run alone, with nothing after it. -/
def Action.alone (a : Action α) (m : Machine) : Run :=
  a m (fun _ m => .finished (.ok ()) m) fun h m => .finished (.error h) m

/-- **The two ways to execute a block agree.** Take a block of shared forms, a scope and a machine.
Under each bound either both ways end with the same scope and machine, and nothing is returned, or
both stop for the same reason at the same machine; and the run hands out no line and asks for
nothing. One way runs out of every bound exactly if the other does. -/
theorem streaming_agrees_with_function_bodies (scope : Scope) (b : Block)
    (hb : b.Everywhere (·.isShared)) (m : Machine) :
    (∀ n, AgreeAt m (executeBlock (execute n) scope b) (runBlock (runStatement n) scope b)) ∧
    ((∀ n, ∃ m', ((executeBlock (execute n) scope b).alone m).unannounced =
        .finished (.error .exhausted) m') ↔
      ∀ n, ∃ m', runBlock (runStatement n) scope b m = .error .exhausted m') := by
  have hagree : ∀ n, AgreeAt m (executeBlock (execute n) scope b)
      (runBlock (runStatement n) scope b) := fun n =>
    executeBlock_agreeAt fun s hs scope m => execute_agreeAt n (hb s hs)
  refine ⟨hagree, forall_congr' fun n => ?_⟩
  unfold Action.alone
  rcases hagree n with ⟨after, m', he, ha⟩ | ⟨r, m', he, ha⟩
  · rw [ha, he]
    simp [Run.unannounced]
  · rw [ha, he]
    simp [Run.unannounced]

/-- A FOR loop over an IF that assigns, and after it a WHILE loop without end: the two ways agree
from an empty machine, whatever the bound. -/
theorem streaming_agrees_on_nested_loops :
    let b : Block :=
      [.mk 1 (.forTo "i" (.literal 1 (.int 1)) (.literal 1 (.int 3)) (.literal 1 (.int 1))
        [.mk 2 (.ifThen (.binary 2 (.var 2 "i") .lt (.literal 2 (.int 2)))
          [.mk 3 (.assign (.var 3 "i") (.literal 3 (.int 2)))] [] none)]),
       .mk 6 (.whileDo (.literal 6 (.bool true)) [])]
    b.Everywhere (·.isShared) ∧ ∀ n,
      AgreeAt {} (executeBlock (execute n) .global b) (runBlock (runStatement n) .global b) := by
  intro b
  have hb : b.Everywhere (·.isShared) := by
    simp [b, Block.everywhere_cons, Block.everywhere_nil, Stmt.everywhere_mk, Form.blocks,
      Form.isShared]
  exact ⟨hb, (streaming_agrees_with_function_bodies .global b hb {}).1⟩

end Pseudocode

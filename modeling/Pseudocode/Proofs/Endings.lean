import Pseudocode.Proofs.Storage
import Pseudocode.Proofs.Termination

/-!
# How runs end

A run of a parsed program completes, or it stops for a reason that the language has a name for: a
fault, charged to a statement, or a cancellation. There are two exceptions besides numbers with too
many digits. MOD has no remainder of an infinite number, and a FOR loop cannot move its variable on
from a text. The check that a loop variable stays numeric comes too late for that, and never fails
(`Machine.CanStop`).

Results:
* `executeProgram_canStop`: a program stops for a reason of the terms that are read off its text.
* `apply_eq_infiniteRemainder`, `advance_of_text`, `advance_of_bool`: the two exceptions, exactly.
* `failures_have_a_name_but_for_two`: how runs end.
-/

namespace Pseudocode

open Eval

/-! ## The terms of a program -/

/-- **A statement of a program**, or of a routine that the machine knows, at any depth. -/
inductive Machine.Contains (m : Machine) (program : Block) : Stmt → Prop
  | program {s : Stmt} (h : s ∈ program) : Contains m program s
  | procedure {name : String} {r : Routine} {s : Stmt} (hr : m.procedures.find? name = some r)
      (hs : s ∈ r.body) : Contains m program s
  | function {name : String} {r : Routine} {s : Stmt} (hr : m.functions.find? name = some r)
      (hs : s ∈ r.body) : Contains m program s
  | inside {s t : Stmt} {b : Block} (h : Contains m program s)
      (hb : b ∈ s.form.blocks) (ht : t ∈ b) :
      Contains m program t

/-- An expression in such a statement, at any depth. -/
inductive Machine.Mentions (m : Machine) (program : Block) : Expr → Prop
  | operand {s : Stmt} {e : Expr} (hs : m.Contains program s) (he : e ∈ s.form.operands) :
      Mentions m program e
  | part {e x : Expr} (h : Mentions m program e) (hx : x ∈ e.parts) : Mentions m program x

/-- **Why a run of a program can stop**, with `memory` the variables that it leaves. -/
inductive Machine.CanStop (m : Machine) (program : Block) (memory : Memory) : Halt → Prop
  /-- A fault, though never the one for a loop variable that is no number. -/
  | fault {cause : Fault} (line : Int) (h : cause ≠ .loopVariableNotNumeric) :
      CanStop m program memory (.fault cause line)
  | cancelled (line : Int) : CanStop m program memory (.cancelled line)
  /-- The bound on the number of steps was too small. -/
  | exhausted : CanStop m program memory .exhausted
  | digits : CanStop m program memory (.breakdown .tooManyDigits)
  /-- A MOD whose operands have no remainder. -/
  | remainder {e : Expr} (he : m.Mentions program e)
      (h : e.MeetsInfinity m (m.Contains program) memory) :
      CanStop m program memory (.breakdown .infiniteRemainder)
  /-- A FOR loop with a text in its variable at the end of a round. -/
  | text {s : Stmt} (hs : m.Contains program s)
      (h : s.form.FindsText m (m.Contains program) memory) :
      CanStop m program memory (.breakdown .notNumeric)
  /-- A limit that is no number. -/
  | limit (h : m.settings.maxDispatches = .unusable ∨ m.settings.maxDepth = .unusable) :
      CanStop m program memory (.breakdown .unusableLimit)

section Programs

variable {m : Machine} (hm : m.Sound) {program : Block} (hp : Block.Writable program)
include hm hp

theorem Machine.Contains.writable {s : Stmt} (h : m.Contains program s) : s.form.Writable := by
  induction h with
  | program h => exact hp _ h
  | procedure hr hs => exact hm.procedures _ _ hr _ hs
  | function hr hs => exact hm.functions _ _ hr _ hs
  | inside _ hb ht ih => exact ih.inside hb ht

theorem Machine.Mentions.writable {e : Expr} (h : m.Mentions program e) : e.Writable := by
  induction h with
  | operand hs he => exact (hs.writable hm hp).operand he
  | part _ hx ih => exact ih.part hx

/-- The terms of a program on a machine. -/
def programTerms : Terms where
  start := m
  expr := m.Mentions program
  stmt := m.Contains program
  ok h memory := m.CanStop program memory h
  expr_writable h := h.writable hm hp
  stmt_writable h := h.writable hm hp
  part h _ hx := .part h hx
  operand h _ he := .operand h he
  inside h _ hb _ ht := .inside h hb ht
  fault line _ h := .fault line h
  relined line h := by
    cases h with
    | fault _ hc => exact .fault line hc
  cancelled line _ := .cancelled line
  exhausted _ := .exhausted
  digits _ := .digits
  remainder he h := .remainder he h
  advance hs h := .text hs h

/-- A program stops for a reason that can be read off its text and off what it comes to, if it
stops. -/
theorem executeProgram_canStop (bound : Nat) :
    (executeProgram bound program m).KeepsTo (Evolves m) fun h memory =>
      m.CanStop program memory h := by
  have hterms : m.OnTerms (programTerms hm hp) :=
    ⟨⟨.refl hm, fun _ _ hr _ hs => .procedure hr hs, fun _ _ hr _ hs => .function hr hs⟩,
      fun h _ => .limit h⟩
  exact executeProgram_keepsTo (T := programTerms hm hp) bound (fun _ hs => .program hs) hterms

end Programs

/-- A host that stops a run only with a fault of its own or a cancellation. -/
def Host.Civil {σ : Type} (host : Host σ) : Prop :=
  ∀ s m q h, (host.reply s m q).1 = .error h →
    (∃ cause line, cause ≠ .loopVariableNotNumeric ∧ h = .fault cause line) ∨
      ∃ line, h = .cancelled line

theorem Run.KeepsTo.drain {I : Machine → Prop} {ok : Halt → Memory → Prop} {r : Run}
    (h : r.KeepsTo I ok) {σ : Type} {host : Host σ} (hd : host.Discreet)
    (hreply : ∀ s m q h memory, (host.reply s m q).1 = .error h → ok h memory) (s : σ) {halt : Halt}
    (hend : (r.drain host s).1 = .error halt) : ok halt (r.drain host s).2.1.memory := by
  induction h generalizing s with
  | done _ => cases hend
  | stopped _ hok =>
    cases hend
    exact hok
  | @asking q m resume _ _ ih =>
    exact ih _ _ (hd s m q) (fun h hh => hreply s m q h _ hh) _ hend

/-! ## The two exceptions -/

/-- **Only MOD takes the remainder of an infinite number**, by any number but zero and a NaN. -/
theorem apply_eq_infiniteRemainder {op : BinaryOp} {a b : Value} :
    op.apply a b = .error (.breakdown .infiniteRemainder) ↔ op = .mod ∧ a.LacksRemainder b := by
  constructor
  · intro h
    have hreasons : Reasons fun h => h = .breakdown .infiniteRemainder → op = .mod ∧
        a.LacksRemainder b :=
      ⟨fun _ _ h => (by cases h), fun h => (by cases h)⟩
    exact op.confined_apply hreasons a b (fun hop hlacks _ => ⟨hop, hlacks⟩) _ h rfl
  · rintro ⟨rfl, x, n, y, rfl, hinfinite, hn, hzero, hy, hself⟩
    have hr : Value.remainder x y = breakDown .infiniteRemainder := by
      rw [Value.remainder, hinfinite, hself]
      rfl
    show Value.arithmetic Value.remainder (.real x) b true = _
    rw [arithmetic_of_numeric _ rfl hn (by simp [hzero]), hy]
    show (Value.remainder x y >>= fun z => pure (Value.real z)) = _
    rw [hr]
    rfl

/-- **A FOR loop cannot move its variable on from a text.** -/
theorem advance_of_text {c : Counter} {m : Machine} {s : String} (h : c.value m = .text s) :
    c.advance m = .error (.breakdown .notNumeric) m := by
  show (attempt (c.value m).floor >>= fun n =>
    updateVariable c.location (·.assign (.int (n + c.step)))) m = _
  rw [h]
  rfl

/-- A truth value in the loop variable counts as one or zero. -/
theorem advance_of_bool {c : Counter} {m : Machine} {b : Bool} (h : c.value m = .bool b) :
    ∃ m', c.advance m = .ok () m' ∧ c.value m' = .int ((if b then 1 else 0) + c.step) := by
  have hadvance : c.advance m = (attempt (c.value m).floor >>= fun n =>
      updateVariable c.location (·.assign (.int (n + c.step)))) m := rfl
  rw [h] at hadvance
  obtain ⟨n, hn, hvalue⟩ := Counter.value_advance hadvance
  rw [h] at hn
  cases hn
  exact ⟨_, hadvance, hvalue⟩

/-- **Failures have a name in the language, but for two.** However a host answers a run of a parsed
program: if the run stops, then with a fault, at a cancellation, for want of steps, at a number with
too many digits, or at a limit that is no number; or at a MOD of the program whose left operand has
come to be infinite and whose right one neither zero nor a NaN; or at the end of a round of a FOR
loop of it that finds a text in its own variable. The fault for a loop variable that is no number
never comes up. MOD always breaks down at such operands, and a loop at a text in its variable, but
it goes on if the variable holds a truth value. -/
theorem failures_have_a_name_but_for_two {source : String} {program : Block}
    (hp : parseSource source = .ok program) (bound : Nat) {m : Machine} (hm : m.Sound) {σ : Type}
    {host : Host σ} (hd : host.Discreet) (hc : host.Civil) (s : σ) :
    (∀ h, ((executeProgram bound program m).drain host s).1 = .error h →
      m.CanStop program ((executeProgram bound program m).drain host s).2.1.memory h) ∧
    (∀ (op : BinaryOp) (a b : Value), op.apply a b = .error (.breakdown .infiniteRemainder) ↔
      op = .mod ∧ a.LacksRemainder b) ∧
    (∀ (c : Counter) (m : Machine) (text : String), c.value m = .text text →
      c.advance m = .error (.breakdown .notNumeric) m) ∧
    ∀ (c : Counter) (m : Machine) (b : Bool), c.value m = .bool b →
      ∃ m', c.advance m = .ok () m' ∧ c.value m' = .int ((if b then 1 else 0) + c.step) := by
  refine ⟨fun h hend => ?_, fun _ _ _ => apply_eq_infiniteRemainder, fun _ _ _ h =>
    advance_of_text h, fun _ _ _ h => advance_of_bool h⟩
  refine (executeProgram_canStop hm (writable_of_parseSource hp) bound).drain hd
    (fun s m q h _ hreply => ?_) s hend
  rcases hc s m q h hreply with ⟨cause, line, hcause, rfl⟩ | ⟨line, rfl⟩
  · exact .fault line hcause
  · exact .cancelled line

/-- A loop that stores a text in its variable. -/
def storingText : String :=
  "FOR i <- 1 TO 3\n  i <- \"a\"\nNEXT i"

theorem storingText_runs : ∃ program, parseSource storingText = .ok program ∧
    (runProgram program {} {}).ending = .error (.breakdown .notNumeric) := by
  have hruns :
      (parseSource storingText).toOption.map (fun program => (runProgram program {} {}).ending) =
      some (.error (.breakdown .notNumeric)) := by decide +kernel
  exact exists_of_parseSource hruns

/-- It does not end with the fault for a loop variable that is no number, or with any other. -/
theorem text_in_a_loop_variable_breaks_down : ∃ program, parseSource storingText = .ok program ∧
    ∀ cause line, (runProgram program {} {}).ending ≠ .error (.fault cause line) := by
  obtain ⟨program, hp, hending⟩ := storingText_runs
  refine ⟨program, hp, fun cause line h => ?_⟩
  rw [hending] at h
  cases h

theorem storing_text_stops_at_the_loop :
    ∃ program, parseSource storingText = .ok program ∧
      Machine.Sound {} ∧ Supply.host.Discreet ∧ Supply.host.Civil ∧
      (runProgram program {} {}).ending = .error (.breakdown .notNumeric) ∧
      ∃ s, Machine.Contains {} program s ∧
        s.form.FindsText {} (Machine.Contains {} program)
          (runProgram program {} {}).machine.memory := by
  have hsound : Machine.Sound {} := Machine.sound_of_empty rfl rfl rfl
  have hcivil : Supply.host.Civil := by
    intro s m q h hreply
    cases q with
    | input label type =>
      obtain ⟨inputs, uploads, requested, output⟩ := s
      cases inputs <;> cases hreply
    | _ => cases hreply
  obtain ⟨program, hp, hending⟩ := storingText_runs
  have hstops :=
    (failures_have_a_name_but_for_two hp plenty hsound Supply.discreet hcivil {}).1 _ hending
  refine ⟨program, hp, hsound, Supply.discreet, hcivil, hending, ?_⟩
  cases hstops with
  | text hs h => exact ⟨_, hs, h⟩

end Pseudocode

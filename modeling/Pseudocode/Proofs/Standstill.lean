import Pseudocode.Proofs.Manners
import Pseudocode.Proofs.Termination

/-!
# Expressions while a cancellation is pending

While a cancellation is pending no statement gets past its dispatch, in a function body as little as
elsewhere. An expression may still be evaluated then: the condition of a loop, say, once the body of
the loop has ended. Whatever it calls is refused at its first statement. So the expression has its
value without any statement, or it stops for a reason of its own before any is counted, or it stops
with the refusal of the one statement that it came to (`idling`).

In particular it comes to an end: a bound above the size of the expression is never exhausted.

Results:
* `dispatch_refused`: every dispatch is refused.
* `evaluate_idles`: expressions.
-/

namespace Pseudocode

open Eval

/-- Between two machines no statement is counted or reached, and the settings, the files and the
procedures and functions stay as they are. -/
structure Lull (m m' : Machine) : Prop where
  settings : m'.settings = m.settings
  takesInput : m'.takesInput = m.takesInput
  files : m'.files = m.files
  procedures : m'.procedures = m.procedures
  functions : m'.functions = m.functions
  dispatches : m'.dispatches = m.dispatches
  line : m'.line = m.line

theorem Lull.refl (m : Machine) : Lull m m :=
  ⟨rfl, rfl, rfl, rfl, rfl, rfl, rfl⟩

theorem Lull.trans {m m₁ m₂ : Machine} (h₁ : Lull m m₁) (h₂ : Lull m₁ m₂) : Lull m m₂ :=
  ⟨h₂.settings.trans h₁.settings, h₂.takesInput.trans h₁.takesInput, h₂.files.trans h₁.files,
    h₂.procedures.trans h₁.procedures, h₂.functions.trans h₁.functions,
    h₂.dispatches.trans h₁.dispatches,
    h₂.line.trans h₁.line⟩

theorem Lull.counted {m m' : Machine} (h : Lull m m') : Lull m.counted m'.counted :=
  ⟨h.settings, h.takesInput, h.files, h.procedures, h.functions,
    congrArg (· + 1) h.dispatches, h.line⟩

/-- A cancellation is pending, and statements can be counted. -/
structure Machine.Cancelled (m : Machine) : Prop where
  requested : m.cancelRequested = true
  usable : m.settings.maxDispatches ≠ .unusable

/-- Why the next statement is refused while a cancellation is pending: for the cancellation, unless
it would be one statement too many anyway. -/
inductive Machine.Refuses (m : Machine) : Halt → Prop
  | cancelled (h : m.settings.maxDispatches.allows (m.dispatches + 1) = .ok true) :
      Refuses m (.cancelled m.line)
  | capped (line : Int) (h : m.settings.maxDispatches.allows (m.dispatches + 1) = .ok false) :
      Refuses m (.fault .dispatchLimit line)

theorem Machine.Refuses.of_lull {m m' : Machine} {h : Halt} (hr : m'.Refuses h) (hl : Lull m m') :
    m.Refuses h := by
  cases hr with
  | cancelled h =>
    rw [hl.line]
    rw [hl.settings, hl.dispatches] at h
    exact .cancelled h
  | capped line h =>
    rw [hl.settings, hl.dispatches] at h
    exact .capped line h

/-- **While a cancellation is pending, every dispatch is refused.** -/
theorem dispatch_refused {m : Machine} (hm : m.Cancelled) (line : Int) :
    ∃ h, dispatch line m = .error h m.counted ∧ m.Refuses h := by
  rw [dispatch_apply, hm.requested]
  cases hallows : m.settings.maxDispatches.allows (m.dispatches + 1) with
  | error h =>
    cases hlimit : m.settings.maxDispatches with
    | unusable => exact absurd hlimit hm.usable
    | _ => rw [hlimit] at hallows; cases hallows
  | ok allowed =>
    cases allowed with
    | false => exact ⟨_, rfl, .capped line hallows⟩
    | true => exact ⟨_, rfl, .cancelled hallows⟩

/-- **Steps while a cancellation is pending.** They go on without any statement, stop for a reason
of their own before any statement, or stop with the refusal of the first statement that they come
to. -/
def idling : Calling where
  pre := Machine.Cancelled
  go := Lull
  stop m h n := (Lull m n ∧ h.IsBare) ∨ (Lull m.counted n ∧ m.Refuses h)
  stable := ⟨fun _ h => ⟨h.requested, h.usable⟩, fun _ h => ⟨h.requested, h.usable⟩, fun _ h =>
    ⟨h.requested, h.usable⟩, fun _ h => ⟨h.requested, h.usable⟩, fun h =>
    ⟨h.requested, h.usable⟩, fun _ h => ⟨h.requested, h.usable⟩, fun _ h => ⟨h.requested, h.usable⟩⟩
  memory _ _ := ⟨rfl, rfl, rfl, rfl, rfl, rfl, rfl⟩
  trans := .trans
  after hl hstop :=
    hstop.imp (fun h => ⟨hl.trans h.1, h.2⟩) fun h => ⟨hl.counted.trans h.1, h.2.of_lull hl⟩
  failed m h := .inl ⟨.refl m, h.isBare⟩
  good _ := True
  known _ _ _ _ := trivial
  random _ _ := ⟨rfl, rfl, rfl, rfl, rfl, rfl, rfl⟩
  enterCall _ _ := ⟨rfl, rfl, rfl, rfl, rfl, rfl, rfl⟩
  leaveCall _ _ := ⟨rfl, rfl, rfl, rfl, rfl, rfl, rfl⟩
  onward hstop hl := hstop.imp (fun h => ⟨h.1.trans hl, h.2⟩) fun h => ⟨h.1.trans hl, h.2⟩

theorem Expr.sizeOf_pos (e : Expr) : 0 < sizeOf e := by
  cases e <;> simp +arith

/-- A function body gets no further than to its first statement. -/
theorem runStatement_idles (n : Nat) (scope : Scope) (s : Stmt) :
    (runStatement (n + 1) scope s).Obeys idling.toManner := by
  refine obeys_of_allows fun m hm => ?_
  obtain ⟨h, hd, hr⟩ := dispatch_refused hm s.line
  have hrun : runStatement (n + 1) scope s m = .error h m.counted := bind_eq_error.mpr (Or.inl hd)
  rw [hrun]
  exact .inr ⟨.refl _, hr⟩

/-- **Expressions while a cancellation is pending**, under a bound above their size. -/
theorem evaluate_idles {n : Nat} {e : Expr} (hn : sizeOf e < n) (scope : Scope) :
    (evaluate n scope e).Obeys idling.toManner := by
  induction n generalizing e with
  | zero => omega
  | succ n ih =>
    obtain ⟨k, rfl⟩ : ∃ k, n = k + 1 := ⟨n - 1, by have := e.sizeOf_pos; omega⟩
    refine @relates_evaluateForm idling.comparison ⟨evaluate (k + 1), runStatement (k + 1)⟩ _ scope
      (fun scope s _ => runStatement_idles k scope s) e fun part hpart => ?_
    have hlt := Expr.sizeOf_lt_of_mem_parts hpart
    exact ih (by omega)

end Pseudocode

import Pseudocode.Run

/-!
# Steps

How the parts of a step show in its result: a sequence of two steps (`except_bind_eq_ok`,
`Eval.bind_ok`, `Eval.bind_eq_ok`, `Eval.bind_eq_error`), a call (`Eval.inCall_ok`,
`Eval.inCall_error`), a fault that is charged (`Eval.located_error`) and the dispatch of a statement
(`dispatch_apply`). A step that is part of a run goes on with what comes after it (`Action.lift_ok`,
`Action.lift_error`).
-/

namespace Pseudocode

open Eval

/-- A sequence of attempts succeeds through a success of its first part. -/
theorem except_bind_eq_ok {ε α β : Type} {x : Except ε α} {f : α → Except ε β} {b : β} :
    (x >>= f) = .ok b ↔ ∃ a, x = .ok a ∧ f a = .ok b := by
  cases x with
  | error h => exact ⟨fun h => (by cases h), fun ⟨_, ha, _⟩ => (by cases ha)⟩
  | ok a => exact ⟨fun h => ⟨a, rfl, h⟩, fun ⟨_, ha, h⟩ => by cases ha; exact h⟩

section Sequences

variable {α β : Type} {e : Eval α} {k : α → Eval β} {m m' : Machine}

/-- A sequence succeeds through a success of its first step. -/
theorem Eval.bind_eq_ok {b : β} :
    (e >>= k) m = .ok b m' ↔ ∃ a n, e m = .ok a n ∧ k a n = .ok b m' := by
  show EStateM.bind e k m = _ ↔ _
  unfold EStateM.bind
  cases e m with
  | ok a n => exact ⟨fun h => ⟨a, n, rfl, h⟩, fun ⟨_, _, ha, h⟩ => by cases ha; exact h⟩
  | error => simp

/-- After its first step a sequence goes on with the second. -/
theorem Eval.bind_ok {a : α} (h : e m = .ok a m') : (e >>= k) m = k a m' := by
  show EStateM.bind e k m = _
  unfold EStateM.bind
  rw [h]

/-- A sequence stops at its first step or after it. -/
theorem Eval.bind_eq_error {h : Halt} :
    (e >>= k) m = .error h m' ↔
      e m = .error h m' ∨ ∃ a n, e m = .ok a n ∧ k a n = .error h m' := by
  show EStateM.bind e k m = _ ↔ _
  unfold EStateM.bind
  cases e m with
  | ok a n =>
    constructor
    · exact fun h => Or.inr ⟨a, n, rfl, h⟩
    · rintro (h | ⟨_, _, ha, h⟩)
      · cases h
      · cases ha
        exact h
  | error => simp

end Sequences

/-! ## Calls -/

section Calls

variable {α : Type} {e : Eval α} {f : CallFrame} {m m' : Machine} {u : Unit} {h : Halt}

/-- A call that would be too deep does not begin. -/
theorem Eval.inCall_refused (hdepth : m.checkDepth (m.depth + 1) = .error h) :
    inCall f e m = .error h m := by
  unfold inCall
  rw [hdepth]

theorem Eval.inCall_ok (hdepth : m.checkDepth (m.depth + 1) = .ok u) {a : α}
    (he : e (m.enterCall f) = .ok a m') : inCall f e m = .ok a (m'.leaveCall f) := by
  simp only [inCall, hdepth, he]

theorem Eval.inCall_error (hdepth : m.checkDepth (m.depth + 1) = .ok u)
    (he : e (m.enterCall f) = .error h m') : inCall f e m = .error h (m'.leaveCall f) := by
  simp only [inCall, hdepth, he]

end Calls

/-! ## Charging -/

section Charging

variable {α : Type} {e : Eval α} {m m' : Machine}

theorem Eval.located_ok (line : Int) {a : α} (he : e m = .ok a m') :
    located line e m = .ok a m' := by
  simp only [located, he]

theorem Eval.located_error (line : Int) {h : Halt} (he : e m = .error h m') :
    located line e m = .error (m'.charge line h).1 (m'.charge line h).2 := by
  simp only [located, he]

end Charging

/-! ## Parts of a run -/

section Parts

variable {α : Type} {e : Eval α} {m m' : Machine} (next : α → Machine → Run)
  (stop : Halt → Machine → Run)

/-- A step that ends is followed by what comes after it. -/
theorem Action.lift_ok {a : α} (he : e m = .ok a m') :
    (liftM e : Action α) m next stop = next a m' := by
  show Action.ofEval e m next stop = next a m'
  simp only [Action.ofEval, he]

theorem Action.lift_error {h : Halt} (he : e m = .error h m') :
    (liftM e : Action α) m next stop = stop h m' := by
  show Action.ofEval e m next stop = stop h m'
  simp only [Action.ofEval, he]

end Parts

/-! ## Dispatch -/

theorem checkCancelled_apply (m : Machine) :
    checkCancelled m = if m.cancelRequested then .error (.cancelled m.line) m else .ok () m := by
  show (if m.cancelRequested = true then throw (.cancelled m.line) else pure () : Eval Unit) m = _
  split
  · rfl
  · rfl

/-- The machine with one more statement counted. -/
def Machine.counted (m : Machine) : Machine :=
  { m with dispatches := m.dispatches + 1 }

/-- The machine with a statement's line current. -/
def Machine.reached (m : Machine) (line : Int) : Machine :=
  { m with line := line, stack := m.stack.atLine line }

/-- **What a dispatch does**: the statement is counted first; then its number is held against the
limit, a pending cancellation is honoured, and its line becomes current. -/
theorem dispatch_apply (line : Int) (m : Machine) :
    dispatch line m =
      match m.settings.maxDispatches.allows (m.dispatches + 1) with
      | .error h => .error h m.counted
      | .ok false => .error (.fault .dispatchLimit line) m.counted
      | .ok true =>
        if m.cancelRequested then .error (.cancelled m.line) m.counted
        else .ok () (m.counted.reached line) := by
  have hunfold : dispatch line m =
      (do
        if ← attempt (m.settings.maxDispatches.allows (m.dispatches + 1)) then
          checkCancelled
          set (m.counted.reached line)
        else throw (.fault .dispatchLimit line) : Eval Unit) m.counted := rfl
  rw [hunfold]
  cases m.settings.maxDispatches.allows (m.dispatches + 1) with
  | error h => rfl
  | ok allowed =>
    cases allowed with
    | false => rfl
    | true =>
      show (checkCancelled >>= fun _ => set (m.counted.reached line)) m.counted = _
      have hcheck := checkCancelled_apply m.counted
      rw [show m.counted.cancelRequested = m.cancelRequested from rfl] at hcheck
      cases hc : m.cancelRequested with
      | false =>
        rw [hc] at hcheck
        exact bind_eq_ok.mpr ⟨(), m.counted, hcheck, rfl⟩
      | true =>
        rw [hc] at hcheck
        exact bind_eq_error.mpr (Or.inl hcheck)

/-- A dispatch that succeeds: the statement's number is allowed and no cancellation is pending. -/
theorem dispatch_eq_ok {line : Int} {m m' : Machine} :
    dispatch line m = .ok () m' ↔
      m.settings.maxDispatches.allows (m.dispatches + 1) = .ok true ∧ m.cancelRequested = false ∧
        m' = m.counted.reached line := by
  rw [dispatch_apply]
  cases m.settings.maxDispatches.allows (m.dispatches + 1) with
  | error h => simp
  | ok allowed =>
    cases allowed with
    | false => simp
    | true => cases m.cancelRequested <;> simp [eq_comm]

end Pseudocode

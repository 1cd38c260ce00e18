import Pseudocode.Proofs.Frame
import Pseudocode.Proofs.RoundTrip
import Pseudocode.Proofs.Rounding
import Pseudocode.Proofs.Termination

/-!
# Counting loops

A FOR loop evaluates its bounds once, rounds them down to `s`, `e` and `t`, and lets its variable
run through the progression `s`, `s + t`, … as long as it does not pass `e`. The number of terms is
a matter of arithmetic (`laps`). What the body does is not: it may change every other variable,
declare the name of the loop variable anew, call procedures and talk to the host. `Rounds` follows a
loop from one execution of its body to the next, whatever executes the body, and a body is
`Undisturbed` if each execution that the loop comes to ends regularly and leaves the loop variable
alone.

Results:
* `lt_laps_of_pos`, `lt_laps_of_neg`: the terms of a progression are those that have not passed its
  end.
* `evaluate_at?`: evaluating an expression removes no variable.
* `Undisturbed.progression`: an undisturbed loop runs through its progression.
* `for_loops_run_through_their_progression`: FOR, in a function body and in a run.
-/

namespace Pseudocode

open Eval

/-! ## The terms of a progression -/

/-- The number of terms of the progression from `s` by steps of `t` that have not passed `e`. -/
def laps (s e t : Int) : Nat :=
  (⌊((e - s : Int) : ℚ) / t⌋ + 1).toNat

section Laps

variable {s e t : Int} {k : Nat}

theorem natCast_laps (s e t : Int) :
    (laps s e t : Int) = max 0 (⌊((e - s : Int) : ℚ) / t⌋ + 1) := by
  rw [laps]
  omega

theorem lt_laps : k < laps s e t ↔ (k : ℚ) ≤ ((e - s : Int) : ℚ) / t := by
  have hfloor : (k : Int) ≤ ⌊((e - s : Int) : ℚ) / t⌋ ↔ (k : ℚ) ≤ ((e - s : Int) : ℚ) / t := by
    rw [Int.le_floor, Int.cast_natCast]
  rw [← hfloor, laps]
  omega

theorem lt_laps_of_pos (ht : 0 < t) : k < laps s e t ↔ s + k * t ≤ e := by
  have htq : (0 : ℚ) < t := by exact_mod_cast ht
  rw [lt_laps, le_div_iff₀ htq]
  constructor
  · intro h
    have h : (k : Int) * t ≤ e - s := by exact_mod_cast h
    omega
  · intro h
    have h : (k : Int) * t ≤ e - s := by omega
    exact_mod_cast h

theorem lt_laps_of_neg (ht : t < 0) : k < laps s e t ↔ e ≤ s + k * t := by
  have htq : (t : ℚ) < 0 := by exact_mod_cast ht
  rw [lt_laps, le_div_iff_of_neg htq]
  constructor
  · intro h
    have h : e - s ≤ (k : Int) * t := by exact_mod_cast h
    omega
  · intro h
    have h : e - s ≤ (k : Int) * t := by omega
    exact_mod_cast h

end Laps

/-! ## Variables last -/

theorem Memory.store_bind (memory : Memory) (scope : Scope) (x : String) (l : Location) :
    (memory.bind scope x l).2.store = memory.store := by
  cases scope <;> rfl

theorem Memory.store_declare (memory : Memory) (scope : Scope) (x : String) (v : Variable) :
    (memory.declare scope x v).2.2.store = memory.store.push v := by
  cases scope <;> rfl

theorem Memory.size_declare (memory : Memory) (scope : Scope) (x : String) (v : Variable) :
    memory.store.size ≤ (memory.declare scope x v).2.2.store.size := by
  rw [Memory.store_declare, Array.size_push]
  exact Nat.le_succ _

theorem Memory.lookup?_declare (memory : Memory) (scope : Scope) (x : String) (v : Variable) :
    (memory.declare scope x v).2.2.lookup? (memory.declare scope x v).2.1 x =
      some (memory.declare scope x v).1 := by
  cases scope <;> simp [Memory.declare, Memory.bind, Memory.lookup?, Table.find?_insert]

/-- No activity removes a variable. -/
theorem Acts.size_le {r : Role} {scope scope' : Scope} {m m' : Machine}
    (h : Acts r scope m scope' m')
    (hout : ∀ m m', r.out m m' → m.memory.store.size ≤ m'.memory.store.size) :
    m.memory.store.size ≤ m'.memory.store.size := by
  induction h with
  | refl => exact Nat.le_refl _
  | trans _ _ ih₁ ih₂ => exact (ih₁ hout).trans (ih₂ hout)
  | outside h => exact hout _ _ h
  | draw => exact Nat.le_refl _
  | call f _ _ ihb ihr => exact (ihb fun _ _ h => h.elim).trans (ihr hout)
  | @refer _ callee _ m _ l p => exact (m.memory.store_bind callee p l ▸ Nat.le_refl _)
  | @copy _ callee _ m p v => exact m.memory.size_declare callee p v
  | argument _ ih => exact ih fun _ _ h => h.elim
  | inner _ hle _ ih => exact ih fun _ _ h => hout _ _ (hle _ _ h)
  | write => exact Nat.le_of_eq (Array.size_modify).symm
  | @declare _ _ _ scope m x v => exact m.memory.size_declare scope x v
  | hold _ _ _ ih => exact ih hout
  | counted => exact Nat.le_refl _
  | reached => exact Nat.le_refl _
  | note => exact Nat.le_refl _

theorem Memory.isSome_at? {memory : Memory} {l : Location} :
    (memory.at? l).isSome ↔ l.index < memory.store.size := by
  simp [Memory.at?]

/-- **Evaluating an expression removes no variable.** -/
theorem evaluate_at? {n : Nat} {scope : Scope} {e : Expr} {m m' : Machine} {v : Value}
    {l : Location} (h : evaluate n scope e m = .ok v m') (hl : (m.memory.at? l).isSome) :
    (m'.memory.at? l).isSome := by
  obtain ⟨_, acts⟩ := (evaluate_computes n scope e m).acts
  rw [Eval.leaves_ok h] at acts
  rw [Memory.isSome_at?] at hl ⊢
  exact hl.trans_le (acts.size_le fun _ _ h => h.elim)

/-! ## Starting a loop -/

/-- The machine has a variable at the location, and it holds the value. -/
def Machine.HoldsAt (m : Machine) (l : Location) (value : Value) : Prop :=
  ∃ v, m.memory.at? l = some v ∧ v.held? = some value

/-- The machine with a value assigned to the variable at a location. -/
def Machine.assigned (m : Machine) (l : Location) (value : Value) : Machine :=
  { m with memory := m.memory.update l (·.assign value) }

theorem Machine.holdsAt_assigned {m : Machine} {l : Location}
    (hl : (m.memory.at? l).isSome) (value : Value) : (m.assigned l value).HoldsAt l value := by
  obtain ⟨v, hv⟩ := Option.isSome_iff_exists.mp hl
  exact ⟨v.assign value, Memory.at?_update_self hv _, v.held?_assign value⟩

/-- The bounds of a loop, evaluated one after the other, are numbers with the floors `s`, `e` and
`t`. -/
inductive BoundsAre (expr : Expr → Eval Value) (start stop step : Expr) (m : Machine)
    (s e t : Int) (m' : Machine) :
    Prop
  | intro {x y z : Numeric} {a b c : ℚ} {m₁ m₂ : Machine}
      (hstart : expr start m = .ok x.toValue m₁) (hstop : expr stop m₁ = .ok y.toValue m₂)
      (hstep : expr step m₂ = .ok z.toValue m')
      (ha : x.worth? = some a) (hb : y.worth? = some b) (hc : z.worth? = some c)
      (hs : ⌊a⌋ = s) (he : ⌊b⌋ = e) (ht : ⌊c⌋ = t) : BoundsAre expr start stop step m s e t m'

section Starting

variable {n : Nat} {scope inner : Scope} {name : String} {start stop step : Expr}
  {m m₁ m' : Machine} {s e t : Int} {l : Location}

theorem BoundsAre.loopBounds {expr : Expr → Eval Value}
    (h : BoundsAre expr start stop step m s e t m') :
    loopBounds expr start stop step m = .ok (s, e, t) m' := by
  obtain ⟨hstart, hstop, hstep, ha, hb, hc, hs, he, ht⟩ := h
  have hx := Numeric.floor_eq_ok.mpr ⟨_, ha, hs⟩
  have hy := Numeric.floor_eq_ok.mpr ⟨_, hb, he⟩
  have hz := Numeric.floor_eq_ok.mpr ⟨_, hc, ht⟩
  refine (bind_ok hstart).trans ((bind_ok hstop).trans ((bind_ok hstep).trans ?_))
  simp only [Numeric.numeric?_toValue, hx, hy, hz]
  rfl

theorem BoundsAre.at? (h : BoundsAre (evaluate n scope) start stop step m s e t m')
    (hl : (m.memory.at? l).isSome) : (m'.memory.at? l).isSome := by
  obtain ⟨hstart, hstop, hstep, -, -, -, -, -, -⟩ := h
  exact evaluate_at? hstep (evaluate_at? hstop (evaluate_at? hstart hl))

/-- A loop variable that is not declared, or is no array, is found where its name is bound. -/
theorem exists_loopVariable (h : ∀ l, m.memory.lookup? scope name = some l →
      ∃ v, m.memory.at? l = some v ∧ v.isArray = false) :
    ∃ l inner m₁, loopVariable scope name m = .ok (l, inner) m₁ ∧
      m₁.memory.lookup? inner name = some l ∧
      (m₁.memory.at? l).isSome := by
  cases hl : m.memory.lookup? scope name with
  | none =>
    have hdeclare : loopVariable scope name m =
        .ok ((m.memory.declare scope name (.scalar .integer none)).1,
            (m.memory.declare scope name (.scalar .integer none)).2.1)
          { m with memory := (m.memory.declare scope name (.scalar .integer none)).2.2 } := by
      refine bind_eq_ok.mpr ⟨m, m, rfl, ?_⟩
      rw [hl]
      rfl
    refine ⟨_, _, _, hdeclare, m.memory.lookup?_declare scope name _, Memory.isSome_at?.mpr ?_⟩
    rw [Memory.store_declare, Array.size_push]
    exact Nat.lt_succ_self _
  | some l =>
    obtain ⟨v, hv, hscalar⟩ := h l hl
    refine ⟨l, scope, m, bind_eq_ok.mpr ⟨m, m, rfl, ?_⟩, hl, hv ▸ rfl⟩
    simp only [hl]
    refine (bind_ok (variableAt_of_at? hv)).trans ?_
    rw [hscalar]
    rfl

theorem startFor_eq (hfound : loopVariable scope name m = .ok (l, inner) m₁)
    (hbounds : BoundsAre (evaluate n inner) start stop step m₁ s e t m') (ht : t ≠ 0) :
    startFor (evaluate n) scope name start stop step m =
      .ok (⟨l, e, t⟩, inner) (m'.assigned l (.int s)) := by
  refine (bind_ok hfound).trans ((bind_ok hbounds.loopBounds).trans ?_)
  simp only [if_neg ht]
  rfl

end Starting

/-! ## The counter -/

namespace Counter

variable {c : Counter} {m : Machine} {n s : Int} {k : Nat}

theorem value_of_holdsAt {value : Value} (h : m.HoldsAt c.location value) : c.value m = value := by
  obtain ⟨v, hv, hheld⟩ := h
  rw [Counter.value, hv, Option.bind_some, hheld, Option.getD_some]

theorem holdsAt_of_value (h : c.value m = .int n) : m.HoldsAt c.location (.int n) := by
  rw [Counter.value] at h
  cases hheld : (m.memory.at? c.location).bind Variable.held? with
  | none =>
    rw [hheld] at h
    cases h
  | some value =>
    rw [hheld] at h
    cases h
    exact Option.bind_eq_some_iff.mp hheld

/-- **A loop goes on at the terms of its progression**, and only there. -/
theorem continues_of_term (hc : c.step ≠ 0) (h : m.HoldsAt c.location (.int (s + k * c.step))) :
    c.continues m = .ok (decide (k < laps s c.stop c.step)) m := by
  have hgoes : c.continues m = .ok (if 0 < c.step then (Numeric.int (s + k * c.step)).le
      (.int c.stop) else (Numeric.int c.stop).le (.int (s + k * c.step))) m := by
    refine bind_eq_ok.mpr ⟨m, m, rfl, ?_⟩
    rw [value_of_holdsAt h]
    rfl
  rw [hgoes]
  congr 1
  rw [Bool.eq_iff_iff, decide_eq_true_iff]
  split
  · next hpos => rw [lt_laps_of_pos hpos, Numeric.int_le_int]
  · next hpos => rw [lt_laps_of_neg (by omega), Numeric.int_le_int]

theorem advance_of_value (h : c.value m = .int n) :
    c.advance m = .ok () (m.assigned c.location (.int (n + c.step))) := by
  refine bind_eq_ok.mpr ⟨m, m, rfl, ?_⟩
  rw [h]
  rfl

end Counter

/-! ## Rounds -/

/-- Where a loop is: its scope, its machine, and what the host has come to. -/
structure Spot (σ : Type) where
  scope : Scope
  machine : Machine
  host : σ

section Rounds

variable {σ : Type} {c : Counter} {completes : Spot σ → Spot σ → Prop} {first p q final : Spot σ}
  {visits : List (Spot σ)} {m : Machine} {s : Int}

/-- The rounds of a loop from one spot to another: as long as its variable has not passed the end,
the body is executed and the variable moves on. The body is executed at the spots in the list;
`completes p q` says that its execution at `p` ends regularly at `q`. -/
inductive Rounds (c : Counter) (completes : Spot σ → Spot σ → Prop) :
    Spot σ → List (Spot σ) → Spot σ → Prop
  | start (p : Spot σ) : Rounds c completes p [] p
  | round {p q final : Spot σ} {m : Machine} {visits : List (Spot σ)}
      (goes : c.continues p.machine = .ok true p.machine) (body : completes p q)
      (moves : c.advance q.machine = .ok () m)
      (rest : Rounds c completes ⟨q.scope, m, q.host⟩ visits final) :
      Rounds c completes p (p :: visits) final

/-- Each execution of the body that the loop comes to ends regularly and leaves the value of the
loop variable alone. -/
def Undisturbed (c : Counter) (completes : Spot σ → Spot σ → Prop) (first : Spot σ) : Prop :=
  ∀ visits p, Rounds c completes first visits p → c.continues p.machine = .ok true p.machine →
    ∃ q, completes p q ∧ c.value q.machine = c.value p.machine

/-- At each spot of a list the loop variable holds the term of the progression from `s` that has the
number of the spot.
-/
def Counter.Terms (c : Counter) (s : Int) (visits : List (Spot σ)) : Prop :=
  ∀ (k : Nat) (p : Spot σ), visits[k]? = some p →
    p.machine.HoldsAt c.location (.int (s + k * c.step))

/-- A loop that starts at `first` has run through its progression from `s`, and is at `final`. -/
structure Progression (c : Counter) (completes : Spot σ → Spot σ → Prop) (s : Int) (first : Spot σ)
    (visits : List (Spot σ)) (final : Spot σ) : Prop where
  rounds : Rounds c completes first visits final
  count : (visits.length : Int) = max 0 (⌊((c.stop - s : Int) : ℚ) / c.step⌋ + 1)
  terms : c.Terms s visits
  last : final.machine.HoldsAt c.location (.int (s + visits.length * c.step))

theorem Rounds.snoc (h : Rounds c completes first visits p)
    (goes : c.continues p.machine = .ok true p.machine) (body : completes p q)
    (moves : c.advance q.machine = .ok () m) :
    Rounds c completes first (visits ++ [p]) ⟨q.scope, m, q.host⟩ := by
  induction h with
  | start p => exact .round goes body moves (.start _)
  | round goes' body' moves' _ ih => exact .round goes' body' moves' (ih goes body)

theorem Counter.Terms.snoc (h : c.Terms s visits)
    (hp : p.machine.HoldsAt c.location (.int (s + visits.length * c.step))) :
    c.Terms s (visits ++ [p]) := by
  intro k q hq
  rw [List.getElem?_append] at hq
  split at hq
  · exact h k q hq
  · next hk =>
    obtain ⟨hlt, rfl⟩ := List.getElem?_eq_some_iff.mp hq
    rw [List.length_singleton] at hlt
    obtain rfl : k = visits.length := by omega
    rwa [List.getElem_singleton]

/-- An undisturbed loop comes to each term of its progression, one round after the other. -/
theorem Undisturbed.reaches (hc : c.step ≠ 0) (h : Undisturbed c completes first)
    (hfirst : first.machine.HoldsAt c.location (.int s)) {k : Nat} (hk : k ≤ laps s c.stop c.step) :
    ∃ visits p, Rounds c completes first visits p ∧ visits.length = k ∧ c.Terms s visits ∧
      p.machine.HoldsAt c.location (.int (s + k * c.step)) := by
  induction k with
  | zero =>
    refine ⟨[], first, .start first, rfl, (fun k p hp => by cases hp), ?_⟩
    simpa using hfirst
  | succ k ih =>
    obtain ⟨visits, p, hrounds, rfl, hterms, hp⟩ := ih (Nat.le_of_succ_le hk)
    have hgoes : c.continues p.machine = .ok true p.machine := by
      rw [Counter.continues_of_term hc hp, decide_eq_true (Nat.lt_of_succ_le hk)]
    obtain ⟨q, hbody, hvalue⟩ := h visits p hrounds hgoes
    have hq : c.value q.machine = .int (s + visits.length * c.step) :=
      hvalue.trans (Counter.value_of_holdsAt hp)
    have hmoves := Counter.advance_of_value hq
    obtain ⟨v, hv, -⟩ := Counter.holdsAt_of_value hq
    have hnext :
        s + ((visits.length + 1 : Nat) : Int) * c.step = s + visits.length * c.step + c.step := by
      push_cast
      ring
    refine ⟨visits ++ [p], _, hrounds.snoc hgoes hbody hmoves,
      List.length_append, hterms.snoc hp, ?_⟩
    rw [hnext]
    exact Machine.holdsAt_assigned (hv ▸ rfl) _

/-- **An undisturbed loop runs through its progression**, and ends there. -/
theorem Undisturbed.progression (hc : c.step ≠ 0) (h : Undisturbed c completes first)
    (hfirst : first.machine.HoldsAt c.location (.int s)) :
    ∃ visits final, Progression c completes s first visits final ∧
      c.continues final.machine = .ok false final.machine := by
  obtain ⟨visits, final, hrounds, hlength, hterms, hlast⟩ := h.reaches hc hfirst (Nat.le_refl _)
  refine ⟨visits, final, ⟨hrounds, ?_, hterms, hlength ▸ hlast⟩, ?_⟩
  · rw [hlength, natCast_laps]
  · rw [Counter.continues_of_term hc hlast, decide_eq_false (Nat.lt_irrefl _)]

end Rounds

/-! ## The two ways to run a loop -/

/-- The body ends at a spot without a RETURN. -/
def completesIn (body : Scope → Eval Outcome) (p q : Spot Unit) : Prop :=
  body p.scope p.machine = .ok (q.scope, none) q.machine

/-- The body ends at a spot, with the answers of a host. -/
def completesWith {σ : Type} (host : Host σ) (body : Scope → Action Scope) (p q : Spot σ) : Prop :=
  (body p.scope).Gives host p.machine p.host q.scope q.machine q.host

/-- In a function body, a loop ends where its rounds do. -/
theorem Rounds.runFor {c : Counter} {body : Scope → Eval Outcome} {p final : Spot Unit}
    {visits : List (Spot Unit)} (h : Rounds c (completesIn body) p visits final)
    (hend : c.continues final.machine = .ok false final.machine) {bound : Nat}
    (hbound : visits.length < bound) :
    runFor c body bound p.scope p.machine = .ok (final.scope, none) final.machine := by
  induction h generalizing bound with
  | start p =>
    cases bound with
    | zero => exact absurd hbound (Nat.not_lt_zero _)
    | succ b => exact bind_ok hend
  | @round p q final m visits goes hbody moves _ ih =>
    cases bound with
    | zero => exact absurd hbound (Nat.not_lt_zero _)
    | succ b =>
      have hrest := ih hend (Nat.lt_of_succ_lt_succ hbound)
      exact (bind_ok goes).trans ((bind_ok hbody).trans ((bind_ok moves).trans hrest))

/-- In a run, a loop ends where its rounds do. -/
theorem Rounds.executeFor {σ : Type} {host : Host σ} {c : Counter} {body : Scope → Action Scope}
    {p final : Spot σ} {visits : List (Spot σ)}
    (h : Rounds c (completesWith host body) p visits final)
    (hend : c.continues final.machine = .ok false final.machine) {bound : Nat}
    (hbound : visits.length < bound) :
    (executeFor c body bound p.scope).Gives host p.machine p.host final.scope
      final.machine final.host := by
  induction h generalizing bound with
  | start p =>
    cases bound with
    | zero => exact absurd hbound (Nat.not_lt_zero _)
    | succ b => exact (Action.gives_lift hend p.host).bind (Action.gives_pure _ _ _)
  | @round p q final m visits goes hbody moves _ ih =>
    cases bound with
    | zero => exact absurd hbound (Nat.not_lt_zero _)
    | succ b =>
      have hrest := ih hend (Nat.lt_of_succ_lt_succ hbound)
      exact (Action.gives_lift goes p.host).bind
        (Action.Gives.bind hbody ((Action.gives_lift moves q.host).bind hrest))

/-- If the body is undisturbed, the loop runs through its progression; once more rounds are allowed
than it takes, `ends` says how it ends. -/
def Counter.RunsThrough {σ : Type} (c : Counter) (completes : Spot σ → Spot σ → Prop) (s : Int)
    (first : Spot σ) (ends : Nat → Spot σ → Prop) : Prop :=
  Undisturbed c completes first →
    ∃ visits final, Progression c completes s first visits final ∧
      ∀ bound, visits.length < bound → ends bound final

/-- It is enough to know how the loop ends after rounds that bring its variable past the end. -/
theorem Counter.runsThrough {σ : Type} {c : Counter} {completes : Spot σ → Spot σ → Prop} {s : Int}
    {first : Spot σ} {ends : Nat → Spot σ → Prop} (hc : c.step ≠ 0)
    (hfirst : first.machine.HoldsAt c.location (.int s))
    (hends : ∀ {visits final bound}, Rounds c completes first visits final →
      c.continues final.machine = .ok false final.machine →
      visits.length < bound → ends bound final) : c.RunsThrough completes s first ends := by
  intro hbody
  obtain ⟨visits, final, hruns, hend⟩ := hbody.progression hc hfirst
  exact ⟨visits, final, hruns, fun bound hbound => hends hruns.rounds hend hbound⟩

/-- **FOR runs through its progression.** Let the loop variable be undeclared or no array. It is
found or declared first; then the bounds are evaluated, to numbers with the floors `s`, `e` and `t`,
and `t` is not zero. If each execution of the body that the loop comes to ends regularly and leaves
the loop variable alone, then the body is executed for as many terms as the progression has, the
variable holds the terms one after the other, and it holds the term after them when the loop ends.
This is so in a function body and, whatever the host, in a run. -/
theorem for_loops_run_through_their_progression {scope : Scope} {name : String} {m : Machine}
    (hvar : ∀ l, m.memory.lookup? scope name = some l → ∃ v, m.memory.at? l = some v ∧
      v.isArray = false) :
    ∃ l inner m₁, loopVariable scope name m = .ok (l, inner) m₁ ∧
      m₁.memory.lookup? inner name = some l ∧
      ∀ (n : Nat) (start stop step : Expr) (body : Block) (s e t : Int) (m₂ : Machine),
        BoundsAre (evaluate n inner) start stop step m₁ s e t m₂ → t ≠ 0 →
        (Counter.mk l e t).RunsThrough (completesIn (runBlock (runStatement n) · body)) s
          ⟨inner, m₂.assigned l (.int s), ()⟩ (fun bound final =>
            runForm ⟨evaluate n, runStatement n⟩ bound scope (.forTo name start stop step body) m =
              .ok (final.scope, none) final.machine) ∧
        ∀ {σ : Type} (host : Host σ) (h : σ) (line : Int),
          (Counter.mk l e t).RunsThrough (completesWith host (executeBlock (execute n) · body)) s
            ⟨inner, m₂.assigned l (.int s), h⟩ (fun bound final =>
              (perform (evaluate n) (executeBlock (execute n)) bound scope line
                (.forTo name start stop step body)).Gives host m h final.scope
                  final.machine final.host) := by
  obtain ⟨l, inner, m₁, hfound, hname, hat⟩ := exists_loopVariable hvar
  refine ⟨l, inner, m₁, hfound, hname, fun n start stop step body s e t m₂ hbounds ht => ?_⟩
  have hfirst : (m₂.assigned l (.int s)).HoldsAt l (.int s) :=
    Machine.holdsAt_assigned (hbounds.at? hat) _
  have hstart := startFor_eq hfound hbounds ht
  constructor
  · refine Counter.runsThrough ht hfirst fun hrounds hend hbound => ?_
    exact (bind_ok hstart).trans (hrounds.runFor hend hbound)
  · intro σ host h line
    refine Counter.runsThrough ht hfirst fun hrounds hend hbound => ?_
    exact (Action.gives_lift hstart h).bind (hrounds.executeFor hend hbound)

/-! ## A loop whose body changes its bound -/

/-- A body is undisturbed if an invariant sees to it. -/
theorem Undisturbed.of_invariant {σ : Type} {c : Counter} {completes : Spot σ → Spot σ → Prop}
    {first : Spot σ} (I : Spot σ → Prop) (hfirst : I first)
    (hbody : ∀ p, I p → ∃ q, completes p q ∧ c.value q.machine = c.value p.machine)
    (hround : ∀ p q m, I p → completes p q → c.advance q.machine = .ok () m →
      I ⟨q.scope, m, q.host⟩) : Undisturbed c completes first := by
  rintro visits p hrounds -
  refine hbody p ?_
  induction hrounds with
  | start p => exact hfirst
  | round _ body moves _ ih => exact ih (hround _ _ _ hfirst body moves)

/-- What a part of a run gives is determined. -/
theorem Action.Gives.unique {σ α : Type} {host : Host σ} {a : Action α} {m m₁ m₂ : Machine}
    {s s₁ s₂ : σ} {x y : α} (h₁ : a.Gives host m s x m₁ s₁) (h₂ : a.Gives host m s y m₂ s₂) :
    x = y ∧ m₁ = m₂ := by
  classical
  -- Followed by a run that tells `x` from other results, the part shows what it gives.
  have htold := (h₁ (fun z n => .finished (if z = x then .ok () else .error .exhausted) n)
    fun h n => .finished (.error h) n).symm.trans (h₂ _ _)
  simp only [Run.drain, if_true, Prod.mk.injEq] at htold
  obtain ⟨hending, hm, -⟩ := htold
  refine ⟨?_, hm⟩
  by_contra hne
  rw [if_neg (Ne.symm hne)] at hending
  cases hending

/-- A machine that can go on without end, on which only k is declared, as INTEGER with the value
2. -/
def Machine.onlyK : Machine where
  settings := { maxDispatches := .endless }
  memory := {
    store := #[.scalar .integer (some (.int 2))]
    globals := ⟨[("k", ⟨0⟩)]⟩
    distinct := List.nodup_singleton "k" }

/-- The machine with i declared, too. -/
def Machine.withI : Machine :=
  { onlyK with memory := (onlyK.memory.declare .global "i" (.scalar .integer none)).2.2 }

/-- The assignment of 9 to k. -/
def Stmt.resetK : Stmt := .mk 2 (.assign (.var 2 "k") (.literal 2 (.int 9)))

/-- FOR i from 7.5 to k by steps of -2, with a body that moves k up to 9. -/
def Form.countdown : Form :=
  .forTo "i" (.literal 1 (.real 7.5)) (.var 1 "k") (.literal 1 (.int (-2))) [.resetK]

structure Machine.HasK (m : Machine) : Prop where
  endless : m.settings.maxDispatches = .endless
  uncancelled : m.cancelRequested = false
  bound : m.memory.lookup? .global "k" = some ⟨0⟩
  scalar : ∃ held, m.memory.at? ⟨0⟩ = some (.scalar .integer held)

namespace Machine.HasK

variable {m : Machine}

theorem assigned (h : m.HasK) (l : Location) (value : Value) : (m.assigned l value).HasK := by
  refine ⟨h.endless, h.uncancelled, h.bound, ?_⟩
  obtain ⟨held, hk⟩ := h.scalar
  by_cases hl : l = ⟨0⟩
  · subst hl
    exact ⟨some value, Memory.at?_update_self hk _⟩
  · exact ⟨held, (Memory.at?_update _ (Ne.symm hl)).trans hk⟩

theorem ready (h : m.HasK) : m.Ready := by
  refine ⟨?_, h.uncancelled⟩
  rw [h.endless]
  rfl

theorem reached (h : m.HasK) (line : Int) : (m.counted.reached line).HasK :=
  ⟨h.endless, h.uncancelled, h.bound, h.scalar⟩

theorem performAssign (h : m.HasK) :
    performAssign (evaluate 1) .global (.var 2 "k") (.literal 2 (.int 9)) m =
      .ok () (m.assigned ⟨0⟩ (.int 9)) := by
  obtain ⟨held, hk⟩ := h.scalar
  have htarget : resolveTarget (evaluate 1) .global (.var 2 "k") m = .ok ⟨⟨0⟩, "k", "k", none⟩ m :=
    (bind_ok (locateVariable_of_lookup? h.bound)).trans (bind_ok (variableAt_of_at? hk))
  have hvalue : evaluate 1 .global (.literal 2 (.int 9)) m = .ok (.int 9) m := rfl
  exact (bind_ok hvalue).trans (bind_ok htarget)

/-- The machine after the assignment to k. -/
abbrev after (m : Machine) : Machine := (m.counted.reached 2).assigned ⟨0⟩ (.int 9)

theorem runBlock (h : m.HasK) :
    runBlock (runStatement 2) .global [.resetK] m = .ok (.global, none) (after m) := by
  have hdispatch : dispatch 2 m = .ok () (m.counted.reached 2) :=
    dispatch_eq_ok.mpr ⟨h.ready.allowed, h.uncancelled, rfl⟩
  have hform : runForm ⟨evaluate 1, runStatement 1⟩ 1 .global Stmt.resetK.form
      (m.counted.reached 2) = .ok (.global, none) (after m) := bind_ok (h.reached 2).performAssign
  have hstmt : runStatement 2 .global .resetK m = .ok (.global, none) (after m) :=
    (bind_ok hdispatch).trans (located_ok 2 hform)
  exact bind_ok hstmt

theorem executeBlock (h : m.HasK) (s : Supply) :
    ∃ s',
      (executeBlock (execute 2) .global [.resetK]).Gives Supply.host m s .global (after m) s' := by
  have hform : ∀ s, ∃ s', (performLocated (evaluate 1)
      (Pseudocode.executeBlock (execute 1)) 1 .global 2 Stmt.resetK.form).Gives Supply.host
      (m.counted.reached 2) s .global (after m) s' := by
    intro s
    have hassign : (perform (evaluate 1)
        (Pseudocode.executeBlock (execute 1)) 1 .global 2 Stmt.resetK.form).Gives Supply.host
        (m.counted.reached 2) s .global (after m) s :=
      Action.Gives.bind (Action.gives_lift (h.reached 2).performAssign s) (Action.gives_pure _ _ s)
    exact ⟨s, hassign.located 2⟩
  obtain ⟨s', hstmt⟩ := execute_gives Supply.quiet_host .resetK h.ready hform s
  exact ⟨s', hstmt.bind (Action.gives_pure _ _ _)⟩

end Machine.HasK

/-- The body of the countdown leaves i alone, whatever executes it. -/
theorem undisturbed_countdown {σ : Type} {completes : Spot σ → Spot σ → Prop} {m : Machine} {h : σ}
    (hm : m.HasK) (hbody : ∀ p : Spot σ, p.scope = .global → p.machine.HasK →
      ∃ h, completes p ⟨.global, Machine.HasK.after p.machine, h⟩)
    (hunique : ∀ p q q', completes p q → completes p q' → q.scope = q'.scope ∧
      q.machine = q'.machine) : Undisturbed ⟨⟨1⟩, 2, -2⟩ completes ⟨.global, m, h⟩ := by
  refine .of_invariant (fun p => p.scope = .global ∧ p.machine.HasK) ⟨rfl, hm⟩ ?_ ?_
  · rintro p ⟨hp, hk⟩
    obtain ⟨h, hdone⟩ := hbody p hp hk
    refine ⟨_, hdone, ?_⟩
    have hother : (Machine.HasK.after p.machine).memory.at? ⟨1⟩ = p.machine.memory.at? ⟨1⟩ :=
      Memory.at?_update _ (by decide)
    rw [Counter.value, hother]
    rfl
  · rintro p q m ⟨hp, hk⟩ hdone hmoves
    obtain ⟨h, hdone'⟩ := hbody p hp hk
    obtain ⟨hq, hqm⟩ := hunique p _ _ hdone hdone'
    obtain ⟨n, -, rfl⟩ := Counter.advance_eq_ok hmoves
    refine ⟨hq, ?_⟩
    rw [hqm]
    exact ((hk.reached 2).assigned _ _).assigned _ _

/-- The bounds of the countdown on a machine where k is 2. -/
theorem boundsAre_countdown {m : Machine} (hbound : m.memory.lookup? .global "k" = some ⟨0⟩)
    (hk : m.memory.at? ⟨0⟩ = some (.scalar .integer (some (.int 2)))) :
    BoundsAre (evaluate 2 .global) (.literal 1 (.real 7.5)) (.var 1 "k")
      (.literal 1 (.int (-2))) m 7 2 (-2) m := by
  have hparts : Number.parts? 7.5 = some ⟨false, 8444249301319680, -50⟩ := by decide +kernel
  have hstart :
      (Numeric.real 7.5).worth? = some (Number.Parts.worth ⟨false, 8444249301319680, -50⟩) := by
    rw [Numeric.worth?, hparts]
    rfl
  have hstop : evaluate 2 .global (.var 1 "k") m = .ok (Numeric.int 2).toValue m :=
    (bind_ok (locateVariable_of_lookup? hbound)).trans (bind_ok (variableAt_of_at? hk))
  refine .intro (x := .real 7.5) (z := .int (-2)) rfl hstop rfl hstart rfl rfl ?_ ?_ ?_
  · rw [← Number.Parts.floor_eq]
    decide +kernel
  · exact Int.floor_intCast 2
  · exact Int.floor_intCast (-2)

theorem progression_countdown {σ : Type} {completes : Spot σ → Spot σ → Prop} {first final : Spot σ}
    {visits : List (Spot σ)} (h : Progression ⟨⟨1⟩, 2, -2⟩ completes 7 first visits final) :
    visits.length = 3 ∧ (Counter.mk ⟨1⟩ 2 (-2)).Terms 7 visits ∧
      final.machine.HoldsAt ⟨1⟩ (.int 1) := by
  have hcount : max 0 (⌊((2 - 7 : Int) : ℚ) / ((-2 : Int) : ℚ)⌋ + 1) = 3 := by decide +kernel
  have hlength : visits.length = 3 := by exact_mod_cast h.count.trans hcount
  have hlast := h.last
  rw [hlength] at hlast
  exact ⟨hlength, h.terms, hlast⟩

/-- The countdown takes three rounds, with i at 7, 5 and 3, though its body moves the bound away. -/
theorem countdown_takes_three_rounds :
    (∃ (visits : List (Spot Unit)) (final : Spot Unit),
      (visits.length = 3 ∧ (Counter.mk ⟨1⟩ 2 (-2)).Terms 7 visits ∧
        final.machine.HoldsAt ⟨1⟩ (.int 1)) ∧
      runForm ⟨evaluate 2, runStatement 2⟩ 4 .global .countdown .onlyK =
        .ok (final.scope, none) final.machine) ∧
    ∃ (visits : List (Spot Supply)) (final : Spot Supply),
      (visits.length = 3 ∧ (Counter.mk ⟨1⟩ 2 (-2)).Terms 7 visits ∧
        final.machine.HoldsAt ⟨1⟩ (.int 1)) ∧
      (perform (evaluate 2) (executeBlock (execute 2)) 4 .global 1 .countdown).Gives Supply.host
        .onlyK {} final.scope final.machine final.host := by
  have hundeclared : Machine.onlyK.memory.lookup? .global "i" = none := rfl
  have hdeclares : loopVariable .global "i" .onlyK = .ok (⟨1⟩, .global) .withI := rfl
  obtain ⟨l, inner, m₁, hfound, -, hloop⟩ :=
    @for_loops_run_through_their_progression .global "i" .onlyK
    (fun l hl => by rw [hundeclared] at hl; cases hl)
  cases hfound.symm.trans hdeclares
  obtain ⟨hrun, hexecute⟩ :=
    hloop 2 _ _ _ [.resetK] 7 2 (-2) .withI (boundsAre_countdown rfl rfl) (by decide)
  have hk : (Machine.withI.assigned ⟨1⟩ (.int 7)).HasK :=
    Machine.HasK.assigned ⟨rfl, rfl, rfl, _, rfl⟩ _ _
  constructor
  · have hbody : ∀ p : Spot Unit, p.scope = .global → p.machine.HasK →
        ∃ h, completesIn (runBlock (runStatement 2) · [.resetK]) p
          ⟨.global, Machine.HasK.after p.machine, h⟩ := by
      intro p hp hpk
      refine ⟨(), ?_⟩
      rw [completesIn, hp]
      exact hpk.runBlock
    have hunique : ∀ p q q' : Spot Unit, completesIn (runBlock (runStatement 2) · [.resetK]) p q →
        completesIn (runBlock (runStatement 2) · [.resetK]) p q' → q.scope = q'.scope ∧
          q.machine = q'.machine := by
      intro p q q' hq hq'
      obtain ⟨hscope, hmachine⟩ := EStateM.Result.ok.inj (hq.symm.trans hq')
      exact ⟨(Prod.mk.inj hscope).1, hmachine⟩
    obtain ⟨visits, final, hruns, hends⟩ := hrun (undisturbed_countdown hk hbody hunique)
    have hterms := progression_countdown hruns
    exact ⟨visits, final, hterms, hends 4 (by omega)⟩
  · have hbody : ∀ p : Spot Supply, p.scope = .global → p.machine.HasK →
        ∃ h, completesWith Supply.host (executeBlock (execute 2) · [.resetK]) p
          ⟨.global, Machine.HasK.after p.machine, h⟩ := by
      intro p hp hpk
      obtain ⟨h, hdone⟩ := hpk.executeBlock p.host
      refine ⟨h, ?_⟩
      rw [completesWith, hp]
      exact hdone
    obtain ⟨visits, final, hruns, hends⟩ := hexecute Supply.host {} 1
      (undisturbed_countdown hk hbody fun p q q' hq hq' => hq.unique hq')
    have hterms := progression_countdown hruns
    exact ⟨visits, final, hterms, hends 4 (by omega)⟩

end Pseudocode

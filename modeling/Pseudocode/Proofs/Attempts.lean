import Mathlib.Data.List.Basic
import Pseudocode.Evaluate

/-!
# How computations on values fail

A computation on values knows no statement: it fails with a fault that has no line yet, or breaks
down. `Confined ok a` says that the computation `a` fails for no reason outside `ok`. It is kept by
sequences, and there is one rule for every computation that a step attempts. Any of them may meet a
fault, though never the one that a FOR loop raises for its variable or the one that refuses another
statement, and most may meet a number with too many digits (`Reasons`); where one can break down in
another way, its rule says when.

So no computation fails for a cancellation or for want of steps (`Halt.IsBare`, `Bare`).
-/

namespace Pseudocode

/-- A reason to stop that is charged to no statement: a fault without a line, or a breakdown. -/
def Halt.IsBare : Halt → Prop
  | .fault _ line => line = 0
  | .breakdown _ => True
  | _ => False

theorem Halt.IsBare.ne_exhausted {h : Halt} (hb : h.IsBare) : h ≠ .exhausted := by
  rintro rfl
  exact hb

/-- A computation on values that only fails for certain reasons. -/
def Confined {α : Type} (ok : Halt → Prop) (a : Attempt α) : Prop :=
  ∀ h, a = .error h → ok h

/-- The reasons that any computation on values may have to fail. -/
structure Reasons (ok : Halt → Prop) : Prop where
  fault : ∀ {cause}, cause ≠ .loopVariableNotNumeric → cause ≠ .dispatchLimit → ok (.fault cause 0)
  digits : ok (.breakdown .tooManyDigits)

theorem reasons_isBare : Reasons Halt.IsBare :=
  ⟨fun _ _ => rfl, trivial⟩

section Sequences

variable {α β : Type} {ok : Halt → Prop}

theorem confined_ok (x : α) : Confined ok (.ok x) := by
  rintro h ⟨⟩

theorem confined_fail (hok : Reasons ok) {cause : Fault}
    (h : cause ≠ .loopVariableNotNumeric ∧ cause ≠ .dispatchLimit) :
    Confined ok (fail cause : Attempt α) := by
  rintro _ ⟨⟩
  exact hok.fault h.1 h.2

theorem confined_breakDown {b : Breakdown} (h : ok (.breakdown b)) :
    Confined ok (breakDown b : Attempt α) := by
  rintro _ ⟨⟩
  exact h

theorem Confined.bind {a : Attempt α} {k : α → Attempt β} (ha : Confined ok a)
    (hk : ∀ x, Confined ok (k x)) : Confined ok (a >>= k) := by
  intro h hh
  cases a with
  | error e =>
    cases hh
    exact ha h rfl
  | ok x => exact hk x h hh

theorem Confined.mapM {f : α → Attempt β} (hf : ∀ x, Confined ok (f x)) (l : List α) :
    Confined ok (l.mapM f) := by
  induction l with
  | nil => exact confined_ok []
  | cons x rest ih =>
    rw [List.mapM_cons]
    exact (hf x).bind fun y => ih.bind fun ys => confined_ok (y :: ys)

theorem confined_written (hok : Reasons ok) (o : Option α) : Confined ok (written o) := by
  cases o with
  | none => exact confined_breakDown hok.digits
  | some x => exact confined_ok x

end Sequences

section Computations

variable {ok : Halt → Prop} (hok : Reasons ok)
include hok

/-! ## Numbers and operators -/

theorem confined_shown (v : Value) : Confined ok v.shown :=
  confined_written hok _

theorem Numeric.confined_toReal (n : Numeric) : Confined ok n.toReal := by
  cases n with
  | int n =>
    simp only [Numeric.toReal]
    split
    · exact confined_ok _
    · exact confined_fail hok (by simp)
  | real x => exact confined_ok x

theorem Numeric.confined_floor (n : Numeric) : Confined ok n.floor := by
  cases n with
  | int n => exact confined_ok n
  | real x =>
    simp only [Numeric.floor]
    split
    · exact confined_ok _
    · exact confined_fail hok (by simp)

/-- The bounds of a loop. -/
theorem confined_floors (a b c : Numeric) :
    Confined ok (do return (← a.floor, ← b.floor, ← c.floor) : Attempt (Int × Int × Int)) :=
  (a.confined_floor hok).bind fun _ => (b.confined_floor hok).bind fun _ =>
    (c.confined_floor hok).bind fun _ => confined_ok _

theorem Numeric.confined_round (n : Numeric) : Confined ok n.round := by
  cases n with
  | int n => exact confined_ok n
  | real x =>
    simp only [Numeric.round]
    split
    · exact confined_ok _
    · exact confined_fail hok (by simp)

/-- Texts have no floor, and neither has what holds nothing. -/
theorem Value.confined_floor (v : Value)
    (h : (∃ s, v = .text s) ∨ v = .absent → ok (.breakdown .notNumeric)) : Confined ok v.floor := by
  cases v with
  | bool b => exact confined_ok _
  | int n => exact confined_ok n
  | real x => exact Numeric.confined_floor hok (.real x)
  | text s => exact confined_breakDown (h (Or.inl ⟨s, rfl⟩))
  | absent => exact confined_breakDown (h (Or.inr rfl))

theorem confined_toIndex (v : Value) : Confined ok v.toIndex := by
  unfold Value.toIndex
  split
  · exact Numeric.confined_floor hok _
  · exact confined_fail hok (by simp)

theorem confined_ofText (type : DataType) (s : String) : Confined ok (Value.ofText type s) := by
  unfold Value.ofText
  split
  · split
    · exact confined_ok _
    · exact confined_ok _
    · exact confined_breakDown hok.digits
  · exact confined_ok _
  · exact confined_ok _
  · exact confined_ok _

/-- Two numbers turned into doubles. -/
theorem confined_reals {β : Type} (m n : Numeric) {f : Float → Float → Attempt β}
    (hf : ∀ x y, Confined ok (f x y)) :
    Confined ok (do
      let x ← m.toReal
      let y ← n.toReal
      f x y) :=
  (m.confined_toReal hok).bind fun x => (n.confined_toReal hok).bind fun y => hf x y

theorem confined_equals (a b : Value) : Confined ok (a.equals b) := by
  unfold Value.equals
  split
  · exact confined_ok _
  · exact confined_ok _
  · exact confined_ok _
  · split
    · exact confined_reals hok _ _ fun x y => confined_ok _
    · exact confined_ok _

theorem confined_arithmetic {f : Float → Float → Attempt Float} (hf : ∀ x y, Confined ok (f x y))
    (a b : Value) (divides : Bool) : Confined ok (Value.arithmetic f a b divides) := by
  unfold Value.arithmetic
  split
  · split
    · exact confined_fail hok (by simp)
    · exact confined_reals hok _ _ fun x y => (hf x y).bind fun z => confined_ok _
  · exact confined_fail hok (by simp)

omit hok in
theorem arithmetic_of_numeric (f : Float → Float → Attempt Float) {a b : Value} {k n : Numeric}
    {divides : Bool} (ha : a.numeric? = some k) (hb : b.numeric? = some n)
    (hn : (divides && n.isZero) = false) :
    Value.arithmetic f a b divides = (do
      let x ← k.toReal
      let y ← n.toReal
      return .real (← f x y)) := by
  simp only [Value.arithmetic, ha, hb, hn]
  rfl

theorem confined_ordered (f : Float → Float → Bool) (g : String → String → Bool) (a b : Value) :
    Confined ok (Value.ordered f g a b) := by
  unfold Value.ordered
  split
  · exact confined_ok _
  · split
    · exact confined_reals hok _ _ fun x y => confined_ok _
    · exact confined_fail hok (by simp)

theorem confined_logical (f : Bool → Bool → Bool) (a b : Value) :
    Confined ok (Value.logical f a b) := by
  unfold Value.logical
  split
  · exact confined_ok _
  · exact confined_fail hok (by simp)

omit hok in
/-- A number that is infinite as a double is a real. -/
theorem Numeric.eq_real_of_isInfinite {k : Numeric} {x : Float} (hk : k.toReal = .ok x)
    (hx : Number.isInfinite x = true) : k = .real x := by
  cases k with
  | real y =>
    cases hk
    rfl
  | int i =>
    simp only [Numeric.toReal] at hk
    split at hk
    · next hfinite =>
      cases hk
      simp [Number.isInfinite, hfinite] at hx
    · cases hk

/-- Two values without a remainder: an infinite number, and a number that is neither zero nor a
NaN. -/
def Value.LacksRemainder (a b : Value) : Prop :=
  ∃ x n y, a = .real x ∧ Number.isInfinite x = true ∧ b.numeric? = some n ∧ n.isZero = false ∧
    n.toReal = .ok y ∧ (y == y) = true

/-- MOD breaks down otherwise than for too many digits only if there is no remainder. -/
theorem confined_mod {a b : Value} (h : a.LacksRemainder b → ok (.breakdown .infiniteRemainder)) :
    Confined ok (Value.arithmetic Value.remainder a b true) := by
  unfold Value.arithmetic
  split
  · next k n ha hb =>
    split
    · exact confined_fail hok (by simp)
    · next hzero =>
      intro halt hhalt
      cases hx : k.toReal with
      | error e =>
        rw [hx] at hhalt
        cases hhalt
        exact k.confined_toReal hok _ hx
      | ok x =>
        cases hy : n.toReal with
        | error e =>
          rw [hx, hy] at hhalt
          cases hhalt
          exact n.confined_toReal hok _ hy
        | ok y =>
          rw [hx, hy] at hhalt
          replace hhalt : (Value.remainder x y >>= fun z => pure (Value.real z)) = _ := hhalt
          unfold Value.remainder at hhalt
          split at hhalt
          · next hlacks =>
            cases hhalt
            obtain ⟨hinfinite, hself⟩ := Bool.and_eq_true_iff.mp hlacks
            obtain rfl := Numeric.eq_real_of_isInfinite hx hinfinite
            refine h ⟨x, n, y, ?_, hinfinite, hb, by simpa using hzero, hy, hself⟩
            cases a <;> cases ha
            rfl
          · cases hhalt
  · exact confined_fail hok (by simp)

/-- Of the operators only MOD breaks down otherwise than for too many digits. -/
theorem BinaryOp.confined_apply (op : BinaryOp) (a b : Value)
    (hmod : op = .mod → a.LacksRemainder b → ok (.breakdown .infiniteRemainder)) :
    Confined ok (op.apply a b) := by
  have hexact : ∀ (f : Float → Float → Float) x y, Confined ok (.ok (f x y) : Attempt Float) :=
    fun f x y => confined_ok _
  cases op with
  | add => exact confined_arithmetic hok (hexact _) a b _
  | sub => exact confined_arithmetic hok (hexact _) a b _
  | mul => exact confined_arithmetic hok (hexact _) a b _
  | div => exact confined_arithmetic hok (hexact _) a b _
  | floorDiv => exact confined_arithmetic hok (hexact _) a b _
  | mod => exact confined_mod hok (hmod rfl)
  | pow => exact confined_arithmetic hok (hexact _) a b _
  | concat =>
    exact (confined_shown hok a).bind fun s => (confined_shown hok b).bind fun t => confined_ok _
  | eq => exact (confined_equals hok a b).bind fun c => confined_ok _
  | ne => exact (confined_equals hok a b).bind fun c => confined_ok _
  | lt => exact confined_ordered hok _ _ a b
  | gt => exact confined_ordered hok _ _ a b
  | le => exact confined_ordered hok _ _ a b
  | ge => exact confined_ordered hok _ _ a b
  | and => exact confined_logical hok _ a b
  | or => exact confined_logical hok _ a b
  | other symbol => exact confined_fail hok (by simp)

theorem UnaryOp.confined_apply (op : UnaryOp) (a : Value) : Confined ok (op.apply a) := by
  cases op with
  | neg =>
    simp only [UnaryOp.apply]
    split
    · exact (Numeric.confined_toReal hok _).bind fun x => confined_ok _
    · exact confined_fail hok (by simp)
  | not => cases a <;> first | exact confined_ok _ | exact confined_fail hok (by simp)
  | other symbol => exact confined_fail hok (by simp)

/-! ## Built-in functions -/

theorem confined_checkArity (b : Builtin) (count : Int) : Confined ok (b.checkArity count) := by
  unfold Builtin.checkArity
  split
  · exact confined_ok _
  · exact confined_fail hok (by simp)

theorem confined_applySubstring (text start length : Value) :
    Confined ok (Builtin.applySubstring text start length) := by
  unfold Builtin.applySubstring
  split
  · refine (Numeric.confined_round hok _).bind fun first =>
      (Numeric.confined_round hok _).bind fun count => ?_
    split
    · exact confined_fail hok (by simp)
    · split
      · exact confined_fail hok (by simp)
      · exact confined_ok _
  · exact confined_fail hok (by simp)

theorem confined_applyInt (v : Value) : Confined ok (Builtin.applyInt v) := by
  unfold Builtin.applyInt
  split
  · exact confined_ok _
  · exact confined_ofText hok _ _
  · split
    · exact (Numeric.confined_floor hok _).bind fun n => confined_ok _
    · exact confined_ok _

theorem confined_applyReal (v : Value) : Confined ok (Builtin.applyReal v) := by
  unfold Builtin.applyReal
  split
  · exact confined_ok _
  · exact confined_ofText hok _ _
  · split
    · exact (Numeric.confined_toReal hok _).bind fun x => confined_ok _
    · exact confined_ok _

theorem confined_scalable (n : Numeric) : Confined ok (Builtin.scalable n) := by
  cases n with
  | int n => exact confined_ok _
  | real x =>
    simp only [Builtin.scalable]
    split
    · exact confined_ok _
    · exact confined_fail hok (by simp)

theorem confined_roundScaled (n : Numeric) (places : Int) :
    Confined ok (Builtin.roundScaled n places) := by
  unfold Builtin.roundScaled
  dsimp only
  split
  · exact confined_fail hok (by simp)
  · refine (confined_scalable hok n).bind fun x => ?_
    split
    · exact confined_fail hok (by simp)
    · split
      · exact confined_fail hok (by simp)
      · exact confined_ok _

theorem confined_applyRound (value places : Value) :
    Confined ok (Builtin.applyRound value places) := by
  unfold Builtin.applyRound
  split
  · refine (Numeric.confined_round hok _).bind fun p => ?_
    exact (confined_roundScaled hok _ p).bind fun x => confined_ok _
  · exact confined_fail hok (by simp)

theorem confined_applyEndOfFile (files : FileTable) (name : Value) :
    Confined ok (Builtin.applyEndOfFile files name) := by
  refine (confined_shown hok name).bind fun s => ?_
  split
  · exact confined_ok _
  · exact confined_fail hok (by simp)

theorem confined_applyOne (b : Builtin) (v : Value) : Confined ok (b.applyOne v) := by
  unfold Builtin.applyOne
  split
  · exact confined_ok _
  · exact confined_ok _
  · exact confined_ok _
  · exact confined_applyInt hok _
  · exact confined_applyReal hok _
  · exact (confined_shown hok _).bind fun s => confined_ok _
  · exact confined_fail hok (by simp)

/-- A built-in function breaks down in other ways only if its number of arguments is wrong. -/
theorem Builtin.confined_apply (b : Builtin) (files : Option FileTable) (draw : Float)
    (arguments : List Value) (h : arguments.length ≠ b.arity → ∀ x, ok (.breakdown x)) :
    Confined ok (b.apply files draw arguments) := by
  unfold Builtin.apply
  split
  · exact confined_ok _
  · exact confined_applySubstring hok _ _ _
  · next hother =>
    refine confined_breakDown (h (fun hlength => ?_) _)
    obtain ⟨text, start, count, rfl⟩ := List.length_eq_three.mp hlength
    exact hother text start count rfl
  · exact confined_applyRound hok _ _
  · next hother =>
    refine confined_breakDown (h (fun hlength => ?_) _)
    obtain ⟨value, places, rfl⟩ := List.length_eq_two.mp hlength
    exact hother value places rfl
  · exact confined_fail hok (by simp)
  · exact confined_applyEndOfFile hok _ _
  · exact confined_applyOne hok _ _
  · next hrandom hsubstring hround heof =>
    refine confined_breakDown (h (fun hlength => ?_) _)
    cases b <;> simp_all [Builtin.arity]

/-! ## Variables -/

theorem confined_resolve (name : Option String) : Confined ok (DataType.resolve name) := by
  unfold DataType.resolve
  split
  · exact confined_ok _
  · exact confined_fail hok (by simp)

omit hok in
/-- An array needs bounds. -/
theorem Shape.confined_variable (type : DataType) (shape : Shape)
    (h : shape = .unbounded ∨ shape = .array [] → ∀ x, ok (.breakdown x)) :
    Confined ok (shape.variable type) := by
  cases shape with
  | scalar => exact confined_ok _
  | array bounds =>
    cases bounds with
    | nil => exact confined_breakDown (h (Or.inr rfl) _)
    | cons d rest => exact confined_ok _
  | unbounded => exact confined_breakDown (h (Or.inl rfl) _)

theorem Memory.confined_locate (m : Memory) (scope : Scope) (name : String) :
    Confined ok (m.locate scope name) := by
  unfold Memory.locate
  split
  · exact confined_ok _
  · exact confined_fail hok (by simp)

theorem confined_elementLabel (name : String) (indices : List Int) :
    Confined ok (Destination.elementLabel name indices) :=
  (Confined.mapM (fun _ => confined_written hok _) indices).bind fun _ => confined_ok _

theorem confined_checkCount (bounds : Bounds) (name : String) (indices : List Int) :
    Confined ok (bounds.checkCount name indices) := by
  unfold Bounds.checkCount
  split
  · exact confined_ok _
  · exact confined_fail hok (by simp)

theorem confined_failOutside {α : Type} (name : String) (i lower upper : Int) :
    Confined ok (Bounds.failOutside name i lower upper : Attempt α) := by
  unfold Bounds.failOutside
  split
  · exact confined_fail hok (by simp)
  · exact confined_breakDown hok.digits

theorem Grid.confined_locate (g : Grid) (name : String) (indices : List Int) :
    Confined ok (g.locate name indices) := by
  refine (confined_checkCount hok _ _ _).bind fun _ => ?_
  split
  · exact confined_failOutside hok _ _ _ _
  · exact confined_ok _

theorem Grid.confined_get (g : Grid) (name : String) (indices : List Int) :
    Confined ok (g.get name indices) := by
  refine (g.confined_locate hok name indices).bind fun k => ?_
  split
  · exact confined_ok _
  · exact confined_fail hok (by simp)

section Elements

variable (hbreak : ∀ x, ok (.breakdown x))
include hbreak

omit hok in
theorem confined_pick (value : Value) (i : Int) : Confined ok (Variable.pick value i) := by
  unfold Variable.pick
  split
  · dsimp only
    split
    · exact confined_ok _
    · exact confined_breakDown (hbreak _)
  · exact confined_breakDown (hbreak _)

theorem confined_seek (name : String) (value : Value) (bounds : Bounds) (indices : List Int) :
    Confined ok (Variable.seek name value bounds indices) := by
  induction bounds generalizing value indices with
  | nil => exact confined_breakDown (hbreak _)
  | cons d rest ih =>
    cases indices with
    | nil => exact confined_breakDown (hbreak _)
    | cons i is =>
      unfold Variable.seek
      split
      · exact (confined_pick hbreak value i).bind fun v => ih v is
      · exact confined_failOutside hok _ _ _ _

end Elements

/-- Anything but an array has no elements, and breaks down in its own way. -/
theorem Variable.confined_place (v : Variable) (name : String) (indices : List Int)
    (h : (∀ element grid, v ≠ .array element grid) → ∀ x, ok (.breakdown x)) :
    Confined ok (v.place name indices) := by
  cases v with
  | scalar type held => exact confined_breakDown (h (by simp) _)
  | array element grid => exact grid.confined_locate hok name indices
  | replaced element bounds value =>
    exact (confined_checkCount hok _ _ _).bind fun _ =>
      confined_seek hok (h (by simp)) name value bounds indices

theorem Variable.confined_getElement (v : Variable) (name : String) (indices : List Int)
    (h : (∀ element grid, v ≠ .array element grid) → ∀ x, ok (.breakdown x)) :
    Confined ok (v.getElement name indices) := by
  cases v with
  | array element grid => exact grid.confined_get hok name indices
  | scalar type held =>
    exact (Variable.confined_place hok _ name indices h).bind fun _ =>
      confined_breakDown (h (by simp) _)
  | replaced element bounds value =>
    exact (Variable.confined_place hok _ name indices h).bind fun _ =>
      confined_breakDown (h (by simp) _)

/-! ## Limits -/

omit hok in
theorem Limit.confined_allows (l : Limit) (count : Nat)
    (h : l = .unusable → ok (.breakdown .unusableLimit)) : Confined ok (l.allows count) := by
  cases l with
  | unusable => exact confined_breakDown (h rfl)
  | _ => exact confined_ok _

theorem Machine.confined_checkDepth (m : Machine) (depth : Nat)
    (h : m.settings.maxDepth = .unusable → ok (.breakdown .unusableLimit)) :
    Confined ok (m.checkDepth depth) := by
  refine (Limit.confined_allows _ _ h).bind fun allowed => ?_
  split
  · exact confined_ok _
  · exact confined_fail hok (by simp)

end Computations

end Pseudocode

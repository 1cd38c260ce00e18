import Pseudocode.Proofs.Nesting
import Pseudocode.Value.Operator
import Pseudocode.Builtin

/-!
# The history of a store

Whatever happens to the variables of a program is a sequence of events: a variable is made, a scalar
is assigned, a cell of an array is filled. `StoreEvent.Fits` says when an event is in order: a
scalar is made with a proper value or none, an array is made blank or as a copy, only scalars are
assigned as a whole, and only a cell that the array has is filled. A store with a history of such
events (`Fitting`) is sound if it was sound at first: no variable and no cell holds anything but a
proper value, and every array has its cells.

Results:
* `SoundStore.replay`: fitting events keep a store sound.
* `declared_replay`: a variable keeps its type, and an array its bounds.
* `blank_replay`, `blank_cell_replay`: what was empty and has not been assigned since is empty.
* `BinaryOp.apply_proper`, `UnaryOp.apply_proper`, `Builtin.apply_proper`: operators and functions
  give proper values.
-/

namespace Pseudocode

/-! ## Proper values -/

/-- A truth value, a whole number, a real or a text. -/
inductive Value.IsProper : Value → Prop
  | bool (b : Bool) : IsProper (.bool b)
  | int (n : Int) : IsProper (.int n)
  | real (x : Float) : IsProper (.real x)
  | text (s : String) : IsProper (.text s)

/-- If an attempt gives a result, it is one of which `P` holds. -/
def Yields {α : Type} (P : α → Prop) (a : Attempt α) : Prop :=
  ∀ x, a = .ok x → P x

section Attempts

variable {α β : Type} {P : β → Prop}

theorem yields_ok {x : β} (h : P x) : Yields P (.ok x) := by
  rintro _ ⟨⟩
  exact h

theorem yields_error (h : Halt) : Yields P (.error h : Attempt β) := by
  rintro _ ⟨⟩

theorem Yields.bind {a : Attempt α} {k : α → Attempt β} (hk : ∀ x, Yields P (k x)) :
    Yields P (a >>= k) := by
  cases a with
  | error h => exact yields_error h
  | ok x => exact hk x

theorem proper_arithmetic (f : Float → Float → Attempt Float) (a b : Value) (divides : Bool) :
    Yields Value.IsProper (Value.arithmetic f a b divides) := by
  unfold Value.arithmetic
  split
  · split
    · exact yields_error _
    · exact .bind fun _ => .bind fun _ => .bind fun x => yields_ok (.real x)
  · exact yields_error _

theorem proper_ordered (f : Float → Float → Bool) (g : String → String → Bool) (a b : Value) :
    Yields Value.IsProper (Value.ordered f g a b) := by
  unfold Value.ordered
  split
  · exact yields_ok (.bool _)
  · split
    · exact .bind fun _ => .bind fun _ => yields_ok (.bool _)
    · exact yields_error _

theorem proper_logical (f : Bool → Bool → Bool) (a b : Value) :
    Yields Value.IsProper (Value.logical f a b) := by
  unfold Value.logical
  split
  · exact yields_ok (.bool _)
  · exact yields_error _

/-- **An operator between two values gives a proper value**, whatever the operands are. -/
theorem BinaryOp.apply_proper (op : BinaryOp) (a b : Value) :
    Yields Value.IsProper (op.apply a b) := by
  cases op with
  | concat => exact .bind fun _ => .bind fun _ => yields_ok (.text _)
  | eq => exact .bind fun _ => yields_ok (.bool _)
  | ne => exact .bind fun _ => yields_ok (.bool _)
  | lt => exact proper_ordered _ _ a b
  | gt => exact proper_ordered _ _ a b
  | le => exact proper_ordered _ _ a b
  | ge => exact proper_ordered _ _ a b
  | and => exact proper_logical _ a b
  | or => exact proper_logical _ a b
  | other symbol => exact yields_error _
  | _ => exact proper_arithmetic _ a b _

theorem UnaryOp.apply_proper (op : UnaryOp) (a : Value) : Yields Value.IsProper (op.apply a) := by
  unfold UnaryOp.apply
  split
  · split
    · exact .bind fun _ => yields_ok (.real _)
    · exact yields_error _
  · split
    · exact yields_ok (.bool _)
    · exact yields_error _
  · exact yields_error _

theorem Value.ofText_proper (type : DataType) (s : String) :
    Yields Value.IsProper (Value.ofText type s) := by
  unfold Value.ofText
  split
  · split
    · exact yields_ok (.int _)
    · exact yields_ok (.int _)
    · exact yields_error _
  · exact yields_ok (.real _)
  · exact yields_ok (.bool _)
  · exact yields_ok (.text _)

theorem Builtin.applyOne_proper (b : Builtin) (v : Value) :
    Yields Value.IsProper (b.applyOne v) := by
  unfold Builtin.applyOne
  split
  · exact yields_ok (.int _)
  · exact yields_ok (.text _)
  · exact yields_ok (.text _)
  · unfold Builtin.applyInt
    split
    · exact yields_ok (.int _)
    · exact Value.ofText_proper _ _
    · split
      · exact .bind fun _ => yields_ok (.int _)
      · exact yields_ok (.int _)
  · unfold Builtin.applyReal
    split
    · exact yields_ok (.real _)
    · exact Value.ofText_proper _ _
    · split
      · exact .bind fun _ => yields_ok (.real _)
      · exact yields_ok (.real _)
  · exact .bind fun _ => yields_ok (.text _)
  · exact yields_error _

/-- **A built-in function gives a proper value.** -/
theorem Builtin.apply_proper (b : Builtin) (files : Option FileTable) (draw : Float)
    (arguments : List Value) : Yields Value.IsProper (b.apply files draw arguments) := by
  unfold Builtin.apply
  split
  · exact yields_ok (.real _)
  · unfold Builtin.applySubstring
    split
    · refine .bind fun _ => .bind fun _ => ?_
      split
      · exact yields_error _
      · split
        · exact yields_error _
        · exact yields_ok (.text _)
    · exact yields_error _
  · exact yields_error _
  · unfold Builtin.applyRound
    split
    · exact .bind fun _ => .bind fun _ => yields_ok (.real _)
    · exact yields_error _
  · exact yields_error _
  · exact yields_error _
  · refine .bind fun _ => ?_
    split
    · exact yields_ok (.bool _)
    · exact yields_error _
  · exact Builtin.applyOne_proper _ _
  · exact yields_error _

end Attempts

/-! ## Sound variables -/

/-- A sound variable: a scalar that holds a proper value or none, or an array whose cells do. Such
an array has at least one dimension, and has never been assigned as a whole. -/
inductive Variable.Sound : Variable → Prop
  | scalar {type : DataType} {held : Option Value} (ht : type ≠ .array)
      (hv : ∀ v ∈ held, v.IsProper) :
    Sound (.scalar type held)
  | array {element : DataType} {grid : Grid} (hb : grid.bounds ≠ [])
    (hv : ∀ v, some v ∈ grid.cells → v.IsProper) : Sound (.array element grid)

theorem Variable.isArray_scalar {type : DataType} (ht : type ≠ .array) (held : Option Value) :
    (Variable.scalar type held).isArray = false :=
  beq_false_of_ne ht

/-- Every variable of a store is sound. -/
def SoundStore (store : Array Variable) : Prop :=
  ∀ (i : Nat) (v : Variable), store[i]? = some v → v.Sound

/-- What a variable was declared as: its type, and the element type and bounds of an array. -/
def Variable.declared : Variable → DataType × Option (DataType × Bounds)
  | .scalar type _ => (type, none)
  | .array element grid => (.array, some (element, grid.bounds))
  | .replaced element bounds _ => (.array, some (element, bounds))

namespace Variable

variable {v : Variable}

theorem declared_assign (v : Variable) (value : Value) :
    (v.assign value).declared = v.declared := by
  cases v <;> rfl

theorem declared_putAt (v : Variable) (k : Nat) (value : Value) :
    (v.putAt k value).declared = v.declared := by
  cases v <;> rfl

/-- A sound variable that is not an array is a scalar. -/
theorem Sound.scalar_of_not_isArray (h : v.Sound) (hv : ¬v.isArray = true) :
    ∃ type held, v = .scalar type held := by
  cases h with
  | scalar => exact ⟨_, _, rfl⟩
  | array => exact absurd rfl hv

theorem Sound.array_of_isArray (h : v.Sound) (hv : v.isArray = true) :
    ∃ element grid, v = .array element grid := by
  cases h with
  | scalar ht => exact absurd (by simpa [isArray, type] using hv) ht
  | array => exact ⟨_, _, rfl⟩

theorem Sound.held_proper (h : v.Sound) {value : Value} (hv : v.held? = some value) :
    value.IsProper := by
  cases h with
  | scalar _ hproper => exact hproper value hv
  | array => cases hv

/-- The value of an element is proper. -/
theorem Sound.getElement_proper (h : v.Sound) (name : String) (indices : List Int) :
    Yields Value.IsProper (v.getElement name indices) := by
  cases h with
  | scalar => exact yields_error _
  | @array element grid hb hv =>
    refine .bind fun k => ?_
    split
    · next value hvalue =>
      refine yields_ok (hv value ?_)
      exact Array.mem_of_getElem? (Option.join_eq_some_iff.mp hvalue)
    · exact yields_error _

end Variable

/-! ## Events -/

/-- What can happen to the variables of a program. -/
inductive StoreEvent where
  /-- A variable is made, at the next location. -/
  | made (v : Variable)
  /-- A variable is assigned as a whole. -/
  | assigned (l : Location) (value : Value)
  /-- A cell of an array is assigned. -/
  | filled (l : Location) (k : Nat) (value : Value)

namespace StoreEvent

/-- The store after an event. -/
def apply (store : Array Variable) : StoreEvent → Array Variable
  | made v => store.push v
  | assigned l value => store.modify l.index (·.assign value)
  | filled l k value => store.modify l.index (·.putAt k value)

/-- Whether an event is in order. -/
inductive Fits (store : Array Variable) : StoreEvent → Prop
  | scalar {type : DataType} (held : Option Value) (ht : type ≠ .array)
      (hv : ∀ v ∈ held, v.IsProper) :
    Fits store (.made (.scalar type held))
  | array (element : DataType) {bounds : Bounds} (hb : bounds ≠ []) :
    Fits store (.made (.array element (Grid.blank bounds)))
  | copy {l : Location} {element : DataType} {grid : Grid}
      (hl : store[l.index]? = some (.array element grid)) :
    Fits store (.made (.array element grid))
  | assigned {l : Location} {type : DataType} {held : Option Value} {value : Value}
      (hl : store[l.index]? = some (.scalar type held)) (hv : value.IsProper) :
      Fits store (.assigned l value)
  | filled {l : Location} {element : DataType} {grid : Grid} {k : Nat} {value : Value}
      (hl : store[l.index]? = some (.array element grid)) (hk : k < grid.cells.size)
      (hv : value.IsProper) :
    Fits store (.filled l k value)

/-- Whether an event assigns the variable at a location as a whole. -/
def Assigns (l : Location) : StoreEvent → Prop
  | assigned l' _ => l' = l
  | _ => False

/-- Whether an event fills a cell of the array at a location. -/
def Fills (l : Location) (k : Nat) : StoreEvent → Prop
  | filled l' k' _ => l' = l ∧ k' = k
  | _ => False

end StoreEvent

/-- Every event of a history is in order when it happens. -/
def Fitting : Array Variable → List StoreEvent → Prop
  | _, [] => True
  | store, e :: rest => e.Fits store ∧ Fitting (e.apply store) rest

/-- The store after a history. -/
def replay (store : Array Variable) (events : List StoreEvent) : Array Variable :=
  events.foldl StoreEvent.apply store

section Histories

variable {store : Array Variable} {events : List StoreEvent} {e : StoreEvent} {l : Location}

theorem replay_append (store : Array Variable) (before after : List StoreEvent) :
    replay store (before ++ after) = replay (replay store before) after :=
  List.foldl_append

theorem fitting_append {before after : List StoreEvent} :
    Fitting store (before ++ after) ↔
      Fitting store before ∧ Fitting (replay store before) after := by
  induction before generalizing store with
  | nil => exact (iff_of_eq (true_and _)).symm
  | cons e rest ih => exact (and_congr_right fun _ => ih).trans and_assoc.symm

/-- What fitting events keep holds after a history if it held before. -/
theorem Fitting.keeps {I : Array Variable → Prop} (h : Fitting store events)
    (hstep : ∀ store, ∀ e ∈ events, e.Fits store → I store → I (e.apply store)) (hstore : I store) :
    I (replay store events) := by
  induction events generalizing store with
  | nil => exact hstore
  | cons e rest ih =>
    exact ih h.2 (fun store e he => hstep store e (List.mem_cons_of_mem _ he))
      (hstep store e List.mem_cons_self h.1 hstore)

/-! ## One event -/

theorem getElem?_made (store : Array Variable) (v : Variable) {i : Nat} (hi : i < store.size) :
    ((StoreEvent.made v).apply store)[i]? = store[i]? := by
  rw [StoreEvent.apply, Array.getElem?_push, if_neg (Nat.ne_of_lt hi)]

theorem getElem?_assigned (store : Array Variable) (l : Location) (value : Value) (i : Nat) :
    ((StoreEvent.assigned l value).apply store)[i]? =
      if l.index = i then store[i]?.map (·.assign value) else store[i]? :=
  Array.getElem?_modify

theorem getElem?_filled (store : Array Variable) (l : Location) (k : Nat)
    (value : Value) (i : Nat) :
    ((StoreEvent.filled l k value).apply store)[i]? =
      if l.index = i then store[i]?.map (·.putAt k value) else store[i]? :=
  Array.getElem?_modify

theorem Variable.Sound.blank {element : DataType} {bounds : Bounds} (hb : bounds ≠ []) :
    Variable.Sound (.array element (Grid.blank bounds)) := by
  refine .array hb fun v hv => ?_
  rw [Grid.blank, Array.mem_replicate] at hv
  cases hv.2

theorem Variable.Sound.putAt {v : Variable} (h : v.Sound) (k : Nat) {value : Value}
    (hvalue : value.IsProper) : (v.putAt k value).Sound := by
  cases h with
  | scalar ht hv => exact .scalar ht hv
  | array hb hv =>
    refine .array hb fun w hw => ?_
    rcases Array.mem_or_eq_of_mem_setIfInBounds hw with hw | hw
    · exact hv w hw
    · cases hw
      exact hvalue

/-- A fitting event keeps a store sound. -/
theorem SoundStore.apply (h : SoundStore store) (he : e.Fits store) :
    SoundStore (e.apply store) := by
  have hmade : ∀ {v : Variable}, v.Sound → SoundStore ((StoreEvent.made v).apply store) := by
    intro v hv i w hw
    rw [StoreEvent.apply, Array.getElem?_push] at hw
    split at hw
    · cases hw
      exact hv
    · exact h i w hw
  cases he with
  | scalar held ht hv => exact hmade (.scalar ht hv)
  | array element hb => exact hmade (.blank hb)
  | copy hl => exact hmade (h _ _ hl)
  | assigned hl hvalue =>
    intro i w hw
    rw [getElem?_assigned] at hw
    split at hw
    · next hi =>
      subst hi
      rw [hl] at hw
      cases hw
      cases h _ _ hl with
      | scalar ht _ =>
        refine .scalar ht fun v hv => ?_
        cases hv
        exact hvalue
    · exact h i w hw
  | filled hl hk hvalue =>
    intro i w hw
    rw [getElem?_filled] at hw
    split at hw
    · next hi =>
      obtain ⟨v, hv, rfl⟩ := Option.map_eq_some_iff.mp hw
      exact (h i v hv).putAt _ hvalue
    · exact h i w hw

/-- No event changes what a variable was declared as. -/
theorem StoreEvent.declared_apply (e : StoreEvent) {i : Nat}
    {d : DataType × Option (DataType × Bounds)} (h : store[i]?.map Variable.declared = some d) :
    (e.apply store)[i]?.map Variable.declared = some d := by
  obtain ⟨v, hv, rfl⟩ := Option.map_eq_some_iff.mp h
  cases e with
  | made w => rw [getElem?_made store w (Array.getElem?_eq_some_iff.mp hv).1, hv, Option.map_some]
  | assigned l value =>
    rw [getElem?_assigned, hv]
    split
    · exact congrArg some (v.declared_assign value)
    · rfl
  | filled l k value =>
    rw [getElem?_filled, hv]
    split
    · exact congrArg some (v.declared_putAt k value)
    · rfl

/-- An empty scalar stays empty unless it is assigned. -/
theorem StoreEvent.blank_apply {type : DataType} (h : store[l.index]? = some (.scalar type none))
    (he : ¬e.Assigns l) : (e.apply store)[l.index]? = some (.scalar type none) := by
  cases e with
  | made w => rw [getElem?_made store w (Array.getElem?_eq_some_iff.mp h).1, h]
  | assigned l' value => rw [getElem?_assigned, if_neg fun hl => he (congrArg Location.mk hl), h]
  | filled l' k value =>
    rw [getElem?_filled, h]
    split <;> rfl

/-- The array at a location, with one of its cells empty. -/
def BlankCell (l : Location) (k : Nat) (store : Array Variable) : Prop :=
  ∃ element grid, store[l.index]? = some (.array element grid) ∧ (grid.cells[k]?).join = none

/-- An empty cell stays empty unless it is filled. -/
theorem BlankCell.apply {k : Nat} (h : BlankCell l k store) (hfits : e.Fits store)
    (he : ¬e.Fills l k) : BlankCell l k (e.apply store) := by
  obtain ⟨element, grid, hl, hk⟩ := h
  cases e with
  | made w =>
    exact ⟨element,
      grid, by rw [getElem?_made store w (Array.getElem?_eq_some_iff.mp hl).1, hl], hk⟩
  | assigned l' value =>
    refine ⟨element, grid, ?_, hk⟩
    -- only scalars are assigned as a whole
    have hne : l'.index ≠ l.index := by
      intro heq
      cases hfits with
      | assigned hl' _ => rw [heq, hl] at hl'; cases hl'
    rw [getElem?_assigned, if_neg hne, hl]
  | filled l' k' value =>
    by_cases heq : l'.index = l.index
    · have hk' : k' ≠ k := fun h => he ⟨congrArg Location.mk heq, h⟩
      refine ⟨element, grid.putAt k' value, ?_, ?_⟩
      · rw [getElem?_filled, if_pos heq, hl]
        rfl
      · rw [Grid.putAt, Array.getElem?_setIfInBounds, if_neg hk', hk]
    · refine ⟨element, grid, ?_, hk⟩
      rw [getElem?_filled, if_neg heq, hl]

/-! ## Whole histories -/

/-- **Fitting events keep a store sound.** -/
theorem SoundStore.replay (h : SoundStore store) (hf : Fitting store events) :
    SoundStore (replay store events) :=
  hf.keeps (fun _ _ _ he h => h.apply he) h

/-- **A variable keeps its type, and an array its bounds.** -/
theorem declared_replay (events : List StoreEvent) {i : Nat}
    {d : DataType × Option (DataType × Bounds)} (h : store[i]?.map Variable.declared = some d) :
    (Pseudocode.replay store events)[i]?.map Variable.declared = some d := by
  induction events generalizing store with
  | nil => exact h
  | cons e rest ih => exact ih (e.declared_apply h)

/-- **What was empty and has not been assigned since is empty**: scalars. -/
theorem blank_replay {type : DataType} (h : store[l.index]? = some (.scalar type none))
    (hf : Fitting store events) (hnever : ∀ e ∈ events, ¬e.Assigns l) :
    (Pseudocode.replay store events)[l.index]? = some (.scalar type none) :=
  hf.keeps (I := fun store => store[l.index]? = some (.scalar type none))
    (fun _ e he _ h => StoreEvent.blank_apply h (hnever e he)) h

/-- The same of a cell of an array. -/
theorem blank_cell_replay {k : Nat} (h : BlankCell l k store) (hf : Fitting store events)
    (hnever : ∀ e ∈ events, ¬e.Fills l k) : BlankCell l k (Pseudocode.replay store events) :=
  hf.keeps (fun _ e he hfits h => h.apply hfits (hnever e he)) h

end Histories

end Pseudocode

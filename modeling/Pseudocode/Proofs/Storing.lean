import Pseudocode.Proofs.Activity
import Pseudocode.Proofs.Forms
import Pseudocode.Proofs.Histories
import Pseudocode.Proofs.Image

/-!
# How the variables of a program evolve

A machine is sound if its variables are and if the bodies of the routines it knows are writable, as
those of a parsed program are. A memory is legible if its global names are names of the language and
the bounds of its arrays can be written. `Evolves m m'` says that `m'` is sound, that fitting events
have led from the variables of `m` to those of `m'`, and that the memory is still legible if it was.

Results:
* `Evolves.of_event`: a fitting event.
* `ScalarAt.evolves`, `ArrayAt.evolves`, `HeldAt.evolves`: what a location is found to hold, it goes
  on holding.
* `makes_shape`, `makes_copy`: the variables that a program makes.
-/

namespace Pseudocode

open Eval

/-! ## Sound machines -/

/-- A machine with sound variables that knows writable routines only. -/
structure Machine.Sound (m : Machine) : Prop where
  store : SoundStore m.memory.store
  procedures : ∀ name p, m.procedures.find? name = some p → Block.Writable p.body
  functions : ∀ name f, m.functions.find? name = some f → Block.Writable f.body

/-- A variable whose bounds, if it has cells, are numbers that can be written. -/
def Variable.Legible : Variable → Prop
  | .array _ grid => ∀ d ∈ grid.bounds, d.1.natAbs < Number.writeLimit ∧
    d.2.natAbs < Number.writeLimit
  | _ => True

/-- A memory whose global names are names of the language, and whose variables are legible. -/
structure Memory.Legible (mem : Memory) : Prop where
  names : ∀ name ∈ mem.globals.names, IsName name
  store : ∀ l v, mem.at? l = some v → v.Legible

theorem Variable.legible_assign (v : Variable) (value : Value) : (v.assign value).Legible := by
  cases v <;> trivial

theorem Variable.Legible.putAt {v : Variable} (hv : v.Legible) (k : Nat) (value : Value) :
    (v.putAt k value).Legible := by
  cases v with
  | array element grid => exact hv
  | _ => trivial

namespace Memory.Legible

variable {mem : Memory} (h : mem.Legible)
include h

theorem update (l : Location) {f : Variable → Variable} (hf : ∀ v, v.Legible → (f v).Legible) :
    (mem.update l f).Legible := by
  refine ⟨h.names, fun l' v hv => ?_⟩
  have hat : (mem.store.modify l.index f)[l'.index]? = some v := hv
  rw [Array.getElem?_modify] at hat
  split_ifs at hat
  · obtain ⟨w, hw, rfl⟩ := Option.map_eq_some_iff.mp hat
    exact hf w (h.store l' w hw)
  · exact h.store l' v hat

theorem allocate {v : Variable} (hv : v.Legible) : (mem.allocate v).2.Legible := by
  refine ⟨h.names, fun l w hw => ?_⟩
  have hat : (mem.store.push v)[l.index]? = some w := hw
  rw [Array.getElem?_push] at hat
  split_ifs at hat
  · cases hat
    exact hv
  · exact h.store l w hat

/-- A name is bound: a local one, or one of the language. -/
theorem bind {scope : Scope} {name : String} (hname : scope.IsLocal ∨ IsName name) (l : Location) :
    (mem.bind scope name l).2.Legible := by
  cases scope with
  | «local» names => exact h
  | global =>
    have hname : IsName name := hname.resolve_left id
    refine ⟨fun other hother => ?_, h.store⟩
    have hlisted : other ∈ (Table.insertIn name l mem.globals.entries).map Prod.fst := hother
    rw [Table.names_insertIn] at hlisted
    split_ifs at hlisted
    · exact h.names other hlisted
    · rcases List.mem_append.mp hlisted with hold | hnew
      · exact h.names other hold
      · rw [List.mem_singleton.mp hnew]
        exact hname

end Memory.Legible

/-- A sound machine whose variables come from those of `m` by fitting events, and whose memory is
legible if that of `m` is. -/
structure Evolves (m m' : Machine) : Prop where
  sound : m'.Sound
  history : ∃ events, Fitting m.memory.store events ∧ m'.memory.store = replay m.memory.store events
  legible : m.memory.Legible → m'.memory.Legible

namespace Evolves

variable {m m₁ m' : Machine}

/-- A machine with the memory and the routines of a sound one. -/
theorem of_eq (hm : m.Sound) (hmemory : m'.memory = m.memory) (hp : m'.procedures = m.procedures)
    (hf : m'.functions = m.functions) : Evolves m m' :=
  ⟨⟨hmemory ▸ hm.store, hp ▸ hm.procedures, hf ▸ hm.functions⟩,
    ⟨[], trivial, congrArg Memory.store hmemory⟩, fun h => hmemory ▸ h⟩

theorem refl (hm : m.Sound) : Evolves m m :=
  of_eq hm rfl rfl rfl

theorem trans (h : Evolves m m₁) (h' : Evolves m₁ m') : Evolves m m' := by
  obtain ⟨before, hbefore, hm₁⟩ := h.history
  obtain ⟨after, hafter, hm'⟩ := h'.history
  refine ⟨h'.sound, ⟨before ++ after, fitting_append.mpr ⟨hbefore, hm₁ ▸ hafter⟩, ?_⟩,
    h'.legible ∘ h.legible⟩
  rw [hm', hm₁, replay_append]

/-- A fault that is charged to a line is noted, no more. -/
theorem charge (hm : m.Sound) (line : Int) (halt : Halt) : Evolves m (m.charge line halt).2 := by
  unfold Machine.charge
  split <;> exact of_eq hm rfl rfl rfl

/-- One event. -/
theorem of_event (hm : m.Sound) {e : StoreEvent} (he : e.Fits m.memory.store) {memory : Memory}
    (hstore : memory.store = e.apply m.memory.store)
    (hlegible : m.memory.Legible → memory.Legible) :
    Evolves m { m with memory := memory } where
  sound :=
    ⟨show SoundStore memory.store from hstore ▸ hm.store.apply he, hm.procedures, hm.functions⟩
  history := ⟨[e], ⟨he, trivial⟩, hstore⟩
  legible := hlegible

end Evolves

/-! ## What a location holds -/

/-- A location that holds a scalar. -/
def ScalarAt (l : Location) (m : Machine) : Prop :=
  ∃ type, (m.memory.at? l).map Variable.declared = some (type, none)

section Locations

variable {m m' : Machine} {l : Location}

/-- A scalar stays one. -/
theorem ScalarAt.evolves (h : ScalarAt l m) (hm : Evolves m m') : ScalarAt l m' := by
  obtain ⟨type, h⟩ := h
  obtain ⟨events, -, hstore⟩ := hm.history
  refine ⟨type, ?_⟩
  unfold Memory.at?
  rw [hstore]
  exact declared_replay events h

theorem ScalarAt.of_at? {type : DataType} {held : Option Value}
    (h : m.memory.at? l = some (.scalar type held)) : ScalarAt l m :=
  ⟨type, by rw [h]; rfl⟩

theorem ScalarAt.exists_at? (h : ScalarAt l m) :
    ∃ type held, m.memory.at? l = some (.scalar type held) := by
  obtain ⟨type, h⟩ := h
  obtain ⟨v, hv, hd⟩ := Option.map_eq_some_iff.mp h
  cases v with
  | scalar type held => exact ⟨type, held, hv⟩
  | array => cases hd
  | replaced => cases hd

theorem ScalarAt.of_not_isArray (hm : m.Sound) {v : Variable} (hv : m.memory.at? l = some v)
    (harray : ¬v.isArray = true) : ScalarAt l m := by
  obtain ⟨type, held, rfl⟩ := (hm.store _ _ hv).scalar_of_not_isArray harray
  exact .of_at? hv

/-- A location that holds an array. -/
def ArrayAt (l : Location) (m : Machine) : Prop :=
  ∃ d, (m.memory.at? l).map Variable.declared = some (.array, d)

/-- An array stays one. -/
theorem ArrayAt.evolves (h : ArrayAt l m) (hm : Evolves m m') : ArrayAt l m' := by
  obtain ⟨d, h⟩ := h
  obtain ⟨events, -, hstore⟩ := hm.history
  refine ⟨d, ?_⟩
  unfold Memory.at?
  rw [hstore]
  exact declared_replay events h

theorem ArrayAt.array (h : ArrayAt l m) (hm : m.Sound) {v : Variable}
    (hv : m.memory.at? l = some v) : ∃ element grid, v = .array element grid := by
  obtain ⟨d, h⟩ := h
  rw [hv] at h
  cases hm.store _ _ hv with
  | scalar ht => exact absurd (congrArg Prod.fst (Option.some.inj h)) ht
  | array => exact ⟨_, _, rfl⟩

theorem ArrayAt.of_isArray {v : Variable} (hv : m.memory.at? l = some v) (h : v.isArray = true) :
    ArrayAt l m := by
  have htype : v.type = .array := by simpa [Variable.isArray] using h
  refine ⟨v.declared.2, ?_⟩
  rw [hv, Option.map_some, ← htype]
  cases v <;> rfl

/-- A scalar that has been assigned. -/
def HeldAt (l : Location) (m : Machine) : Prop :=
  ∃ type v, m.memory.at? l = some (.scalar type (some v))

/-- A scalar that has been assigned never becomes empty again. -/
theorem HeldAt.evolves (h : HeldAt l m) (hm : Evolves m m') : HeldAt l m' := by
  obtain ⟨events, hfits, hstore⟩ := hm.history
  unfold HeldAt Memory.at?
  rw [hstore]
  refine hfits.keeps (I := fun store =>
    ∃ type v, store[l.index]? = some (.scalar type (some v))) ?_ h
  rintro store e - - ⟨type, v, hv⟩
  cases e with
  | made w =>
    exact ⟨type, v, by rw [getElem?_made store w (Array.getElem?_eq_some_iff.mp hv).1, hv]⟩
  | assigned l' value =>
    rw [getElem?_assigned, hv]
    split
    · exact ⟨type, value, rfl⟩
    · exact ⟨type, v, rfl⟩
  | filled l' k value =>
    rw [getElem?_filled, hv]
    split
    · exact ⟨type, v, rfl⟩
    · exact ⟨type, v, rfl⟩

end Locations

/-! ## New variables -/

/-- A variable that may be made: an event that fits, and legible if the others are. -/
structure Variable.Makes (v : Variable) (mem : Memory) : Prop where
  fits : (StoreEvent.made v).Fits mem.store
  legible : mem.Legible → v.Legible

theorem makes_scalar (mem : Memory) {type : DataType} (held : Option Value) (ht : type ≠ .array)
    (hv : ∀ v ∈ held, v.IsProper) : (Variable.scalar type held).Makes mem :=
  ⟨.scalar held ht hv, fun _ => trivial⟩

/-- The variable of a DECLARE. -/
theorem makes_shape (mem : Memory) {type : DataType} (ht : type ≠ .array) {shape : Shape}
    (hs : shape.Writable) {v : Variable} (hv : shape.variable type = .ok v) : v.Makes mem := by
  cases hs with
  | scalar =>
    cases hv
    exact makes_scalar mem none ht (by simp)
  | @array bounds hne hb =>
    cases bounds with
    | nil => exact absurd rfl hne
    | cons d rest =>
      cases hv
      exact ⟨.array type hne, fun _ => hb⟩

theorem makes_copy {mem : Memory} {element : DataType} {grid : Grid} {l : Location}
    (hl : mem.at? l = some (.array element grid)) : (Variable.array element grid).Makes mem :=
  ⟨.copy hl, fun h => h.store l _ hl⟩

theorem IsTypeName.upper_ne {type : String} (h : IsTypeName type) :
    Text.upper type ≠ DataType.array.name := by
  obtain ⟨k, hk, rfl⟩ := h
  revert k
  decide +kernel

/-- A name that is not the name of the array type stands for another type. -/
theorem resolve_ne_array {name : String} (h : Text.upper name ≠ DataType.array.name) :
    Yields (· ≠ .array) (DataType.resolve (some name)) := by
  unfold DataType.resolve
  split
  · next type htype =>
    refine yields_ok ?_
    rintro rfl
    have hname := List.find?_some htype
    exact h (beq_iff_eq.mp hname).symm
  · exact yields_error _

end Pseudocode

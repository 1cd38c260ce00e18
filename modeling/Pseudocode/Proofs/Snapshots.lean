import Mathlib.Data.List.Nodup
import Pseudocode.Host
import Pseudocode.Proofs.Storing

/-!
# Snapshots of the global variables

What is shown of the variables is a list, while a program sees names that are bound and elements
that can be read. The list is faithful: a memory lists each global name once
(`Memory.mem_globalVariables`), and an array lists each tuple of its box once, at the place where
its cell is kept (`Bounds.map_offset_tuples`). So the assigned elements in the list are those that
can be read, each with the value that reading it gives (`Grid.mem_assigned`).

Result: `Machine.Sound.shownAs`: the snapshot of a sound machine shows all of its global variables,
as they are.
-/

namespace Pseudocode

/-! ## The tuples of a box -/

namespace Bounds

theorem flatMap_range (n v : Nat) :
    ((List.range n).flatMap fun k => (List.range v).map (k * v + ·)) = List.range (n * v) := by
  induction n with
  | zero => simp
  | succ n ih =>
    rw [List.range_succ, List.flatMap_append, ih, Nat.succ_mul, List.range_add,
      List.flatMap_singleton]

/-- **The tuples of a box are listed in the order of their places**, without a gap. -/
theorem map_offset_tuples (bounds : Bounds) :
    bounds.tuples.map bounds.offset = List.range bounds.volume := by
  induction bounds with
  | nil => rfl
  | cons d rest ih =>
    have hplace : ∀ (k : Nat) (is : List Int),
        offset (d :: rest) ((d.1 + (k : Int)) :: is) = k * volume rest + offset rest is := by
      intro k is
      have hk : (d.1 + (k : Int) - d.1).toNat = k := by omega
      rw [offset, hk]
    rw [tuples, List.map_flatMap, volume, ← flatMap_range]
    refine List.flatMap_congr fun k _ => ?_
    rw [List.map_map, ← ih, List.map_map]
    exact List.map_congr_left fun is _ => hplace k is

theorem nodup_tuples (bounds : Bounds) : bounds.tuples.Nodup := by
  apply List.Nodup.of_map bounds.offset
  rw [map_offset_tuples]
  exact List.nodup_range

/-- A tuple is listed at its place. -/
theorem offset_of_getElem?_tuples {bounds : Bounds} {indices : List Int} {k : Nat}
    (h : bounds.tuples[k]? = some indices) : bounds.offset indices = k := by
  have hplace : (bounds.tuples.map bounds.offset)[k]? = some (bounds.offset indices) := by
    rw [List.getElem?_map, h]
    rfl
  rw [map_offset_tuples] at hplace
  obtain ⟨hk, heq⟩ := List.getElem?_eq_some_iff.mp hplace
  rw [List.getElem_range] at heq
  exact heq.symm

/-- The tuples that are listed are those in the box. -/
theorem mem_tuples {bounds : Bounds} {indices : List Int} :
    indices ∈ bounds.tuples ↔ bounds.InBox indices := by
  induction bounds generalizing indices with
  | nil => simp [tuples, InBox]
  | cons d rest ih =>
    rw [tuples, List.mem_flatMap]
    constructor
    · rintro ⟨k, hk, hmem⟩
      obtain ⟨is, his, rfl⟩ := List.mem_map.mp hmem
      have hk : k < (d.2 - d.1 + 1).toNat := List.mem_range.mp hk
      exact .cons (by omega) (ih.mp his)
    · intro h
      cases h with
      | @cons _ i _ is hd his =>
        refine ⟨(i - d.1).toNat, List.mem_range.mpr (by unfold extent; omega),
          List.mem_map.mpr ⟨is, ih.mpr his, ?_⟩⟩
        have hi : d.1 + ((i - d.1).toNat : Int) = i := by omega
        rw [hi]

end Bounds

/-! ## Elements -/

namespace Grid

variable {g : Grid} {indices : List Int}

/-- The assigned elements with their values, in index order. -/
def assigned (g : Grid) : List (List Int × Value) :=
  g.elements.filterMap fun (indices, cell) => cell.map fun value => (indices, value)

/-- Every tuple of the box is listed, with the cell at its place. -/
theorem mem_elements {cell : Option Value} :
    (indices, cell) ∈ g.elements ↔
      g.bounds.InBox indices ∧ g.cells[g.bounds.offset indices]? = some cell := by
  unfold elements
  rw [List.mem_iff_getElem?, ← Bounds.mem_tuples, ← Array.getElem?_toList]
  constructor
  · rintro ⟨k, hk⟩
    obtain ⟨htuple, hcell⟩ := List.getElem?_zip_eq_some.mp hk
    rw [Bounds.offset_of_getElem?_tuples htuple]
    exact ⟨List.mem_of_getElem? htuple, hcell⟩
  · rintro ⟨hmem, hcell⟩
    obtain ⟨k, hk⟩ := List.mem_iff_getElem?.mp hmem
    rw [Bounds.offset_of_getElem?_tuples hk] at hcell
    exact ⟨k, List.getElem?_zip_eq_some.mpr ⟨hk, hcell⟩⟩

/-- Reading an element gives the value in its cell. -/
theorem get_eq_ok {name : String} {value : Value} :
    g.get name indices = .ok value ↔
      g.bounds.InBox indices ∧ g.cells[g.bounds.offset indices]? = some (some value) := by
  have hread : g.bounds.InBox indices →
      g.get name indices =
        (g.cells[g.bounds.offset indices]?).join.elim (fail .elementUnassigned) .ok := by
    intro hbox
    obtain ⟨cell, hfind, hget⟩ := g.get_of_inBox hbox name
    rw [g.find?_nest.1 hbox] at hfind
    cases hfind
    exact hget
  constructor
  · intro h
    obtain ⟨k, hk, -⟩ := except_bind_eq_ok.mp h
    obtain ⟨hbox, -⟩ := g.inBox_of_locate hk
    rw [hread hbox] at h
    cases hcell : (g.cells[g.bounds.offset indices]?).join with
    | none =>
      rw [hcell] at h
      cases h
    | some v =>
      rw [hcell] at h
      cases h
      exact ⟨hbox, Option.join_eq_some_iff.mp hcell⟩
  · rintro ⟨hbox, hcell⟩
    rw [hread hbox, hcell]
    rfl

/-- **The assigned elements are those that can be read**, whatever name the array has for
messages. -/
theorem mem_assigned {name : String} {value : Value} :
    (indices, value) ∈ g.assigned ↔ g.get name indices = .ok value := by
  rw [get_eq_ok, ← mem_elements, assigned, List.mem_filterMap]
  constructor
  · rintro ⟨⟨is, cell⟩, hmem, hcell⟩
    obtain ⟨v, rfl, heq⟩ := Option.map_eq_some_iff.mp hcell
    obtain ⟨rfl, rfl⟩ := Prod.mk.inj heq
    exact hmem
  · intro hmem
    exact ⟨_, hmem, rfl⟩

/-- No element is listed twice. -/
theorem nodup_assigned (g : Grid) : (g.assigned.map Prod.fst).Nodup := by
  have hlisted : (g.assigned.map Prod.fst).Sublist g.bounds.tuples := by
    unfold assigned elements
    generalize g.cells.toList = cells
    induction g.bounds.tuples generalizing cells with
    | nil => simp
    | cons is rest ih =>
      cases cells with
      | nil => simp
      | cons cell cells =>
        cases cell with
        | none => exact (ih cells).cons is
        | some value => exact (ih cells).cons_cons is
  exact hlisted.nodup g.bounds.nodup_tuples

end Grid

/-! ## Global variables -/

namespace Memory

/-- **The global variables are listed by name**: each name with the variable it is bound to. -/
theorem mem_globalVariables {mem : Memory} {name : String} {v : Variable} :
    (name, v) ∈ mem.globalVariables ↔ mem.find? .global name = some v := by
  unfold globalVariables find? lookup?
  rw [List.mem_filterMap, Option.bind_eq_some_iff]
  constructor
  · rintro ⟨⟨k, l⟩, hmem, hat⟩
    obtain ⟨w, hw, heq⟩ := Option.map_eq_some_iff.mp hat
    obtain ⟨rfl, rfl⟩ := Prod.mk.inj heq
    exact ⟨l, (Table.findIn_eq_some mem.distinct).mpr hmem, hw⟩
  · rintro ⟨l, hl, hat⟩
    exact ⟨(name, l), (Table.findIn_eq_some mem.distinct).mp hl,
      Option.map_eq_some_iff.mpr ⟨v, hat, rfl⟩⟩

theorem nodup_globalVariables (mem : Memory) : (mem.globalVariables.map Prod.fst).Nodup := by
  have hlisted : (mem.globalVariables.map Prod.fst).Sublist mem.globals.names := by
    unfold globalVariables Table.names
    induction mem.globals.entries with
    | nil => exact .slnil
    | cons e rest ih =>
      obtain ⟨name, l⟩ := e
      rw [List.filterMap_cons]
      dsimp only
      cases mem.at? l with
      | none => exact ih.cons name
      | some v => exact ih.cons_cons name
  exact hlisted.nodup mem.distinct

end Memory

/-! ## What is shown -/

/-- Contents that show a variable as it is: the value of a scalar; of an array each element that can
be read, once, with its value. -/
def Contents.Of (v : Variable) : Contents → Prop
  | .value held => v.isArray = false ∧ held = v.held?
  | .elements assigned => v.isArray = true ∧ (assigned.map Prod.fst).Nodup ∧
      ∀ name indices value, (indices, value) ∈ assigned ↔ v.getElement name indices = .ok value

/-- A list that shows the global variables of a memory: each of them once, and nothing else. -/
structure Memory.ShownAs (mem : Memory) (shown : List Shown) : Prop where
  names : (shown.map Shown.name).Nodup
  complete : ∀ name v, mem.find? .global name = some v → ∃ x ∈ shown, x.name = name
  faithful : ∀ x ∈ shown, ∃ v, mem.find? .global x.name = some v ∧
    x.type = v.type ∧ x.contents.Of v ∧
    x.assigned = v.held?.isSome

/-- The contents of a variable that is sound. -/
def Variable.exposed : Variable → Contents
  | .array _ grid => .elements grid.assigned
  | v => .value v.held?

theorem Variable.Sound.contents {v : Variable} (h : v.Sound) :
    v.contents = .ok v.exposed ∧ v.exposed.Of v := by
  cases h with
  | @scalar type held ht _ =>
    have harray := Variable.isArray_scalar ht held
    refine ⟨?_, harray, rfl⟩
    rw [Variable.contents, harray]
    rfl
  | @array element grid => exact ⟨rfl, rfl, grid.nodup_assigned, fun _ _ _ => grid.mem_assigned⟩

theorem displayAll_eq {named : List (String × Variable)} (h : ∀ e ∈ named, e.2.Sound) :
    displayAll named =
      .ok (named.map fun e => ⟨e.1, e.2.type, e.2.exposed, e.2.held?.isSome⟩) := by
  unfold displayAll
  induction named with
  | nil => rfl
  | cons e rest ih =>
    obtain ⟨name, v⟩ := e
    have hv : v.Sound := h (name, v) List.mem_cons_self
    have hdisplay : v.display name = .ok ⟨name, v.type, v.exposed, v.held?.isSome⟩ := by
      rw [Variable.display, hv.contents.1]
      rfl
    rw [List.mapM_cons, ih fun e he => h e (List.mem_cons_of_mem _ he)]
    dsimp only
    rw [hdisplay]
    rfl

/-- **The snapshot of a sound machine shows its global variables as they are.** -/
theorem Machine.Sound.shownAs {m : Machine} (hm : m.Sound) (paused running : Bool) :
    ∃ shown, (m.view paused running).shown = .ok shown ∧ m.memory.ShownAs shown := by
  have hbound : ∀ e ∈ m.memory.globalVariables, m.memory.find? .global e.1 = some e.2 :=
    fun _ he => Memory.mem_globalVariables.mp he
  have hsound : ∀ e ∈ m.memory.globalVariables, e.2.Sound := by
    intro e he
    obtain ⟨l, -, hat⟩ := Option.bind_eq_some_iff.mp (hbound e he)
    exact hm.store l.index e.2 hat
  refine ⟨_, displayAll_eq hsound, ⟨?_, fun name v hv => ?_, fun x hx => ?_⟩⟩
  · rw [List.map_map]
    exact m.memory.nodup_globalVariables
  · exact ⟨_, List.mem_map_of_mem (Memory.mem_globalVariables.mpr hv), rfl⟩
  · obtain ⟨e, he, rfl⟩ := List.mem_map.mp hx
    exact ⟨e.2, hbound e he, rfl, (hsound e he).contents.2, rfl⟩

end Pseudocode

import Pseudocode.Proofs.Steps
import Mathlib.Data.List.Forall2

/-!
# Arrays as nested maps

A grid keeps the cells of an array in one row. Seen dimension by dimension it is a map from the
indices of the first dimension to maps for the rest, down to single cells (`Grid.nest`). The map has
exactly the indices of the bounds at every level (`Nest.Allocated`), so following an index tuple
through the levels finds a cell exactly if the tuple is in the box, and it is the cell that the grid
reads.

Results:
* `allocated_nest`: the nested map of a grid is fully allocated.
* `find?_nest`: inside the box the levels lead to the cell of the grid, outside it they lead
  nowhere.
* `get_of_inBox`: reading an element inside the box gives its value or fails for want of one.
-/

namespace Pseudocode

/-! ## The box of an array -/

/-- An index tuple inside the bounds, dimension by dimension. -/
def Bounds.InBox (bounds : Bounds) (indices : List Int) : Prop :=
  List.Forall₂ (fun d i => d.1 ≤ i ∧ i ≤ d.2) bounds indices

/-- The indices of a dimension in order. -/
def Bounds.indices (d : Int × Int) : List Int :=
  (List.range (Bounds.extent d)).map fun (k : Nat) => d.1 + (k : Int)

namespace Bounds

variable {bounds : Bounds} {indices : List Int}

theorem covers_iff {d : Int × Int} {i : Int} : covers d i = true ↔ d.1 ≤ i ∧ i ≤ d.2 := by
  rw [covers, Bool.and_eq_true, decide_eq_true_eq, decide_eq_true_eq]

theorem InBox.firstOutside (h : bounds.InBox indices) : bounds.firstOutside indices = none := by
  induction h with
  | nil => rfl
  | cons hd _ ih => rw [Bounds.firstOutside, if_pos (covers_iff.mpr hd), ih]

theorem inBox_of_firstOutside (hlength : indices.length = bounds.length)
    (h : bounds.firstOutside indices = none) : bounds.InBox indices := by
  induction bounds generalizing indices with
  | nil =>
    rw [List.eq_nil_of_length_eq_zero hlength]
    exact .nil
  | cons d rest ih =>
    cases indices with
    | nil => cases hlength
    | cons i is =>
      rw [Bounds.firstOutside] at h
      split at h
      · next hd => exact .cons (covers_iff.mp hd) (ih (Nat.succ.inj hlength) h)
      · cases h

/-- A tuple of the box has its place among the cells. -/
theorem InBox.offset_lt (h : bounds.InBox indices) : bounds.offset indices < bounds.volume := by
  induction h with
  | nil => exact Nat.one_pos
  | @cons d i rest is hd _ ih =>
    have hextent : (i - d.1).toNat + 1 ≤ extent d := by
      unfold extent
      omega
    calc (i - d.1).toNat * volume rest + offset rest is
        < (i - d.1).toNat * volume rest + volume rest := Nat.add_lt_add_left ih _
      _ = ((i - d.1).toNat + 1) * volume rest := (Nat.succ_mul _ _).symm
      _ ≤ extent d * volume rest := Nat.mul_le_mul_right _ hextent

end Bounds

/-! ## Nested maps -/

/-- Maps nested to a depth: a cell, or a map from indices to maps one level less deep. -/
def Nest : Nat → Type
  | 0 => Option Value
  | n + 1 => List (Int × Nest n)

namespace Nest

/-- The entries of a map, with their indices. -/
def entries {n : Nat} (level : Nest (n + 1)) : List (Int × Nest n) :=
  level

/-- The entry of an index. -/
def inner? {n : Nat} (level : Nest (n + 1)) (i : Int) : Option (Nest n) :=
  (level.entries.find? (·.1 == i)).map Prod.snd

/-- The cell that an index tuple leads to. -/
def find? : {n : Nat} → Nest n → List Int → Option (Option Value)
  | 0, cell, [] => some cell
  | _ + 1, level, i :: is => (inner? level i).bind fun inner => find? inner is
  | _, _, _ => none

/-- Every level has exactly the indices of its dimension. -/
def Allocated : (bounds : Bounds) → Nest bounds.length → Prop
  | [], _ => True
  | d :: rest, level =>
    level.entries.map Prod.fst = Bounds.indices d ∧ ∀ e ∈ level.entries, Allocated rest e.2

/-- The nested map of the cells in a row. -/
def ofCells : (bounds : Bounds) → List (Option Value) → Nest bounds.length
  | [], cells => cells.head?.join
  | d :: rest, cells =>
    (List.range (Bounds.extent d)).map fun (k : Nat) =>
      (d.1 + (k : Int), ofCells rest (cells.drop (k * Bounds.volume rest)))

theorem allocated_ofCells (bounds : Bounds) (cells : List (Option Value)) :
    Allocated bounds (ofCells bounds cells) := by
  induction bounds generalizing cells with
  | nil => exact trivial
  | cons d rest ih =>
    refine ⟨?_, fun e he => ?_⟩
    · rw [entries, ofCells, List.map_map]
      rfl
    · obtain ⟨k, -, rfl⟩ := List.mem_map.mp he
      exact ih _

/-- The map that is made for a dimension has an entry for the indices of the dimension only. -/
theorem inner?_ofCells (d : Int × Int) (rest : Bounds) (cells : List (Option Value)) (i : Int) :
    inner? (ofCells (d :: rest) cells) i =
      if d.1 ≤ i ∧
        i ≤ d.2 then some (ofCells rest (cells.drop ((i - d.1).toNat * Bounds.volume rest)))
      else none := by
  rw [inner?, entries, ofCells, List.find?_map, Option.map_map]
  split
  · next hi =>
    have hfound :
        (List.range (Bounds.extent d)).find? ((fun e : Int × Nest rest.length => e.1 == i) ∘
        fun (k : Nat) => (d.1 + (k : Int), ofCells rest (cells.drop (k * Bounds.volume rest)))) =
        some (i - d.1).toNat := by
      rw [List.find?_range_eq_some]
      unfold Bounds.extent
      simp only [Function.comp, beq_iff_eq, List.mem_range, Bool.not_eq_true', beq_eq_false_iff_ne]
      refine ⟨by omega, by omega, fun j hj => by omega⟩
    rw [hfound]
    rfl
  · next hi =>
    have hmissing : (List.range (Bounds.extent d)).find?
        ((fun e : Int × Nest rest.length => e.1 == i) ∘ fun (k : Nat) =>
        (d.1 + (k : Int), ofCells rest (cells.drop (k * Bounds.volume rest)))) = none := by
      rw [List.find?_eq_none]
      intro k hk
      rw [List.mem_range, Bounds.extent] at hk
      simp only [Function.comp, beq_iff_eq]
      omega
    rw [hmissing]
    rfl

/-- **Inside the box the levels lead to a cell.** -/
theorem find?_ofCells {bounds : Bounds} {indices : List Int} (h : bounds.InBox indices)
    (cells : List (Option Value)) :
    find? (ofCells bounds cells) indices = some (cells[bounds.offset indices]?).join := by
  induction h generalizing cells with
  | nil => simp [ofCells, find?, Bounds.offset, List.head?_eq_getElem?]
  | @cons d i rest is hd _ ih =>
    show (inner? (ofCells (d :: rest) cells) i).bind (fun inner => find? inner is) = _
    rw [inner?_ofCells, if_pos hd, Option.bind_some, ih, List.getElem?_drop]
    rfl

/-- Outside the box they lead nowhere. -/
theorem inBox_of_find? {bounds : Bounds} {indices : List Int} {cells : List (Option Value)}
    {cell : Option Value} (h : find? (ofCells bounds cells) indices = some cell) :
    bounds.InBox indices := by
  induction bounds generalizing indices cells with
  | nil =>
    cases indices with
    | nil => exact .nil
    | cons i is => cases h
  | cons d rest ih =>
    cases indices with
    | nil => cases h
    | cons i is =>
      change (inner? (ofCells (d :: rest) cells) i).bind (fun inner => find? inner is) = _ at h
      rw [inner?_ofCells] at h
      split at h
      · next hd => exact .cons hd (ih h)
      · cases h

end Nest

/-! ## The map of a grid -/

namespace Grid

/-- The cells of a grid, dimension by dimension. -/
def nest (g : Grid) : Nest g.bounds.length :=
  Nest.ofCells g.bounds g.cells.toList

/-- **The nested map of a grid is fully allocated.** -/
theorem allocated_nest (g : Grid) : g.nest.Allocated g.bounds :=
  Nest.allocated_ofCells _ _

theorem find?_nest (g : Grid) {indices : List Int} :
    (g.bounds.InBox indices →
      g.nest.find? indices = some (g.cells[g.bounds.offset indices]?).join) ∧
      ∀ cell, g.nest.find? indices = some cell → g.bounds.InBox indices := by
  refine ⟨fun h => ?_, fun cell => Nest.inBox_of_find?⟩
  rw [nest, Nest.find?_ofCells h, Array.getElem?_toList]

theorem locate_of_inBox (g : Grid) {indices : List Int}
    (h : g.bounds.InBox indices) (name : String) :
    g.locate name indices = .ok (g.bounds.offset indices) := by
  have hcount : g.bounds.checkCount name indices = .ok () := if_pos h.length_eq.symm
  rw [locate, hcount, h.firstOutside]
  rfl

/-- What is located is inside the box. -/
theorem inBox_of_locate (g : Grid) {name : String} {indices : List Int} {k : Nat}
    (h : g.locate name indices = .ok k) : g.bounds.InBox indices ∧ k = g.bounds.offset indices := by
  obtain ⟨_, hcount, h⟩ := except_bind_eq_ok.mp h
  have hlength : indices.length = g.bounds.length := by
    unfold Bounds.checkCount at hcount
    split at hcount
    · assumption
    · cases hcount
  split at h
  · unfold Bounds.failOutside at h
    split at h <;> cases h
  · next hinside =>
    cases h
    exact ⟨Bounds.inBox_of_firstOutside hlength hinside, rfl⟩

/-- **Reading an element inside the box** gives the value that the levels lead to, or fails for want
of one. -/
theorem get_of_inBox (g : Grid) {indices : List Int} (h : g.bounds.InBox indices) (name : String) :
    ∃ cell, g.nest.find? indices = some cell ∧
      g.get name indices = cell.elim (fail .elementUnassigned) .ok := by
  refine ⟨_, g.find?_nest.1 h, ?_⟩
  cases hcell : (g.cells[g.bounds.offset indices]?).join with
  | none =>
    simp only [get, g.locate_of_inBox h name, bind, Except.bind, hcell]
    rfl
  | some v =>
    simp only [get, g.locate_of_inBox h name, bind, Except.bind, hcell]
    rfl

end Grid

end Pseudocode

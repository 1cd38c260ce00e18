import Mathlib.Algebra.BigOperators.Group.List.Basic
import Mathlib.Algebra.Ring.Int.Defs
import Pseudocode.Proofs.RoundTrip
import Pseudocode.Proofs.Snapshots

/-!
# Arrays as flat maps

An array is used through calls that read or assign one element. To a program it is a flat map from
the index tuples of its box to slots: `ElementCall.latest` says what a list of calls has last put at
a tuple, and after any list of calls, failed ones among them, the grid holds exactly that map
(`Grid.Holds`). The map is all there is to know: it decides how the next call ends
(`ElementCall.Obeys`) and it is what the listing of the elements shows.

Results:
* `Bounds.firstOutside_eq_some`: the index that a failing call names is the first one outside its
  dimension.
* `Grid.Holds.putAt`: an assignment changes one slot of the map, as no two tuples share a cell.
* `Grid.Holds.elements`: the listing is the map, tuple by tuple.
* `arrays_are_flat_maps`: an array under any list of calls.
* `far_index_breaks_down`: an index that is too long to be written cannot be named.
-/

namespace Pseudocode

open Eval

/-! ## Index tuples outside a box -/

namespace Bounds

/-- `i` is the first index outside its dimension, which goes from `lower` to `upper`. -/
def FirstOut (bounds : Bounds) (indices : List Int) (i lower upper : Int) : Prop :=
  ∃ (before after : Bounds) (is js : List Int), bounds = before ++ (lower, upper) :: after ∧
    indices = is ++ i :: js ∧
    before.InBox is ∧ ¬(lower ≤ i ∧ i ≤ upper)

/-- All numbers that a message about an index outside its dimension shows can be written. -/
def Sayable (i lower upper : Int) : Prop :=
  ∀ n ∈ [i, lower, upper], Number.isWritable n = true

variable {bounds : Bounds} {indices : List Int} {i lower upper : Int}

theorem firstOutside_eq_some :
    bounds.firstOutside indices = some (i, lower, upper) ↔
      bounds.FirstOut indices i lower upper := by
  constructor
  · intro h
    induction bounds generalizing indices with
    | nil => cases h
    | cons d rest ih =>
      cases indices with
      | nil => cases h
      | cons j js =>
        rw [firstOutside] at h
        split at h
        · next hj =>
          obtain ⟨before, after, is, ks, rfl, rfl, hbox, hout⟩ := ih h
          exact ⟨d :: before, after, j :: is, ks, rfl, rfl, .cons (covers_iff.mp hj) hbox, hout⟩
        · next hj =>
          cases h
          exact ⟨[], rest, [], js, rfl, rfl, .nil, fun hd => hj (covers_iff.mpr hd)⟩
  · rintro ⟨before, after, is, js, rfl, rfl, hbox, hout⟩
    induction hbox with
    | nil => exact if_neg fun hd => hout (covers_iff.mp hd)
    | cons hd _ ih => exact (if_pos (covers_iff.mpr hd)).trans ih

/-- Indices are too few or too many, or one of them is the first outside its dimension, or they are
in the box. -/
theorem fits_or_not (bounds : Bounds) (indices : List Int) :
    indices.length ≠ bounds.length ∨
      (indices.length = bounds.length ∧ ∃ i lower upper, bounds.FirstOut indices i lower upper) ∨
      bounds.InBox indices := by
  by_cases hlength : indices.length = bounds.length
  · cases hfirst : bounds.firstOutside indices with
    | none => exact .inr (.inr (inBox_of_firstOutside hlength hfirst))
    | some found =>
      exact .inr (.inl ⟨hlength, found.1, found.2.1, found.2.2, firstOutside_eq_some.mp hfirst⟩)
  · exact .inl hlength

theorem InBox.not_firstOut (h : bounds.InBox indices) : ¬bounds.FirstOut indices i lower upper := by
  intro hout
  rw [← firstOutside_eq_some, h.firstOutside] at hout
  cases hout

/-- Only one index is the first outside. -/
theorem FirstOut.unique {j lower' upper' : Int} (h : bounds.FirstOut indices i lower upper)
    (h' : bounds.FirstOut indices j lower' upper') : j = i ∧ lower' = lower ∧ upper' = upper := by
  rw [← firstOutside_eq_some] at h h'
  cases h.symm.trans h'
  exact ⟨rfl, rfl, rfl⟩

theorem failOutside_of_sayable {α : Type} (h : Sayable i lower upper) (name : String) :
    (failOutside name i lower upper : Attempt α) = fail (.indexOutside name i lower upper) :=
  if_pos (List.all_eq_true.mpr h)

theorem failOutside_of_not_sayable {α : Type} (h : ¬Sayable i lower upper) (name : String) :
    (failOutside name i lower upper : Attempt α) = breakDown .tooManyDigits :=
  if_neg fun hall => h (List.all_eq_true.mp hall)

/-! ## The tuples of a box in order -/

/-- No two tuples of a box have the same place. -/
theorem InBox.offset_inj {js : List Int} (hi : bounds.InBox indices) (hj : bounds.InBox js)
    (h : bounds.offset indices = bounds.offset js) : indices = js := by
  have hplaces : (bounds.tuples.map bounds.offset).Nodup := by
    rw [map_offset_tuples]
    exact List.nodup_range
  exact List.inj_on_of_nodup_map hplaces (mem_tuples.mpr hi) (mem_tuples.mpr hj) h

theorem length_tuples (bounds : Bounds) : bounds.tuples.length = bounds.volume := by
  rw [← List.length_map (f := bounds.offset), map_offset_tuples, List.length_range]

/-- The volume of a box is the product of the lengths of its sides. -/
theorem volume_eq_prod (bounds : Bounds) :
    (bounds.volume : Int) = (bounds.map fun d => max 0 (d.2 - d.1 + 1)).prod := by
  induction bounds with
  | nil => rfl
  | cons d rest ih =>
    have hextent : (extent d : Int) = max 0 (d.2 - d.1 + 1) := by
      unfold extent
      omega
    rw [volume, Int.natCast_mul, ih, hextent, List.map_cons, List.prod_cons]

/-- **The tuples of a box are listed in lexicographic order.** -/
theorem pairwise_tuples (bounds : Bounds) : bounds.tuples.Pairwise (· < ·) := by
  induction bounds with
  | nil => exact List.pairwise_singleton _ _
  | cons d rest ih =>
    rw [tuples, List.pairwise_flatMap]
    refine ⟨fun k _ => ?_, List.pairwise_lt_range.imp fun {k n} hkn is his js hjs => ?_⟩
    · rw [List.pairwise_map]
      exact ih.imp fun h => List.cons_lt_cons_iff.mpr (.inr ⟨rfl, h⟩)
    · obtain ⟨_, -, rfl⟩ := List.mem_map.mp his
      obtain ⟨_, -, rfl⟩ := List.mem_map.mp hjs
      exact List.cons_lt_cons_iff.mpr (.inl (by omega))

end Bounds

/-! ## The map that a grid holds -/

namespace Grid

/-- Each cell of the grid has what the map has for the tuple of the cell. -/
structure Holds (g : Grid) (bounds : Bounds) (slots : List Int → Option Value) : Prop where
  bounds_eq : g.bounds = bounds
  cell : ∀ indices, bounds.InBox indices → g.cells[bounds.offset indices]? = some (slots indices)

variable {g : Grid} {bounds : Bounds} {slots : List Int → Option Value}
  {indices : List Int} {name : String}

theorem holds_blank (bounds : Bounds) : (blank bounds).Holds bounds fun _ => none where
  bounds_eq := rfl
  cell _ hbox := by
    rw [blank, Array.getElem?_replicate, if_pos hbox.offset_lt]

theorem locate_of_count (h : indices.length ≠ g.bounds.length) :
    g.locate name indices = fail (.indexCount name g.bounds.length indices.length) := by
  have hcount :
    g.bounds.checkCount name indices = fail (.indexCount name g.bounds.length indices.length) :=
    if_neg h
  rw [locate, hcount]
  rfl

theorem locate_of_firstOut {i lower upper : Int} (hlength : indices.length = g.bounds.length)
    (h : g.bounds.FirstOut indices i lower upper) :
    g.locate name indices = Bounds.failOutside name i lower upper := by
  have hcount : g.bounds.checkCount name indices = .ok () := if_pos hlength
  simp only [locate, hcount, Bounds.firstOutside_eq_some.mpr h, bind, Except.bind]

/-- **An assignment changes one slot.** -/
theorem Holds.putAt (h : g.Holds bounds slots) (hbox : bounds.InBox indices) (value : Value) :
    (g.putAt (bounds.offset indices) value).Holds bounds
      (Function.update slots indices (some value)) where
  bounds_eq := h.bounds_eq
  cell js hjs := by
    rw [Grid.putAt, Array.getElem?_setIfInBounds]
    split
    · next hsame =>
      have hlt : bounds.offset indices < g.cells.size := by
        rw [g.size_cells, h.bounds_eq]
        exact hbox.offset_lt
      rw [← hbox.offset_inj hjs hsame, if_pos hlt, Function.update_self]
    · next hother =>
      have hne : js ≠ indices := fun heq => hother (by rw [heq])
      rw [Function.update_of_ne hne, h.cell js hjs]

/-- Reading gives what the map has. -/
theorem Holds.get (h : g.Holds bounds slots) (hbox : bounds.InBox indices) (name : String) :
    g.get name indices = (slots indices).elim (fail .elementUnassigned) .ok := by
  obtain ⟨rfl, hcell⟩ := h
  obtain ⟨cell, hfind, hget⟩ := g.get_of_inBox hbox name
  rw [g.find?_nest.1 hbox, hcell indices hbox] at hfind
  cases hfind
  exact hget

/-- **The listing of the elements is the map**, tuple by tuple. -/
theorem Holds.elements (h : g.Holds bounds slots) :
    g.elements = bounds.tuples.map fun is => (is, slots is) := by
  obtain ⟨rfl, hcell⟩ := h
  have hcells : g.cells.toList = g.bounds.tuples.map slots := by
    refine List.ext_getElem? fun k => ?_
    rw [List.getElem?_map, Array.getElem?_toList]
    cases htuple : g.bounds.tuples[k]? with
    | none =>
      rw [List.getElem?_eq_none_iff, Bounds.length_tuples, ← g.size_cells] at htuple
      exact Array.getElem?_eq_none htuple
    | some is =>
      have hbox : g.bounds.InBox is := Bounds.mem_tuples.mp (List.mem_of_getElem? htuple)
      rw [← Bounds.offset_of_getElem?_tuples htuple]
      exact hcell is hbox
  rw [Grid.elements, hcells, List.map_prod_left_eq_zip]

end Grid

/-! ## Calls on the elements of an array -/

theorem Memory.update_eq_put {memory : Memory} {l : Location} {v : Variable}
    (h : memory.at? l = some v) (f : Variable → Variable) :
    memory.update l f = memory.put l (f v) := by
  have hstore : memory.store.modify l.index f = memory.store.setIfInBounds l.index (f v) := by
    refine Array.ext_getElem? fun k => ?_
    rw [Array.getElem?_modify, Array.getElem?_setIfInBounds]
    split
    · next hk =>
      have hlt : l.index < memory.store.size := (Array.getElem?_eq_some_iff.mp h).1
      rw [if_pos hlt, ← hk, show memory.store[l.index]? = some v from h, Option.map_some]
    · rfl
  rw [Memory.update, Memory.put, hstore]

theorem Memory.put_self {memory : Memory} {l : Location} {v : Variable}
    (h : memory.at? l = some v) : memory.put l v = memory := by
  have hstore : memory.store.setIfInBounds l.index v = memory.store := by
    obtain ⟨hlt, hv⟩ := Array.getElem?_eq_some_iff.mp h
    rw [← hv, Array.setIfInBounds_def, dif_pos hlt, Array.set_getElem_self]
  rw [Memory.put, hstore]

/-- A call on one element of an array, with the name of the array for messages. -/
inductive ElementCall where
  | get (name : String) (indices : List Int)
  | set (name : String) (indices : List Int) (value : Value)

namespace ElementCall

def name : ElementCall → String
  | get name _ => name
  | set name _ _ => name

def indices : ElementCall → List Int
  | get _ indices => indices
  | set _ indices _ => indices

/-- The call on the array at a location. Reading gives the value of the element. -/
def run (l : Location) : ElementCall → Eval (Option Value)
  | get name indices => do
    let v ← variableAt l name
    return some (← attempt (v.getElement name indices))
  | set name indices value => do
    (⟨l, name, name, some indices⟩ : Destination).store value
    return none

/-- The call on a variable: what it gives, and the variable after it. -/
def effect (v : Variable) : ElementCall → Attempt (Option Value × Variable)
  | get name indices => do return (some (← v.getElement name indices), v)
  | set name indices value => do return (none, ← v.setElement name indices value)

/-- What comes of a call on the variable at a location whose effect on the variable is given. -/
def result (l : Location) (m : Machine) :
    Attempt (Option Value × Variable) → EStateM.Result Halt Machine (Option Value)
  | .ok (x, w) => .ok x { m with memory := m.memory.put l w }
  | .error h => .error h m

/-- How the call ends. -/
def answer (l : Location) (m : Machine) (c : ElementCall) : Attempt (Option Value) :=
  match c.run l m with
  | .ok x _ => .ok x
  | .error h _ => .error h

/-- The machine after the call, whether or not it has failed. -/
def leaves (l : Location) (m : Machine) (c : ElementCall) : Machine :=
  match c.run l m with
  | .ok _ m' => m'
  | .error _ m' => m'

/-- The machine after a list of calls. -/
def after (l : Location) (m : Machine) (calls : List ElementCall) : Machine :=
  calls.foldl (leaves l) m

variable {l : Location} {m : Machine} {c : ElementCall}

/-- **A call changes the variable at its location as it should, and nothing if it fails.** -/
theorem run_eq {v : Variable} (hv : m.memory.at? l = some v) (c : ElementCall) :
    c.run l m = result l m (c.effect v) := by
  cases c with
  | get name indices =>
    rw [run, bind_ok (variableAt_of_at? hv), effect]
    cases v.getElement name indices with
    | error h => rfl
    | ok x =>
      simp only [bind, Except.bind, pure, Except.pure, result, Memory.put_self hv]
      rfl
  | set name indices value =>
    rw [run, effect, Variable.setElement]
    have hstore : (⟨l, name, name, some indices⟩ : Destination).store value m =
        (attempt (v.place name indices) >>= fun k => updateVariable l (·.putAt k value)) m :=
      bind_ok (variableAt_of_at? hv)
    cases hplace : v.place name indices with
    | error h =>
      rw [hplace] at hstore
      exact bind_eq_error.mpr (.inl hstore)
    | ok k =>
      rw [hplace] at hstore
      refine (bind_ok hstore).trans ?_
      show EStateM.Result.ok none { m with memory := m.memory.update l (·.putAt k value) } = _
      rw [Memory.update_eq_put hv]
      rfl

theorem answer_eq {v : Variable} (hv : m.memory.at? l = some v) (c : ElementCall) :
    c.answer l m = (c.effect v).map Prod.fst := by
  rw [answer, run_eq hv]
  cases c.effect v with
  | error h => rfl
  | ok r => rfl

theorem leaves_of_error {v : Variable} {h : Halt} (hv : m.memory.at? l = some v)
    (herror : c.effect v = .error h) : c.leaves l m = m := by
  rw [leaves, run_eq hv, herror, result]

theorem at?_leaves {v w : Variable} {x : Option Value} (hv : m.memory.at? l = some v)
    (hok : c.effect v = .ok (x, w)) : (c.leaves l m).memory.at? l = some w := by
  have hlt : l.index < m.memory.store.size := (Array.getElem?_eq_some_iff.mp hv).1
  rw [leaves, run_eq hv, hok]
  exact Array.getElem?_setIfInBounds_self_of_lt hlt

/-! ## The map that calls make -/

/-- What the call puts at an index tuple. -/
def puts? (indices : List Int) : ElementCall → Option Value
  | get _ _ => none
  | set _ is value => if is = indices then some value else none

/-- What a list of calls has last put at an index tuple. -/
def latest (calls : List ElementCall) (indices : List Int) : Option Value :=
  calls.reverse.findSome? (puts? indices)

/-- How the call ends at an element whose slot is given. -/
def reply : ElementCall → Option Value → Attempt (Option Value)
  | get _ _, slot => slot.elim (fail .elementUnassigned) fun value => .ok (some value)
  | set _ _ _, _ => .ok none

theorem latest_append (calls : List ElementCall) (c : ElementCall) (indices : List Int) :
    latest (calls ++ [c]) indices = (c.puts? indices).or (latest calls indices) := by
  rw [latest, List.reverse_append, List.findSome?_append]
  simp [latest]

theorem latest_append_get (calls : List ElementCall) (name : String) (is : List Int) :
    latest (calls ++ [get name is]) = latest calls :=
  funext fun js => latest_append calls (get name is) js

theorem latest_append_set (calls : List ElementCall) (name : String)
    (is : List Int) (value : Value) :
    latest (calls ++ [set name is value]) = Function.update (latest calls) is (some value) := by
  funext js
  rw [latest_append, puts?]
  by_cases h : is = js
  · rw [if_pos h, h, Function.update_self]
    rfl
  · rw [if_neg h, Function.update_of_ne (Ne.symm h)]
    rfl

/-- A call puts nothing at other tuples than its own. -/
theorem latest_append_of_ne (calls : List ElementCall) {is : List Int} (h : c.indices ≠ is) :
    latest (calls ++ [c]) is = latest calls is := by
  have hputs : c.puts? is = none := by
    cases c with
    | get _ _ => rfl
    | set _ _ _ => exact if_neg h
  rw [latest_append, hputs, Option.none_or]

/-! ## How calls on an array end -/

variable {element : DataType} {g : Grid} {bounds : Bounds} {calls : List ElementCall}

theorem effect_of_locate_error {h : Halt} (hlocate : g.locate c.name c.indices = .error h) :
    c.effect (.array element g) = .error h := by
  cases c with
  | get name is =>
    have hget : g.get name is = .error h := by
      rw [Grid.get, show g.locate name is = .error h from hlocate]
      rfl
    rw [effect, Variable.getElement, hget]
    rfl
  | set name is value =>
    rw [effect, Variable.setElement, Variable.place, show g.locate name is = .error h from hlocate]
    rfl

theorem effect_of_count (h : c.indices.length ≠ g.bounds.length) :
    c.effect (.array element g) = fail (.indexCount c.name g.bounds.length c.indices.length) :=
  effect_of_locate_error (Grid.locate_of_count h)

theorem effect_of_sayable {i lower upper : Int} (hlength : c.indices.length = g.bounds.length)
    (h : g.bounds.FirstOut c.indices i lower upper) (hsay : Bounds.Sayable i lower upper) :
    c.effect (.array element g) = fail (.indexOutside c.name i lower upper) :=
  effect_of_locate_error
    ((Grid.locate_of_firstOut hlength h).trans (Bounds.failOutside_of_sayable hsay _))

theorem effect_of_not_sayable {i lower upper : Int} (hlength : c.indices.length = g.bounds.length)
    (h : g.bounds.FirstOut c.indices i lower upper) (hsay : ¬Bounds.Sayable i lower upper) :
    c.effect (.array element g) = breakDown .tooManyDigits :=
  effect_of_locate_error
    ((Grid.locate_of_firstOut hlength h).trans (Bounds.failOutside_of_not_sayable hsay _))

theorem effect_get {slots : List Int → Option Value} (hg : g.Holds bounds slots) {is : List Int}
    (hbox : bounds.InBox is) (name : String) :
    (get name is).effect (.array element g) =
      (slots is).elim (fail .elementUnassigned) fun x => .ok (some x, .array element g) := by
  rw [effect, Variable.getElement, hg.get hbox]
  cases slots is with
  | none => rfl
  | some x => rfl

theorem effect_set {slots : List Int → Option Value} (hg : g.Holds bounds slots) {is : List Int}
    (hbox : bounds.InBox is) (name : String) (value : Value) :
    (set name is value).effect (.array element g) =
      .ok (none, .array element (g.putAt (bounds.offset is) value)) := by
  obtain ⟨rfl, -⟩ := hg
  rw [effect, Variable.setElement, Variable.place, g.locate_of_inBox hbox]
  rfl

theorem effect_of_not_inBox (hbox : ¬g.bounds.InBox c.indices) :
    ∃ h, c.effect (.array element g) = .error h := by
  obtain hlength | ⟨hlength, i, lower, upper, hout⟩ | hinside := g.bounds.fits_or_not c.indices
  · exact ⟨_, effect_of_count hlength⟩
  · by_cases hsay : Bounds.Sayable i lower upper
    · exact ⟨_, effect_of_sayable hlength hout hsay⟩
    · exact ⟨_, effect_of_not_sayable hlength hout hsay⟩
  · exact absurd hinside hbox

/-- How a call ends on an array that the calls before it have left in the machine `m`. -/
structure Obeys (bounds : Bounds) (before : List ElementCall) (l : Location)
    (m : Machine) (c : ElementCall) :
    Prop where
  /-- There are too few or too many indices. -/
  count : c.answer l m = fail (.indexCount c.name bounds.length c.indices.length) ↔
    c.indices.length ≠ bounds.length
  /-- An index is outside its dimension, and the first such one is named. -/
  outside : ∀ i lower upper, c.answer l m = fail (.indexOutside c.name i lower upper) ↔
    c.indices.length = bounds.length ∧ bounds.FirstOut c.indices i lower upper ∧
      Bounds.Sayable i lower upper
  /-- It cannot be named. -/
  unsayable : c.answer l m = breakDown .tooManyDigits ↔
    c.indices.length = bounds.length ∧
      ∃ i lower upper, bounds.FirstOut c.indices i lower upper ∧ ¬Bounds.Sayable i lower upper
  /-- In the box there is what has last been put there. -/
  inside : bounds.InBox c.indices → c.answer l m = c.reply (latest before c.indices)
  unchanged : ∀ h m', c.run l m = .error h m' → m' = m

theorem answer_of_inBox (hv : m.memory.at? l = some (.array element g))
    {slots : List Int → Option Value} (hg : g.Holds bounds slots) (hbox : bounds.InBox c.indices) :
    c.answer l m = c.reply (slots c.indices) := by
  rw [answer_eq hv]
  cases c with
  | get name is =>
    rw [effect_get hg (show bounds.InBox is from hbox), reply, indices]
    cases slots is with
    | none => rfl
    | some x => rfl
  | set name is value =>
    rw [effect_set hg (show bounds.InBox is from hbox)]
    rfl

theorem run_unchanged {v : Variable} (hv : m.memory.at? l = some v) {h : Halt} {m' : Machine}
    (hrun : c.run l m = .error h m') : m' = m := by
  rw [run_eq hv] at hrun
  cases heffect : c.effect v with
  | ok r =>
    rw [heffect] at hrun
    cases hrun
  | error _ =>
    rw [heffect] at hrun
    cases hrun
    rfl

/-- The only fault in the box is that nothing has been assigned. -/
theorem reply_ne_error {slot : Option Value} {h : Halt} (hne : h ≠ .fault .elementUnassigned 0) :
    c.reply slot ≠ .error h := by
  intro hreply
  cases c with
  | set _ _ _ => cases hreply
  | get _ _ =>
    cases slot with
    | some _ => cases hreply
    | none =>
      cases hreply
      exact hne rfl

theorem obeys (hv : m.memory.at? l = some (.array element g))
    (hg : g.Holds bounds (latest calls)) (c : ElementCall) : c.Obeys bounds calls l m := by
  have hinside : bounds.InBox c.indices → c.answer l m = c.reply (latest calls c.indices) :=
    answer_of_inBox hv hg
  obtain ⟨rfl, -⟩ := hg
  -- Each way to end excludes the others: the number of indices tells the first apart, and only one
  -- index is the first outside its dimension.
  obtain hlength | ⟨hlength, i, lower, upper, hout⟩ | hbox := g.bounds.fits_or_not c.indices
  · have hanswer : c.answer l m = fail (.indexCount c.name g.bounds.length c.indices.length) := by
      rw [answer_eq hv, effect_of_count hlength]
      rfl
    exact {
      count := iff_of_true hanswer hlength
      outside :=
        fun _ _ _ => iff_of_false (hanswer.trans_ne fun h => by cases h) fun h => hlength h.1
      unsayable := iff_of_false (hanswer.trans_ne fun h => by cases h) fun h => hlength h.1
      inside := hinside
      unchanged := fun _ _ => run_unchanged hv }
  · by_cases hsay : Bounds.Sayable i lower upper
    · have hanswer : c.answer l m = fail (.indexOutside c.name i lower upper) := by
        rw [answer_eq hv, effect_of_sayable hlength hout hsay]
        rfl
      refine ⟨iff_of_false (hanswer.trans_ne fun h => by cases h) (not_not_intro hlength),
        fun j lower' upper' => ⟨fun h => ?_, fun h => ?_⟩,
        iff_of_false (hanswer.trans_ne fun h => by cases h) ?_, hinside,
          fun _ _ => run_unchanged hv⟩
      · cases hanswer.symm.trans h
        exact ⟨hlength, hout, hsay⟩
      · obtain ⟨rfl, rfl, rfl⟩ := hout.unique h.2.1
        exact hanswer
      · rintro ⟨-, j, lower', upper', hout', hnot⟩
        obtain ⟨rfl, rfl, rfl⟩ := hout.unique hout'
        exact hnot hsay
    · have hanswer : c.answer l m = breakDown .tooManyDigits := by
        rw [answer_eq hv, effect_of_not_sayable hlength hout hsay]
        rfl
      refine ⟨iff_of_false (hanswer.trans_ne fun h => by cases h) (not_not_intro hlength),
        fun j lower' upper' => iff_of_false (hanswer.trans_ne fun h => by cases h) ?_,
        iff_of_true hanswer ⟨hlength, i, lower, upper, hout, hsay⟩, hinside,
          fun _ _ => run_unchanged hv⟩
      rintro ⟨-, hout', hsay'⟩
      obtain ⟨rfl, rfl, rfl⟩ := hout.unique hout'
      exact hsay hsay'
  · have hlength : c.indices.length = g.bounds.length := hbox.length_eq.symm
    have hne : ∀ {h : Halt}, h ≠ .fault .elementUnassigned 0 → c.answer l m ≠ .error h :=
      fun hh => (hinside hbox).trans_ne (reply_ne_error hh)
    exact {
      count := iff_of_false (hne fun h => by cases h) (not_not_intro hlength)
      outside :=
        fun _ _ _ => iff_of_false (hne fun h => by cases h) fun h => hbox.not_firstOut h.2.1
      unsayable := iff_of_false (hne fun h => by cases h) fun h => by
        obtain ⟨-, _, _, _, hout, -⟩ := h
        exact hbox.not_firstOut hout
      inside := hinside
      unchanged := fun _ _ => run_unchanged hv }

theorem leaves_get {v : Variable} (hv : m.memory.at? l = some v) (name : String) (is : List Int) :
    (get name is).leaves l m = m := by
  rw [leaves, run_eq hv, effect]
  cases v.getElement name is with
  | error _ => rfl
  | ok _ =>
    show { m with memory := m.memory.put l v } = m
    rw [Memory.put_self hv]

/-- **A call leaves the map of the calls so far.** -/
theorem holds_leaves (hv : m.memory.at? l = some (.array element g))
    (hg : g.Holds bounds (latest calls)) (c : ElementCall) :
    ∃ g', (c.leaves l m).memory.at? l = some (.array element g') ∧
      g'.Holds bounds (latest (calls ++ [c])) := by
  by_cases hbox : bounds.InBox c.indices
  · cases c with
    | get name is =>
      rw [leaves_get hv, latest_append_get]
      exact ⟨g, hv, hg⟩
    | set name is value =>
      rw [latest_append_set]
      exact ⟨_, at?_leaves hv (effect_set hg hbox name value), hg.putAt hbox value⟩
  · obtain ⟨h, herror⟩ : ∃ h, c.effect (.array element g) = .error h :=
      effect_of_not_inBox (hg.bounds_eq ▸ hbox)
    rw [leaves_of_error hv herror]
    refine ⟨g, hv, hg.bounds_eq, fun is his => ?_⟩
    have hne : c.indices ≠ is := fun heq => hbox (heq ▸ his)
    rw [latest_append_of_ne calls hne]
    exact hg.cell is his

/-- **After any calls on a new array the grid holds their map.** -/
theorem holds_after {bounds : Bounds}
    (hv : m.memory.at? l = some (.array element (Grid.blank bounds))) (calls : List ElementCall) :
    ∃ g, (after l m calls).memory.at? l = some (.array element g) ∧
      g.Holds bounds (latest calls) := by
  induction calls using List.reverseRecOn with
  | nil => exact ⟨_, hv, Grid.holds_blank bounds⟩
  | append_singleton calls c ih =>
    obtain ⟨g, hg, hholds⟩ := ih
    rw [after, List.foldl_append]
    exact holds_leaves hg hholds c

end ElementCall

/-- The listing of the elements of an array with these bounds and slots: every index tuple of the
box once, in lexicographic order, with its slot. -/
structure Bounds.Lists (bounds : Bounds) (slots : List Int → Option Value)
    (listed : List (List Int × Option Value)) : Prop where
  box : ∀ is, is ∈ listed.map Prod.fst ↔ bounds.InBox is
  once : (listed.map Prod.fst).Nodup
  ordered : (listed.map Prod.fst).Pairwise (· < ·)
  slot : ∀ e ∈ listed, e.2 = slots e.1
  length : (listed.length : Int) = (bounds.map fun d => max 0 (d.2 - d.1 + 1)).prod

theorem Grid.Holds.lists {g : Grid} {bounds : Bounds} {slots : List Int → Option Value}
    (h : g.Holds bounds slots) : bounds.Lists slots g.elements := by
  have htuples : g.elements.map Prod.fst = bounds.tuples := by
    rw [h.elements, List.map_map]
    exact List.map_id _
  refine ⟨fun is => ?_, ?_, ?_, fun e he => ?_, ?_⟩
  · rw [htuples, Bounds.mem_tuples]
  · rw [htuples]
    exact bounds.nodup_tuples
  · rw [htuples]
    exact bounds.pairwise_tuples
  · rw [h.elements] at he
    obtain ⟨is, -, rfl⟩ := List.mem_map.mp he
    rfl
  · rw [← bounds.volume_eq_prod, ← bounds.length_tuples, ← htuples, List.length_map]

/-! ## The theorem -/

/-- **An array is a flat map over its box of indices.** Make an array of any dimensions, put it
anywhere in a machine, and make any calls on it. Then the next call ends as the calls before it
determine, and the listing of the elements shows what these calls have last put at each tuple. The
calls are those of the variable at the location: each leaves what its effect on the variable says,
and a failing one leaves the machine as it was. -/
theorem arrays_are_flat_maps (element : DataType) {bounds : Bounds} (hbounds : bounds ≠ []) :
    Fault.elementUnassigned.message = "Array element accessed before assignment" ∧
    ∃ blank, Variable.newArray element bounds = .ok blank ∧
      ∀ (l : Location) (m : Machine), m.memory.at? l = some blank → ∀ calls : List ElementCall,
        (∀ c : ElementCall, c.Obeys bounds calls l (ElementCall.after l m calls)) ∧
        ∃ v listed, (ElementCall.after l m calls).memory.at? l = some v ∧ v.elements = .ok listed ∧
          bounds.Lists (ElementCall.latest calls) listed ∧
          ∀ c : ElementCall, c.run l (ElementCall.after l m calls) =
            ElementCall.result l (ElementCall.after l m calls) (c.effect v) := by
  refine ⟨rfl, .array element (Grid.blank bounds), ?_, fun l m hv calls => ?_⟩
  · cases bounds with
    | nil => exact absurd rfl hbounds
    | cons d rest => rfl
  · obtain ⟨g, hg, hholds⟩ := ElementCall.holds_after hv calls
    exact ⟨ElementCall.obeys hg hholds, _, _, hg, rfl, hholds.lists, ElementCall.run_eq hg⟩

/-- A box of three rows and two columns under three assignments, the second of which fails. -/
theorem six_cells_are_a_flat_map :
    ∃ blank, Variable.newArray .integer [(-1, 1), (0, 1)] = .ok blank ∧
      ∃ m, m = ElementCall.after ⟨0⟩ { memory := { store := #[blank] } }
          [.set "a" [0, 1] (.int 7), .set "a" [0, 2] (.int 9), .set "a" [-1, 0] (.int 3)] ∧
        (ElementCall.get "a" [0, 1]).answer ⟨0⟩ m = .ok (some (.int 7)) ∧
        (ElementCall.get "a" [0, 0]).answer ⟨0⟩ m = fail .elementUnassigned ∧
        (ElementCall.get "a" [2, 5]).answer ⟨0⟩ m = fail (.indexOutside "a" 2 (-1) 1) ∧
        (ElementCall.get "a" [0]).answer ⟨0⟩ m = fail (.indexCount "a" 2 1) ∧
        ∃ v listed, m.memory.at? ⟨0⟩ = some v ∧ v.elements = .ok listed ∧ listed.length = 6 := by
  obtain ⟨-, blank, hblank, hcalls⟩ := @arrays_are_flat_maps .integer [(-1, 1), (0, 1)] (by decide)
  obtain ⟨hobeys, v, listed, hv, hlisted, hlists, -⟩ :=
    hcalls ⟨0⟩ { memory := { store := #[blank] } } rfl [.set "a" [0, 1] (.int 7),
    .set "a" [0, 2] (.int 9), .set "a" [-1, 0] (.int 3)]
  refine ⟨blank, hblank, _, rfl, ?_, ?_, ?_, ?_, v, listed, hv, hlisted, ?_⟩
  · exact (hobeys (.get "a" [0, 1])).inside (.cons (by decide) (.cons (by decide) .nil))
  · exact (hobeys (.get "a" [0, 0])).inside (.cons (by decide) (.cons (by decide) .nil))
  · refine ((hobeys (.get "a" [2, 5])).outside 2 (-1) 1).mpr
      ⟨rfl, ?_, by unfold Bounds.Sayable; decide +kernel⟩
    exact ⟨[], [(0, 1)], [], [5], rfl, rfl, .nil, by decide⟩
  · exact (hobeys (.get "a" [0])).count.mpr (by decide)
  · have hlength : (listed.length : Int) = 6 := hlists.length
    omega

/-- **An index that is too long to be written cannot be named**: it is outside its dimension, and
reading there ends without the fault that says so. -/
theorem far_index_breaks_down :
    ∃ v, Variable.newArray .integer [(1, 2)] = .ok v ∧
      Bounds.FirstOut [(1, 2)] [(Number.writeLimit : Int)] Number.writeLimit 1 2 ∧
      v.getElement "a" [(Number.writeLimit : Int)] = breakDown .tooManyDigits := by
  have hfar : 2 < Number.writeLimit := by decide +kernel
  have hout : Bounds.FirstOut [(1, 2)] [(Number.writeLimit : Int)] Number.writeLimit 1 2 :=
    ⟨[], [], [], [], rfl, rfl, .nil, by omega⟩
  have hsay : ¬Bounds.Sayable Number.writeLimit 1 2 := by
    intro hsay
    have hwritable : Number.isWritable Number.writeLimit = true := hsay _ List.mem_cons_self
    rw [Number.isWritable, decide_eq_true_eq, Int.natAbs_natCast] at hwritable
    exact Nat.lt_irrefl _ hwritable
  have hlocate :
      (Grid.blank [(1, 2)]).locate "a" [(Number.writeLimit : Int)] = breakDown .tooManyDigits :=
    (Grid.locate_of_firstOut rfl hout).trans (Bounds.failOutside_of_not_sayable hsay _)
  refine ⟨.array .integer (Grid.blank [(1, 2)]), rfl, hout, ?_⟩
  rw [Variable.getElement, Grid.get, hlocate]
  rfl

end Pseudocode

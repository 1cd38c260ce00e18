import Pseudocode.Proofs.Keeping

/-!
# The storage of a running program

Wherever a run of a parsed program can be, its variables are sound, whatever the host has replied.
Scalars hold proper values or nothing, arrays have exactly the cells of their bounds, and what has
never been assigned cannot be read.

Results:
* `evaluate_var`, `evaluate_element`: what reading gives.
* `Evolves.storageSince`: what a sound machine evolves to.
* `storage_is_sound_throughout`: the storage of a program.
-/

namespace Pseudocode

open Eval

/-! ## Reading -/

section Reading

variable {m : Machine} {scope : Scope} {name : String} {l : Location}

theorem locateVariable_of_lookup? (hl : m.memory.lookup? scope name = some l) :
    locateVariable scope name m = .ok l m := by
  have hlocate : m.memory.locate scope name = .ok l := by rw [Memory.locate, hl]
  exact bind_eq_ok.mpr ⟨m, m, rfl, by rw [hlocate]; rfl⟩

theorem variableAt_of_at? {v : Variable} (hv : m.memory.at? l = some v) :
    variableAt l name m = .ok v m :=
  bind_eq_ok.mpr ⟨m, m, rfl, by rw [hv]; rfl⟩

theorem locateArray_of_lookup? {v : Variable} (hl : m.memory.lookup? scope name = some l)
    (hv : m.memory.at? l = some v) (harray : v.isArray = true) :
    locateArray scope name m = .ok l m := by
  refine bind_eq_ok.mpr ⟨m, m, rfl, ?_⟩
  simp only [hl, hv, Option.map_some, Option.getD_some, harray, if_true]
  rfl

/-- The result of reading something that may be empty. -/
def readResult (cause : Fault) (m : Machine) (held : Option Value) :
    EStateM.Result Halt Machine Value :=
  held.elim (.error (.fault cause 0) m) (.ok · m)

/-- **Reading a scalar** gives what it holds, and fails if it holds nothing. -/
theorem evaluate_var (hl : m.memory.lookup? scope name = some l) {type : DataType}
    {held : Option Value} (hv : m.memory.at? l = some (.scalar type held)) (ht : type ≠ .array)
    (n : Nat) (line : Int) :
    evaluate (n + 1) scope (.var line name) m = readResult (.unassigned name) m held := by
  have hscalar : ¬(Variable.scalar type held).isArray = true := by
    simpa [Variable.isArray, Variable.type] using ht
  show readVariable scope name m = _
  unfold readVariable
  rw [bind_ok (locateVariable_of_lookup? hl), bind_ok (variableAt_of_at? hv), if_neg hscalar]
  cases held <;> rfl

/-- **Reading an element inside the bounds** gives what its cell holds, and fails if it holds
nothing. -/
theorem evaluate_element (hl : m.memory.lookup? scope name = some l) {element : DataType}
    {grid : Grid} (hv : m.memory.at? l = some (.array element grid)) {n : Nat} {es : List Expr}
    {indices : List Int} (hes : evaluateIndices (evaluate n scope) es m = .ok indices m)
    (hbox : grid.bounds.InBox indices) (line : Int) {cell : Option Value}
    (hcell : grid.nest.find? indices = some cell) :
    evaluate (n + 1) scope (.element line name es) m = readResult .elementUnassigned m cell := by
  obtain ⟨cell', hcell', hget⟩ := grid.get_of_inBox hbox name
  obtain rfl : cell' = cell := Option.some.inj (hcell'.symm.trans hcell)
  calc evaluate (n + 1) scope (.element line name es) m
      = (do
          let indices ← evaluateIndices (evaluate n scope) es
          let v ← variableAt l name
          attempt (v.getElement name indices) :
            Eval Value) m := bind_ok (locateArray_of_lookup? hl hv rfl)
    _ = (do
          let v ← variableAt l name
          attempt (v.getElement name indices) : Eval Value) m := bind_ok hes
    _ = attempt (grid.get name indices) m := bind_ok (variableAt_of_at? hv)
    _ = readResult .elementUnassigned m cell' := by
      rw [hget]
      cases cell' <;> rfl

end Reading

/-! ## The storage of a program -/

/-- Evaluating an expression leads from a machine to another, whether it ends or stops. -/
def Evaluation (m m' : Machine) : Prop :=
  ∃ n scope e, e.Writable ∧ (evaluate n scope e).leaves m = m'

/-- What has stayed as it was since the variables were `store`, if the events `after` have happened
since. -/
structure KeptSince (store : Array Variable) (after : List StoreEvent) (m : Machine) : Prop where
  /-- A variable has the type, and an array the bounds, that it was declared with. -/
  declared : ∀ (l : Location) d, store[l.index]?.map Variable.declared = some d →
    (m.memory.at? l).map Variable.declared = some d
  /-- A scalar that was empty and has never been assigned cannot be read. -/
  unassigned : ∀ (l : Location) type, store[l.index]? = some (.scalar type none) →
    (∀ e ∈ after, ¬e.Assigns l) →
    ∀ n scope line name, m.memory.lookup? scope name = some l →
      evaluate (n + 1) scope (.var line name) m = .error (.fault (.unassigned name) 0) m
  /-- Neither can an element whose cell was empty and has never been assigned. -/
  unfilled : ∀ (l : Location) k, BlankCell l k store → (∀ e ∈ after, ¬e.Fills l k) →
    ∀ element grid indices, m.memory.at? l = some (.array element grid) →
      grid.bounds.InBox indices →
      grid.bounds.offset indices = k →
        ∀ n scope line name es, m.memory.lookup? scope name = some l →
        evaluateIndices (evaluate n scope) es m = .ok indices m →
          evaluate (n + 1) scope (.element line name es) m = .error (.fault .elementUnassigned 0) m

/-- The storage of a machine whose variables were `start` at first. -/
structure StorageSince (start : Array Variable) (m : Machine) : Prop where
  sound : m.Sound
  /-- A scalar holds a proper value, which is what reading it gives, or nothing, and then reading it
  fails. -/
  scalars : ∀ l type held, m.memory.at? l = some (.scalar type held) →
    type ≠ .array ∧ (∀ v ∈ held, v.IsProper) ∧
      ∀ n scope line name, m.memory.lookup? scope name = some l →
        evaluate (n + 1) scope (.var line name) m = readResult (.unassigned name) m held
  /-- An array is a nested map with exactly the indices of its bounds at every level, so an index
  tuple inside the bounds leads to a cell; the cell holds a proper value, or nothing, and then
  reading it fails. -/
  arrays : ∀ l v, m.memory.at? l = some v → v.isArray = true →
    ∃ element grid, v = .array element grid ∧ grid.bounds ≠ [] ∧ grid.nest.Allocated grid.bounds ∧
      ∀ indices, grid.bounds.InBox indices →
        ∃ cell, grid.nest.find? indices = some cell ∧ (∀ w ∈ cell, w.IsProper) ∧
          ∀ n scope line name es, m.memory.lookup? scope name = some l →
            evaluateIndices (evaluate n scope) es m = .ok indices m →
              evaluate (n + 1) scope (.element line name es) m =
                readResult .elementUnassigned m cell
  /-- An expression gives a proper value: never nothing, and never an array. -/
  expressions : ∀ n scope e v m', e.Writable → evaluate n scope e m = .ok v m' → v.IsProper
  /-- Fitting events have led to the variables, and what they have not touched is as it was. -/
  history : ∃ events, Fitting start events ∧ m.memory.store = replay start events ∧
    ∀ before after, events = before ++ after → KeptSince (replay start before) after m

section Storage

variable {m m' : Machine}

theorem Evolves.keptSince {before after : List StoreEvent} (hsound : m'.Sound)
    (hfits : Fitting m.memory.store (before ++ after))
    (hstore : m'.memory.store = replay m.memory.store (before ++ after)) :
    KeptSince (replay m.memory.store before) after m' := by
  have hafter : Fitting (replay m.memory.store before) after := (fitting_append.mp hfits).2
  rw [replay_append] at hstore
  refine ⟨fun l d hd => ?_, fun l type hblank hnever n scope line name hl => ?_, ?_⟩
  · unfold Memory.at?
    rw [hstore]
    exact declared_replay after hd
  · have hv : m'.memory.at? l = some (.scalar type none) := by
      unfold Memory.at?
      rw [hstore]
      exact blank_replay hblank hafter hnever
    have ht : type ≠ .array := by
      cases hsound.store _ _ hv with
      | scalar ht _ => exact ht
    exact evaluate_var hl hv ht n line
  · rintro l k hblank hnever element grid indices hv hbox rfl n scope line name es hl hes
    obtain ⟨element', grid', hv', hnone⟩ := blank_cell_replay hblank hafter hnever
    rw [← hstore] at hv'
    obtain ⟨rfl, rfl⟩ : element' = element ∧ grid' = grid := by
      have := hv'.symm.trans hv
      simpa using this
    have hcell : grid'.nest.find? indices = some none :=
      (grid'.find?_nest.1 hbox).trans (congrArg some hnone)
    exact evaluate_element hl hv hes hbox line hcell

/-- What a sound machine evolves to has its storage in order. -/
theorem Evolves.storageSince (h : Evolves m m') : StorageSince m.memory.store m' := by
  refine ⟨h.sound, fun l type held hv => ?_, fun l v hv harray =>
    ?_, fun n scope e v m₁ he hev => ?_, ?_⟩
  · cases h.sound.store _ _ hv with
    | scalar ht hproper => exact ⟨ht, hproper, fun n _ line _ hl => evaluate_var hl hv ht n line⟩
  · obtain ⟨element, grid, rfl⟩ := (h.sound.store _ _ hv).array_of_isArray harray
    cases h.sound.store _ _ hv with
    | array hne hproper =>
      refine ⟨element, grid, rfl, hne, grid.allocated_nest, fun indices hbox => ?_⟩
      refine ⟨_, grid.find?_nest.1 hbox, fun w hw => ?_, fun n scope line name es hl hes => ?_⟩
      · exact hproper w (Array.mem_of_getElem? (Option.join_eq_some_iff.mp hw))
      · exact evaluate_element hl hv hes hbox line (grid.find?_nest.1 hbox)
  · exact ((evaluate_abides n scope e he m').ok h.sound.onTerms hev).2.2
  · obtain ⟨events, hfits, hstore⟩ := h.history
    refine ⟨events, hfits, hstore, ?_⟩
    rintro before after rfl
    exact Evolves.keptSince h.sound hfits hstore

theorem Evolves.evaluation (hm : m.Sound) (h : Evaluation m m') : Evolves m m' := by
  obtain ⟨n, scope, e, he, rfl⟩ := h
  have habides := evaluate_abides (T := .written m) n scope e he m
  cases hev : evaluate n scope e m with
  | ok v m₁ =>
    rw [Eval.leaves_ok hev]
    exact (habides.ok hm.onTerms hev).1
  | error halt m₁ =>
    rw [Eval.leaves_error hev]
    exact (habides.error hm.onTerms hev).1

theorem Evolves.evaluations (hm : m.Sound) (h : Relation.ReflTransGen Evaluation m m') :
    Evolves m m' := by
  induction h with
  | refl => exact .refl hm
  | tail _ h ih => exact ih.trans (.evaluation ih.sound h)

end Storage

/-- A machine on which nothing has been declared yet is sound. -/
theorem Machine.sound_of_empty {m : Machine} (hstore : m.memory.store = #[])
    (hp : m.procedures = {}) (hf : m.functions = {}) : m.Sound := by
  refine ⟨fun i v hv => ?_, fun name p hfound => ?_, fun name f hfound => ?_⟩
  · rw [hstore] at hv
    cases hv
  · rw [hp] at hfound
    cases hfound
  · rw [hf] at hfound
    cases hfound

/-- **The storage of a program is in order throughout.** Wherever a run of a parsed program can be,
whatever the host has replied, and also after any expressions that are evaluated there, whether they
end or stop: scalars and cells hold proper values or nothing, arrays have exactly the cells of the
bounds they were declared with, expressions give proper values, and what has never been assigned
cannot be read. -/
theorem storage_is_sound_throughout {source : String} {program : Block}
    (hp : parseSource source = .ok program) (bound : Nat) {m : Machine} (hm : m.Sound) :
    (executeProgram bound program m).Always fun m₁ =>
      ∀ m', Relation.ReflTransGen Evaluation m₁ m' → StorageSince m.memory.store m' :=
  (executeProgram_evolves bound (writable_of_parseSource hp) hm).imp fun _ hm₁ _ hm' =>
    (hm₁.trans (.evaluations hm₁.sound hm')).storageSince

theorem Expr.Writable.int (line : Int) {n : Int} (h₀ : 0 ≤ n) (h : n < Number.writeLimit) :
    (Expr.literal line (.int n)).Writable :=
  .literal line ⟨h₀, by omega⟩

theorem Expr.Writable.digit (line : Int) {n : Int} (h : 0 ≤ n ∧ n ≤ 9) :
    (Expr.literal line (.int n)).Writable := by
  have hlimit : 9 < Number.writeLimit := by decide +kernel
  exact .int line h.1 (by omega)

/-- A program that fills a cell of an array through another name of it, and reads a cell that is
empty. -/
def fillingProgram : Block :=
  [.mk 1 (.declare "a" "INTEGER" (.array [(0, 1), (-1, 1)])),
    .mk 2 (.procedure "f" [⟨"b", "ARRAY", .byRef, some "INTEGER"⟩]
      [.mk 3
      (.assign (.element 3 "b" [.literal 3 (.int 1), .literal 3 (.int 0)]) (.literal 3 (.int 5)))]),
    .mk 5 (.call "f" [.var 5 "a"]),
    .mk 6 (.output [.element 6 "a" [.literal 6 (.int 0), .literal 6 (.int 1)]])]

theorem fillingProgram_writable : Block.Writable fillingProgram := by
  have ha : IsName "a" := by decide +kernel
  have hb : IsName "b" := by decide +kernel
  have hf : IsName "f" := by decide +kernel
  have htype : IsTypeName "INTEGER" := ⟨.integerKw, by decide, by decide⟩
  intro t ht
  simp only [fillingProgram, List.mem_cons, List.not_mem_nil, or_false] at ht
  rcases ht with rfl | rfl | rfl | rfl
  · refine .declare ha htype (.array (by simp) ?_)
    decide +kernel
  · refine .procedure hf (by simpa using .array _ hb htype) ?_
    simp only [List.mem_singleton, forall_eq]
    refine .assign (.element 3 hb (by simp) ?_) (.digit 3 (by decide))
    simp only [List.mem_cons, List.not_mem_nil, or_false, forall_eq_or_imp, forall_eq]
    exact ⟨.digit 3 (by decide), .digit 3 (by decide)⟩
  · exact .call hf (by simpa using .var 5 ha)
  · refine .output (by simp) ?_
    simp only [List.mem_singleton, forall_eq]
    refine .element 6 ha (by simp) ?_
    simp only [List.mem_cons, List.not_mem_nil, or_false, forall_eq_or_imp, forall_eq]
    exact ⟨.digit 6 (by decide), .digit 6 (by decide)⟩

theorem filling_storage_is_sound : ∃ source program, parseSource source = .ok program ∧
    Block.unlined program = Block.unlined fillingProgram ∧ Machine.Sound {} ∧
    (executeProgram plenty program {}).Always fun m₁ =>
      ∀ m', Relation.ReflTransGen Evaluation m₁ m' → StorageSince #[] m' := by
  have hsound : Machine.Sound {} := Machine.sound_of_empty rfl rfl rfl
  obtain ⟨program, hp, heq⟩ := parseSource_source .exact fillingProgram_writable
  exact ⟨_, program, hp, heq, hsound, storage_is_sound_throughout hp plenty hsound⟩

end Pseudocode

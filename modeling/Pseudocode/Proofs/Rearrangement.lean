import Mathlib.Data.List.Induction
import Pseudocode.Proofs.Stepping

/-!
# Where definitions stand

A program makes its procedures and functions known before anything is executed, so it does not
matter where at the top of the program they stand. Only the last definition of a name counts
(`find?_registerAll`), and the order in which different names were entered shows in the listing of
the tables and in the notes, which no rule reads (`truncation_reordered`). Definitions inside blocks
are made known while the program runs; they change what a name stands for on both sides alike.

Results:
* `find?_registerAll`: what a name stands for when the program begins.
* `Block.Rearranged.reordered`: after a rearrangement the program begins with the same routines.
* `Run.Reordered.drain`: runs that differ by the order of the routines are told apart by no
  impartial host.
* `definitions_may_stand_anywhere`: rearranged programs run alike.
-/

namespace Pseudocode

/-! ## Definitions -/

/-- A form that defines the procedure or the function of the given name. -/
def Form.defines (kind : FrameKind) (name : String) : Form → Bool
  | .procedure n _ _ => kind == .procedure && n == name
  | .function n _ _ _ => kind == .function && n == name
  | _ => false

/-- What a form defines. -/
def Form.routine? : Form → Option Routine
  | .procedure name params body => some ⟨name, params, body⟩
  | .function name params _ body => some ⟨name, params, body⟩
  | _ => none

/-- The known routines of a kind. -/
def Machine.routines (m : Machine) : FrameKind → Table Routine
  | .main => {}
  | .procedure => m.procedures
  | .function => m.functions

/-- A rearrangement of the statements at the top of a program: the statements other than definitions
keep their order, and so do the definitions of one kind and name. -/
structure Block.Rearranged (program program' : Block) : Prop where
  perm : program'.Perm program
  others : (program'.filter fun s => !s.form.isDefinition) = program.filter fun s =>
    !s.form.isDefinition
  definitions : ∀ kind name,
    (program'.filter fun s => s.form.defines kind name) = program.filter fun s =>
      s.form.defines kind name

/-- The program with its definitions brought to the front. -/
def Block.gathered (program : Block) : Block :=
  (program.filter fun s => s.form.isDefinition) ++ program.filter fun s => !s.form.isDefinition

theorem Form.isDefinition_of_defines {kind : FrameKind} {name : String} {form : Form}
    (h : form.defines kind name = true) : form.isDefinition = true := by
  cases form with
  | procedure => rfl
  | function => rfl
  | _ => exact absurd h Bool.false_ne_true

theorem Block.rearranged_gathered (program : Block) : program.Rearranged program.gathered where
  perm := List.filter_append_perm _ program
  others := by
    unfold Block.gathered
    rw [List.filter_append, List.filter_filter, List.filter_filter]
    simp
  definitions := by
    intro kind name
    unfold Block.gathered
    rw [List.filter_append, List.filter_filter, List.filter_filter]
    have hin : ∀ s : Stmt,
        (s.form.defines kind name && s.form.isDefinition) = s.form.defines kind name := by
      intro s
      by_cases hs : s.form.defines kind name = true
      · simp [hs, Form.isDefinition_of_defines hs]
      · simp [hs]
    have hout : ∀ s : Stmt, (s.form.defines kind name && !s.form.isDefinition) = false := by
      intro s
      by_cases hs : s.form.defines kind name = true
      · simp [Form.isDefinition_of_defines hs]
      · simp [hs]
    simp only [hin, hout, List.filter_false, List.append_nil]

section Registration

variable (m : Machine) (kind : FrameKind) (name : String)

/-- What a name stands for after a form has been made known. -/
theorem find?_register (form : Form) :
    ((m.register form).routines kind).find? name =
      if form.defines kind name then form.routine? else (m.routines kind).find? name := by
  cases form with
  | procedure n params body =>
    cases kind with
    | procedure =>
      show (m.procedures.insert n ⟨n, params, body⟩).find? name = _
      rw [Table.find?_insert]
      by_cases hn : n = name <;> simp [Form.defines, Form.routine?, Machine.routines, hn]
    | _ => rfl
  | function n params returns body =>
    cases kind with
    | function =>
      show (m.functions.insert n ⟨n, params, body⟩).find? name = _
      rw [Table.find?_insert]
      by_cases hn : n = name <;> simp [Form.defines, Form.routine?, Machine.routines, hn]
    | _ => rfl
  | _ => rfl

theorem Machine.registerAll_append (program : Block) (s : Stmt) :
    m.registerAll (program ++ [s]) = (m.registerAll program).register s.form := by
  unfold Machine.registerAll
  rw [List.foldl_append]
  rfl

/-- **The last definition of a name is the one that counts.** -/
theorem find?_registerAll (program : Block) :
    ((m.registerAll program).routines kind).find? name =
      match (program.filter fun s => s.form.defines kind name).getLast? with
      | some s => s.form.routine?
      | none => (m.routines kind).find? name := by
  induction program using List.reverseRecOn with
  | nil => rfl
  | append_singleton program s ih =>
    rw [m.registerAll_append, find?_register, List.filter_append]
    by_cases hs : s.form.defines kind name = true
    · simp [hs]
    · simp [hs, ih]

/-- Nothing else changes when definitions are made known. -/
theorem registerAll_eq (program : Block) :
    ∃ procedures functions journal, m.registerAll program =
      { m with procedures := procedures, functions := functions, journal := journal } := by
  induction program using List.reverseRecOn with
  | nil => exact ⟨_, _, _, rfl⟩
  | append_singleton program s ih =>
    obtain ⟨procedures, functions, journal, hprogram⟩ := ih
    rw [m.registerAll_append, hprogram]
    cases s.form <;> exact ⟨_, _, _, rfl⟩

end Registration

/-! ## The order of the tables is not read -/

/-- The same machine, but for its notes and for the order in which its routines are listed. -/
def Reordered (m m' : Machine) : Prop :=
  ∃ procedures functions journal,
    m' = { m with procedures := procedures, functions := functions, journal := journal } ∧
      (∀ name, procedures.find? name = m.procedures.find? name) ∧
      ∀ name, functions.find? name = m.functions.find? name

theorem Reordered.register {m m' : Machine} (h : Reordered m m') (form : Form) :
    Reordered (m.register form) (m'.register form) := by
  obtain ⟨procedures, functions, journal, rfl, hp, hf⟩ := h
  cases form with
  | procedure n params body =>
    refine ⟨_, _, _, rfl, fun name => ?_, hf⟩
    show (procedures.insert n _).find? name = (m.procedures.insert n _).find? name
    rw [Table.find?_insert, Table.find?_insert, hp]
  | function n params returns body =>
    refine ⟨_, _, _, rfl, hp, fun name => ?_⟩
    show (functions.insert n _).find? name = (m.functions.insert n _).find? name
    rw [Table.find?_insert, Table.find?_insert, hf]
  | _ => exact ⟨_, _, _, rfl, hp, hf⟩

/-- **No rule reads the order of the tables.** -/
theorem truncation_reordered : Truncation (fun _ => False) Reordered where
  inStep := by
    rintro m _ ⟨_, _, _, rfl, hp, hf⟩
    exact ⟨⟨rfl, rfl, rfl, rfl, rfl, rfl, hp, hf⟩, rfl, rfl, rfl, rfl⟩
  dispatchLimit := by rintro m _ ⟨_, _, _, rfl, _⟩ count; exact Or.inl rfl
  depthLimit := by rintro m _ ⟨_, _, _, rfl, _⟩ depth; exact Or.inl rfl
  charge := fun hc => hc.elim
  update := by
    rintro m _ f ⟨_, _, _, rfl, hp, hf⟩ hupdate
    cases hupdate <;> exact ⟨_, _, _, rfl, hp, hf⟩
  register := fun h form => h.register form

/-- **After a rearrangement the program begins with the same routines.** -/
theorem Block.Rearranged.reordered {program program' : Block}
    (h : program.Rearranged program') (m : Machine) :
    Reordered (m.registerAll program) (m.registerAll program') := by
  have hfind : ∀ kind name, ((m.registerAll program').routines kind).find? name =
      ((m.registerAll program).routines kind).find? name := by
    intro kind name
    rw [find?_registerAll, find?_registerAll, h.definitions kind name]
  have hp := hfind .procedure
  have hf := hfind .function
  obtain ⟨procedures, functions, journal, hm⟩ := registerAll_eq m program
  obtain ⟨procedures', functions', journal', hm'⟩ := registerAll_eq m program'
  rw [hm, hm'] at hp hf ⊢
  exact ⟨procedures', functions', journal', rfl, hp, hf⟩

/-! ## Runs -/

/-- A run and one from a machine that lists its routines in another order. -/
abbrev Run.Reordered : Run → Run → Prop :=
  Run.Trims (fun _ => False) Pseudocode.Reordered

theorem Block.Rearranged.run {program program' : Block} (h : program.Rearranged program')
    (bound : Nat) (m : Machine) :
    (executeProgram bound program m).Reordered (executeProgram bound program' m) := by
  unfold executeProgram
  rw [h.others]
  refine trims_executeBlock truncation_reordered
    (execute_trims truncation_reordered (Or.inl rfl)) .global _ _ _ (h.reordered m.rewound) _ _ _ _
    ⟨fun _ n n' hR => ?_, fun halt n n' hR => ?_, fun _ _ _ hc => hc.elim⟩
  · exact .finished _ _ _ (truncation_reordered.update hR .settled)
  · exact .finished _ _ _ (truncation_reordered.update hR .settled)

/-- A host that treats machines alike if they differ by notes and by the order of their routines. -/
def Host.Impartial {σ : Type} (host : Host σ) : Prop :=
  ∀ s m m' q, Pseudocode.Reordered m m' →
    (host.reply s m' q).1 = (host.reply s m q).1 ∧
      (host.reply s m' q).2.1 = (host.reply s m q).2.1 ∧
      Pseudocode.Reordered (host.reply s m q).2.2 (host.reply s m' q).2.2

/-- **An impartial host does not tell the runs apart.** -/
theorem Run.Reordered.drain {r r' : Run} (h : r.Reordered r') {σ : Type} {host : Host σ}
    (hhost : host.Impartial) (s : σ) :
    (r'.drain host s).1 = (r.drain host s).1 ∧ (r'.drain host s).2.2 = (r.drain host s).2.2 ∧
      Pseudocode.Reordered (r.drain host s).2.1 (r'.drain host s).2.1 := by
  induction h generalizing s with
  | cut halt m r' hc => exact hc.elim
  | finished ending m m' hR => exact ⟨rfl, rfl, hR⟩
  | asking q m m' resume resume' hR _ ih =>
    obtain ⟨hreply, hstate, hmachine⟩ := hhost s m m' q hR
    rw [Run.drain, Run.drain]
    dsimp only
    rw [hreply, hstate]
    exact ih _ _ _ hmachine _

theorem Supply.impartial : Supply.host.Impartial :=
  fun _ _ _ _ hR => ⟨rfl, rfl, hR⟩

theorem Stepper.impartial : Stepper.host.Impartial := by
  intro s m m' q hR
  cases q with
  | began t =>
    obtain ⟨procedures, functions, journal, rfl, hp, hf⟩ := hR
    rw [Stepper.reply_began, Stepper.reply_began]
    cases s.stepping with
    | false => exact ⟨rfl, rfl, _, _, _, rfl, hp, hf⟩
    | true =>
      unfold Stepper.pause
      dsimp only
      cases s.commands.head?.getD s.usual <;> exact ⟨rfl, rfl, _, _, _, rfl, hp, hf⟩
  | _ => exact ⟨rfl, rfl, hR⟩

/-- **Definitions may stand anywhere.** If the statements at the top of a program are rearranged,
and statements other than definitions keep their order and so do the definitions of one kind and
name, then from every machine, under every bound, and with all inputs, files and answers at pauses,
the run ends as before: with the same ending, the same output and requests, and the same variables,
files and number of dispatches. -/
theorem definitions_may_stand_anywhere {program program' : Block} (h : program.Rearranged program')
    (bound : Nat) (m : Machine) :
    (∀ s : Supply, let r := runWithin bound program m s
      let r' := runWithin bound program' m s
      r'.ending = r.ending ∧ r'.supply = r.supply ∧ r'.machine.memory = r.machine.memory ∧
        r'.machine.files = r.machine.files ∧ r'.machine.dispatches = r.machine.dispatches) ∧
    ∀ s : Stepper, let r := (executeProgram bound program m).drain Stepper.host s
      let r' := (executeProgram bound program' m).drain Stepper.host s
      r'.1 = r.1 ∧ r'.2.2 = r.2.2 ∧ r'.2.1.memory = r.2.1.memory ∧ r'.2.1.files = r.2.1.files ∧
        r'.2.1.dispatches = r.2.1.dispatches := by
  constructor
  · intro s r r'
    obtain ⟨hending, hsupply, hmachine⟩ := (h.run bound m).drain Supply.impartial s
    have hstep := truncation_reordered.inStep hmachine
    exact ⟨hending, hsupply, hstep.memory, hstep.files, hstep.dispatches⟩
  · intro s r r'
    obtain ⟨hending, hstate, hmachine⟩ := (h.run bound m).drain Stepper.impartial s
    have hstep := truncation_reordered.inStep hmachine
    exact ⟨hending, hstate, hstep.memory, hstep.files, hstep.dispatches⟩

/-- A procedure is called before it is defined, and again after a block has replaced the one it
calls. -/
def replacedMidway : Block :=
  [.mk 1 (.call "Ping" []),
   .mk 2 (.ifThen (.literal 2 (.bool true))
     [.mk 3 (.procedure "Pong" [] [.mk 4 (.output [.literal 4 (.text "replaced")])])] [] none),
   .mk 7 (.call "Ping" []),
   .mk 8 (.procedure "Ping" [] [.mk 9 (.call "Pong" [])]),
   .mk 11 (.procedure "Pong" [] [.mk 12 (.output [.literal 12 (.text "as defined below")])])]

theorem replaced_midway_with_definitions_in_front :
    replacedMidway.Rearranged replacedMidway.gathered ∧
      replacedMidway.gathered.map Stmt.line = [8, 11, 1, 2, 7] ∧
      (runWithin plenty replacedMidway.gathered {} {}).supply.output.toList =
        ["as defined below", "replaced"] ∧
      (runWithin plenty replacedMidway.gathered {} {}).machine.dispatches = 8 := by
  have hrun := (definitions_may_stand_anywhere replacedMidway.rearranged_gathered plenty {}).1 {}
  obtain ⟨-, hsupply, -, -, hdispatches⟩ := hrun
  refine ⟨replacedMidway.rearranged_gathered, by decide +kernel, ?_, ?_⟩
  · rw [hsupply]
    decide +kernel
  · rw [hdispatches]
    decide +kernel

end Pseudocode

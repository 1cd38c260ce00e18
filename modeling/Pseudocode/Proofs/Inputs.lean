import Pseudocode.Proofs.Discipline
import Pseudocode.Proofs.TokenOrder

/-!
# The inputs of a program are known beforehand

`blockInputSites` lists the INPUT and READFILE statements of a program without running it. The list
is exact: it has one entry for each of them, at any depth, in the order in which their tokens stand
in the source. And it is complete for every run: a run begins no statement that does not stand in
the program, whatever the host replies, and a function body is never run past an input statement.

That a run keeps to the statements of its program is the simplest of disciplines (`ownStatements`):
nothing is said of the machine, except that the routines it knows come from the program.

Results:
* `executeProgram_obeys`: a run on a new machine begins statements of its program only.
* `runDispatched_refuses`: a function body cannot take input.
* `input_sites_are_known_beforehand`: both, with the order of the list.
-/

namespace Pseudocode

open Eval

/-- A host that leaves the procedures and functions of a machine alone. -/
def Host.LeavesRoutines {σ : Type} (host : Host σ) : Prop :=
  ∀ s m q, (host.reply s m q).2.2.procedures = m.procedures ∧
    (host.reply s m q).2.2.functions = m.functions

/-- **The discipline of a program's own statements.** -/
def ownStatements (program : Block) : Discipline where
  good s := s ∈ blockStatements program
  go _ _ := True
  stop _ _ _ := True
  host m _ _ n := n.procedures = m.procedures ∧ n.functions = m.functions
  inside := fun hs _ hb _ ht => mem_blockStatements_inside hs hb ht
  trans := fun _ _ => trivial
  unwritten := fun _ => trivial
  note := fun _ _ => trivial
  raised := fun _ _ => trivial
  after := fun _ _ => trivial
  onward := fun _ _ => trivial
  answered := fun _ => trivial
  refused := fun _ => trivial
  taught := id

variable {program : Block}

/-! ## Function bodies -/

theorem obeys_dispatch (line : Int) : (dispatch line).Obeys (ownStatements program) := by
  refine obeys_of_allows fun m hm => ?_
  cases hd : dispatch line m with
  | error h n => exact trivial
  | ok u n =>
    obtain ⟨-, -, rfl⟩ := dispatch_eq_ok.mp hd
    exact ⟨trivial, hm.of_eq rfl rfl⟩

theorem obeys_located {α : Type} {e : Eval α} (he : e.Obeys (ownStatements program)) (line : Int) :
    (located line e).Obeys (ownStatements program) := by
  refine obeys_of_allows fun m hm => ?_
  cases hstep : e m with
  | error h n =>
    rw [located_error line hstep]
    exact trivial
  | ok x n =>
    rw [located_ok line hstep]
    exact he.ok hm hstep

theorem evaluate_obeys (n : Nat) :
    (∀ scope e, (evaluate n scope e).Obeys (ownStatements program)) ∧
      ∀ scope s, s ∈ blockStatements program →
        (runStatement n scope s).Obeys (ownStatements program) := by
  induction n with
  | zero =>
    have hexhausted := fun α => (ownStatements program).performing.obeys_exhausted (α := α)
    exact ⟨fun _ _ => hexhausted _, fun _ _ _ => hexhausted _⟩
  | succ n ih =>
    refine ⟨fun scope e => ?_, fun scope s hs => (obeys_dispatch s.line).bind fun _ => ?_⟩
    · exact @relates_evaluateForm (ownStatements program).calling.comparison
        ⟨evaluate n, runStatement n⟩ _ scope ih.2 e fun part _ => ih.1 scope part
    · split
      · exact obeys_located
          (@obeys_runForm (ownStatements program)
            ⟨evaluate n, runStatement n⟩ ih.1 ih.2 n scope s hs) s.line
      · exact obeys_of_allows fun _ _ => trivial

/-- **A function body cannot take input**: it fails at a statement that would. -/
theorem runDispatched_refuses {s : Stmt} {site : InputSite} (hsite : s.inputSite? = some site)
    (ev : Evaluator) (bound : Nat) (scope : Scope) (m : Machine) :
    ∃ h n, runDispatched ev bound scope s m = .error h n := by
  have hform : s.form.allowedInFunction = false := by
    obtain ⟨line, form⟩ := s
    cases form with
    | input t => rfl
    | fileRead name t => rfl
    | _ => cases hsite
  unfold runDispatched
  cases hd : dispatch s.line m with
  | error h n => exact ⟨h, n, bind_eq_error.mpr (Or.inl hd)⟩
  | ok u n =>
    rw [bind_ok hd, hform]
    exact ⟨_, n, rfl⟩

/-! ## Runs -/

theorem execute_obeys (n : Nat) (scope : Scope) {s : Stmt} (hs : s ∈ blockStatements program) :
    (execute n scope s).Obeys (ownStatements program) := by
  induction n generalizing scope s with
  | zero => exact Action.obeys_lift (ownStatements program).performing.obeys_exhausted
  | succ n ih =>
    have hperform : (perform (evaluate n) (executeBlock (execute n)) n scope s.line s.form).Obeys
        (ownStatements program) :=
      obeys_perform (evaluate_obeys n).1
        (fun scope b hb =>
          (ownStatements program).actions.executeBlock (fun s hs scope => ih scope (hb s hs)) scope)
        n scope s.line hs
    have hlocated :
        (performLocated (evaluate n) (executeBlock (execute n)) n scope s.line s.form).Obeys
        (ownStatements program) := by
      cases hform : s.form with
      | inert kind => exact Action.obeys_lift (obeys_of_allows fun _ _ => trivial)
      | _ =>
        rw [hform] at hperform
        exact fun ends m next stop hm hnext hstop =>
          hperform ends m next _ hm hnext fun _ _ _ => hstop _ _ trivial
    refine (Action.obeys_lift (obeys_dispatch s.line)).bind fun _ => ?_
    refine (Action.obeys_ask fun t ht => by cases ht; exact hs).bind fun _ => ?_
    refine (Action.obeys_lift obeys_checkCancelled).bind fun _ => hlocated.bind fun after => ?_
    exact (Action.obeys_ask (by simp)).bind fun _ => Action.obeys_pure after

/-- **A run on a new machine begins statements of its program only**, whatever the host replies. -/
theorem executeProgram_obeys (bound : Nat) {m : Machine} (hp : m.procedures = {})
    (hf : m.functions = {}) :
    (executeProgram bound program m).Obeys (ownStatements program) fun _ _ => True := by
  have hrewound : m.rewound.Knows (ownStatements program).good := Machine.knows_of_empty hp hf
  have hprogram : ∀ s ∈ program, s ∈ blockStatements program :=
    fun s hs => mem_blockStatements_self hs
  refine (ownStatements program).actions.executeBlock
    (fun s hs scope => execute_obeys bound scope
    (hprogram s (List.mem_filter.mp hs).1)) .global _ _ _ _ (hrewound.registerAll hprogram) ?_ ?_
  · exact fun _ _ _ _ => .finished trivial
  · exact fun _ _ _ => .finished trivial

theorem mem_blockInputSites {t : Stmt} {site : InputSite} (ht : t ∈ blockStatements program)
    (hsite : t.inputSite? = some site) : site ∈ blockInputSites program := by
  rw [blockInputSites_eq]
  exact List.mem_filterMap.mpr ⟨t, ht, hsite⟩

/-- **The inputs of a program are known beforehand.** The list of input sites has one entry for each
INPUT and READFILE statement at any depth, in the order in which they stand in the source. Whatever
a run on a new machine is answered, the statements that it begins stand in the program, and those
that take input are on the list; a function body fails at such a statement. -/
theorem input_sites_are_known_beforehand {source : String} (hp : parseSource source = .ok program) :
    blockInputSites program = (blockStatements program).filterMap Stmt.inputSite? ∧
    (∃ tokens, tokenize source = .ok tokens ∧
      (blockInputSites program).map InputSite.mark = tokens.filterMap Token.inputMark?) ∧
    (∀ (bound : Nat) (m : Machine), m.procedures = {} → m.functions = {} →
      ∀ {σ : Type} (host : Host σ), host.LeavesRoutines →
        ∀ (s : σ), ∀ t ∈ (executeProgram bound program m).begun host s,
          t ∈ blockStatements program ∧ ∀ site, t.inputSite? = some site →
            site ∈ blockInputSites program) ∧
    ∀ (ev : Evaluator) (bound : Nat) (scope : Scope) (t : Stmt) (m : Machine) (site : InputSite),
      t.inputSite? = some site → ∃ h n, runDispatched ev bound scope t m = .error h n := by
  obtain ⟨tokens, htokens, hstands, -⟩ := stands_of_parseSource hp
  refine ⟨blockInputSites_eq program, ⟨tokens, htokens, ?_⟩, ?_, ?_⟩
  · rw [blockInputSites_eq]
    exact hstands.inputSites
  · intro bound m hprocedures hfunctions σ host hhost s t ht
    have hgood := (executeProgram_obeys bound hprocedures hfunctions).begun hhost s t ht
    exact ⟨hgood, fun site hsite => mem_blockInputSites hgood hsite⟩
  · exact fun ev bound scope t m site hsite => runDispatched_refuses hsite ev bound scope m

/-- Input from a file in a procedure, then input in a branch. -/
def twoInputs : String :=
  "PROCEDURE p()\nREADFILE \"a\", x\nENDPROCEDURE\nIF TRUE THEN\nINPUT y\nENDIF\nCALL p()\n"

theorem two_inputs_are_known_beforehand : ∃ program, parseSource twoInputs = .ok program ∧
    blockInputSites program = [⟨2, "x", .file⟩, ⟨5, "y", .keyboard⟩] ∧
    Supply.host.LeavesRoutines ∧
    ∀ t ∈ (executeProgram plenty program {}).begun Supply.host {},
      ∀ site, t.inputSite? = some site → site ∈ blockInputSites program := by
  have hparsed : (parseSource twoInputs).toOption.map blockInputSites =
      some [⟨2, "x", .file⟩, ⟨5, "y", .keyboard⟩] := by
    decide +kernel
  obtain ⟨program, hp, hsites⟩ := exists_of_parseSource hparsed
  have hhost : Supply.host.LeavesRoutines := fun _ _ _ => ⟨rfl, rfl⟩
  obtain ⟨-, -, hruns, -⟩ := input_sites_are_known_beforehand hp
  exact ⟨program, hp, hsites, hhost, fun t ht =>
    (hruns plenty {} rfl rfl Supply.host hhost {} t ht).2⟩

end Pseudocode

import Pseudocode.Proofs.FileValues
import Pseudocode.Proofs.Seclusion
import Pseudocode.Proofs.Storage

/-!
# Values survive a file

A program writes values to a file, in one WRITE session and any number of APPEND sessions, and then
reads them into variables and elements of arrays that are declared with their types. What it reads
is what it wrote.

The statements are executed one by one, with the answers of a host that leaves the machine alone.
`Trip` tells how far a program has come with a file: by which statements on it, and by which
statements on other files in between. What belongs to a trip is what the statements mean where they
are executed (`Form.Tells`), so names, values and indices may be given by any expressions.
`OnCourse` says what a program can rely on at any point of a trip.

Results:
* `execute_does`: a statement on a file that is executed does its deed, and nothing else to the
  files.
* `Trip.fits`: the table of files at every point of a trip.
* `values_survive_a_file_round_trip`: trips stay on course.
-/

namespace Pseudocode

open Eval

/-! ## Parts of a run with the answers of a host -/

/-- A host that answers every query and leaves the machine alone. -/
def Host.Quiet {σ : Type} (host : Host σ) : Prop :=
  ∀ s m q, ∃ a s', host.reply s m q = (.ok a, s', m)

theorem Supply.quiet_host : Supply.host.Quiet := by
  intro s m q
  cases q with
  | input label type =>
    cases hinputs : s.inputs with
    | nil => exact ⟨"", _, by simp only [Supply.host, Supply.reply, hinputs]; rfl⟩
    | cons text rest => exact ⟨text, _, by simp only [Supply.host, Supply.reply, hinputs]; rfl⟩
  | _ => exact ⟨_, _, rfl⟩

namespace Action

/-- A part of a run ends with a result. -/
def Gives {σ α : Type} (host : Host σ) (a : Action α) (m : Machine) (s : σ) (x : α)
    (m' : Machine) (s' : σ) : Prop :=
  ∀ next stop, (a m next stop).drain host s = (next x m').drain host s'

/-- A part of a run stops. -/
def Stops {σ α : Type} (host : Host σ) (a : Action α) (m : Machine) (s : σ) (h : Halt)
    (m' : Machine) (s' : σ) : Prop :=
  ∀ next stop, (a m next stop).drain host s = (stop h m').drain host s'

/-- A part of a run ends with a result and a machine for which `P` holds, or stops. -/
def Ends {σ α : Type} (host : Host σ) (a : Action α) (m : Machine) (s : σ)
    (P : α → Machine → Prop) : Prop :=
  (∃ x m' s', a.Gives host m s x m' s' ∧ P x m') ∨ ∃ h m' s', a.Stops host m s h m' s'

section Parts

variable {σ α β : Type} {host : Host σ} {a : Action α} {k : α → Action β} {m m' m₁ : Machine}
  {s s' s₁ : σ} {x : α} {y : β} {h : Halt} {P : α → Machine → Prop} {Q : β → Machine → Prop}

theorem gives_pure (x : α) (m : Machine) (s : σ) : (pure x : Action α).Gives host m s x m s :=
  fun _ _ => rfl

theorem gives_lift {e : Eval α} (he : e m = .ok x m') (s : σ) :
    (liftM e : Action α).Gives host m s x m' s := by
  intro next stop
  rw [lift_ok next stop he]

theorem stops_lift {e : Eval α} (he : e m = .error h m') (s : σ) :
    (liftM e : Action α).Stops host m s h m' s := by
  intro next stop
  rw [lift_error next stop he]

theorem Gives.bind (ha : a.Gives host m s x m₁ s₁) (hk : (k x).Gives host m₁ s₁ y m' s') :
    (a >>= k).Gives host m s y m' s' := fun next stop =>
  (ha (fun x m => k x m next stop) stop).trans (hk next stop)

theorem Gives.bind_stops (ha : a.Gives host m s x m₁ s₁) (hk : (k x).Stops host m₁ s₁ h m' s') :
    (a >>= k).Stops host m s h m' s' := fun next stop =>
  (ha (fun x m => k x m next stop) stop).trans (hk next stop)

theorem Stops.bind (ha : a.Stops host m s h m' s') : (a >>= k).Stops host m s h m' s' :=
  fun next stop =>
  ha (fun x m => k x m next stop) stop

theorem Gives.located (ha : a.Gives host m s x m' s') (line : Int) :
    (Action.located line a).Gives host m s x m' s' :=
  fun next _ => ha next _

theorem Stops.located (ha : a.Stops host m s h m' s') (line : Int) :
    (Action.located line a).Stops host m s (m'.charge line h).1 (m'.charge line h).2 s' :=
  fun next _ => ha next _

/-- What a part of a run ends with is determined. -/
theorem Ends.of_gives {P : Machine → Prop} (he : a.Ends host m s fun _ => P)
    (ha : a.Gives host m s x m' s') : P m' := by
  -- Followed by nothing, the part shows in how the run ends.
  have hgiven := ha (fun _ m => .finished (.ok ()) m) fun h m => .finished (.error h) m
  rcases he with ⟨_, m₂, s₂, ha₂, hP⟩ | ⟨h, m₂, s₂, ha₂⟩
  · rw [ha₂] at hgiven
    cases hgiven
    exact hP
  · rw [ha₂] at hgiven
    cases hgiven

theorem Gives.ends (ha : a.Gives host m s x m' s') (h : P x m') : a.Ends host m s P :=
  Or.inl ⟨x, m', s', ha, h⟩

theorem ends_lift {e : Eval α} (s : σ) (h : ∀ x m', e m = .ok x m' → P x m') :
    (liftM e : Action α).Ends host m s P := by
  cases he : e m with
  | ok x m' => exact (gives_lift he s).ends (h x m' he)
  | error h m' => exact Or.inr ⟨h, m', s, stops_lift he s⟩

theorem Gives.bind_ends (ha : a.Gives host m s x m₁ s₁) (hk : (k x).Ends host m₁ s₁ Q) :
    (a >>= k).Ends host m s Q := by
  rcases hk with ⟨y, m₂, s₂, hk, hQ⟩ | ⟨h, m₂, s₂, hk⟩
  · exact (ha.bind hk).ends hQ
  · exact Or.inr ⟨h, m₂, s₂, ha.bind_stops hk⟩

theorem Ends.bind (ha : a.Ends host m s P) (hk : ∀ x m' s', P x m' → (k x).Ends host m' s' Q) :
    (a >>= k).Ends host m s Q := by
  rcases ha with ⟨x, m₁, s₁, ha, hP⟩ | ⟨h, m₁, s₁, ha⟩
  · exact ha.bind_ends (hk x m₁ s₁ hP)
  · exact Or.inr ⟨h, m₁, s₁, ha.bind⟩

theorem Ends.located (ha : a.Ends host m s P) (line : Int) :
    (Action.located line a).Ends host m s P := by
  rcases ha with ⟨x, m₁, s₁, ha, hP⟩ | ⟨h, m₁, s₁, ha⟩
  · exact (ha.located line).ends hP
  · exact Or.inr ⟨_, _, s₁, ha.located line⟩

/-- A form of statement that gives back the value it was handed. -/
theorem Gives.handing {a : Action Unit} (ha : a.Gives host m s () m' s') (y : β) (line : Int) :
    (Action.located line (a >>= fun _ => pure y)).Gives host m s y m' s' :=
  (ha.bind (gives_pure y m' s')).located line

theorem Ends.handing {P : Machine → Prop} (ha : a.Ends host m s fun _ => P) (y : β) (line : Int) :
    (Action.located line (a >>= fun _ => pure y)).Ends host m s fun _ => P :=
  (ha.bind fun _ m' s' h => (gives_pure y m' s').ends h).located line

theorem gives_ask (hq : host.Quiet) (q : Query) (m : Machine) (s : σ) :
    ∃ a s', (Action.ask q).Gives host m s a m s' := by
  obtain ⟨a, s', hreply⟩ := hq s m q
  refine ⟨a, s', fun next stop => ?_⟩
  rw [Action.ask, Run.drain, hreply]

end Parts

end Action

open Pseudocode.Action (gives_ask gives_lift gives_pure ends_lift stops_lift)

/-! ## Statements -/

/-- The next statement can be dispatched. -/
structure Machine.Ready (m : Machine) : Prop where
  allowed : m.settings.maxDispatches.allows (m.dispatches + 1) = .ok true
  uncancelled : m.cancelRequested = false

/-- What comes before the form of a statement. -/
def Stmt.approach (st : Stmt) : Action Unit := do
  (dispatch st.line : Eval Unit)
  Action.ask (.began st)
  (checkCancelled : Eval Unit)

theorem execute_eq (n : Nat) (scope : Scope) (st : Stmt) :
    execute (n + 1) scope st = st.approach >>= fun _ =>
      performLocated (evaluate n) (executeBlock (execute n)) n scope st.line st.form >>=
          fun after =>
      Action.ask (.ended st) >>= fun _ => pure after :=
  rfl

section Statements

variable {σ : Type} {host : Host σ} (hq : host.Quiet) {n : Nat} {scope after : Scope} {st : Stmt}
  {m m' : Machine} {h : Halt}

theorem checkCancelled_of_uncancelled (hm : m.cancelRequested = false) :
    checkCancelled m = .ok () m := by
  rw [checkCancelled_apply, if_neg (by rw [hm]; exact Bool.false_ne_true)]

include hq

theorem gives_approach (hm : m.Ready) (st : Stmt) (s : σ) :
    ∃ s', st.approach.Gives host m s () (m.counted.reached st.line) s' := by
  have hdispatch :=
    dispatch_eq_ok.mpr ⟨hm.allowed, hm.uncancelled, Eq.refl (m.counted.reached st.line)⟩
  have hcheck : checkCancelled (m.counted.reached st.line) = .ok () (m.counted.reached st.line) :=
    checkCancelled_of_uncancelled hm.uncancelled
  obtain ⟨_, s₁, hbegan⟩ := gives_ask hq (.began st) (m.counted.reached st.line) s
  exact ⟨s₁, (gives_lift hdispatch s).bind (hbegan.bind (gives_lift hcheck s₁))⟩

theorem ends_approach (st : Stmt) (s : σ) :
    st.approach.Ends host m s fun _ m' => m' = m.counted.reached st.line := by
  cases hd : dispatch st.line m with
  | error h m₁ => exact Or.inr ⟨h, m₁, s, (stops_lift hd s).bind⟩
  | ok _ m₁ =>
    obtain ⟨hallowed, huncancelled, -⟩ := dispatch_eq_ok.mp hd
    obtain ⟨s', hgives⟩ := gives_approach hq ⟨hallowed, huncancelled⟩ st s
    exact hgives.ends rfl

/-- A statement ends as its form does once it is dispatched. -/
theorem execute_gives (st : Stmt) (hm : m.Ready) (hform : ∀ s, ∃ s',
      (performLocated (evaluate n) (executeBlock (execute n)) n scope st.line st.form).Gives host
      (m.counted.reached st.line) s after m' s') (s : σ) :
    ∃ s', (execute (n + 1) scope st).Gives host m s after m' s' := by
  obtain ⟨s₁, happroach⟩ := gives_approach hq hm st s
  obtain ⟨s₂, hdone⟩ := hform s₁
  obtain ⟨_, s₃, hended⟩ := gives_ask hq (.ended st) m' s₂
  rw [execute_eq]
  exact ⟨s₃, happroach.bind (hdone.bind (hended.bind (gives_pure after m' s₃)))⟩

/-- A statement stops as its form does once it is dispatched. -/
theorem execute_stops (st : Stmt) (hm : m.Ready) (hform : ∀ s, ∃ s',
      (performLocated (evaluate n) (executeBlock (execute n)) n scope st.line st.form).Stops host
      (m.counted.reached st.line) s h m' s') (s : σ) :
    ∃ s', (execute (n + 1) scope st).Stops host m s h m' s' := by
  obtain ⟨s₁, happroach⟩ := gives_approach hq hm st s
  obtain ⟨s₂, hdone⟩ := hform s₁
  rw [execute_eq]
  exact ⟨s₂, happroach.bind_stops hdone.bind⟩

/-- What holds where the form of a statement ends holds where the statement does. -/
theorem execute_ends {P : Machine → Prop} (hform : ∀ s,
      (performLocated (evaluate n) (executeBlock (execute n)) n scope st.line st.form).Ends host
      (m.counted.reached st.line) s fun _ => P) (s : σ) :
    (execute (n + 1) scope st).Ends host m s fun _ => P := by
  rw [execute_eq]
  refine (ends_approach hq st s).bind fun _ m₁ s₁ hm₁ => ?_
  subst hm₁
  refine (hform s₁).bind fun after m₂ s₂ hP => ?_
  obtain ⟨_, s₃, hended⟩ := gives_ask hq (.ended st) m₂ s₂
  exact (hended.bind (gives_pure after m₂ s₃)).ends hP

end Statements

/-! ## Destinations -/

theorem Memory.at?_update_self {memory : Memory} {l : Location} {v : Variable}
    (h : memory.at? l = some v) (g : Variable → Variable) :
    (memory.update l g).at? l = some (g v) := by
  simp only [Memory.at?, Memory.update] at h ⊢
  rw [Array.getElem?_modify, if_pos rfl, h, Option.map_some]

/-- What has been put into a cell is read from it. -/
theorem Grid.get_putAt (grid : Grid) {indices : List Int} (h : grid.bounds.InBox indices)
    (name : String) (v : Value) :
    (grid.putAt (grid.bounds.offset indices) v).get name indices = .ok v := by
  have hlt : grid.bounds.offset indices < grid.cells.size := by
    rw [grid.size_cells]
    exact h.offset_lt
  have hcell :
      ((grid.putAt (grid.bounds.offset indices) v).cells[grid.bounds.offset indices]?).join =
      some v := by
    rw [Grid.putAt, Array.getElem?_setIfInBounds_self_of_lt hlt]
    rfl
  have hlocate : (grid.putAt (grid.bounds.offset indices) v).locate name indices =
      .ok (grid.bounds.offset indices) :=
    Grid.locate_of_inBox _ h name
  simp only [Grid.get, hlocate, bind, Except.bind, hcell]
  rfl

namespace Destination

/-- The value at a destination. -/
def value? (d : Destination) (memory : Memory) : Option Value :=
  (memory.at? d.location).bind fun v =>
    match d.indices with
    | none => v.held?
    | some indices => (v.getElement d.name indices).toOption

/-- A destination is declared with a type: it is a scalar of that type, or an element inside the
bounds of an array of that type. -/
inductive Declared (d : Destination) (memory : Memory) (type : DataType) : Prop
  | scalar {held : Option Value} (hd : d.indices = none)
      (hv : memory.at? d.location = some (.scalar type held)) : Declared d memory type
  | element {grid : Grid} {indices : List Int} (hd : d.indices = some indices)
      (hv : memory.at? d.location = some (.array type grid)) (hbox : grid.bounds.InBox indices) :
      Declared d memory type

variable {d : Destination} {m : Machine} {type : DataType}

theorem Declared.inputType (h : d.Declared m.memory type) : d.inputType m = .ok type m := by
  unfold Destination.inputType
  cases h with
  | scalar hd hv =>
    rw [bind_ok (variableAt_of_at? hv), hd]
    rfl
  | element hd hv hbox =>
    rw [bind_ok (variableAt_of_at? hv), hd]
    rfl

/-- A value that is stored is found there. -/
theorem Declared.store (h : d.Declared m.memory type) (v : Value) :
    ∃ m', d.store v m = .ok () m' ∧ d.value? m'.memory = some v := by
  unfold Destination.store value?
  cases h with
  | scalar hd hv =>
    refine ⟨{ m with memory := m.memory.update d.location (·.assign v) }, ?_, ?_⟩
    · rw [hd]
      rfl
    · rw [Memory.at?_update_self hv, hd]
      rfl
  | @element grid indices hd hv hbox =>
    refine ⟨{ m with
      memory := m.memory.update d.location (·.putAt (grid.bounds.offset indices) v) }, ?_, ?_⟩
    · have hplace : attempt ((Variable.array type grid).place d.name indices) m =
          .ok (grid.bounds.offset indices) m := by
        rw [Variable.place, grid.locate_of_inBox hbox d.name]
        rfl
      rw [hd]
      exact (bind_ok (variableAt_of_at? hv)).trans (bind_ok hplace)
    · rw [Memory.at?_update_self hv, hd]
      show ((grid.putAt (grid.bounds.offset indices) v).get d.name indices).toOption = some v
      rw [grid.get_putAt hbox]
      rfl

end Destination

/-! ## Statements on files -/

/-- What a statement on a file is about to do where it is executed: the file that it names is `f`,
the deed is the one given, and its expressions leave the last machine. -/
inductive Form.Tells (n : Nat) (scope : Scope) (m : Machine) (f : String) :
    Form → Deed → Machine → Prop
  | opens {name : Expr} {m₁ : Machine}
      (hname : fileName (evaluate n) scope name m = .ok f m₁) (mode : String) :
      Tells n scope m f (.fileOpen name mode) (.opens mode) m₁
  | closes {name : Expr} {m₁ : Machine} (hname : fileName (evaluate n) scope name m = .ok f m₁) :
      Tells n scope m f (.fileClose name) .closes m₁
  | writes {name data : Expr} {v : Value} {m₁ m₂ : Machine}
      (hname : fileName (evaluate n) scope name m = .ok f m₁)
      (hdata : evaluate n scope data m₁ = .ok v m₂) :
      Tells n scope m f (.fileWrite name data) (.writes v) m₂
  | reads {name : Expr} {m₁ : Machine} (hname : fileName (evaluate n) scope name m = .ok f m₁)
      (target : Target) :
      Tells n scope m f (.fileRead name target) .reads m₁

section Expressions

variable {n : Nat} {scope : Scope} {e : Expr} {m m₁ : Machine} {f : String}

theorem evaluate_files {v : Value} (h : evaluate n scope e m = .ok v m₁) : m₁.files = m.files := by
  have hfiles := (evaluate_secluded n scope e m).files
  rwa [Eval.leaves, h] at hfiles

theorem attempt_eq_ok {α : Type} {a : Attempt α} {x : α} (h : attempt a m = .ok x m₁) :
    a = .ok x ∧ m₁ = m := by
  cases a with
  | error h' => cases h
  | ok y =>
    cases h
    exact ⟨rfl, rfl⟩

theorem fileName_eq_ok (h : fileName (evaluate n) scope e m = .ok f m₁) :
    ∃ v, evaluate n scope e m = .ok v m₁ ∧ v.shown = .ok f := by
  obtain ⟨v, m₂, hv, hattempt⟩ := bind_eq_ok.mp h
  obtain ⟨hshown, rfl⟩ := attempt_eq_ok hattempt
  exact ⟨v, hv, hshown⟩

theorem fileName_files (h : fileName (evaluate n) scope e m = .ok f m₁) : m₁.files = m.files := by
  obtain ⟨v, hv, -⟩ := fileName_eq_ok h
  exact evaluate_files hv

theorem Form.Tells.files {form : Form} {deed : Deed} (h : form.Tells n scope m f deed m₁) :
    m₁.files = m.files := by
  cases h with
  | opens hname => exact fileName_files hname
  | closes hname => exact fileName_files hname
  | writes hname hdata => exact (evaluate_files hdata).trans (fileName_files hname)
  | reads hname => exact fileName_files hname

/-- What READFILE does once it has its line leaves the files alone. -/
theorem intake_files {t : Target} {line text : String}
    (h : intake (evaluate n) scope t line m = .ok text m₁) : m₁.files = m.files := by
  have hx : ∀ e, Settled unguarded Everything scope (fun _ => evaluate n) e := fun e m _ =>
    ((evaluate_runStatement_settle n).1 Everything scope e (fun _ _ => trivial) m rfl).unguard
  have hintake : Settles unguarded (.running Everything Unheld Nothing) scope m
      (fun _ => intake (evaluate n) scope t line) (fun _ => scope) fun _ _ => True :=
        settles_intake hx trivial t line
  obtain ⟨_, acts⟩ := hintake.acts
  have hfiles := (acts.surroundings fun _ _ h => h.elim).files
  rwa [Eval.leaves, h] at hfiles

theorem shown_eq_ok {v : Value} {line : String} : v.shown = .ok line ↔ v.shown? = some line := by
  unfold Value.shown
  cases v.shown? with
  | none => exact ⟨fun h => (by cases h), fun h => (by cases h)⟩
  | some text => exact ⟨fun h => (by cases h; rfl), fun h => (by cases h; rfl)⟩

end Expressions

section Files

variable {α : Type} {g : FileTable → Except FileFault (α × FileTable)} {m m' : Machine}
  {t : FileTable} {x : α}

theorem onFiles_ok (h : g m.files = .ok (x, t)) : onFiles g m = .ok x { m with files := t } := by
  have hget : (get : Eval Machine) m = .ok m m := rfl
  refine (bind_ok hget).trans ?_
  rw [h]
  rfl

theorem onFiles_error {cause : FileFault} (h : g m.files = .error cause) :
    onFiles g m = .error (.fault (.file cause) 0) m := by
  have hget : (get : Eval Machine) m = .ok m m := rfl
  refine (bind_ok hget).trans ?_
  rw [h]
  rfl

theorem onFiles_eq_ok (h : onFiles g m = .ok x m') :
    ∃ t, g m.files = .ok (x, t) ∧ m' = { m with files := t } := by
  cases hg : g m.files with
  | error cause =>
    rw [onFiles_error hg] at h
    cases h
  | ok r =>
    obtain ⟨y, t⟩ := r
    rw [onFiles_ok hg] at h
    cases h
    exact ⟨t, rfl, rfl⟩

end Files

/-! ## Deeds -/

/-- What is noted of a file that is closed. -/
def closedNote (name : String) (h : FileHandle) : Note :=
  match h.mode with
  | .read => .closedRead name
  | _ => .closedWritten name h.lines.size

section Deeds

variable {σ : Type} {host : Host σ} (hq : host.Quiet) {n bound : Nat} {scope : Scope}
  {m m₁ : Machine} {f : String} {form : Form} {deed : Deed} {block : Scope → Block → Action Scope}
  {line : Int} {s : σ}
include hq

/-- The host is asked for the text of a file only where it is wanted. -/
theorem gives_obtainUpload (m : Machine) (f mode : String) (s : σ) :
    ∃ uploads s', (obtainUpload f mode).Gives host m s (m.files.uploadFor uploads f mode) m s' := by
  have hget : (liftM (get : Eval Machine) : Action Machine).Gives host m s m m s := gives_lift rfl s
  cases hwants : m.files.wantsUpload f mode with
  | true =>
    obtain ⟨upload, s', hask⟩ := gives_ask hq (.upload f) m s
    refine ⟨fun _ => upload, s', hget.bind ?_⟩
    rw [FileTable.uploadFor, hwants]
    exact hask
  | false =>
    refine ⟨fun _ => .missing, s, hget.bind ?_⟩
    rw [FileTable.uploadFor, hwants]
    exact gives_pure _ m s

/-- A note and the line of output that goes with it. -/
theorem gives_reported (n : Note) (text : String) (m : Machine) (s : σ) :
    ∃ s', ((liftM (note n) : Action Unit) >>= fun _ => Action.ask (.output text)).Gives host m s
      () (m.note n) s' := by
  obtain ⟨_, s', hask⟩ := gives_ask hq (.output text) (m.note n) s
  have hnote : (liftM (note n) : Action Unit).Gives host m s () (m.note n) s := gives_lift rfl s
  exact ⟨s', hnote.bind hask⟩

/-- What WRITEFILE gives back. -/
theorem gives_echo (name data : String) (m : Machine) (s : σ) :
    ∃ s', ((liftM (get : Eval Machine) : Action Machine) >>= fun m =>
      if m.settings.echoWrites then Action.ask (.output (writtenLine name data)) else pure ()).Gives
        host m s () m s' := by
  have hget : (liftM (get : Eval Machine) : Action Machine).Gives host m s m m s := gives_lift rfl s
  cases hecho : m.settings.echoWrites with
  | true =>
    obtain ⟨_, s', hask⟩ := gives_ask hq (.output (writtenLine name data)) m s
    refine ⟨s', hget.bind ?_⟩
    rw [hecho]
    exact hask
  | false =>
    refine ⟨s, hget.bind ?_⟩
    rw [hecho]
    exact gives_pure () m s

section Named

variable {name : Expr} (hname : fileName (evaluate n) scope name m = .ok f m₁)
include hname

theorem ends_performOpen (mode : String) :
    (performOpen (evaluate n) scope name mode).Ends host m s fun _ m' =>
      m₁.files.Does f (.opens mode) m'.files := by
  obtain ⟨uploads, s₁, hupload⟩ := gives_obtainUpload hq m₁ f mode s
  refine (gives_lift hname s).bind_ends (hupload.bind_ends ?_)
  refine (ends_lift s₁ fun h m₂ => onFiles_eq_ok).bind ?_
  rintro h m₂ s₂ ⟨t, hopen, rfl⟩
  obtain ⟨s₃, hreport⟩ :=
    gives_reported hq (.opened f h.mode.name h.lines.size) (openedLine f h) _ s₂
  refine hreport.ends ⟨_, uploads, .opened h, rfl, ?_⟩
  rw [FileTable.perform, hopen]
  rfl

theorem ends_performClose :
    (performClose (evaluate n) scope name).Ends host m s fun _ m' =>
      m₁.files.Does f .closes m'.files := by
  refine (gives_lift hname s).bind_ends ?_
  refine (ends_lift s fun h m₂ => onFiles_eq_ok).bind ?_
  rintro h m₂ s₂ ⟨t, hclose, rfl⟩
  obtain ⟨s₃, hreport⟩ := gives_reported hq (closedNote f h) (closedLine f h) _ s₂
  refine hreport.ends ⟨_, fun _ => .missing, .closed h, rfl, ?_⟩
  rw [FileTable.perform, hclose]
  rfl

theorem ends_performRead (target : Target) :
    (performRead (evaluate n) scope name target).Ends host m s fun _ m' =>
      m₁.files.Does f .reads m'.files := by
  have hread :
      (liftM (takeLine (evaluate n) scope name target) : Action String).Ends host m s fun _ m' =>
      m₁.files.Does f .reads m'.files := by
    refine ends_lift s fun text m₃ hdone => ?_
    rw [takeLine, bind_ok hname] at hdone
    obtain ⟨line, m₂, hline, hintake⟩ := bind_eq_ok.mp hdone
    obtain ⟨t, hnext, rfl⟩ := onFiles_eq_ok hline
    rw [intake_files hintake]
    refine ⟨_, fun _ => .missing, .line line, rfl, ?_⟩
    rw [FileTable.perform, hnext]
    rfl
  refine hread.bind fun text m₂ s₂ hdoes => ?_
  obtain ⟨_, s₃, hask⟩ := gives_ask hq (.output text) m₂ s₂
  exact hask.ends hdoes

theorem ends_performWrite {data : Expr} {v : Value} {m₂ : Machine}
    (hdata : evaluate n scope data m₁ = .ok v m₂) :
    (performWrite (evaluate n) scope name data).Ends host m s fun _ m' =>
      m₂.files.Does f (.writes v) m'.files := by
  have hwrite :
      (liftM (putLine (evaluate n) scope name data) : Action (String × String)).Ends host m s
      fun _ m' => m₂.files.Does f (.writes v) m'.files := by
    refine ends_lift s fun texts m₄ hdone => ?_
    rw [putLine, bind_ok hname, bind_ok hdata] at hdone
    obtain ⟨text, m₃, hattempt, hrest⟩ := bind_eq_ok.mp hdone
    obtain ⟨hshown, rfl⟩ := attempt_eq_ok hattempt
    obtain ⟨_, m₅, hfiles, hresult⟩ := bind_eq_ok.mp hrest
    obtain ⟨t, hmapped, rfl⟩ := onFiles_eq_ok hfiles
    cases hresult
    obtain ⟨t', hwrite, heq⟩ := except_bind_eq_ok.mp hmapped
    cases heq
    refine ⟨.writes f text, fun _ => .missing, .written, ?_, ?_⟩
    · exact Option.map_eq_some_iff.mpr ⟨text, shown_eq_ok.mp hshown, rfl⟩
    · rw [FileTable.perform, hwrite]
      rfl
  refine hwrite.bind fun texts m₃ s₃ hdoes => ?_
  obtain ⟨s₄, hecho⟩ := gives_echo hq texts.1 texts.2 m₃ s₃
  exact hecho.ends hdoes

end Named

/-- **A statement on a file that is executed does its deed**, and nothing else to the files. -/
theorem execute_does {st : Stmt} {after : Scope} {m' : Machine} {s' : σ}
    (htells : st.form.Tells n scope (m.counted.reached st.line) f deed m₁)
    (hdone : (execute (n + 1) scope st).Gives host m s after m' s') :
    m.files.Does f deed m'.files := by
  have hfiles : m₁.files = m.files := htells.files
  rw [← hfiles]
  refine (execute_ends (P := fun m' => m₁.files.Does f deed m'.files) hq
    (fun s => ?_) s).of_gives hdone
  generalize st.form = form at htells ⊢
  cases htells with
  | opens hname mode => exact (ends_performOpen hq hname mode).handing scope st.line
  | closes hname => exact (ends_performClose hq hname).handing scope st.line
  | writes hname hdata => exact (ends_performWrite hq hname hdata).handing scope st.line
  | reads hname target => exact (ends_performRead hq hname target).handing scope st.line

/-- A deed that succeeds on the files is done by the statement that tells it. Apart from the files
and the notes the machine is left as the expressions of the statement leave it. -/
theorem gives_of_perform (htells : form.Tells n scope m f deed m₁) (hdeed : deed ≠ .reads)
    {op : FileOp} {reply : FileReply} {t : FileTable} (hop : deed.op? f = some op)
    (hdone : ∀ uploads, m₁.files.perform uploads op = .ok (reply, t)) :
    ∃ journal, ∀ s, ∃ s',
      (performLocated (evaluate n) block bound scope line form).Gives host m s scope
      { m₁ with files := t, journal := journal } s' := by
  cases htells with
  | @opens name _ hname mode =>
    cases hop
    -- The new entry does not depend on the host's text, so the note can be named before the host is
    -- asked.
    obtain ⟨⟨h, t'⟩, -, heq⟩ := except_bind_eq_ok.mp (hdone fun _ => .missing)
    cases heq
    refine ⟨.opened f h.mode.name h.lines.size :: m₁.journal, fun s => ?_⟩
    obtain ⟨uploads, s₁, hupload⟩ := gives_obtainUpload hq m₁ f mode s
    obtain ⟨⟨h', t'⟩, hopen, heq⟩ := except_bind_eq_ok.mp (hdone uploads)
    cases heq
    obtain ⟨s₂, hreport⟩ := gives_reported hq (.opened f h.mode.name h.lines.size) (openedLine f h)
      { m₁ with files := t } s₁
    refine ⟨s₂, ((gives_lift hname s).bind (hupload.bind ?_)).handing scope line⟩
    exact (gives_lift (onFiles_ok hopen) s₁).bind hreport
  | closes hname =>
    cases hop
    obtain ⟨⟨h, t'⟩, hclose, heq⟩ := except_bind_eq_ok.mp (hdone fun _ => .missing)
    cases heq
    refine ⟨closedNote f h :: m₁.journal, fun s => ?_⟩
    obtain ⟨s₂, hreport⟩ :=
      gives_reported hq (closedNote f h) (closedLine f h) { m₁ with files := t } s
    refine ⟨s₂, ((gives_lift hname s).bind ?_).handing scope line⟩
    exact (gives_lift (onFiles_ok hclose) s).bind hreport
  | @writes name data v m₂ _ hname hdata =>
    obtain ⟨text, hshown, rfl⟩ := Option.map_eq_some_iff.mp hop
    obtain ⟨t', hwrite, heq⟩ := except_bind_eq_ok.mp (hdone fun _ => .missing)
    cases heq
    refine ⟨m₁.journal, fun s => ?_⟩
    have hline : putLine (evaluate n) scope name data m = .ok (f, text) { m₁ with files := t } := by
      have hattempt : attempt v.shown m₁ = .ok text m₁ := by
        rw [shown_eq_ok.mpr hshown]
        rfl
      have hmapped : (m₁.files.write f text).map (fun t => ((), t)) = .ok ((), t) := by
        rw [hwrite]
        rfl
      rw [putLine, bind_ok hname, bind_ok hdata, bind_ok hattempt]
      exact bind_ok (onFiles_ok (g := fun t => (t.write f text).map fun t => ((), t)) hmapped)
    obtain ⟨s₂, hecho⟩ := gives_echo hq f text { m₁ with files := t } s
    exact ⟨s₂, ((gives_lift hline s).bind hecho).handing scope line⟩
  | reads => exact absurd rfl hdeed

/-- READFILE stores the value that its line is read as. -/
theorem gives_performRead {name : Expr} {target : Target} {text : String} {t : FileTable}
    {d : Destination} {type : DataType} {v : Value} {m₂ m' : Machine}
    (hname : fileName (evaluate n) scope name m = .ok f m₁)
    (hnext : m₁.files.next f = .ok (text, t))
    (hd : resolveTarget (evaluate n) scope target { m₁ with files := t } = .ok d m₂)
    (htype : d.Declared m₂.memory type) (hv : Value.ofText type text = .ok v)
    (hstore : d.store v m₂ = .ok () m') (s : σ) :
    ∃ s', (performRead (evaluate n) scope name target).Gives host m s () m' s' := by
  have hline : takeLine (evaluate n) scope name target m = .ok text m' := by
    have hattempt : attempt (Value.ofText type text) m₂ = .ok v m₂ := by
      rw [hv]
      rfl
    rw [takeLine, bind_ok hname, bind_ok (onFiles_ok hnext), intake, bind_ok hd,
      bind_ok htype.inputType, bind_ok hattempt, bind_ok hstore]
    rfl
  obtain ⟨_, s', hask⟩ := gives_ask hq (.output text) m' s
  exact ⟨s', (gives_lift hline s).bind hask⟩

omit hq in
/-- READFILE stops if there is no line to read. -/
theorem stops_performRead {name : Expr} {cause : FileFault}
    (hname : fileName (evaluate n) scope name m = .ok f m₁) (hnext : m₁.files.next f = .error cause)
    (target : Target) (s : σ) :
    (performRead (evaluate n) scope name target).Stops host m s (.fault (.file cause) 0) m₁ s := by
  have hline : takeLine (evaluate n) scope name target m = .error (.fault (.file cause) 0) m₁ := by
    rw [takeLine, bind_ok hname]
    exact bind_eq_error.mpr (Or.inl (onFiles_error hnext))
  exact (stops_lift hline s).bind

omit hq in
/-- EOF asks the table of files. -/
theorem evaluate_endOfFile {name : String} {e : Expr} {b : Bool}
    (hb : Builtin.ofName? name = some .endOfFile) (he : fileName (evaluate n) scope e m = .ok f m₁)
    (hend : m.files.atEnd f = .ok b) (line : Int) :
    evaluate (n + 1) scope (.call line name [e]) m = .ok (.bool b) m₁ := by
  obtain ⟨v, hv, hshown⟩ := fileName_eq_ok he
  have hvalues : [e].mapM (evaluate n scope) m = .ok [v] m₁ := by
    rw [List.mapM_cons, bind_ok hv]
    rfl
  have harity : attempt (Builtin.endOfFile.checkArity [e].length) m = .ok () m := rfl
  have hdraw : drawFor .endOfFile m₁ = .ok m₁.random.next.1 m₁ := rfl
  have hget : (get : Eval Machine) m₁ = .ok m₁ m₁ := rfl
  have happly : Builtin.endOfFile.apply (some m₁.files) m₁.random.next.1 [v] = .ok (.bool b) := by
    show Builtin.applyEndOfFile m₁.files v = _
    rw [← evaluate_files hv] at hend
    simp only [Builtin.applyEndOfFile, hshown, bind, Except.bind, hend]
    rfl
  show callNamed ⟨evaluate n, runStatement n⟩ scope line name [e] m = _
  rw [callNamed, hb]
  show callBuiltin ⟨evaluate n, runStatement n⟩ scope .endOfFile [e] m = _
  rw [callBuiltin, bind_ok harity, bind_ok hvalues, bind_ok hdraw, bind_ok hget, happly]
  rfl

end Deeds

/-! ## Trips -/

/-- How far a program has come with the file `f`, by statements that have been executed one after
the other with the answers of the host. In between there may be statements on other files, and
whatever leaves the files alone. -/
inductive Trip {σ : Type} (host : Host σ) (f : String) : Passage → Machine → σ → Prop
  | start {m : Machine} (h : Passage.fresh.Fits f m.files) (s : σ) : Trip host f .fresh m s
  | deed {p p' : Passage} {deed : Deed} {n : Nat} {scope after : Scope} {st : Stmt}
      {m m₁ m' : Machine} {s s' : σ} (trip : Trip host f p m s) (hmoves : p.Moves deed p')
      (htells : st.form.Tells n scope (m.counted.reached st.line) f deed m₁)
      (hdone : (execute (n + 1) scope st).Gives host m s after m' s') : Trip host f p' m' s'
  | elsewhere {p : Passage} {deed : Deed} {g : String} {n : Nat} {scope after : Scope} {st : Stmt}
      {m m₁ m' : Machine} {s s' : σ} (trip : Trip host f p m s) (hg : g ≠ f)
      (htells : st.form.Tells n scope (m.counted.reached st.line) g deed m₁)
      (hdone : (execute (n + 1) scope st).Gives host m s after m' s') : Trip host f p m' s'
  | aside {p : Passage} {m m' : Machine} {s : σ} (trip : Trip host f p m s)
      (hfiles : m'.files = m.files) (s' : σ) :
      Trip host f p m' s'

/-- Where a READFILE of the file `f` comes to its target, after it has taken its line, the target is
declared with a type. -/
def Target.Awaits (target : Target) (n : Nat) (scope : Scope) (f : String)
    (m : Machine) (type : DataType) : Prop :=
  ∀ line files, m.files.next f = .ok (line, files) →
    ∃ d m', resolveTarget (evaluate n) scope target { m with files := files } = .ok d m' ∧
      d.Declared m'.memory type

/-- What a program can rely on at a stage of a trip with the file `f`. -/
structure OnCourse {σ : Type} (host : Host σ) (f : String) (p : Passage) (m : Machine) (s : σ) :
    Prop where
  /-- A statement that opens or closes the file or writes to it, as the stage allows, is executed.
  Apart from the files and the notes it leaves the machine as its expressions do. -/
  deed : ∀ {p' deed n scope} {st : Stmt} {m₁}, m.Ready → p.Moves deed p' → deed ≠ .reads →
    st.form.Tells n scope (m.counted.reached st.line) f deed m₁ →
    ∃ files journal s', (execute (n + 1) scope st).Gives host m s scope
      { m₁ with files := files, journal := journal } s'
  /-- EOF tells whether all values have been read. -/
  endOfFile : ∀ {values count n scope line name e m₁}, p = .reading values count →
    Builtin.ofName? name = some .endOfFile → fileName (evaluate n) scope e m = .ok f m₁ →
    evaluate (n + 1) scope (.call line name [e]) m = .ok (.bool (decide (values.length ≤ count))) m₁
  /-- READFILE stores the next value in its target, if that is declared with the type of the
  value. -/
  read : ∀ (line : Int) {values count v type n scope name target m₁}, p = .reading values count →
    values[count]? = some v → v.Travels type → m.Ready →
    fileName (evaluate n) scope name (m.counted.reached line) = .ok f m₁ →
      target.Awaits n scope f m₁ type →
    ∃ text files d m₂ m' s', m₁.files.next f = .ok (text, files) ∧
      resolveTarget (evaluate n) scope target { m₁ with files := files } = .ok d m₂ ∧
        d.store v m₂ = .ok () m' ∧
      d.value? m'.memory = some v ∧
      (execute (n + 1) scope (.mk line (.fileRead name target))).Gives host m s scope m' s'
  /-- READFILE fails at its line once all values have been read. -/
  pastEnd :
    ∀ (line : Int) (target : Target) {values count n scope name m₁}, p = .reading values count →
    values.length ≤ count → m.Ready →
      fileName (evaluate n) scope name (m.counted.reached line) = .ok f m₁ →
    ∃ m' s', (execute (n + 1) scope (.mk line (.fileRead name target))).Stops host m s
      (.fault (.file (.pastEnd f)) line) m' s'

section Trips

variable {σ : Type} {host : Host σ} (hq : host.Quiet) {f : String} (hf : f.isEmpty = false)
  {p p' : Passage} {m m₁ : Machine} {s : σ} {n : Nat} {scope : Scope} {st : Stmt}
  {values : List Value} {count : Nat}
include hq hf

/-- **At every point of a trip the table of files holds what belongs to the stage.** -/
theorem Trip.fits (trip : Trip host f p m s) : p.Fits f m.files := by
  induction trip with
  | start h s => exact h
  | deed _ hmoves htells hdone ih => exact (execute_does hq htells hdone).fits hf ih hmoves
  | elsewhere _ hg htells hdone ih =>
    have hentry := (execute_does hq htells hdone).find?_of_ne hg
    exact (FileTable.fits_congr hentry).mpr ih
  | aside _ hfiles s' ih => exact hfiles ▸ ih

theorem execute_deed (st : Stmt) (hfits : p.Fits f m.files) (hm : m.Ready) {deed : Deed}
    (hmoves : p.Moves deed p') (hdeed : deed ≠ .reads)
    (htells : st.form.Tells n scope (m.counted.reached st.line) f deed m₁) (s : σ) :
    ∃ files journal s', (execute (n + 1) scope st).Gives host m s scope
      { m₁ with files := files, journal := journal } s' := by
  have hfiles : m₁.files = m.files := htells.files
  obtain ⟨op, reply, t, hop, -, hsucceeds⟩ := FileTable.perform_of_fits hf hfits hmoves
  rw [← hfiles] at hsucceeds
  obtain ⟨journal, hgives⟩ := gives_of_perform hq htells hdeed hop hsucceeds
  obtain ⟨s', hdone⟩ := execute_gives hq st hm hgives s
  exact ⟨t, journal, s', hdone⟩

theorem execute_read (hfits : (Passage.reading values count).Fits f m.files) (hm : m.Ready)
    {v : Value} {type : DataType} (hv : values[count]? = some v) (htype : v.Travels type)
    {name : Expr} {target : Target} (line : Int)
    (hname : fileName (evaluate n) scope name (m.counted.reached line) = .ok f m₁)
    (htarget : target.Awaits n scope f m₁ type) (s : σ) :
    ∃ text files d m₂ m' s', m₁.files.next f = .ok (text, files) ∧
      resolveTarget (evaluate n) scope target { m₁ with files := files } = .ok d m₂ ∧
        d.store v m₂ = .ok () m' ∧
      d.value? m'.memory = some v ∧
      (execute (n + 1) scope (.mk line (.fileRead name target))).Gives host m s scope m' s' := by
  have hfiles : m₁.files = m.files := fileName_files (m := m.counted.reached line) hname
  obtain ⟨text, t, hnext, hshown, -⟩ := FileTable.next_of_fits hf hfits hv
  rw [← hfiles] at hnext
  obtain ⟨d, m₂, hd, hdeclared⟩ := htarget text t hnext
  -- The line that was taken is the one that shows the value, and it is read back as the value.
  obtain ⟨text', hshown', hreread⟩ := htype.reread
  cases hshown.symm.trans hshown'
  obtain ⟨m', hstore, hvalue⟩ := hdeclared.store v
  have hgives : ∀ s, ∃ s', (performLocated (evaluate n) (executeBlock (execute n)) n scope line
      (.fileRead name target)).Gives host (m.counted.reached line) s scope m' s' := by
    intro s
    obtain ⟨s', hread⟩ := gives_performRead hq hname hnext hd hdeclared hreread hstore s
    exact ⟨s', hread.handing scope line⟩
  obtain ⟨s', hdone⟩ := execute_gives hq (.mk line (.fileRead name target)) hm hgives s
  exact ⟨text, t, d, m₂, m', s', hnext, hd, hstore, hvalue, hdone⟩

theorem execute_pastEnd (hfits : (Passage.reading values count).Fits f m.files) (hm : m.Ready)
    (hend : values.length ≤ count) {name : Expr} (line : Int) (target : Target)
    (hname : fileName (evaluate n) scope name (m.counted.reached line) = .ok f m₁) (s : σ) :
    ∃ m' s', (execute (n + 1) scope (.mk line (.fileRead name target))).Stops host m s
      (.fault (.file (.pastEnd f)) line) m' s' := by
  have hfiles : m₁.files = m.files := fileName_files (m := m.counted.reached line) hname
  have hnext := FileTable.next_pastEnd hf hfits hend
  rw [← hfiles] at hnext
  have hstops : ∀ s, ∃ s', (performLocated (evaluate n) (executeBlock (execute n)) n scope line
      (.fileRead name target)).Stops host (m.counted.reached line) s
      (.fault (.file (.pastEnd f)) line) (m₁.charge line (.fault (.file (.pastEnd f)) 0)).2 s' :=
    fun s => ⟨s, (stops_performRead hname hnext target s).bind.located line⟩
  exact ⟨_, execute_stops hq (.mk line (.fileRead name target)) hm hstops s⟩

/-- **Values survive a file.** At every point of a trip with a file, that is after any statements
that write whole numbers of at most 4300 digits, truth values and texts to it, in one WRITE session
and any number of APPEND sessions, and then read it, among statements on other files: what the stage
allows is executed; READFILE gives each target the value that was written in its place, if the
target is declared with the type of that value; EOF is FALSE as long as a value is left to read and
TRUE after the last; and then READFILE fails. -/
theorem values_survive_a_file_round_trip (trip : Trip host f p m s) : OnCourse host f p m s := by
  have hfits := trip.fits hq hf
  refine ⟨fun hm hmoves hdeed htells =>
    execute_deed hq hf _ hfits hm hmoves hdeed htells s, ?_, ?_, ?_⟩
  · rintro values count n scope line name e m₁ rfl hb he
    exact evaluate_endOfFile hb he (FileTable.atEnd_of_fits hfits) line
  · rintro line values count v type n scope name target m₁ rfl hv htype hm hname htarget
    exact execute_read hq hf hfits hm hv htype line hname htarget s
  · rintro line target values count n scope name m₁ rfl hend hm hname
    exact execute_pastEnd hq hf hfits hm hend line target hname s

end Trips

theorem fileName_literal (n : Nat) (scope : Scope) (line : Int) (f : String) (m : Machine) :
    fileName (evaluate (n + 1)) scope (.literal line (.text f)) m = .ok f m :=
  rfl

/-- A machine that can go on without end, on which only x is declared, as INTEGER and without a
value. -/
def Machine.onlyX : Machine where
  settings := { maxDispatches := .endless }
  memory := {
    store := #[.scalar .integer none]
    globals := ⟨[("x", ⟨0⟩)]⟩
    distinct := List.nodup_singleton "x" }

structure Machine.OnlyX (m : Machine) : Prop where
  settings : m.settings = onlyX.settings
  uncancelled : m.cancelRequested = false
  memory : m.memory = onlyX.memory

theorem Machine.OnlyX.ready {m : Machine} (h : m.OnlyX) : m.Ready := by
  refine ⟨?_, h.uncancelled⟩
  rw [h.settings]
  rfl

theorem Machine.OnlyX.at? {m : Machine} (h : m.OnlyX) :
    m.memory.at? ⟨0⟩ = some (.scalar .integer none) := by
  rw [h.memory]
  rfl

theorem Machine.OnlyX.resolve {m : Machine} (h : m.OnlyX) (line : Int) :
    resolveTarget (evaluate 1) .global (.var line "x") m = .ok ⟨⟨0⟩, "x", "x", none⟩ m := by
  have hl : m.memory.lookup? .global "x" = some ⟨0⟩ := by
    rw [h.memory]
    rfl
  exact (bind_ok (locateVariable_of_lookup? hl)).trans (bind_ok (variableAt_of_at? h.at?))

theorem Machine.OnlyX.execute {m : Machine} (h : m.OnlyX) {f : String} (hf : f.isEmpty = false)
    {p p' : Passage} (hfits : p.Fits f m.files) (st : Stmt) {deed : Deed} (hmoves : p.Moves deed p')
    (hdeed : deed ≠ .reads) (htells : st.form.Tells 1 .global (m.counted.reached st.line) f deed
      (m.counted.reached st.line)) (s : Supply) :
    ∃ m' s', (Pseudocode.execute 2 .global st).Gives Supply.host m s .global m' s' ∧ m'.OnlyX := by
  obtain ⟨files, journal, s', hdone⟩ :=
    execute_deed Supply.quiet_host hf st hfits h.ready hmoves hdeed htells s
  exact ⟨_, s', hdone, h.settings, h.uncancelled, h.memory⟩

theorem Trip.goes_on {p p' : Passage} {m : Machine} {s : Supply}
    (trip : Trip Supply.host "scores" p m s) (hm : m.OnlyX) (st : Stmt) {deed : Deed}
    (hmoves : p.Moves deed p') (hdeed : deed ≠ .reads) (htells : st.form.Tells 1 .global
      (m.counted.reached st.line) "scores" deed (m.counted.reached st.line)) :
    ∃ m' s', Trip Supply.host "scores" p' m' s' ∧ m'.OnlyX := by
  have hf : "scores".isEmpty = false := by decide
  obtain ⟨m', s', hdone, hm'⟩ :=
    hm.execute hf (trip.fits Supply.quiet_host hf) st hmoves hdeed htells s
  exact ⟨m', s', trip.deed hmoves htells hdone, hm'⟩

/-- While another file is open, a number is written and a text of two lines is appended; the number
is read into x. -/
theorem score_survives_a_round_trip :
    ∃ m s m' s', Trip Supply.host "scores" (.reading [.int (-7), .text "a\nb"] 0) m s ∧
      (execute 2 .global (.mk 9 (.fileRead (.literal 9 (.text "scores")) (.var 9 "x")))).Gives
        Supply.host m s .global m' s' ∧
      Destination.value? ⟨⟨0⟩, "x", "x", none⟩ m'.memory = some (.int (-7)) := by
  have hname := fileName_literal 0 .global
  have hnumber : (Value.int (-7)).Travels .integer := .int (by decide)
  have hm₀ : Machine.onlyX.OnlyX := ⟨rfl, rfl, rfl⟩
  have hnone : ∀ f, Passage.fresh.Fits f Machine.onlyX.files := by
    intro f h hh
    cases hh
  obtain ⟨m₁, s₁, hlog, hm₁⟩ := hm₀.execute (f := "log") (by decide) (hnone "log")
    (.mk 1 (.fileOpen (.literal 1 (.text "log")) "WRITE")) .start Deed.noConfusion
      (.opens (hname 1 "log" _) _) {}
  have trip₀ : Trip Supply.host "scores" .fresh .onlyX {} := .start (hnone "scores") _
  have hother : "log" ≠ "scores" := by decide
  have trip₁ := trip₀.elsewhere hother (.opens (hname 1 "log" _) _) hlog
  obtain ⟨m₂, s₂, trip₂, hm₂⟩ :=
    trip₁.goes_on hm₁ (.mk 2 (.fileOpen (.literal 2 (.text "scores")) "WRITE"))
    .start Deed.noConfusion (.opens (hname 2 "scores" _) _)
  obtain ⟨m₃, s₃, trip₃, hm₃⟩ := trip₂.goes_on hm₂
    (.mk 3 (.fileWrite (.literal 3 (.text "scores")) (.literal 3 (.int (-7)))))
    (.write hnumber) Deed.noConfusion (.writes (hname 3 "scores" _) rfl)
  obtain ⟨m₄, s₄, trip₄, hm₄⟩ :=
    trip₃.goes_on hm₃ (.mk 4 (.fileClose (.literal 4 (.text "scores"))))
    (.close _) Deed.noConfusion (.closes (hname 4 "scores" _))
  obtain ⟨m₅, s₅, trip₅, hm₅⟩ :=
    trip₄.goes_on hm₄ (.mk 5 (.fileOpen (.literal 5 (.text "scores")) "APPEND"))
    (.append _) Deed.noConfusion (.opens (hname 5 "scores" _) _)
  obtain ⟨m₆, s₆, trip₆, hm₆⟩ := trip₅.goes_on hm₅
    (.mk 6 (.fileWrite (.literal 6 (.text "scores")) (.literal 6 (.text "a\nb"))))
    (.write (.text _)) Deed.noConfusion (.writes (hname 6 "scores" _) rfl)
  obtain ⟨m₇, s₇, trip₇, hm₇⟩ :=
    trip₆.goes_on hm₆ (.mk 7 (.fileClose (.literal 7 (.text "scores"))))
    (.close _) Deed.noConfusion (.closes (hname 7 "scores" _))
  obtain ⟨m₈, s₈, trip₈, hm₈⟩ :=
    trip₇.goes_on hm₇ (.mk 8 (.fileOpen (.literal 8 (.text "scores")) "READ"))
    (.read _) Deed.noConfusion (.opens (hname 8 "scores" _) _)
  have hx : ∀ files, Machine.OnlyX { m₈.counted.reached 9 with files := files } :=
    fun _ => ⟨hm₈.settings, hm₈.uncancelled, hm₈.memory⟩
  have htarget : (Target.var 9 "x").Awaits 1 .global "scores" (m₈.counted.reached 9) .integer :=
    fun line files _ => ⟨_, _, (hx files).resolve 9, .scalar rfl (hx files).at?⟩
  obtain ⟨_, files, d, m, m', s', -, hd, -, hvalue, hread⟩ :=
    (values_survive_a_file_round_trip Supply.quiet_host
      (by decide) trip₈).read 9 rfl rfl hnumber hm₈.ready (hname 9 "scores" _) htarget
  cases hd.symm.trans ((hx files).resolve 9)
  exact ⟨m₈, s₈, m', s', trip₈, hread, hvalue⟩

end Pseudocode

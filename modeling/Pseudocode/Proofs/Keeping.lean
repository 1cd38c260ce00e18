import Pseudocode.Proofs.Course
import Pseudocode.Proofs.Terms

/-!
# Runs on the terms of a program

`Run.KeepsTo I ok r` says that `I` holds of the machine wherever the run `r` can be, whatever the
host replies, and that the run stops only for reasons in `ok`, provided that the host's own reasons
are among them. `Action.Abides` is the counterpart of `Eval.Abides` for parts of a run: at each
query in it the variables have evolved from what they were.

Results:
* `execute_abides`: a statement on the terms, on every way out and at every query.
* `executeProgram_keepsTo`: a program on the terms.
* `executeProgram_evolves`: any program that can be written keeps the machine sound.
-/

namespace Pseudocode

open Eval

/-- `I` holds of the machine wherever a run can be, whatever the host replies. -/
inductive Run.Always (I : Machine → Prop) : Run → Prop
  | finished (ending : Except Halt Unit) {m : Machine} (h : I m) : Always I (.finished ending m)
  | asking (q : Query) {m : Machine} {resume : q.Reply → Machine → Run} (h : I m)
      (rest : ∀ reply m', HostChange m m' → Always I (resume reply m')) :
      Always I (.asking q m resume)

theorem Run.Always.imp {I J : Machine → Prop} {r : Run} (h : r.Always I) (himp : ∀ m, I m → J m) :
    r.Always J := by
  induction h with
  | finished ending h => exact .finished ending (himp _ h)
  | asking q h _ ih => exact .asking q (himp _ h) ih

/-- `I` holds of the machine wherever a run can be, and the run stops only for reasons in `ok`, if
the host does. -/
inductive Run.KeepsTo (I : Machine → Prop) (ok : Halt → Memory → Prop) : Run → Prop
  | done {m : Machine} (h : I m) : KeepsTo I ok (.finished (.ok ()) m)
  | stopped {halt : Halt} {m : Machine} (h : I m) (hok : ok halt m.memory) :
      KeepsTo I ok (.finished (.error halt) m)
  | asking (q : Query) {m : Machine} {resume : q.Reply → Machine → Run} (h : I m)
    (rest : ∀ reply m', HostChange m m' → (∀ h, reply = .error h → ok h m'.memory) →
      KeepsTo I ok (resume reply m')) : KeepsTo I ok (.asking q m resume)

theorem Run.KeepsTo.always {I : Machine → Prop} {r : Run} (h : r.KeepsTo I fun _ _ => True) :
    r.Always I := by
  induction h with
  | done h => exact .finished _ h
  | stopped h _ => exact .finished _ h
  | asking q h _ ih => exact .asking q h fun reply m' hhost => ih reply m' hhost fun _ _ => trivial

/-- From a machine on the terms, a part of a run has machines that it evolves to at all its queries.
It goes on with a machine on the terms that it reaches, and with `post` of what it gives, or stops
for a reason that the terms have. -/
def Action.Abides (T : Terms) {α : Type} (a : Action α) (m : Machine) (post : α → Machine → Prop) :
    Prop :=
  m.OnTerms T → ∀ (I : Machine → Prop) (next : α → Machine → Run) (stop : Halt → Machine → Run),
    (∀ m', Evolves m m' → I m') →
      (∀ x m', Evolves m m' → m'.OnTerms T → a.Reaches m x m' → post x m' →
        (next x m').KeepsTo I T.ok) →
        (∀ h m', Evolves m m' → T.ok h m'.memory → (stop h m').KeepsTo I T.ok) →
          (a m next stop).KeepsTo I T.ok

variable {T : Terms}

/-! ## One part after the other -/

section Parts

variable {α β : Type} {m : Machine} {p : α → Machine → Prop} {q : β → Machine → Prop}

theorem Action.abides_pure {x : α} (h : p x m) : (pure x : Action α).Abides T m p :=
  fun hm _ _ _ _ hnext _ => hnext x m (.refl hm.sound) hm (fun _ _ => .refl _) h

theorem Action.Abides.reaching {a : Action α} (h : a.Abides T m p) :
    a.Abides T m fun x m' => a.Reaches m x m' ∧ p x m' :=
  fun hm I next stop hI hnext => h hm I next stop hI fun x m' hm' hterms hreaches hx =>
    hnext x m' hm' hterms hreaches ⟨hreaches, hx⟩

theorem Action.Abides.bind {a : Action α} {k : α → Action β} (ha : a.Abides T m p)
    (hk : ∀ x m', Evolves m m' → p x m' → (k x).Abides T m' q) : (a >>= k).Abides T m q := by
  intro hm I next stop hI hnext hstop
  refine ha hm I _ stop hI (fun x m₁ hm₁ hterms hreaches hx => ?_) hstop
  refine hk x m₁ hm₁ hx hterms I next stop (fun m₂ h => hI m₂ (hm₁.trans h))
    (fun y m₂ h hterms₂ hreaches₂ => ?_) fun halt m₂ h => hstop halt m₂ (hm₁.trans h)
  exact hnext y m₂ (hm₁.trans h) hterms₂ fun next stop =>
    (hreaches _ stop).trans (hreaches₂ next stop)

/-- A step that needs nothing from the host. -/
theorem Action.abides_lift {e : Eval α} (h : e.Abides T m p) :
    (liftM e : Action α).Abides T m p := by
  intro hm I next stop hI hnext hstop
  cases he : e m with
  | ok x m' =>
    obtain ⟨hevolves, hterms, hx⟩ := h.ok hm he
    rw [Action.lift_ok next stop he]
    refine hnext x m' hevolves hterms (fun next stop => ?_) hx
    rw [Action.lift_ok next stop he]
    exact .refl _
  | error halt m' =>
    rw [Action.lift_error next stop he]
    exact hstop halt m' (h.error hm he).1 (h.error hm he).2

theorem Action.abides_get {k : Machine → Action β} (h : (k m).Abides T m q) :
    ((liftM (get : Eval Machine) : Action Machine) >>= k).Abides T m q :=
  h

theorem Evolves.host {m m' : Machine} (hm : m.Sound) (h : HostChange m m') : Evolves m m' := by
  obtain ⟨cancel, journal, rfl⟩ := h
  exact .of_eq hm rfl rfl rfl

theorem Machine.OnTerms.host {m' : Machine} (hm : m.OnTerms T) (h : HostChange m m') :
    m'.OnTerms T := by
  have hevolves := Evolves.host hm.sound h
  obtain ⟨cancel, journal, rfl⟩ := h
  exact hm.of_eq hevolves rfl rfl rfl

/-- A query: the host leaves the variables and the routines alone. -/
theorem Action.abides_ask (query : Query) : (Action.ask query).Abides T m fun _ _ => True := by
  intro hm I next stop hI hnext hstop
  refine .asking query (hI m (.refl hm.sound)) fun reply m' hhost hok => ?_
  cases reply with
  | ok x =>
    exact hnext x m' (.host hm.sound hhost) (hm.host hhost) (fun _ _ =>
      .resumed (.ok x) hhost (.refl _)) trivial
  | error halt => exact hstop halt m' (.host hm.sound hhost) (hok halt rfl)

theorem Action.abides_located (line : Int) {a : Action α} (h : a.Abides T m p) :
    (Action.located line a).Abides T m p :=
  fun hm I next _ hI hnext hstop =>
    h hm I next _ hI (fun x m' hm' hterms hreaches => hnext x m' hm' hterms fun next _ =>
      hreaches next _) fun halt _ hm' hok =>
      hstop _ _ (hm'.trans (.charge hm'.sound line halt)) (T.ok_charge hok line)

theorem Action.abides_inCall (f : CallFrame) {a : Action α} {P : α → Prop}
    (h : a.Abides T (m.enterCall f) fun x _ => P x) :
    (Action.inCall f a).Abides T m fun x _ => P x := by
  intro hm I next stop hI hnext hstop
  have henter : Evolves m (m.enterCall f) := .of_eq hm.sound rfl rfl rfl
  have hleave : ∀ {m'}, Evolves (m.enterCall f) m' → Evolves m (m'.leaveCall f) :=
    fun h => (henter.trans h).trans (.of_eq h.sound rfl rfl rfl)
  unfold Action.inCall
  cases hd : m.checkDepth (m.depth + 1) with
  | error halt => exact hstop halt m (.refl hm.sound) (hm.confined_checkDepth _ halt hd)
  | ok _ =>
    exact h (hm.enterCall f) I _ _ (fun m' h => hI m' (henter.trans h))
      (fun x m' hm' hterms hreaches =>
        hnext x _ (hleave hm') (hterms.leaveCall f) fun next stop => by
        simp only [Action.inCall, hd]
        exact hreaches _ _)
      fun halt m' hm' hok => hstop halt _ (hleave hm') hok

end Parts

open Pseudocode.Action (abides_lift abides_ask)

/-! ## Input, output and files -/

section Statements

variable {expr : Scope → Expr → Eval Value} (hx : T.Evaluates expr) {m : Machine}

theorem abides_onFiles {α : Type} (f : FileTable → Except FileFault (α × FileTable)) :
    (onFiles f).Abides T m fun _ _ => True := by
  refine abides_get ?_
  split
  · exact abides_change rfl (fun hm => .of_eq hm rfl rfl rfl) rfl rfl rfl trivial
  · exact abides_fault (by simp)

theorem abides_note (n : Note) : (note n).Abides T m fun _ _ => True :=
  abides_change rfl (fun hm => .of_eq hm rfl rfl rfl) rfl rfl rfl trivial

theorem abides_obtainUpload (name mode : String) :
    (obtainUpload name mode).Abides T m fun _ _ => True := by
  refine Action.abides_get ?_
  split
  · exact abides_ask _
  · exact Action.abides_pure trivial

include hx

theorem abides_fileName (scope : Scope) {e : Expr} (he : T.expr e) :
    (fileName expr scope e).Abides T m fun _ _ => True :=
  (hx scope e he m).bind fun v _ _ _ =>
    (abides_attempt (confined_shown (T.reasons _) v)).imp fun _ _ _ _ => trivial

theorem abides_outputLine (scope : Scope) {values : List Expr} (hv : ∀ e ∈ values, T.expr e) :
    (outputLine expr scope values).Abides T m fun _ _ => True :=
  (abides_mapM (fun e he m => (hx scope e (hv e he) m).bind fun v _ _ _ =>
    (abides_attempt (confined_shown (T.reasons _) v)).imp fun _ _ _ _ => trivial) m).bind
      fun _ _ _ _ => abides_pure fun _ => trivial

theorem abides_performInput (scope : Scope) {t : Target} (ht : t.Writable)
    (hi : ∀ e ∈ t.indices, T.expr e) : (performInput expr scope t).Abides T m fun _ _ => True := by
  refine Action.abides_get ?_
  split
  · refine (abides_lift (abides_resolveTarget hx scope ht hi)).bind fun d m₁ _ hd => ?_
    refine (abides_lift (abides_inputType hd)).bind ?_
    rintro type _ - rfl
    refine (abides_ask _).bind fun text m₂ hm₂ _ => ?_
    refine (abides_lift (p := fun _ _ => True) ?_).bind fun _ _ _ _ => abides_ask _
    refine (abides_attempt (confined_ofText (T.reasons _) type text)).bind ?_
    rintro value _ - ⟨rfl, hvalue⟩
    exact abides_store (hd.evolves hm₂) (Value.ofText_proper type text value hvalue)
  · exact abides_lift (abides_fault (by simp))

theorem abides_performOpen (scope : Scope) {name : Expr} (hn : T.expr name) (mode : String) :
    (performOpen expr scope name mode).Abides T m fun _ _ => True := by
  refine (abides_lift (abides_fileName hx scope hn)).bind fun name m₁ _ _ => ?_
  refine (abides_obtainUpload name mode).bind fun upload m₂ _ _ => ?_
  refine (abides_lift (abides_onFiles _)).bind fun h m₃ _ _ => ?_
  exact (abides_lift (abides_note _)).bind fun _ _ _ _ => abides_ask _

theorem abides_performClose (scope : Scope) {name : Expr} (hn : T.expr name) :
    (performClose expr scope name).Abides T m fun _ _ => True := by
  refine (abides_lift (abides_fileName hx scope hn)).bind fun name m₁ _ _ => ?_
  refine (abides_lift (abides_onFiles _)).bind fun h m₂ _ _ => ?_
  exact (abides_lift (abides_note _)).bind fun _ _ _ _ => abides_ask _

theorem abides_performRead (scope : Scope) {name : Expr} {t : Target} (hn : T.expr name)
    (ht : t.Writable) (hi : ∀ e ∈ t.indices, T.expr e) :
    (performRead expr scope name t).Abides T m fun _ _ => True := by
  refine (abides_lift (p := fun _ _ => True) ?_).bind fun line _ _ _ => abides_ask _
  refine (abides_fileName hx scope hn).bind fun name m₁ _ _ => ?_
  refine (abides_onFiles _).bind fun line m₂ _ _ => ?_
  refine (abides_resolveTarget hx scope ht hi).bind fun d m₃ _ hd => ?_
  refine (abides_inputType hd).bind ?_
  rintro type _ - rfl
  refine (abides_attempt (confined_ofText (T.reasons _) type line)).bind ?_
  rintro value _ - ⟨rfl, hvalue⟩
  exact (abides_store hd (Value.ofText_proper type line value hvalue)).bind fun _ _ _ _ =>
    abides_pure fun _ => trivial

theorem abides_performWrite (scope : Scope) {name data : Expr} (hn : T.expr name)
    (hd : T.expr data) : (performWrite expr scope name data).Abides T m fun _ _ => True := by
  refine (abides_lift (p := fun _ _ => True) ?_).bind fun written m₁ _ _ => ?_
  · refine (abides_fileName hx scope hn).bind fun name m₁ _ _ => ?_
    refine (hx scope data hd m₁).bind fun value m₂ _ _ => ?_
    refine (abides_attempt (confined_shown (T.reasons _) value)).bind fun text m₃ _ _ => ?_
    exact (abides_onFiles _).bind fun _ _ _ _ => abides_pure fun _ => trivial
  · refine Action.abides_get ?_
    split
    · exact abides_ask _
    · exact Action.abides_pure trivial

omit hx

/-! ## Blocks, loops and calls -/

section Blocks

variable {stmt : Scope → Stmt → Action Scope} {test : Scope → Eval Bool}
  {body : Scope → Action Scope}

theorem abides_executeBlock
    (hs : ∀ scope s, T.stmt s → ∀ m, (stmt scope s).Abides T m fun _ _ => True) (scope : Scope)
    {b : Block} (hb : ∀ s ∈ b, T.stmt s) (m : Machine) :
    (executeBlock stmt scope b).Abides T m fun _ _ => True := by
  induction b generalizing scope m with
  | nil => exact Action.abides_pure trivial
  | cons s rest ih =>
    exact (hs scope s (hb s List.mem_cons_self) m).bind fun scope m₁ _ _ =>
      ih scope (fun t ht => hb t (List.mem_cons_of_mem _ ht)) m₁

variable (ht : ∀ scope m, (test scope).Abides T m fun _ _ => True)
  (hb : ∀ scope m, (body scope).Abides T m fun _ _ => True)
include hb

section Tests

include ht

theorem abides_executeWhile (n : Nat) (scope : Scope) (m : Machine) :
    (executeWhile test body n scope).Abides T m fun _ _ => True := by
  induction n generalizing scope m with
  | zero => exact abides_lift abides_exhausted
  | succ n ih =>
    refine (abides_lift (ht scope m)).bind fun c m₁ _ _ => ?_
    cases c with
    | true => exact (hb scope m₁).bind fun scope m₂ _ _ => ih scope m₂
    | false => exact Action.abides_pure trivial

theorem abides_executeRepeat (n : Nat) (scope : Scope) (m : Machine) :
    (executeRepeat test body n scope).Abides T m fun _ _ => True := by
  induction n generalizing scope m with
  | zero => exact abides_lift abides_exhausted
  | succ n ih =>
    refine (hb scope m).bind fun scope m₁ _ _ => (abides_lift (ht scope m₁)).bind fun c m₂ _ _ => ?_
    cases c with
    | true => exact Action.abides_pure trivial
    | false => exact ih scope m₂

end Tests

theorem abides_executeFor {c : Counter} (n : Nat) (scope : Scope) {m : Machine} (hc : c.Counting m)
    (htext : c.MayBreakDown T (fun before => (body before).Reaches) m) :
    (executeFor c body n scope).Abides T m fun _ _ => True := by
  induction n generalizing scope m with
  | zero => exact abides_lift abides_exhausted
  | succ n ih =>
    refine (abides_lift (abides_continues hc)).bind ?_
    rintro goesOn _ - ⟨rfl, hgoes⟩
    cases goesOn with
    | true =>
      intro hm
      refine (hb scope _).reaching.bind (fun after m₂ hm₂ hround => ?_) hm
      have hadvance := abides_advance (hc.heldAt.evolves hm₂) fun text =>
        htext (.refl hm.sound) hm hgoes hround.1
      exact (abides_lift hadvance).bind fun _ m₃ hm₃ hcounting =>
        ih after hcounting (htext.evolves (hm₂.trans hm₃))
    | false => exact Action.abides_pure trivial

end Blocks

/-- A routine of a parsed program becomes known. -/
theorem Evolves.register (hm : m.Sound) {form : Form} (h : form.Writable) :
    Evolves m (m.register form) := by
  cases h with
  | procedure _ _ hb =>
    refine ⟨⟨hm.store, ?_, hm.functions⟩, ⟨[], trivial, rfl⟩, id⟩
    exact Table.forall_find?_insert (P := fun r : Routine =>
      ∀ t ∈ r.body, t.form.Writable) hm.procedures hb
  | function _ _ _ hb =>
    refine ⟨⟨hm.store, hm.procedures, ?_⟩, ⟨[], trivial, rfl⟩, id⟩
    exact Table.forall_find?_insert (P := fun r : Routine =>
      ∀ t ∈ r.body, t.form.Writable) hm.functions hb
  | _ => exact .refl hm

/-- A routine on the terms becomes known. -/
theorem Machine.OnTerms.register (hm : m.OnTerms T) {s : Stmt} (hs : T.stmt s) :
    (m.register s.form).OnTerms T := by
  have hevolves := hm.evolves.trans (Evolves.register hm.sound (T.stmt_writable hs))
  have hinside := T.inside hs
  cases hform : s.form with
  | procedure name params body =>
    rw [hform] at hevolves hinside
    have hbody := hinside body List.mem_cons_self
    refine ⟨⟨hevolves, ?_, hm.functions⟩, hm.limits⟩
    exact Table.forall_find?_insert (P := fun r : Routine =>
      ∀ s ∈ r.body, T.stmt s) hm.procedures hbody
  | function name params returns body =>
    rw [hform] at hevolves hinside
    have hbody := hinside body List.mem_cons_self
    refine ⟨⟨hevolves, hm.procedures, ?_⟩, hm.limits⟩
    exact Table.forall_find?_insert (P := fun r : Routine =>
      ∀ s ∈ r.body, T.stmt s) hm.functions hbody
  | _ => exact hm

section Forms

variable {block : Scope → Block → Action Scope}
  (hblock : ∀ scope b, (∀ s ∈ b, T.stmt s) → ∀ m, (block scope b).Abides T m fun _ _ => True)
include hx hblock

theorem abides_performCall (scope : Scope) (name : String) {arguments : List Expr}
    (ha : ∀ e ∈ arguments, T.expr e) (line : Int) :
    (performCall expr block scope name arguments line).Abides T m fun _ _ => True := by
  refine Action.abides_get ?_
  split
  · next p hp =>
    split
    · exact abides_lift (abides_fault (by simp))
    · intro hm
      refine Action.abides_inCall (P := fun _ => True) _ ?_ hm
      refine (abides_lift (abides_bindArguments hx scope freshScope_isLocal p.params ha _)).bind
        fun callee m₁ _ _ => ?_
      exact (hblock callee p.body (hm.procedures name p hp) m₁).bind fun _ _ _ _ =>
        Action.abides_pure trivial
  · split
    · exact abides_lift (abides_fault (by simp))
    · exact abides_lift (abides_fault (by simp))

end Forms

end Statements

section Steps

variable {n : Nat} {m : Machine} (hx : T.Evaluates (evaluate n))
  (hblock : ∀ scope b, (∀ s ∈ b, T.stmt s) →
    ∀ m, (executeBlock (execute n) scope b).Abides T m fun _ _ => True)
include hx hblock

/-- **The forms of statement.** -/
theorem abides_perform (bound : Nat) (scope : Scope) (line : Int) {s : Stmt} (hs : T.stmt s) :
    (perform (evaluate n) (executeBlock (execute n)) bound scope line s.form).Abides T m
      fun _ _ => True := by
  have hdone : ∀ {a : Action Unit} {scope : Scope}, (a.Abides T m fun _ _ => True) →
      (a >>= fun _ => pure scope).Abides T m fun _ _ => True :=
    fun ha => ha.bind fun _ _ _ _ => Action.abides_pure trivial
  have hregister : ∀ form, s.form = form →
      (liftM (modify (·.register form) : Eval Unit) : Action Unit).Abides T m fun _ _ => True := by
    rintro _ rfl
    exact abides_lift fun hm =>
      ⟨.register hm.sound (T.stmt_writable hs), hm.register hs, trivial⟩
  have hwritable := T.stmt_writable hs
  have hoperand := T.operand hs
  have hinside := T.inside hs
  cases hform : s.form with
  | declare name typeName shape =>
    rw [hform] at hwritable
    cases hwritable with
    | declare hn ht hshape => exact abides_lift (abides_performDeclare scope hn ht hshape)
  | assign t value =>
    rw [hform] at hwritable hoperand
    cases hwritable with
    | assign ht _ =>
      exact hdone (abides_lift (abides_performAssign hx scope ht
        (fun e he => hoperand e (List.mem_cons_of_mem _ he)) (hoperand value List.mem_cons_self)))
  | output values =>
    rw [hform] at hoperand
    exact (abides_lift (abides_outputLine hx scope hoperand)).bind fun text _ _ _ =>
      (abides_ask _).bind fun _ _ _ _ => Action.abides_pure trivial
  | input t =>
    rw [hform] at hwritable hoperand
    cases hwritable with
    | input ht => exact hdone (abides_performInput hx scope ht hoperand)
  | ifThen test body arms otherwise =>
    exact (abides_lift (abides_chooseIf hx hs scope hform)).bind fun b m₁ _ hb =>
      hblock scope b hb m₁
  | caseOf selector branches otherwise =>
    exact (abides_lift (abides_chooseCase hx hs scope hform)).bind fun b m₁ _ hb =>
      hblock scope b hb m₁
  | whileDo test body =>
    rw [hform] at hoperand hinside
    exact abides_executeWhile (fun scope m =>
      abides_condition hx scope _ (hoperand test List.mem_cons_self))
      (fun scope m => hblock scope body (hinside body List.mem_cons_self) m) bound scope m
  | repeatUntil body test =>
    rw [hform] at hoperand hinside
    exact abides_executeRepeat (fun scope m =>
      abides_condition hx scope _ (hoperand test List.mem_cons_self))
      (fun scope m => hblock scope body (hinside body List.mem_cons_self) m) bound scope m
  | forTo name start stop step body =>
    intro hm
    refine (abides_lift (abides_startFor hx hs scope hform).given).bind ?_ hm
    rintro started m₁ - ⟨hstart, hcounting⟩
    rw [hform] at hinside
    exact abides_executeFor (fun scope m =>
      hblock scope body (hinside body List.mem_cons_self) m) bound started.2 hcounting
      fun _ _ _ _ _ hm₁ hterms hgoes hround =>
        T.mayBreakDown hs hform hm hstart hm₁ hterms hgoes (.executed hround)
  | call name arguments =>
    rw [hform] at hoperand
    exact hdone (abides_performCall hx hblock scope name hoperand line)
  | fileOpen name mode =>
    rw [hform] at hoperand
    exact hdone (abides_performOpen hx scope (hoperand name List.mem_cons_self) _)
  | fileClose name =>
    rw [hform] at hoperand
    exact hdone (abides_performClose hx scope (hoperand name List.mem_cons_self))
  | fileRead name t =>
    rw [hform] at hwritable hoperand
    cases hwritable with
    | fileRead _ ht =>
      exact hdone (abides_performRead hx scope (hoperand name List.mem_cons_self) ht
        fun e he => hoperand e (List.mem_cons_of_mem _ he))
  | fileWrite name data =>
    rw [hform] at hoperand
    exact hdone (abides_performWrite hx scope (hoperand name List.mem_cons_self)
      (hoperand data (List.mem_cons_of_mem _ List.mem_cons_self)))
  | returnValue e => exact abides_lift (abides_fault (by simp))
  | inert kind => exact abides_lift (abides_fault (by simp))
  | procedure name params body => exact hdone (hregister _ hform)
  | function name params returns body => exact hdone (hregister _ hform)

theorem abides_executeDispatched (bound : Nat) (scope : Scope) {s : Stmt} (hs : T.stmt s) :
    (executeDispatched (evaluate n) (executeBlock (execute n)) bound scope s).Abides T m
      fun _ _ => True := by
  refine (abides_lift (abides_dispatch s.line)).bind fun _ m₁ _ _ => ?_
  refine (abides_ask _).bind fun _ m₂ _ _ => ?_
  refine (abides_lift abides_checkCancelled).bind fun _ m₃ _ _ => ?_
  refine Action.Abides.bind (p := fun _ _ => True) ?_ fun after m₄ _ _ =>
    (abides_ask _).bind fun _ _ _ _ => Action.abides_pure trivial
  have hperform := abides_perform hx hblock (m := m₃) bound scope s.line hs
  cases hform : s.form with
  | inert kind => exact abides_lift (abides_throw (T.fault _ _ (by simp)))
  | _ =>
    rw [hform] at hperform
    exact Action.abides_located s.line hperform

end Steps

/-! ## Programs -/

/-- **A statement on the terms stops for a reason that they have**, if it stops. -/
theorem execute_abides (n : Nat) (scope : Scope) {s : Stmt} (hs : T.stmt s) (m : Machine) :
    (execute n scope s).Abides T m fun _ _ => True := by
  induction n generalizing scope s m with
  | zero => exact abides_lift abides_exhausted
  | succ n ih =>
    exact abides_executeDispatched (evaluate_abides n)
      (fun scope b hb m =>
        abides_executeBlock (fun scope s hs m => ih scope hs m) scope hb m) n scope hs

theorem Machine.OnTerms.registerAll {m : Machine} (hm : m.OnTerms T) {program : Block}
    (h : ∀ s ∈ program, T.stmt s) : (m.registerAll program).OnTerms T :=
  List.foldlRecOn program _ hm fun _ hn s hs => hn.register (h s hs)

theorem Evolves.registerAll {m : Machine} (hm : m.Sound) {program : Block}
    (h : Block.Writable program) : Evolves m (m.registerAll program) :=
  List.foldlRecOn program _ (.refl hm) fun _ hn s hs => hn.trans (.register hn.sound (h s hs))

/-- **A program keeps to its terms**, wherever its run can be. -/
theorem executeProgram_keepsTo (bound : Nat) {program : Block} (h : ∀ s ∈ program, T.stmt s)
    {m : Machine} (hm : m.OnTerms T) :
    (executeProgram bound program m).KeepsTo (Evolves m) T.ok := by
  have hrewound : Evolves m m.rewound := .of_eq hm.sound rfl rfl rfl
  have hstart : Evolves m (m.rewound.registerAll program) :=
    hrewound.trans (.registerAll hrewound.sound fun s hs => T.stmt_writable (h s hs))
  have hsettled : ∀ {m'}, Evolves (m.rewound.registerAll program) m' → Evolves m m'.settled :=
    fun h => (hstart.trans h).trans (.of_eq h.sound rfl rfl rfl)
  have hfilter : ∀ s ∈ program.filter fun s => !s.form.isDefinition, T.stmt s :=
    fun s hs => h s (List.mem_filter.mp hs).1
  exact abides_executeBlock (fun scope s hs m => execute_abides bound scope hs m) .global hfilter _
    ((hm.of_eq hrewound rfl rfl rfl).registerAll h) (Evolves m) _ _ (fun _ h => hstart.trans h)
    (fun _ _ h _ _ _ => .done (hsettled h)) fun _ _ h hok => .stopped (hsettled h) hok

/-- The terms of any program that can be written, which may stop for any reason. -/
def Terms.written (m : Machine) : Terms where
  start := m
  expr e := e.Writable
  stmt s := s.form.Writable
  ok _ _ := True
  expr_writable h := h
  stmt_writable h := h
  part h _ hx := h.part hx
  operand h _ he := h.operand he
  inside h _ hb _ ht := h.inside hb ht
  fault _ _ _ := trivial
  relined _ _ := trivial
  cancelled _ _ := trivial
  exhausted _ := trivial
  digits _ := trivial
  remainder _ _ := trivial
  advance _ _ := trivial

theorem Machine.Sound.onTerms {m : Machine} (hm : m.Sound) : m.OnTerms (.written m) :=
  ⟨⟨.refl hm, hm.procedures, hm.functions⟩, fun _ _ => trivial⟩

/-- A program keeps the machine sound, wherever its run can be. -/
theorem executeProgram_evolves (bound : Nat) {program : Block} (h : Block.Writable program)
    {m : Machine} (hm : m.Sound) : (executeProgram bound program m).Always (Evolves m) :=
  (executeProgram_keepsTo (T := .written m) bound h hm.onTerms).always

end Pseudocode

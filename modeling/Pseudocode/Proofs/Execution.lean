import Pseudocode.Host
import Pseudocode.Proofs.Conduct

/-!
# How statements conduct themselves

The logic of `Settles` for parts of a run, which ask the host and go on with its answers. A host is
assumed to be discreet: it may ask for a cancellation and take the notes, and otherwise leaves the
machine alone. A part of a run ends or stops if, whatever comes after it, the run is drained to the
same end as what comes after it (`Action.Settles`).

Statements of a run do things beside the variables that function bodies cannot: they change the
files and make procedures and functions known (`Outside`). A regime that is to cover them has to
survive these too (`Regime.Hosted`).

Results:
* `Action.Settles.bind`, `Action.settles_ask`: the rules of sequence and of queries.
* `settles_performCall`: CALL; what it lends is what its arguments pass by reference.
* `settles_perform`, `settles_executeDispatched`: every form of statement, from its dispatch on.
-/

namespace Pseudocode

open Eval Filter

/-! ## Beside the variables -/

/-- What statements of a program do beside the variables: they change the files and make procedures
and functions known, with statements of the given kind inside; and the host may ask for a
cancellation and take the notes. -/
inductive Outside (good : Stmt → Prop) : Machine → Machine → Prop
  | files {m : Machine} (t : FileTable) : Outside good m { m with files := t }
  | register {m : Machine} (form : Form) (h : ∀ b ∈ form.blocks, ∀ s ∈ b, good s) :
      Outside good m (m.register form)
  | host {m : Machine} (cancel : Bool) (journal : List Note) :
      Outside good m { m with cancelRequested := cancel, journal := journal }

theorem Outside.memory_eq {good : Stmt → Prop} {m m' : Machine} (h : Outside good m m') :
    m'.memory = m.memory := by
  cases h with
  | register form => cases form <;> rfl
  | _ => rfl

theorem aside_outside (good : Stmt → Prop) : Aside (Outside good) where
  settings h := by
    cases h with
    | register form => cases form <;> rfl
    | _ => rfl
  dispatches h := by
    cases h with
    | register form => cases form <;> exact Nat.le_refl _
    | _ => exact Nat.le_refl _

/-- A host that leaves the machine alone, but for requests to cancel and for taking the notes. -/
def Host.Discreet {σ : Type} (host : Host σ) : Prop :=
  ∀ s m q, ∃ cancel journal,
    (host.reply s m q).2.2 = { m with cancelRequested := cancel, journal := journal }

theorem Supply.discreet : Supply.host.Discreet :=
  fun _ m _ => ⟨m.cancelRequested, m.journal, rfl⟩

/-- What is assumed, beyond the regime, of statements that are executed as a run. -/
structure Regime.Hosted (T : Regime) {σ : Type} (host : Host σ) : Prop where
  discreet : host.Discreet
  reply_ok : ∀ {s m q h}, (host.reply s m q).1 = .error h → T.ok h
  outside : ∀ {m m'}, Outside T.good m m' → T.pre m → T.pre m'
  procedure_good : ∀ {m name p}, T.pre m → m.procedures.find? name = some p →
    ∀ s ∈ p.body, T.good s

/-- The role of statements that are executed as a run. -/
abbrev Regime.executing (T : Regime) (held : Location → Prop) : Role :=
  .running Everything held (Outside T.good)

/-- As `Settles`, for parts of a run whose queries the host answers. -/
inductive Action.Settles (T : Regime) {σ : Type} (host : Host σ) (r : Role) (scope : Scope)
    (m : Machine) (s : σ) {α : Type} (a : Nat → Action α) (after : α → Scope)
    (Q : α → Machine → Prop) : Prop
  | ends (x : α) (m' : Machine) (s' : σ)
      (ha : ∀ᶠ n in atTop, ∀ next stop, (a n m next stop).drain host s = (next x m').drain host s')
      (acts : Acts r scope m (after x) m') (pre : T.pre m') (post : Q x m')
  | stops (h : Halt) (m' : Machine) (s' : σ) (scope' : Scope)
      (ha : ∀ᶠ n in atTop, ∀ next stop, (a n m next stop).drain host s = (stop h m').drain host s')
      (acts : Acts r scope m scope' m') (ok : T.ok h)

namespace Action

/-! ## One part after the other -/

section Parts

variable {T : Regime} {σ : Type} {host : Host σ} {r : Role} {scope : Scope} {m : Machine} {s : σ}
  {α β : Type} {a : Nat → Action α} {after : α → Scope} {after' : β → Scope}
  {Q : α → Machine → Prop} {Q' : β → Machine → Prop} {own lent : String → Prop}
  {held : Location → Prop} {out : Machine → Machine → Prop}

theorem settles_pure {x : α} (hm : T.pre m) (hq : Q x m) (hscope : after x = scope) :
    Action.Settles T host r scope m s (fun _ => pure x) after Q :=
  .ends x m s (.of_forall fun _ _ _ => rfl) (hscope ▸ .refl) hm hq

theorem Settles.shift (h : Action.Settles T host r scope m s (fun n => a (n + 1)) after Q) :
    Action.Settles T host r scope m s a after Q := by
  rcases h with ⟨x, m', s', ha, acts, hm', hq⟩ | ⟨h, m', s', scope', ha, acts, hok⟩
  · exact .ends x m' s' (by rwa [← map_add_atTop_eq_nat 1, eventually_map]) acts hm' hq
  · exact .stops h m' s' scope' (by rwa [← map_add_atTop_eq_nat 1, eventually_map]) acts hok

theorem Settles.weaken {T' : Regime} (h : Action.Settles T' host r scope m s a after Q)
    (hpre : ∀ m, T'.pre m → T.pre m) (hok : ∀ h, T'.ok h → T.ok h) :
    Action.Settles T host r scope m s a after Q := by
  rcases h with ⟨x, m', s', ha, acts, hm', hq⟩ | ⟨h, m', s', scope', ha, acts, hok'⟩
  · exact .ends x m' s' ha acts (hpre m' hm') hq
  · exact .stops h m' s' scope' ha acts (hok h hok')

theorem Settles.imp {Q' : α → Machine → Prop} (h : Action.Settles T host r scope m s a after Q)
    (hq : ∀ x m', Acts r scope m (after x) m' → Q x m' → Q' x m') :
    Action.Settles T host r scope m s a after Q' := by
  rcases h with ⟨x, m', s', ha, acts, hm', post⟩ | ⟨h, m', s', scope', ha, acts, hok⟩
  · exact .ends x m' s' ha acts hm' (hq x m' acts post)
  · exact .stops h m' s' scope' ha acts hok

theorem Settles.done (h : Action.Settles T host r scope m s a after Q) :
    Action.Settles T host r scope m s a after fun _ _ => True :=
  h.imp fun _ _ _ _ => trivial

theorem Settles.bind {k : Nat → α → Action β} (h : Action.Settles T host r scope m s a after Q)
    (hk : ∀ x m' s', T.pre m' → Acts r scope m (after x) m' → Q x m' →
      Action.Settles T host r (after x) m' s' (fun n => k n x) after' Q') :
    Action.Settles T host r scope m s (fun n => a n >>= k n) after' Q' := by
  have hseq :
      ∀ n next stop, (a n >>= k n) m next stop = a n m (fun x m => k n x m next stop) stop :=
    fun _ _ _ => rfl
  rcases h with ⟨x, m', s', ha, acts, hm', post⟩ | ⟨h, m', s', scope', ha, acts, hok⟩
  · rcases hk x m' s' hm' acts post with
      ⟨y, m₁, s₁, hy, acts₁, hm₁, post₁⟩ | ⟨h, m₁, s₁, scope₁, hh, acts₁, hok⟩
    · refine .ends y m₁ s₁ ?_ (acts.trans acts₁) hm₁ post₁
      filter_upwards [ha, hy] with n ha hy next stop
      rw [hseq, ha, hy]
    · refine .stops h m₁ s₁ scope₁ ?_ (acts.trans acts₁) hok
      filter_upwards [ha, hh] with n ha hh next stop
      rw [hseq, ha, hh]
  · refine .stops h m' s' scope' ?_ acts hok
    filter_upwards [ha] with n ha next stop
    rw [hseq, ha]

/-- A step that needs nothing from the host. -/
theorem settles_lift {e : Nat → Eval α} (h : Pseudocode.Settles T r scope m e after Q) :
    Action.Settles T host r scope m s (fun n => liftM (e n)) after Q := by
  rcases h with ⟨x, m', hx, acts, hm', post⟩ | ⟨h, m', scope', hh, acts, hok⟩
  · refine .ends x m' s ?_ acts hm' post
    filter_upwards [hx] with n hx next stop
    rw [lift_ok next stop hx]
  · refine .stops h m' s scope' ?_ acts hok
    filter_upwards [hh] with n hh next stop
    rw [lift_error next stop hh]

/-- Reading the machine. -/
theorem settles_get {k : Nat → Machine → Action β}
    (h : Action.Settles T host r scope m s (fun n => k n m) after' Q') :
    Action.Settles T host r scope m s (fun n => liftM (get : Eval Machine) >>= k n) after' Q' := by
  rcases h with ⟨x, m', s', ha, acts, hm', post⟩ | ⟨h, m', s', scope', ha, acts, hok⟩
  · exact .ends x m' s' ha acts hm' post
  · exact .stops h m' s' scope' ha acts hok

/-- A CALL inside a statement. -/
theorem Settles.inner (hown : ∀ x, lent x → own x)
    (h : Action.Settles T host (.calling lent out) scope m s a (fun _ => scope) Q) :
    Action.Settles T host (.running own held out) scope m s a (fun _ => scope) Q := by
  rcases h with ⟨x, m', s', ha, acts, hm', post⟩ | ⟨h, m', s', scope', ha, acts, hok⟩
  · exact .ends x m' s' ha (.inner hown (fun _ _ h => h) acts) hm' post
  · obtain rfl := acts.scope_eq
    exact .stops h m' s' scope' ha (.inner hown (fun _ _ h => h) acts) hok

/-- A loop holds its variable while its rounds go on. -/
theorem Settles.hold {x : String} {l : Location} (hl : m.memory.lookup? scope x = some l)
    (h : Action.Settles T host
      (.running Everything (fun k => held k ∨ k = l) out) scope m s a after Q) :
    Action.Settles T host (.running Everything held out) scope m s a after Q := by
  rcases h with ⟨x, m', s', ha, acts, hm', post⟩ | ⟨h, m', s', scope', ha, acts, hok⟩
  · exact .ends x m' s' ha (.hold trivial hl acts) hm' post
  · exact .stops h m' s' scope' ha (.hold trivial hl acts) hok

theorem settles_located (line : Int)
    (h : Action.Settles T host (.running own held out) scope m s a after Q) :
    Action.Settles T host (.running own held out) scope m s (fun n =>
      located line (a n)) after Q := by
  rcases h with ⟨x, m', s', ha, acts, hm', post⟩ | ⟨h, m', s', scope', ha, acts, hok⟩
  · exact .ends x m' s' (ha.mono fun n ha next stop => ha _ _) acts hm' post
  · obtain ⟨acts, hok⟩ := acts.charged hok line
    exact .stops _ _ s' scope' (ha.mono fun n ha next stop => ha _ _) acts hok

/-- A query to the host. -/
theorem settles_ask (H : T.Hosted host) (hm : T.pre m) (q : Query) :
    Action.Settles T host (.running own held (Outside T.good)) scope m s (fun _ => ask q)
      (fun _ => scope) fun _ m' => ∃ cancel journal,
        m' = { m with cancelRequested := cancel, journal := journal } := by
  obtain ⟨cancel, journal, hm'⟩ := H.discreet s m q
  have hout : Outside T.good m (host.reply s m q).2.2 := by
    rw [hm']
    exact .host cancel journal
  cases hreply : (host.reply s m q).1 with
  | ok x =>
    refine .ends x _ (host.reply s m q).2.1 (.of_forall fun n next stop => ?_) (.outside hout)
      (H.outside hout hm) ⟨cancel, journal, hm'⟩
    simp only [ask, Run.drain, hreply]
  | error h =>
    refine .stops h _ (host.reply s m q).2.1 scope (.of_forall fun n next stop => ?_)
      (.outside hout) (H.reply_ok hreply)
    simp only [ask, Run.drain, hreply]

/-- A call: its parameters are bound, then its body runs; it is left on every way out. -/
theorem settles_inCall {bindings : Nat → Eval Scope} {body : Nat → Scope → Action Scope}
    (f : CallFrame)
    (hbind : Pseudocode.Settles T (.binding scope lent) freshScope (m.enterCall f) bindings id
      fun _ _ => True) (hbody : ∀ callee m s, T.pre m → Action.Settles T host
      (.running Everything Unheld out) callee m s (fun n => body n callee) id fun _ _ => True) :
    Action.Settles T host (.calling lent out) scope m s
      (fun n => inCall f do
        let callee ← (bindings n : Eval Scope)
        let _ ← body n callee
        return ()) (fun _ => scope) fun _ _ => True := by
  cases hdepth : m.checkDepth (m.depth + 1) with
  | error h =>
    refine .stops h m s scope (.of_forall fun n next stop => ?_) .refl
      (T.ok_of_ne
        (Machine.confined_checkDepth reasons_isBare _ _ (fun _ => trivial) h hdepth).ne_exhausted)
    unfold inCall
    rw [hdepth]
  | ok u =>
    have hcall : ∀ n next stop, inCall f (do
          let callee ← (bindings n : Eval Scope)
          let _ ← body n callee
          return ()) m next stop =
        (liftM (bindings n) : Action Scope) (m.enterCall f)
          (fun callee m => body n callee m (fun _ m => next () (m.leaveCall f))
            fun h m => stop h (m.leaveCall f)) fun h m => stop h (m.leaveCall f) := by
      intro n next stop
      unfold inCall
      rw [hdepth]
      rfl
    have hlifted : Action.Settles T host (.binding scope lent) freshScope (m.enterCall f) s
        (fun n => liftM (bindings n)) id fun _ _ => True := settles_lift hbind
    rcases hlifted with ⟨callee, m₁, s₁, hb, acts, hm₁, -⟩ | ⟨h, m₁, s₁, callee, hb, acts, hok⟩
    · rcases hbody callee m₁ s₁ hm₁ with
        ⟨x, m₂, s₂, hx, acts', hm₂, -⟩ | ⟨h, m₂, s₂, callee', hx, acts', hok⟩
      · refine .ends () (m₂.leaveCall f) s₂ ?_ (.call f acts acts')
          (T.stable.leaveCall f hm₂) trivial
        filter_upwards [hb, hx] with n hb hx next stop
        rw [hcall, hb, hx]
      · refine .stops h (m₂.leaveCall f) s₂ scope ?_ (.call f acts acts') hok
        filter_upwards [hb, hx] with n hb hx next stop
        rw [hcall, hb, hx]
    · refine .stops h (m₁.leaveCall f) s₁ scope ?_ (.call f acts .refl) hok
      filter_upwards [hb] with n hb next stop
      rw [hcall, hb]

end Parts

end Action

open Pseudocode.Action (settles_lift settles_ask)

section Rules

variable {T : Regime} {σ : Type} {host : Host σ} {lent : String → Prop} {scope : Scope}
  {m : Machine} {s : σ} {held : Location → Prop} {expr : Nat → Scope → Expr → Eval Value}

/-! ## Input, output and files -/

theorem settles_outputLine (hx : ∀ e, Settled T lent scope expr e) (hm : T.pre m)
    (values : List Expr) :
    Computes T lent scope m (fun n => outputLine (expr n) scope values) fun _ _ => True := by
  have htexts : Computes T lent scope m
      (fun n => values.mapM fun e => do attempt (← expr n scope e).shown) fun _ _ => True :=
    settles_mapM (fun e _ m hm => (hx e m hm).bind fun v _ hm₁ _ _ =>
      (settles_attempt hm₁ (confined_shown reasons_isBare v)).done) hm
  exact htexts.bind fun texts m₁ hm₁ _ _ => settles_pure hm₁ trivial rfl

theorem settles_fileName (hx : ∀ e, Settled T lent scope expr e) (hm : T.pre m) (e : Expr) :
    Computes T lent scope m (fun n => fileName (expr n) scope e) fun _ _ => True :=
  (hx e m hm).bind fun v _ hm₁ _ _ => (settles_attempt hm₁ (confined_shown reasons_isBare v)).done

theorem settles_onFiles (H : T.Hosted host) (hm : T.pre m) {α : Type}
    (f : FileTable → Except FileFault (α × FileTable)) :
    Settles T (T.executing held) scope m (fun _ => onFiles f)
      (fun _ => scope) fun _ _ => True := by
  refine settles_get ?_
  split
  · rename_i a files _
    exact .ends a { m with files := files } (.of_forall fun _ => rfl) (.outside (.files files))
      (H.outside (.files files) hm) trivial
  · exact settles_fault _

theorem settles_note {out : Machine → Machine → Prop} (hm : T.pre m) (n : Note) :
    Settles T (.running Everything held out) scope m (fun _ => note n) (fun _ => scope)
      fun _ _ => True :=
  .ends () _ (.of_forall fun _ => rfl) (.note n) (T.stable.note n hm) trivial

theorem settles_obtainUpload (H : T.Hosted host) (hm : T.pre m) (name mode : String) :
    Action.Settles T host (T.executing held) scope m s
      (fun _ => obtainUpload name mode) (fun _ => scope) fun _ _ => True := by
  refine Action.settles_get ?_
  split
  · exact (settles_ask H hm _).done
  · exact Action.settles_pure hm trivial rfl

/-- What READFILE does once it has its line. -/
def intake (expr : Scope → Expr → Eval Value) (scope : Scope) (t : Target) (line : String) :
    Eval String := do
  let d ← resolveTarget expr scope t
  d.store (← attempt (Value.ofText (← d.inputType) line))
  return line

/-- READFILE, up to the line that it prints. -/
def takeLine (expr : Scope → Expr → Eval Value) (scope : Scope) (name : Expr) (t : Target) :
    Eval String := do
  let name ← fileName expr scope name
  let line ← onFiles (·.next name)
  intake expr scope t line

/-- WRITEFILE, up to what it may print. -/
def putLine (expr : Scope → Expr → Eval Value) (scope : Scope) (name data : Expr) :
    Eval (String × String) := do
  let name ← fileName expr scope name
  let data ← attempt (← expr scope data).shown
  onFiles fun t => (t.write name data).map fun t => ((), t)
  return (name, data)

theorem settles_intake {out : Machine → Machine → Prop} (hx : ∀ e, Settled T lent scope expr e)
    (hm : T.pre m) (t : Target) (line : String) :
    Settles T (.running Everything held out) scope m (fun n => intake (expr n) scope t line)
      (fun _ => scope) fun _ _ => True := by
  refine (settles_resolveTarget hx hm t).inner.bind fun d m₁ hm₁ _ hd => ?_
  have htype : Computes T lent scope m₁ (fun _ => d.inputType) fun _ _ => True :=
    settles_inputType hm₁ d
  refine htype.inner.bind fun type m₂ hm₂ _ hnames => ?_
  refine (settles_attempt hm₂ (confined_ofText reasons_isBare type line)).bind
    fun v m₃ hm₃ _ hv => ?_
  obtain ⟨-, rfl⟩ := hv
  exact (settles_store hm₃ d v ((hnames.2 _ _).trans hd.1)).bind fun _ m₄ hm₄ _ _ =>
    settles_pure hm₄ trivial rfl

section Transfers

variable (H : T.Hosted host) (hx : ∀ e, Settled T lent scope expr e) (hm : T.pre m)
include H hx hm

theorem settles_performInput (t : Target) :
    Action.Settles T host (T.executing held) scope m s
      (fun n => performInput (expr n) scope t) (fun _ => scope) fun _ _ => True := by
  refine Action.settles_get ?_
  split
  · refine (settles_lift (settles_resolveTarget hx hm t).inner).bind fun d m₁ s₁ hm₁ _ hd => ?_
    have htype : Computes T lent scope m₁ (fun _ => d.inputType) fun _ _ => True :=
      settles_inputType hm₁ d
    refine (settles_lift htype.inner).bind fun type m₂ s₂ hm₂ _ hnames => ?_
    refine (settles_ask H hm₂ _).bind fun text m₃ s₃ hm₃ _ hasked => ?_
    have hbound : m₃.memory.lookup? scope d.name = some d.location := by
      obtain ⟨cancel, journal, rfl⟩ := hasked
      exact (hnames.2 scope d.name).trans hd.1
    have hstore : Settles T (T.executing held) scope m₃
        (fun _ => do d.store (← attempt (Value.ofText type text))) (fun _ => scope)
        fun _ _ => True := by
      refine (settles_attempt hm₃ (confined_ofText reasons_isBare type text)).bind
        fun v m₄ hm₄ _ hv => ?_
      obtain ⟨-, rfl⟩ := hv
      exact settles_store hm₄ d v hbound
    exact (settles_lift hstore).bind fun _ m₄ s₄ hm₄ _ _ =>
      (settles_ask H hm₄ _).done
  · exact settles_lift (settles_fault _)

theorem settles_performOpen (name : Expr) (mode : String) :
    Action.Settles T host (T.executing held) scope m s
      (fun n => performOpen (expr n) scope name mode) (fun _ => scope) fun _ _ => True := by
  refine (settles_lift (settles_fileName hx hm name).inner).bind fun name m₁ s₁ hm₁ _ _ => ?_
  refine (settles_obtainUpload H hm₁ name mode).bind fun upload m₂ s₂ hm₂ _ _ => ?_
  refine (settles_lift (settles_onFiles H hm₂ _)).bind fun h m₃ s₃ hm₃ _ _ => ?_
  refine (settles_lift (settles_note hm₃ _)).bind fun _ m₄ s₄ hm₄ _ _ => ?_
  exact (settles_ask H hm₄ _).done

theorem settles_performClose (name : Expr) :
    Action.Settles T host (T.executing held) scope m s
      (fun n => performClose (expr n) scope name) (fun _ => scope) fun _ _ => True := by
  refine (settles_lift (settles_fileName hx hm name).inner).bind fun name m₁ s₁ hm₁ _ _ => ?_
  refine (settles_lift (settles_onFiles H hm₁ _)).bind fun h m₂ s₂ hm₂ _ _ => ?_
  refine (settles_lift (settles_note hm₂ _)).bind fun _ m₃ s₃ hm₃ _ _ => ?_
  exact (settles_ask H hm₃ _).done

theorem settles_performRead (name : Expr) (t : Target) :
    Action.Settles T host (T.executing held) scope m s
      (fun n => performRead (expr n) scope name t) (fun _ => scope) fun _ _ => True := by
  have hread : Settles T (T.executing held) scope m
      (fun n => takeLine (expr n) scope name t) (fun _ => scope) fun _ _ => True := by
    refine (settles_fileName hx hm name).inner.bind fun name m₁ hm₁ _ _ => ?_
    exact (settles_onFiles H hm₁ _).bind fun line m₂ hm₂ _ _ => settles_intake hx hm₂ t line
  exact (settles_lift hread).bind fun line m₁ s₁ hm₁ _ _ =>
    (settles_ask H hm₁ _).done

theorem settles_performWrite (name data : Expr) :
    Action.Settles T host (T.executing held) scope m s
      (fun n => performWrite (expr n) scope name data) (fun _ => scope) fun _ _ => True := by
  have hwrite : Settles T (T.executing held) scope m
      (fun n => putLine (expr n) scope name data) (fun _ => scope) fun _ _ => True := by
    refine (settles_fileName hx hm name).inner.bind fun name m₁ hm₁ _ _ => ?_
    refine (hx data m₁ hm₁).inner.bind fun v m₂ hm₂ _ _ => ?_
    refine (settles_attempt hm₂ (confined_shown reasons_isBare v)).bind fun data m₃ hm₃ _ _ => ?_
    exact (settles_onFiles H hm₃ _).bind fun _ m₄ hm₄ _ _ => settles_pure hm₄ trivial rfl
  refine (settles_lift hwrite).bind fun written m₁ s₁ hm₁ _ _ => ?_
  refine Action.settles_get ?_
  split
  · exact (settles_ask H hm₁ _).done
  · exact Action.settles_pure hm₁ trivial rfl

end Transfers

/-! ## Blocks and loops -/

/-- A statement that is executed as a run settles, whatever loops are around it. -/
abbrev Executes (T : Regime) {σ : Type} (host : Host σ) (stmt : Nat → Scope → Stmt → Action Scope)
    (t : Stmt) : Prop :=
  ∀ held scope m s, T.pre m → Action.Settles T host (T.executing held) scope m
    s (fun n => stmt n scope t) id fun _ m' => Counts m m'

variable {stmt : Nat → Scope → Stmt → Action Scope} {b : Block} {bound : Nat → Nat}

theorem settles_executeBlock (hs : ∀ t ∈ b, Executes T host stmt t) (hm : T.pre m) :
    Action.Settles T host (T.executing held) scope m s
      (fun n => executeBlock (stmt n) scope b) id fun _ m' => b.Spends m m' := by
  induction b generalizing scope m s with
  | nil => exact Action.settles_pure hm rfl rfl
  | cons t rest ih =>
    refine (hs t List.mem_cons_self held scope m s hm).bind fun after m₁ s₁ hm₁ _ hc => ?_
    refine (ih (fun u hu => hs u (List.mem_cons_of_mem t hu)) hm₁).imp fun _ m' acts _ => ?_
    exact hc.after acts (aside_outside T.good)

theorem Action.Settles.congr {r : Role} {α : Type} {a a' : Nat → Action α} {after : α → Scope}
    {Q : α → Machine → Prop} (h : Action.Settles T host r scope m s a after Q)
    (ha : ∀ᶠ n in atTop, a' n = a n) : Action.Settles T host r scope m s a' after Q := by
  rcases h with ⟨x, m', s', hx, acts, hm', post⟩ | ⟨h, m', s', scope', hh, acts, hok⟩
  · refine .ends x m' s' ?_ acts hm' post
    filter_upwards [ha, hx] with n ha hx next stop
    rw [ha, hx]
  · refine .stops h m' s' scope' ?_ acts hok
    filter_upwards [ha, hh] with n ha hh next stop
    rw [ha, hh]

section Rounds

variable {r : Role} {α : Type} {after : α → Scope} {Q : α → Machine → Prop}

theorem Action.settles_spent {f : Nat → Nat → Action α} (hb : ∀ᶠ n in atTop, bound n = 0)
    (hok : T.ok .exhausted) (h0 : ∀ n, f n 0 = liftM (throw .exhausted : Eval α)) :
    Action.Settles T host r scope m s (fun n => f n (bound n)) after Q :=
  (settles_lift (settles_throw hok)).congr (hb.mono fun n hn => by rw [hn, h0])

theorem Action.settles_more {f : Nat → Nat → Action α} (hb : ∀ᶠ n in atTop, bound n ≠ 0)
    (h : Action.Settles T host r scope m s (fun n => f n (bound n - 1 + 1)) after Q) :
    Action.Settles T host r scope m s (fun n => f n (bound n)) after Q :=
  h.congr (hb.mono fun n hn => by rw [Nat.sub_add_cancel (Nat.pos_of_ne_zero hn)])

end Rounds

section Loops

variable {step : Machine → Machine → Prop} {test : Nat → Scope → Eval Bool}
  {body : Nat → Scope → Action Scope} (hbody : ∀ scope m s, T.pre m → Action.Settles T host
    (T.executing held) scope m s (fun n => body n scope) id fun _ m' => b.Spends m m')
include hbody

theorem settles_executeWhile (hl : Lasts T.ok step bound m)
    (ht : ∀ scope m, T.pre m → Computes T lent scope m (fun n => test n scope) fun _ _ => True)
    (hstep : ∀ m m', (b ≠ [] → Counts m m') → step m m') (hm : T.pre m) :
    Action.Settles T host (T.executing held) scope m s
      (fun n => executeWhile (test n) (body n) (bound n) scope) id fun _ _ => True := by
  induction hl generalizing scope s with
  | spent hb hok =>
    exact Action.settles_spent (f := fun n k => executeWhile (test n) (body n) k scope) hb hok
      fun _ => rfl
  | more hb _ ih =>
    refine Action.settles_more (f := fun n k => executeWhile (test n) (body n) k scope) hb ?_
    refine (settles_lift (ht scope _ hm).inner).bind fun c m₁ s₁ hm₁ acts _ => ?_
    cases c with
    | false => exact Action.settles_pure hm₁ trivial rfl
    | true =>
      refine (hbody scope m₁ s₁ hm₁).bind fun after m₂ s₂ hm₂ _ hspent => ?_
      exact ih m₂ (hstep _ _ fun hb => (hspent.counts hb).before acts (aside_outside T.good)) hm₂

theorem settles_executeRepeat (hl : Lasts T.ok step bound m)
    (ht : ∀ scope m, T.pre m → Computes T lent scope m (fun n => test n scope) fun _ _ => True)
    (hstep : ∀ m m', (b ≠ [] → Counts m m') → step m m') (hm : T.pre m) :
    Action.Settles T host (T.executing held) scope m s
      (fun n => executeRepeat (test n) (body n) (bound n) scope) id fun _ _ => True := by
  induction hl generalizing scope s with
  | spent hb hok =>
    exact Action.settles_spent (f := fun n k => executeRepeat (test n) (body n) k scope) hb hok
      fun _ => rfl
  | more hb _ ih =>
    refine Action.settles_more (f := fun n k => executeRepeat (test n) (body n) k scope) hb ?_
    refine (hbody scope _ s hm).bind fun after m₁ s₁ hm₁ _ hspent => ?_
    refine (settles_lift (ht after m₁ hm₁).inner).bind fun c m₂ s₂ hm₂ acts _ => ?_
    cases c with
    | true => exact Action.settles_pure hm₂ trivial rfl
    | false =>
      exact ih m₂ (hstep _ _ fun hb => (hspent.counts hb).after acts (aside_outside T.good)) hm₂

theorem settles_executeFor {c : Counter} (hl : Lasts T.ok step bound m)
    (hstep : ∀ m m₁ m', c.continues m = .ok true m → b.Spends m m₁ → c.advance m₁ = .ok () m' →
      step m m') (hc : held c.location) (hm : T.pre m) :
    Action.Settles T host (T.executing held) scope m s
      (fun n => executeFor c (body n) (bound n) scope) id fun _ _ => True := by
  induction hl generalizing scope s with
  | spent hb hok =>
    exact Action.settles_spent (f := fun n k => executeFor c (body n) k scope) hb hok fun _ => rfl
  | @more _ m hb _ ih =>
    have htest : Computes T (fun _ => False) scope m (fun _ => c.continues) fun goesOn m' =>
        m' = m ∧ ∃ _ : Nat, c.continues m = .ok goesOn m' := (settles_continues hm c).result
    refine Action.settles_more (f := fun n k => executeFor c (body n) k scope) hb ?_
    refine (settles_lift htest.inner).bind fun goesOn m₁ s₁ hm₁ _ hgoes => ?_
    obtain ⟨⟨rfl, -, hgoes⟩, -⟩ := hgoes
    cases goesOn with
    | false => exact Action.settles_pure hm₁ trivial rfl
    | true =>
      refine (hbody scope m₁ s₁ hm₁).bind fun after m₂ s₂ hm₂ _ hspent => ?_
      refine (settles_lift (settles_advance hm₂ c hc).result).bind fun _ m₃ s₃ hm₃ _ hmoved => ?_
      obtain ⟨-, -, hmoved⟩ := hmoved
      exact ih m₃ (hstep _ m₂ m₃ hgoes hspent hmoved) hm₃

end Loops

/-! ## Statements -/

/-- CALL: only what the procedure's parameters borrow is lent. -/
theorem settles_performCall {name : String} {arguments : List Expr} (H : T.Hosted host)
    (hbind : ∀ p frame, m.procedures.find? name = some p →
      Settles T (.binding scope lent) freshScope (m.enterCall frame)
        (fun n => bindArguments (expr n) scope freshScope p.params arguments) id fun _ _ => True)
    (hs : ∀ t, T.good t → Executes T host stmt t) (hm : T.pre m) (line : Int) :
    Action.Settles T host (.calling lent (Outside T.good)) scope m s
      (fun n => performCall (expr n) (executeBlock (stmt n)) scope name arguments line)
      (fun _ => scope) fun _ _ => True := by
  refine Action.settles_get ?_
  cases hp : m.procedures.find? name with
  | some p =>
    dsimp only
    split
    · exact settles_lift (settles_fault _)
    · exact Action.settles_inCall _ (hbind p _ hp) fun callee m₁ s₁ hm₁ =>
        (settles_executeBlock (fun t ht => hs t (H.procedure_good hm hp t ht)) hm₁).done
  | none =>
    dsimp only
    split
    · exact settles_lift (settles_fault _)
    · exact settles_lift (settles_fault _)

/-- **The forms of statement**, as soon as the expressions and statements inside settle. -/
theorem settles_perform {form : Form} (H : T.Hosted host)
    (hx : ∀ scope e, Settled T lent scope expr e) (hlent : ∀ x, lent x)
    (hgood : ∀ b ∈ form.blocks, ∀ t ∈ b, T.good t) (hs : ∀ t, T.good t → Executes T host stmt t)
    (hl : form.RoundsLast T bound) (hm : T.pre m) (line : Int) :
    Action.Settles T host (T.executing held) scope m s
      (fun n => perform (expr n) (executeBlock (stmt n)) (bound n) scope line form) id
      fun _ _ => True := by
  have hblock : ∀ b, b ∈ form.blocks ∨ b = [] → ∀ held scope m s, T.pre m →
      Action.Settles T host (T.executing held) scope m s
        (fun n => executeBlock (stmt n) scope b) id fun _ m' => Block.Spends b m m' := by
    rintro b (hb | rfl) held scope m s hm
    · exact settles_executeBlock (fun t ht => hs t (hgood b hb t ht)) hm
    · exact Action.settles_pure hm rfl rfl
  have hregister : Settles T (T.executing held) scope m
      (fun _ => modify (·.register form)) (fun _ => scope) fun _ _ => True :=
    .ends () _ (.of_forall fun _ => rfl) (.outside (.register form hgood))
      (H.outside (.register form hgood) hm) trivial
  -- what gives no scope of its own is followed by the scope it began in
  have hthen : ∀ {a : Nat → Action Unit},
      Action.Settles T host (T.executing held) scope m s a (fun _ => scope)
        (fun _ _ => True) →
      Action.Settles T host (T.executing held) scope m s
        (fun n => do
          a n
          return scope) id fun _ _ => True :=
    fun ha => ha.bind fun _ m₁ s₁ hm₁ _ _ => Action.settles_pure hm₁ trivial rfl
  cases form with
  | declare name typeName shape =>
    exact settles_lift (settles_performDeclare hm name typeName shape)
  | assign t value => exact hthen (settles_lift (settles_performAssign (hx scope) hm t value))
  | output values =>
    refine (settles_lift (settles_outputLine (hx scope) hm values).inner).bind
      fun text m₁ s₁ hm₁ _ _ => ?_
    exact (settles_ask H hm₁ _).bind fun _ m₂ s₂ hm₂ _ _ =>
      Action.settles_pure hm₂ trivial rfl
  | input t => exact hthen (settles_performInput H (hx scope) hm t)
  | ifThen test body arms otherwise =>
    exact (settles_lift (settles_chooseIf (hx scope) hm test body arms otherwise).inner).bind
      fun b m₁ s₁ hm₁ _ hb => (hblock b hb.1 held scope m₁ s₁ hm₁).done
  | caseOf selector branches otherwise =>
    exact (settles_lift (settles_chooseCase (hx scope) hm selector branches otherwise).inner).bind
      fun b m₁ s₁ hm₁ _ hb => (hblock b hb.1 held scope m₁ s₁ hm₁).done
  | whileDo test body =>
    obtain ⟨step, hstep, hlasts⟩ := hl
    exact settles_executeWhile (hblock body (Or.inl List.mem_cons_self) held) (hlasts m hm)
      (fun scope m hm => settles_condition (hx scope test) hm _) hstep hm
  | repeatUntil body test =>
    obtain ⟨step, hstep, hlasts⟩ := hl
    exact settles_executeRepeat (hblock body (Or.inl List.mem_cons_self) held) (hlasts m hm)
      (fun scope m hm => settles_condition (hx scope test) hm _) hstep hm
  | forTo name start stop step body =>
    refine (settles_lift (settles_startFor hx hm name start stop step)).bind
      fun started m₁ s₁ hm₁ _ hc => ?_
    obtain ⟨hne, hname⟩ := hc
    obtain ⟨step, hstep, hlasts⟩ := hl started.1 hne
    exact (settles_executeFor (hblock body (Or.inl List.mem_cons_self) _) (hlasts m₁ hm₁) hstep
      (Or.inr rfl) hm₁).hold hname
  | call name arguments =>
    have hbind : ∀ p frame, m.procedures.find? name = some p →
        Settles T (.binding scope lent) freshScope (m.enterCall frame)
          (fun n => bindArguments (expr n) scope freshScope p.params arguments) id
          fun _ _ => True := fun p frame _ =>
      settles_bindArguments (fun e _ => hx scope e) (fun _ _ x _ _ => hlent x)
        (T.stable.enterCall frame hm)
    exact hthen ((settles_performCall H hbind hs hm line).inner fun _ _ => trivial)
  | fileOpen name mode => exact hthen (settles_performOpen H (hx scope) hm name mode)
  | fileClose name => exact hthen (settles_performClose H (hx scope) hm name)
  | fileRead name t => exact hthen (settles_performRead H (hx scope) hm name t)
  | fileWrite name data => exact hthen (settles_performWrite H (hx scope) hm name data)
  | returnValue e => exact settles_lift (settles_fault _)
  | inert kind => exact settles_lift (settles_fault _)
  | procedure name params body => exact hthen (settles_lift hregister)
  | function name params returns body => exact hthen (settles_lift hregister)

theorem settles_checkCancelled {r : Role} (hm : T.pre m) :
    Settles T r scope m (fun _ => checkCancelled) (fun _ => scope) fun _ m' => m' = m := by
  refine settles_get ?_
  split
  · exact settles_throw (T.ok_of_ne nofun)
  · exact settles_pure hm rfl rfl

/-- The machine when a statement has been dispatched and announced. -/
def Begun (t : Stmt) (m m' : Machine) : Prop :=
  ∃ cancel journal,
    m' = { m.counted.reached t.line with cancelRequested := cancel, journal := journal }

/-- **A statement**, as soon as its form settles after the dispatch and the announcement. -/
theorem settles_executeDispatched {own : String → Prop} {t : Stmt} (H : T.Hosted host)
    (hm : T.pre m)
    (hform : ∀ m₁ s₁, T.pre m₁ → Counts m m₁ → Begun t m m₁ →
      Action.Settles T host (.running own held (Outside T.good)) scope m₁ s₁
        (fun n => perform (expr n) (executeBlock (stmt n)) (bound n) scope t.line t.form) id
        fun _ _ => True) :
    Action.Settles T host (.running own held (Outside T.good)) scope m s
      (fun n => executeDispatched (expr n) (executeBlock (stmt n)) (bound n) scope t) id
      fun _ m' => Counts m m' := by
  have hdispatch : Settles T (.running own held (Outside T.good)) scope m (fun _ => dispatch t.line)
      (fun _ => scope) fun _ m' => Counts m m' ∧ ∃ _ : Nat, dispatch t.line m = .ok () m' :=
    (settles_dispatch hm t.line).result
  have hlocated : ∀ m₁ s₁, T.pre m₁ → Counts m m₁ → Begun t m m₁ →
      Action.Settles T host (.running own held (Outside T.good)) scope m₁ s₁
        (fun n => performLocated (expr n) (executeBlock (stmt n)) (bound n) scope t.line t.form) id
        fun _ _ => True := by
    intro m₁ s₁ hm₁ hcounts hbegun
    have hperform := Action.settles_located t.line (hform m₁ s₁ hm₁ hcounts hbegun)
    cases ht : t.form with
    | inert kind => exact settles_lift (settles_throw (T.ok_of_ne nofun))
    | _ => rw [ht] at hperform; exact hperform
  refine (settles_lift hdispatch).bind fun _ m₁ s₁ hm₁ _ hd => ?_
  obtain ⟨hcounts, -, hd⟩ := hd
  obtain ⟨-, -, rfl⟩ := dispatch_eq_ok.mp hd
  refine (settles_ask H hm₁ (.began t)).bind fun _ m₂ s₂ hm₂ acts hbegun => ?_
  refine (settles_lift (settles_checkCancelled hm₂)).bind fun _ m₃ s₃ hm₃ _ hsame => ?_
  obtain rfl := hsame
  have hcounts₃ := hcounts.after acts (aside_outside T.good)
  refine (hlocated m₃ s₃ hm₃ hcounts₃ hbegun).bind fun after m₄ s₄ hm₄ acts₄ _ => ?_
  refine (settles_ask H hm₄ (.ended t)).bind fun _ m₅ s₅ hm₅ acts₅ _ => ?_
  exact Action.settles_pure hm₅ (hcounts₃.after (acts₄.trans acts₅) (aside_outside T.good)) rfl

end Rules

end Pseudocode

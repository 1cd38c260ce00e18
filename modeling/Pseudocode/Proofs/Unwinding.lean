import Pseudocode.Proofs.Course
import Pseudocode.Session

/-!
# Suspended runs and their unwinding

While a run is suspended, the machine shows exactly the calls that the run is inside of, and
stopping the run leaves them all. So the host finds the calls in order at every query, and finds the
machine at rest whenever the run has ended, in whatever way it did.

The steps between the queries keep the calls as they are, but for the line that a call has reached
(`SameCalls`): a call that an expression makes is left again before the expression has its value.
With this, the law for hosts is one induction on the course of a run.

Results:
* `Acts.sameCalls`: activity leaves the calls that it found.
* `unwind_eq`: a run that is stopped at its place ends in the machine of an abandoned run.
* `Course.orderly`, `executeProgram_orderly`: what a host can rely on at every query (`Attended`).
* `Run.Orderly.drain`: and when the run has ended.
-/

namespace Pseudocode

open Eval

/-! ## The calls in progress -/

/-- Whom a call frame belongs to, apart from the line it has reached. -/
def CallFrame.owner (f : CallFrame) : String × FrameKind :=
  (f.name, f.kind)

/-- The same calls are in progress, but for the lines that they have reached, under the same
settings. -/
structure SameCalls (m m' : Machine) : Prop where
  settings : m'.settings = m.settings
  depth : m'.depth = m.depth
  owners : m'.stack.calls.map CallFrame.owner = m.stack.calls.map CallFrame.owner

theorem SameCalls.refl (m : Machine) : SameCalls m m :=
  ⟨rfl, rfl, rfl⟩

theorem SameCalls.trans {m m₁ m₂ : Machine} (h₁ : SameCalls m m₁) (h₂ : SameCalls m₁ m₂) :
    SameCalls m m₂ :=
  ⟨h₂.settings.trans h₁.settings, h₂.depth.trans h₁.depth, h₂.owners.trans h₁.owners⟩

theorem CallStack.owners_atLine (s : CallStack) (line : Int) :
    (s.atLine line).calls.map CallFrame.owner = s.calls.map CallFrame.owner := by
  obtain ⟨mainLine, calls⟩ := s
  cases calls with
  | nil => rfl
  | cons f rest => rfl

theorem sameCalls_reached (m : Machine) (line : Int) : SameCalls m (m.reached line) :=
  ⟨rfl, rfl, m.stack.owners_atLine line⟩

theorem sameCalls_register (m : Machine) (form : Form) : SameCalls m (m.register form) := by
  cases form <;> exact ⟨rfl, rfl, rfl⟩

theorem HostChange.sameCalls {m m' : Machine} (h : HostChange m m') : SameCalls m m' := by
  obtain ⟨cancel, journal, rfl⟩ := h
  exact ⟨rfl, rfl, rfl⟩

/-- A call is entered and left, and whatever happens inside leaves the calls that it found. -/
theorem SameCalls.leaveCall {m n : Machine} {f : CallFrame} (h : SameCalls (m.enterCall f) n) :
    SameCalls m (n.leaveCall f) := by
  obtain ⟨hsettings, hdepth, howners⟩ := h
  refine ⟨hsettings, ?_, ?_⟩
  · show n.depth - 1 = m.depth
    rw [hdepth]
    exact Nat.add_sub_cancel m.depth 1
  · show (n.stack.calls.drop 1).map CallFrame.owner = _
    rw [List.map_drop, howners]
    rfl

/-- **Activity leaves the calls that it found**, if what happens beside the variables does. -/
theorem Acts.sameCalls {r : Role} {scope scope' : Scope} {m m' : Machine}
    (h : Acts r scope m scope' m') (hout : ∀ m m', r.out m m' → SameCalls m m') :
    SameCalls m m' := by
  induction h with
  | refl => exact .refl _
  | trans _ _ ih₁ ih₂ => exact (ih₁ hout).trans (ih₂ hout)
  | outside h => exact hout _ _ h
  | draw => exact ⟨rfl, rfl, rfl⟩
  | call f _ _ ihb ihr => exact ((ihb fun _ _ h => h.elim).trans (ihr hout)).leaveCall
  | refer => exact ⟨rfl, rfl, rfl⟩
  | copy => exact ⟨rfl, rfl, rfl⟩
  | argument _ ih => exact ih fun _ _ h => h.elim
  | inner _ hle _ ih => exact ih fun _ _ h => hout _ _ (hle _ _ h)
  | write => exact ⟨rfl, rfl, rfl⟩
  | declare => exact ⟨rfl, rfl, rfl⟩
  | hold _ _ _ ih => exact ih hout
  | counted => exact ⟨rfl, rfl, rfl⟩
  | reached line => exact sameCalls_reached _ line
  | note => exact ⟨rfl, rfl, rfl⟩

theorem covers_sameCalls : Covers SameCalls where
  refl := .refl
  trans := .trans
  memory _ _ := ⟨rfl, rfl, rfl⟩
  files _ _ := ⟨rfl, rfl, rfl⟩
  note _ _ := ⟨rfl, rfl, rfl⟩
  register := sameCalls_register

theorem evaluate_sameCalls (n : Nat) (scope : Scope) (e : Expr) :
    Leads SameCalls (evaluate n scope e) := by
  intro m
  obtain ⟨scope', acts⟩ := (evaluate_computes n scope e m).acts
  exact acts.sameCalls fun _ _ h => h.elim

/-! ## Machines at a place -/

/-- The calls in progress at a place, innermost first. -/
def Place.calls : Place → List CallFrame
  | [] => []
  | .stmt _ :: p => Place.calls p
  | .call f :: p => f :: Place.calls p

/-- How many calls may be in progress under a limit: none at all, if the limit is below that. -/
def Limit.Caps : Limit → Nat → Prop
  | .atMost n, depth => (depth : Int) ≤ max 0 n
  | .endless, _ => True
  | .unusable, depth => depth = 0

theorem Limit.caps_zero (l : Limit) : l.Caps 0 := by
  cases l with
  | atMost n => exact Int.le_max_left 0 n
  | endless => trivial
  | unusable => rfl

/-- A call that is let in is within the limit. -/
theorem Machine.caps_of_checkDepth {m : Machine} {depth : Nat} (h : m.checkDepth depth = .ok ()) :
    m.settings.maxDepth.Caps depth := by
  unfold Machine.checkDepth at h
  cases hl : m.settings.maxDepth with
  | atMost n =>
    rw [hl] at h
    simp only [Limit.allows, bind, Except.bind] at h
    split at h
    · rename_i hin
      rw [Bool.and_eq_true, decide_eq_true_eq] at hin
      exact Int.le_trans hin.1 (Int.le_max_right 0 n)
    · cases h
  | endless => trivial
  | unusable =>
    rw [hl] at h
    cases h

/-- A machine, under the given settings, whose calls in progress are those of a place. -/
structure Machine.At (settings : Settings) (p : Place) (m : Machine) : Prop where
  under : m.settings = settings
  depth : m.depth = (Place.calls p).length
  owners : m.stack.calls.map CallFrame.owner = (Place.calls p).map CallFrame.owner
  caps : settings.maxDepth.Caps (Place.calls p).length

section Places

variable {settings : Settings} {p : Place} {m m' : Machine}

theorem Machine.At.next (h : m.At settings p) (hs : SameCalls m m') : m'.At settings p :=
  ⟨hs.settings.trans h.under, hs.depth.trans h.depth, hs.owners.trans h.owners, h.caps⟩

/-- A statement under way is no call in progress. -/
theorem Machine.at_stmt {s : Stmt} : m.At settings (.stmt s :: p) ↔ m.At settings p :=
  ⟨fun h => ⟨h.under, h.depth, h.owners, h.caps⟩, fun h => ⟨h.under, h.depth, h.owners, h.caps⟩⟩

theorem Machine.At.enterCall (h : m.At settings p) {f : CallFrame}
    (hd : m.checkDepth (m.depth + 1) = .ok ()) : (m.enterCall f).At settings (.call f :: p) where
  under := h.under
  depth := congrArg (· + 1) h.depth
  owners := congrArg (f.owner :: ·) h.owners
  caps := by
    have hcaps := Machine.caps_of_checkDepth hd
    rwa [h.under, h.depth] at hcaps

/-- The frame that is left is the one that the place tells. -/
theorem Machine.At.cons {f : CallFrame} (h : m.At settings (.call f :: p)) :
    ∃ g rest, m.stack.calls = g :: rest ∧ g.owner = f.owner := by
  have howners := h.owners
  cases hc : m.stack.calls with
  | nil =>
    rw [hc] at howners
    cases howners
  | cons g rest =>
    rw [hc] at howners
    exact ⟨g, rest, rfl, (List.cons.inj howners).1⟩

/-- A limit that allows a number of calls allows fewer. -/
theorem Limit.Caps.pred {l : Limit} {depth : Nat} (h : l.Caps (depth + 1)) : l.Caps depth := by
  cases l with
  | atMost n =>
    have h' : ((depth + 1 : Nat) : Int) ≤ max 0 n := h
    exact Int.le_trans (Int.ofNat_le.mpr (Nat.le_succ depth)) h'
  | endless => trivial
  | unusable => cases h

theorem Machine.At.leaveCall {f : CallFrame} (h : m.At settings (.call f :: p)) :
    (m.leaveCall f).At settings p where
  under := h.under
  depth := congrArg (· - 1) h.depth
  owners := by
    show (m.stack.calls.drop 1).map CallFrame.owner = _
    rw [List.map_drop, h.owners]
    rfl
  caps := h.caps.pred

/-- A machine with the calls in order: the counted ones are those on the stack, and within the
limit. -/
structure Machine.InOrder (settings : Settings) (m : Machine) : Prop where
  under : m.settings = settings
  depth : m.depth = m.stack.calls.length
  caps : settings.maxDepth.Caps m.depth

theorem Machine.At.inOrder (h : m.At settings p) : m.InOrder settings where
  under := h.under
  depth := by
    have hlength := congrArg List.length h.owners
    rw [List.length_map, List.length_map] at hlength
    exact h.depth.trans hlength.symm
  caps := h.depth ▸ h.caps

/-- A machine at rest: no call is in progress and no cancellation is pending. -/
structure Machine.Resting (settings : Settings) (m : Machine) : Prop where
  under : m.settings = settings
  depth : m.depth = 0
  calls : m.stack.calls = []
  cancelRequested : m.cancelRequested = false

/-! ## Unwinding -/

/-- What a machine at the outermost place is once its run has ended. -/
theorem Machine.At.settled (h : m.At settings []) : m.settled.Resting settings :=
  ⟨h.under, h.depth, List.map_eq_nil_iff.mp h.owners, rfl⟩

/-- A fault that is charged to no statement yet. -/
def Halt.IsUncharged : Halt → Prop
  | .fault _ line => line = 0
  | _ => False

theorem Machine.charge_of_charged {h : Halt} (hh : ¬ h.IsUncharged) (line : Int) :
    m.charge line h = (h, m) := by
  unfold Machine.charge
  split
  · exact absurd rfl hh
  · rfl

theorem sameCalls_charge (line : Int) (h : Halt) : SameCalls m (m.charge line h).2 := by
  unfold Machine.charge
  split
  · exact ⟨rfl, rfl, rfl⟩
  · exact .refl m

/-- Leaving one frame more. -/
theorem Machine.unwound_cons {f : CallFrame} {rest : List CallFrame}
    (hc : m.stack.calls = f :: rest) : m.unwound = (m.leaveCall f).unwound := by
  have hrest : (m.leaveCall f).stack.calls = rest := by
    show m.stack.calls.drop 1 = rest
    rw [hc]
    rfl
  unfold Machine.unwound
  rw [hc, hrest]
  rfl

theorem Machine.leaveCall_owner {f g : CallFrame} (h : g.owner = f.owner) :
    m.leaveCall g = m.leaveCall f := by
  obtain ⟨hname, hkind⟩ := Prod.mk.inj h
  unfold Machine.leaveCall
  rw [hname, hkind]

/-- **A run that is stopped at its place ends in the machine of an abandoned run**, unless the
reason still has to be charged to a statement. -/
theorem unwind_eq {h : Halt} (hm : m.At settings p) (hh : ¬ h.IsUncharged) :
    unwind p h m = .finished (.error h) m.unwound := by
  induction p generalizing m with
  | nil =>
    have hcalls : m.stack.calls = [] := List.map_eq_nil_iff.mp hm.owners
    unfold unwind Machine.unwound
    rw [hcalls]
    rfl
  | cons level p ih =>
    cases level with
    | stmt s =>
      unfold unwind
      rw [Machine.charge_of_charged hh]
      exact ih (Machine.at_stmt.mp hm)
    | call f =>
      obtain ⟨g, rest, hc, howner⟩ := hm.cons
      rw [Machine.unwound_cons hc, Machine.leaveCall_owner howner]
      exact ih hm.leaveCall

/-- A run that is stopped at its place ends at rest, whatever the reason. -/
theorem unwind_resting (h : Halt) (hm : m.At settings p) :
    ∃ ending m', unwind p h m = .finished ending m' ∧ m'.Resting settings := by
  induction p generalizing m h with
  | nil => exact ⟨_, _, rfl, hm.settled⟩
  | cons level p ih =>
    cases level with
    | stmt s =>
      exact ih _ ((Machine.at_stmt.mp hm).next (sameCalls_charge s.line h))
    | call f => exact ih h hm.leaveCall

/-- An abandoned run keeps all of its machine but the calls, the cancellation and the notes. -/
theorem Machine.unwound_eq (m : Machine) : ∃ journal, m.unwound =
    { m with
      stack := ⟨m.stack.mainLine, []⟩
      depth := m.depth - m.stack.calls.length
      cancelRequested := false
      journal := journal } := by
  generalize hc : m.stack.calls = calls
  induction calls generalizing m with
  | nil =>
    have hstack : m.stack = ⟨m.stack.mainLine, []⟩ := by rw [← hc]
    refine ⟨m.journal, ?_⟩
    unfold Machine.unwound
    rw [hc, ← hstack]
    rfl
  | cons f rest ih =>
    have hrest : (m.leaveCall f).stack.calls = rest := by
      show m.stack.calls.drop 1 = rest
      rw [hc]
      rfl
    obtain ⟨journal, hunwound⟩ := ih (m.leaveCall f) hrest
    refine ⟨journal, ?_⟩
    have hdepth : m.depth - (f :: rest).length = (m.leaveCall f).depth - rest.length := by
      show m.depth - (rest.length + 1) = m.depth - 1 - rest.length
      omega
    rw [Machine.unwound_cons hc, hunwound, hdepth]
    rfl

theorem Machine.InOrder.unwound (h : m.InOrder settings) : m.unwound.Resting settings := by
  obtain ⟨journal, hunwound⟩ := m.unwound_eq
  rw [hunwound]
  refine ⟨h.under, ?_, rfl, rfl⟩
  show m.depth - m.stack.calls.length = 0
  rw [h.depth, Nat.sub_self]

end Places

/-! ## What a host can rely on -/

/-- The announcement that a statement begins. -/
def Query.IsBegan : Query → Prop
  | .began _ => True
  | _ => False

/-- What a host can rely on while a run is suspended at a query: the calls are in order, and the run
can be stopped at once; before a statement, a cancellation stops it with that statement's line. -/
structure Attended (settings : Settings) (q : Query) (m : Machine)
    (resume : q.Reply → Machine → Run) :
    Prop where
  inOrder : m.InOrder settings
  stopped : ∀ h m', HostChange m m' → ¬ h.IsUncharged →
    resume (.error h) m' = .finished (.error h) m'.unwound
  line : ∀ s, q = .began s → m.line = s.line
  cancelled : q.IsBegan → ∀ a m', HostChange m m' → m'.cancelRequested = true →
    resume (.ok a) m' = .finished (.error (.cancelled m'.line)) m'.unwound

/-- A run that is attended at every query, whatever the host replies, and ends at rest. -/
inductive Run.Orderly (settings : Settings) : Run → Prop
  | finished {ending : Except Halt Unit} {m : Machine} (h : m.Resting settings) :
      Run.Orderly settings (.finished ending m)
  | asking {q : Query} {m : Machine} {resume : q.Reply → Machine → Run}
      (here : Attended settings q m resume)
      (later : ∀ reply m', HostChange m m' → Run.Orderly settings (resume reply m')) :
      Run.Orderly settings (.asking q m resume)

section Orderly

variable {settings : Settings} {p : Place} {m : Machine} {r : Run}

theorem unwind_orderly (h : Halt) (hm : m.At settings p) : (unwind p h m).Orderly settings := by
  obtain ⟨ending, m', heq, hrest⟩ := unwind_resting h hm
  rw [heq]
  exact .finished hrest

/-- A query at which a stop unwinds the run can be stopped at once, and ends at rest. -/
theorem attended_of_unwinds {q : Query} {resume : q.Reply → Machine → Run} (hm : m.At settings p)
    (stopped : ∀ h m', resume (.error h) m' = unwind p h m') :
    (∀ h m', HostChange m m' → ¬ h.IsUncharged →
      resume (.error h) m' = .finished (.error h) m'.unwound) ∧
    ∀ h m', HostChange m m' → (resume (.error h) m').Orderly settings := by
  constructor
  · intro h m' hc hh
    rw [stopped, unwind_eq (hm.next hc.sameCalls) hh]
  · intro h m' hc
    rw [stopped]
    exact unwind_orderly h (hm.next hc.sameCalls)

theorem sameCalls_refused {line : Int} {m' : Machine} {h : Halt}
    (hd : dispatch line m = .error h m') : SameCalls m m' := by
  have hcounted : SameCalls m m.counted := ⟨rfl, rfl, rfl⟩
  rw [dispatch_apply] at hd
  split at hd
  · cases hd
    exact hcounted
  · cases hd
    exact hcounted
  · split at hd
    · cases hd
      exact hcounted
    · cases hd

/-- **Every course is orderly**, if it begins with the calls of its place. -/
theorem Course.orderly (h : Course SameCalls p m r) (hm : m.At settings p) :
    r.Orderly settings := by
  induction h with
  | done m => exact .finished hm.settled
  | moves hstep _ ih => exact ih (hm.next hstep)
  | halts h => exact unwind_orderly h hm
  | @asks p m q resume hq answered stopped ih =>
    obtain ⟨hstop, herror⟩ := attended_of_unwinds hm stopped
    refine .asking ⟨hm.inOrder, hstop, ?_, ?_⟩ ?_
    · rintro s rfl
      exact hq.elim
    · intro hb
      cases q with
      | began s => exact hq.elim
      | _ => exact hb.elim
    · intro reply m' hc
      cases reply with
      | ok a => exact ih a m' hc (hm.next hc.sameCalls)
      | error h => exact herror h m' hc
  | refused line h hd => exact unwind_orderly h (hm.next (sameCalls_refused hd))
  | @begins p m m₁ s resume hp hd cancelled performed stopped ih =>
    obtain ⟨-, -, rfl⟩ := dispatch_eq_ok.mp hd
    have hcounted : SameCalls m m.counted := ⟨rfl, rfl, rfl⟩
    have hbegun : (m.counted.reached s.line).At settings p :=
      (hm.next hcounted).next (sameCalls_reached _ s.line)
    obtain ⟨hstop, herror⟩ := attended_of_unwinds hbegun stopped
    refine .asking ⟨hbegun.inOrder, hstop, ?_, ?_⟩ ?_
    · rintro t ⟨⟩
      rfl
    · intro _ a m' hc hcancel
      rw [cancelled m' hc hcancel, unwind_eq (hbegun.next hc.sameCalls) id]
    · intro reply m' hc
      cases reply with
      | error h => exact herror h m' hc
      | ok a =>
        have hat : m'.At settings p := hbegun.next hc.sameCalls
        cases hcancel : m'.cancelRequested with
        | true =>
          rw [cancelled m' hc hcancel]
          exact unwind_orderly _ hat
        | false => exact ih m' hc hcancel (Machine.at_stmt.mpr hat)
  | charged s cause => exact unwind_orderly _ (Machine.at_stmt.mp hm)
  | @ends p m s resume answered stopped ih =>
    have hout : m.At settings p := Machine.at_stmt.mp hm
    obtain ⟨hstop, herror⟩ := attended_of_unwinds hout stopped
    refine .asking ⟨hm.inOrder, hstop, ?_, ?_⟩ ?_
    · rintro t ⟨⟩
    · exact fun hb => hb.elim
    · intro reply m' hc
      cases reply with
      | ok a => exact ih m' hc (hout.next hc.sameCalls)
      | error h => exact herror h m' hc
  | enters hs hknown hd _ ih => exact ih (hm.enterCall hd)
  | leaves f _ ih => exact ih hm.leaveCall

theorem sameCalls_registerAll (program : Block) (m : Machine) :
    SameCalls m (m.registerAll program) :=
  List.foldlRecOn program _ (.refl m) fun n hn s _ => hn.trans (sameCalls_register n s.form)

/-- **What a host can rely on**, for every program. -/
theorem executeProgram_orderly (n : Nat) (program : Block) (m : Machine) :
    (executeProgram n program m).Orderly m.settings := by
  have hstart : m.rewound.At m.settings [] := ⟨rfl, rfl, rfl, Limit.caps_zero _⟩
  exact (executeProgram_course covers_sameCalls evaluate_sameCalls n program m).orderly
    (hstart.next (sameCalls_registerAll program m.rewound))

/-- A run that a discreet host answers to its end leaves the machine at rest. -/
theorem Run.Orderly.drain {σ : Type} {host : Host σ} (h : r.Orderly settings) (hd : host.Discreet)
    (s : σ) : (r.drain host s).2.1.Resting settings := by
  induction h generalizing s with
  | finished h => exact h
  | @asking q m resume _ _ ih => exact ih _ _ (hd s m q) _

end Orderly

end Pseudocode

import Pseudocode.Proofs.Roles

/-!
# What a step leaves alone

A call has names of its own; the names of its caller are out of its sight. What it can write is what
the global names are bound to, what was passed to it by reference, and what it makes itself. This
module proves the law behind that for every expression and statement.

The proof names a set `W` of places that may be written. It has to hold all global variables and all
places not yet taken (`Memory.Covered`), and every variable that the acting role can reach through
its names (`Role.Within`). Every action keeps both, and writes in `W` only (`Acts.frame`): a name is
bound either to a place that was free or, for a parameter by reference, to a variable that the
caller may lend. `W` is chosen at the end, as small as the role permits.

Results:
* `Acts.frame`: activity writes nothing outside of `W`.
* `Acts.keeps_calling`, `Acts.keeps_running`: a role keeps every variable that no name it may use is
  bound to.
* `scoping_frame_law`: **variables out of sight are kept**, global names are bound by the program
  only, and a call changes a local variable of its caller only if it was lent.
-/

namespace Pseudocode

/-! ## Memory -/

/-- The location a name is bound to in the scope itself. -/
def Scope.local? : Scope → String → Option Location
  | .global, _ => none
  | .local names, x => names.find? x

namespace Memory

variable {mem : Memory} {scope : Scope} {W : Location → Prop} {x : String} {l : Location}

theorem lookup?_cases (h : mem.lookup? scope x = some l) :
    scope.local? x = some l ∨ mem.globals.find? x = some l := by
  cases scope with
  | global => exact Or.inr h
  | «local» names =>
    simp only [Memory.lookup?] at h
    split at h
    · cases h
      exact Or.inl ‹_›
    · exact Or.inr h

/-- A binding adds one name to a scope. -/
theorem local?_bind {y : String} {k : Location} (h : (mem.bind scope x l).1.local? y = some k) :
    k = l ∨ scope.local? y = some k := by
  cases scope with
  | global => cases h
  | «local» names =>
    simp only [Memory.bind, Scope.local?, Table.find?_insert] at h ⊢
    split at h
    · cases h
      exact Or.inl rfl
    · exact Or.inr h

theorem at?_bind (k : Location) : (mem.bind scope x l).2.at? k = mem.at? k := by
  cases scope <;> rfl

theorem at?_update {k : Location} (f : Variable → Variable) (h : k ≠ l) :
    (mem.update l f).at? k = mem.at? k := by
  have hne : l.index ≠ k.index := fun hi => h (by cases k; cases l; cases hi; rfl)
  simp [Memory.at?, Memory.update, Array.getElem?_modify, hne]

/-- Only the new location holds something else after an allocation. -/
theorem at?_allocate {k : Location} (v : Variable) (h : k ≠ (mem.allocate v).1) :
    (mem.allocate v).2.at? k = mem.at? k := by
  have hne : k.index ≠ mem.store.size := fun hi => h (by cases k; cases hi; rfl)
  simp [Memory.at?, Memory.allocate, Array.getElem?_push, hne]

/-- All global variables and all places not yet taken are in `W`. -/
structure Covered (W : Location → Prop) (mem : Memory) : Prop where
  globals : ∀ {x l}, mem.globals.find? x = some l → W l
  free : ∀ {l}, mem.at? l = none → W l

theorem Covered.lookup? (h : mem.Covered W) (hlocal : ∀ l, scope.local? x = some l → W l)
    (hl : mem.lookup? scope x = some l) : W l :=
  (lookup?_cases hl).elim (hlocal l) h.globals

theorem Covered.update (h : mem.Covered W) (l : Location) (f : Variable → Variable) :
    (mem.update l f).Covered W := by
  refine ⟨h.globals, fun {k} hk => h.free ?_⟩
  simpa [Memory.at?, Memory.update] using hk

theorem Covered.bind (h : mem.Covered W) (hl : W l) (scope : Scope) (x : String) :
    (mem.bind scope x l).2.Covered W := by
  refine ⟨fun {y k} hk => ?_, fun {k} hk => h.free ((at?_bind k).symm.trans hk)⟩
  cases scope with
  | global =>
    simp only [Memory.bind, Table.find?_insert] at hk
    split at hk
    · cases hk
      exact hl
    · exact h.globals hk
  | «local» names => exact h.globals hk

theorem Covered.allocate (h : mem.Covered W) (v : Variable) :
    W (mem.allocate v).1 ∧ (mem.allocate v).2.Covered W := by
  have hfree : W (mem.allocate v).1 := h.free (by simp [Memory.at?, Memory.allocate])
  refine ⟨hfree, h.globals, fun {k} hk => ?_⟩
  by_cases hnew : k = (mem.allocate v).1
  · exact hnew ▸ hfree
  · exact h.free ((at?_allocate v hnew).symm.trans hk)

/-- A new variable takes a place of `W`, and so does the name that is bound to it. -/
theorem Covered.declare (h : mem.Covered W) (scope : Scope) (x : String) (v : Variable) :
    (mem.declare scope x v).2.2.Covered W ∧
      (∀ y l, (mem.declare scope x v).2.1.local? y = some l → W l ∨ scope.local? y = some l) ∧
      ∀ l, ¬W l → (mem.declare scope x v).2.2.at? l = mem.at? l := by
  obtain ⟨hnew, hallocated⟩ := h.allocate v
  refine ⟨hallocated.bind hnew scope x, fun y l hl => ?_, fun l hl => ?_⟩
  · rcases local?_bind hl with rfl | hl
    · exact Or.inl hnew
    · exact Or.inr hl
  · exact (at?_bind l).trans (at?_allocate v fun h => hl (h ▸ hnew))

end Memory

/-! ## The frame of all activity -/

/-- All that a role can reach through its names is in `W`. -/
def Role.Within (W : Location → Prop) : Role → Scope → Prop
  | calling lent _, scope => ∀ x l, lent x → scope.local? x = some l → W l
  | binding caller lent, callee =>
    (∀ x l, lent x → caller.local? x = some l → W l) ∧ ∀ x l, callee.local? x = some l → W l
  | running own held _, scope =>
    (∀ x l, own x → scope.local? x = some l → W l) ∧ ∀ l, held l → W l

/-- **Activity writes nothing outside of `W`**, if `W` covers the memory and the role is within
`W`. -/
theorem Acts.frame {W : Location → Prop} {r : Role} {scope scope' : Scope} {m m' : Machine}
    (h : Acts r scope m scope' m') (hout : ∀ m m', r.out m m' → m'.memory = m.memory)
    (hr : r.Within W scope) (hm : m.memory.Covered W) :
    r.Within W scope' ∧ m'.memory.Covered W ∧ ∀ l, ¬W l → m'.memory.at? l = m.memory.at? l := by
  induction h with
  | refl => exact ⟨hr, hm, fun _ _ => rfl⟩
  | trans _ _ ih₁ ih₂ =>
    obtain ⟨hr₁, hm₁, hkept₁⟩ := ih₁ hout hr hm
    obtain ⟨hr₂, hm₂, hkept₂⟩ := ih₂ hout hr₁ hm₁
    exact ⟨hr₂, hm₂, fun l hl => (hkept₂ l hl).trans (hkept₁ l hl)⟩
  | outside h =>
    rw [hout _ _ h]
    exact ⟨hr, hm, fun _ _ => rfl⟩
  | draw => exact ⟨hr, hm, fun _ _ => rfl⟩
  | call f _ _ ihb ihr =>
    -- a call begins without names, so all it reaches comes from its arguments
    obtain ⟨hcallee, hm₁, hkept₁⟩ := ihb (fun _ _ h => h.elim) ⟨hr, fun _ _ h => nomatch h⟩ hm
    obtain ⟨-, hm₂, hkept₂⟩ := ihr hout ⟨fun x l _ => hcallee.2 x l, fun _ h => h.elim⟩ hm₁
    exact ⟨hr, hm₂, fun l hl => (hkept₂ l hl).trans (hkept₁ l hl)⟩
  | @refer caller callee lent m x l p hx hl =>
    have hlent : W l := hm.lookup? (fun l => hr.1 x l hx) hl
    refine ⟨⟨hr.1, fun y k hk => ?_⟩, hm.bind hlent callee p, fun k _ => Memory.at?_bind k⟩
    exact (Memory.local?_bind hk).elim (fun h => h ▸ hlent) (hr.2 y k)
  | @copy caller callee lent m p v =>
    obtain ⟨hm₁, hnames, hkept⟩ := hm.declare callee p v
    exact ⟨⟨hr.1, fun y l hl => (hnames y l hl).elim id (hr.2 y l)⟩, hm₁, hkept⟩
  | argument _ ih =>
    obtain ⟨-, hm₁, hkept⟩ := ih (fun _ _ h => h.elim) hr.1 hm
    exact ⟨hr, hm₁, hkept⟩
  | inner hown hle _ ih =>
    obtain ⟨-, hm₁, hkept⟩ := ih (fun _ _ h => hout _ _ (hle _ _ h))
      (fun x l hx => hr.1 x l (hown x hx)) hm
    exact ⟨hr, hm₁, hkept⟩
  | @write own held out scope m l f hl =>
    have hwritten : W l := by
      rcases hl with ⟨x, hx, hl⟩ | hheld
      · exact hm.lookup? (fun l => hr.1 x l hx) hl
      · exact hr.2 l hheld
    exact ⟨hr, hm.update l f, fun k hk => Memory.at?_update f fun h => hk (h ▸ hwritten)⟩
  | @declare own held out scope m x v =>
    obtain ⟨hm₁, hnames, hkept⟩ := hm.declare scope x v
    exact ⟨⟨fun y l hy hl => (hnames y l hl).elim id (hr.1 y l hy), hr.2⟩, hm₁, hkept⟩
  | @hold own held out scope scope' m m' x l hx hl _ ih =>
    have hheld : W l := hm.lookup? (fun l => hr.1 x l hx) hl
    obtain ⟨hr₁, hm₁, hkept⟩ := ih hout ⟨hr.1, fun k hk => hk.elim (hr.2 k) fun h => h ▸ hheld⟩ hm
    exact ⟨⟨hr₁.1, hr.2⟩, hm₁, hkept⟩
  | counted => exact ⟨hr, hm, fun _ _ => rfl⟩
  | reached => exact ⟨hr, hm, fun _ _ => rfl⟩
  | note => exact ⟨hr, hm, fun _ _ => rfl⟩

/-- A variable that a global name is bound to, or a name in `names` in the scope itself. -/
def Memory.Exposes (mem : Memory) (scope : Scope) (names : String → Prop) (l : Location) : Prop :=
  (∃ x, mem.globals.find? x = some l) ∨ ∃ x, names x ∧ scope.local? x = some l

/-- Every variable of `m` that is not exposed is the same in `m'`. -/
def KeepsAllBut (exposed : Location → Prop) (m m' : Machine) : Prop :=
  ∀ l v, m.memory.at? l = some v → ¬exposed l → m'.memory.at? l = some v

section Kept

variable {scope scope' : Scope} {m m' : Machine} {names : String → Prop}
  {out : Machine → Machine → Prop}

theorem KeepsAllBut.everything (h : KeepsAllBut (m.memory.Exposes scope names) m m') :
    KeepsAllBut (m.memory.Exposes scope Everything) m m' := fun l v hv hl =>
  h l v hv fun hexposed => hl (hexposed.imp_right fun ⟨x, _, hx⟩ => ⟨x, trivial, hx⟩)

/-- A role within the exposed variables and the free places keeps all other variables. -/
theorem Acts.keeps {r : Role} (h : Acts r scope m scope' m')
    (hout : ∀ m m', r.out m m' → m'.memory = m.memory)
    (hr : r.Within (fun l => m.memory.Exposes scope names l ∨ m.memory.at? l = none) scope) :
    KeepsAllBut (m.memory.Exposes scope names) m m' := by
  intro l v hv hl
  obtain ⟨-, -, hkept⟩ :=
    h.frame hout hr ⟨fun hx => Or.inl (Or.inl ⟨_, hx⟩), fun hfree => Or.inr hfree⟩
  have hout : ¬(m.memory.Exposes scope names l ∨ m.memory.at? l = none) := by
    rw [hv]
    exact fun h => h.elim hl nofun
  rw [hkept l hout, hv]

theorem Acts.keeps_calling (h : Acts (.calling names out) scope m scope' m')
    (hout : ∀ m m', out m m' → m'.memory = m.memory) :
    KeepsAllBut (m.memory.Exposes scope names) m m' :=
  h.keeps hout fun x _ hx hl => Or.inl (Or.inr ⟨x, hx, hl⟩)

theorem Acts.keeps_running (h : Acts (.running names Unheld out) scope m scope' m')
    (hout : ∀ m m', out m m' → m'.memory = m.memory) :
    KeepsAllBut (m.memory.Exposes scope names) m m' :=
  h.keeps hout ⟨fun x _ hx hl => Or.inl (Or.inr ⟨x, hx, hl⟩), fun _ h => h.elim⟩

end Kept

/-! ## Variables out of sight -/

/-- **Variables out of sight are kept.** Take a bound, a scope and a machine, and let an expression
be evaluated or a statement be executed, in a function body or as part of a run with a discreet
host. No matter whether it ends or stops, every variable is kept that neither a global name nor a
name of the scope itself is bound to. The global names stay bound as they are, except by statements
in the global scope. And what an expression or a CALL does not lend is kept as well, though a name
of the scope is bound to it, unless a global name is. -/
theorem scoping_frame_law (n : Nat) (scope : Scope) (m : Machine) :
    (∀ e : Expr,
      KeepsAllBut (m.memory.Exposes scope Everything) m ((evaluate n scope e).leaves m) ∧
      ((evaluate n scope e).leaves m).memory.globals = m.memory.globals ∧
      KeepsAllBut (m.memory.Exposes scope (e.Lends m.functions)) m
        ((evaluate n scope e).leaves m)) ∧
    (∀ t : Stmt,
      KeepsAllBut (m.memory.Exposes scope Everything) m ((runStatement n scope t).leaves m) ∧
      (scope.IsLocal → ((runStatement n scope t).leaves m).memory.globals = m.memory.globals)) ∧
    ∀ {σ : Type} (host : Host σ) (s : σ) (t : Stmt), host.Discreet →
      KeepsAllBut (m.memory.Exposes scope Everything) m ((execute n scope t).leaves host s m) ∧
      (scope.IsLocal → ((execute n scope t).leaves host s m).memory.globals = m.memory.globals) ∧
      ∀ name arguments, t.form = .call name arguments →
        KeepsAllBut (m.memory.Exposes scope (m.CallLends name arguments)) m
          ((execute n scope t).leaves host s m) := by
  have hnothing : ∀ m m', Nothing m m' → m'.memory = m.memory := fun _ _ h => h.elim
  have houtside : ∀ m m', Outside unguarded.good m m' → m'.memory = m.memory :=
    fun _ _ h => h.memory_eq
  have hglobals : ∀ {mem mem' : Memory}, mem' = mem → mem'.globals = mem.globals :=
    fun h => congrArg Memory.globals h
  refine ⟨fun e => ?_, fun t => ?_, fun {σ} host s t hhost => ?_⟩
  · obtain ⟨scope', acts⟩ := (evaluate_computes n scope e m).acts
    have hkept := acts.keeps_calling hnothing
    exact ⟨hkept.everything, (acts.globals_eq (fun _ _ h => h.elim) trivial).1, hkept⟩
  · obtain ⟨scope', acts⟩ := (runStatement_unguarded n t Unheld scope m trivial).acts
    exact ⟨acts.keeps_running hnothing, fun hlocal =>
      (acts.globals_eq (fun _ _ h => h.elim) hlocal).1⟩
  · obtain ⟨scope', acts⟩ := (execute_unguarded hhost n t Unheld scope m s trivial).acts
    refine ⟨acts.keeps_running houtside, fun hlocal =>
      (acts.globals_eq (fun _ _ h => hglobals h.memory_eq) hlocal).1, fun name arguments ht => ?_⟩
    obtain ⟨_, acts⟩ := (executeCall_settles hhost n ht scope m s).acts
    exact acts.keeps_running houtside

/-- Two variables that hold 1, and `PROCEDURE Reset(BYREF a : INTEGER)` with the body `a ← 0`. -/
def resetter : Machine where
  memory := { store := #[.scalar .integer (some (.int 1)), .scalar .integer (some (.int 1))] }
  procedures := ⟨[("Reset", ⟨"Reset", [⟨"a", "INTEGER", .byRef, none⟩],
    [.mk 2 (.assign (.var 2 "a") (.literal 2 (.int 0)))]⟩)]⟩

/-- Of two local variables `x` and `y`, `CALL Reset(x)` changes `x` and keeps `y`. -/
theorem reset_keeps_what_is_not_lent :
    let scope : Scope := .local ⟨[("x", ⟨0⟩), ("y", ⟨1⟩)]⟩
    let after :=
      (execute 3 scope (.mk 9 (.call "Reset" [.var 9 "x"]))).leaves Supply.host {} resetter
    after.memory.at? ⟨0⟩ = some (.scalar .integer (some (.int 0))) ∧
      after.memory.at? ⟨1⟩ = some (.scalar .integer (some (.int 1))) := by
  refine ⟨rfl, ?_⟩
  refine ((scoping_frame_law 3 _ resetter).2.2 Supply.host {} _ Supply.discreet).2.2 "Reset"
    [.var 9 "x"] rfl ⟨1⟩ _ rfl ?_
  rintro (⟨x, hx⟩ | ⟨x, ⟨p, hp, q, line, hq, -⟩ | ⟨e, he, hlent⟩, hx⟩)
  · cases hx
  · cases hp
    obtain ⟨-, hvar⟩ := Prod.mk.inj (List.mem_singleton.mp hq)
    cases hvar
    cases hx
  · obtain rfl := List.mem_singleton.mp he
    cases hlent with
    | inside hpart => cases hpart

end Pseudocode

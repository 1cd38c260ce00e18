import Mathlib.Data.List.DropRight
import Pseudocode.Proofs.Steps

/-!
# Sequences of operations on files

A session is a list of operations on one table of files, each of which succeeds or fails. Its log
pairs every operation with its outcome. What an operation does to the entry of one name is said
once, by `FileStep`: an operation that fails or is about another name does nothing to it, and for
the others the old entry decides. What holds of an entry throughout a session is then proved by
induction on the log (`FileTable.session_induction`).

The lines written to a file stay in its entry, over any number of closings and openings, until the
file is opened for WRITE again or a reading of it ends: closing a file that is open for READ removes
its entry, no matter where its lines came from.

Results:
* `FileTable.fileStep_perform`: what an operation does to an entry.
* `entryAccounts_session`: what an entry holds at every moment of a session.
* `written_lines_stay_until_a_reading_ends`: **the lines of a file are those written to it**, as
  long as no reading has ended; after one has, nothing is left of them.
-/

namespace Pseudocode

/-- An operation on the files of a program. -/
inductive FileOp where
  | opens (name mode : String)
  | closes (name : String)
  | reads (name : String)
  | writes (name line : String)
  | tests (name : String)
  deriving DecidableEq, Repr

/-- The file that an operation is about. -/
def FileOp.name : FileOp → String
  | opens name _ | closes name | reads name | writes name _ | tests name => name

/-- What an operation gives: the new entry of a file that was opened, the last one of a file that
was closed, a line, or whether the end has been reached. -/
inductive FileReply where
  | opened (h : FileHandle)
  | closed (h : FileHandle)
  | line (text : String)
  | written
  | atEnd (b : Bool)
  deriving DecidableEq, Repr

/-- An operation and its outcome. -/
structure FileEvent where
  op : FileOp
  outcome : Except FileFault FileReply

namespace FileEvent

/-- What an event opens a file for, if it does open it. -/
def opensFor? (e : FileEvent) (name : String) : Option FileMode :=
  match e.op, e.outcome with
  | .opens n _, .ok (.opened h) => if n = name then some h.mode else none
  | _, _ => none

/-- Whether an event ends a reading of a file. -/
def endsReading (e : FileEvent) (name : String) : Bool :=
  match e.op, e.outcome with
  | .closes n, .ok (.closed h) => n = name && h.mode = .read
  | _, _ => false

/-- The line that an event writes to a file, if it writes one. -/
def writes? (e : FileEvent) (name : String) : Option String :=
  match e.op, e.outcome with
  | .writes n line, .ok _ => if n = name then some line else none
  | _, _ => none

section Elsewhere

variable {op : FileOp} {name : String} (hop : op.name ≠ name) (outcome : Except FileFault FileReply)
include hop

theorem opensFor?_elsewhere : opensFor? ⟨op, outcome⟩ name = none := by
  unfold opensFor?
  split
  · rename_i hop' _
    cases hop'
    exact if_neg hop
  · rfl

theorem endsReading_elsewhere : endsReading ⟨op, outcome⟩ name = false := by
  unfold endsReading
  split
  · rename_i hop' _
    cases hop'
    exact (congrArg (· && _) (decide_eq_false hop)).trans (Bool.false_and _)
  · rfl

theorem writes?_elsewhere : writes? ⟨op, outcome⟩ name = none := by
  unfold writes?
  split
  · rename_i hop' _
    cases hop'
    exact if_neg hop
  · rfl

end Elsewhere

end FileEvent

namespace FileTable

variable (uploads : String → Upload)

/-- The text that opening a file is given. The host is asked for it only where it is wanted. -/
def uploadFor (t : FileTable) (name mode : String) : Upload :=
  if t.wantsUpload name mode then uploads name else .missing

/-- Performs an operation. -/
def perform (t : FileTable) : FileOp → Except FileFault (FileReply × FileTable)
  | .opens name mode => (t.openAs name mode (t.uploadFor uploads name mode)).map fun (h, t) =>
    (.opened h, t)
  | .closes name => (t.close name).map fun (h, t) => (.closed h, t)
  | .reads name => (t.next name).map fun (text, t) => (.line text, t)
  | .writes name line => (t.write name line).map fun t => (.written, t)
  | .tests name => (t.atEnd name).map fun b => (.atEnd b, t)

/-- An operation with its outcome, and the table after it. -/
def event (t : FileTable) (op : FileOp) : FileEvent × FileTable :=
  match t.perform uploads op with
  | .ok (reply, t) => (⟨op, .ok reply⟩, t)
  | .error fault => (⟨op, .error fault⟩, t)

/-- The log of a list of operations, and the table after them. -/
def session (t : FileTable) : List FileOp → List FileEvent × FileTable
  | [] => ([], t)
  | op :: rest =>
    let (e, t) := t.event uploads op
    let (log, t) := t.session rest
    (e :: log, t)

end FileTable

/-! ## One operation -/

/-- What an event does to the entry of a name. -/
inductive FileStep (uploads : String → Upload) (name : String) :
    FileEvent → Option FileHandle → Option FileHandle → Prop
  | failed (op : FileOp) (fault : FileFault) (old : Option FileHandle) :
      FileStep uploads name ⟨op, .error fault⟩ old old
  | elsewhere {op : FileOp} (hop : op.name ≠ name) (reply : FileReply) (old : Option FileHandle) :
      FileStep uploads name ⟨op, .ok reply⟩ old old
  /-- Only a file that is not open can be opened. -/
  | opened {old : Option FileHandle} {h : FileHandle} (mode : FileMode)
      (hname : name.isEmpty = false) (hold : ∀ g ∈ old, g.isOpen = false)
      (hnew : FileTable.opening name old (uploads name) mode = .ok h) :
      FileStep uploads name ⟨.opens name mode.name, .ok (.opened h)⟩ old (some h)
  | endedReading {h : FileHandle} (hmode : h.mode = .read) :
      FileStep uploads name ⟨.closes name, .ok (.closed h)⟩ (some h) none
  | endedWriting {h : FileHandle} (hmode : h.mode ≠ .read) :
      FileStep uploads name ⟨.closes name, .ok (.closed h)⟩ (some h)
        (some { h with isOpen := false })
  | read {h : FileHandle} (hopen : h.isOpen = true) (hmode : h.mode = .read) (text : String) :
      FileStep uploads name ⟨.reads name, .ok (.line text)⟩ (some h)
        (some { h with position := h.position + 1 })
  | wrote {h : FileHandle} (hopen : h.isOpen = true) (hmode : h.mode ≠ .read) (line : String) :
      FileStep uploads name ⟨.writes name line, .ok .written⟩ (some h)
        (some { h with lines := h.lines.push line, position := (h.lines.push line).size })
  | tested (b : Bool) (old : Option FileHandle) :
      FileStep uploads name ⟨.tests name, .ok (.atEnd b)⟩ old old

namespace FileTable

variable {uploads : String → Upload} {t t' : FileTable} {name : String}

theorem find?_put (t : FileTable) (name other : String) (h : FileHandle) :
    (t.put name h).find? other = if name = other then some h else t.find? other :=
  t.files.find?_insert name other h

theorem find?_erase (t : FileTable) (name other : String) :
    FileTable.find? ⟨t.files.erase name⟩ other = if name = other then none else t.find? other :=
  t.files.find?_erase name other

theorem checkName_eq_ok {u : Unit} (h : checkName name = .ok u) : name.isEmpty = false := by
  unfold checkName at h
  split at h
  · cases h
  · rename_i hname
    exact Bool.eq_false_iff.mpr hname

theorem requireOpen_eq_ok {h : FileHandle} (hopen : t.requireOpen name = .ok h) :
    t.find? name = some h ∧ h.isOpen = true := by
  unfold requireOpen at hopen
  split at hopen
  · split at hopen
    · cases hopen
      exact ⟨‹_›, ‹_›⟩
    · cases hopen
  · cases hopen

/-- The text that is not asked for makes no difference to the entry. -/
theorem opening_uploadFor (hname : name.isEmpty = false) (mode : FileMode) :
    opening name (t.find? name) (t.uploadFor uploads name mode.name) mode =
      opening name (t.find? name) (uploads name) mode := by
  cases mode with
  | write => rfl
  | append => rfl
  | read =>
    cases hold : t.find? name with
    | some h => rfl
    | none =>
      have hwants : t.wantsUpload name FileMode.read.name = true := by
        simp [wantsUpload, hname, hold]
      rw [uploadFor, if_pos hwants]

theorem opening_eq_ok {old : Option FileHandle} {upload : Upload} {mode : FileMode} {h : FileHandle}
    (hnew : opening name old upload mode = .ok h) : h.mode = mode ∧ h.isOpen = true := by
  cases mode with
  | read =>
    obtain ⟨lines, -, hnew⟩ := except_bind_eq_ok.mp hnew
    cases hnew
    exact ⟨rfl, rfl⟩
  | write =>
    cases hnew
    exact ⟨rfl, rfl⟩
  | append =>
    cases hnew
    exact ⟨rfl, rfl⟩

theorem ofName?_eq_some {mode : FileMode} {m : String} (h : FileMode.ofName? m = some mode) :
    m = mode.name := by
  have hfound := List.find?_some h
  exact (eq_of_beq hfound).symm

/-- A file that can be opened has a name and is not open. -/
theorem openAs_eq_ok {mode : String} {upload : Upload} {h : FileHandle}
    (hopen : t.openAs name mode upload = .ok (h, t')) :
    ∃ m : FileMode, mode = m.name ∧ name.isEmpty = false ∧ (∀ g ∈ t.find? name, g.isOpen = false) ∧
      opening name (t.find? name) upload m = .ok h ∧ t' = t.put name h := by
  obtain ⟨u, hname, hopen⟩ := except_bind_eq_ok.mp hopen
  dsimp only at hopen
  split at hopen
  · cases hopen
  · rename_i hclosed
    split at hopen
    · rename_i m hm
      obtain ⟨g, hnew, hopen⟩ := except_bind_eq_ok.mp hopen
      cases hopen
      refine ⟨m, ofName?_eq_some hm, checkName_eq_ok hname, fun g hg => ?_, hnew, rfl⟩
      rw [Option.mem_def.mp hg] at hclosed
      exact Bool.eq_false_iff.mpr hclosed
    · cases hopen

theorem close_eq_ok {h : FileHandle} (hclose : t.close name = .ok (h, t')) :
    t.find? name = some h ∧
      (h.mode = .read ∧ t' = ⟨t.files.erase name⟩ ∨
        h.mode ≠ .read ∧ t' = t.put name { h with isOpen := false }) := by
  obtain ⟨-, -, hclose⟩ := except_bind_eq_ok.mp hclose
  obtain ⟨g, hopen, hclose⟩ := except_bind_eq_ok.mp hclose
  have hfound := (requireOpen_eq_ok hopen).1
  split at hclose
  · cases hclose
    exact ⟨hfound, Or.inl ⟨‹_›, rfl⟩⟩
  · cases hclose
    exact ⟨hfound, Or.inr ⟨‹_›, rfl⟩⟩

theorem next_eq_ok {text : String} (hnext : t.next name = .ok (text, t')) :
    ∃ h, t.find? name = some h ∧ h.isOpen = true ∧ h.mode = .read ∧
      t' = t.put name { h with position := h.position + 1 } := by
  obtain ⟨-, -, hnext⟩ := except_bind_eq_ok.mp hnext
  obtain ⟨h, hopen, hnext⟩ := except_bind_eq_ok.mp hnext
  obtain ⟨hfound, hopen⟩ := requireOpen_eq_ok hopen
  split at hnext
  · rename_i hmode
    split at hnext
    · cases hnext
      exact ⟨h, hfound, hopen, hmode, rfl⟩
    · cases hnext
  · cases hnext

theorem write_eq_ok {line : String} (hwrite : t.write name line = .ok t') :
    ∃ h, t.find? name = some h ∧ h.isOpen = true ∧ h.mode ≠ .read ∧
      t' =
        t.put name { h with lines := h.lines.push line, position := (h.lines.push line).size } := by
  obtain ⟨-, -, hwrite⟩ := except_bind_eq_ok.mp hwrite
  obtain ⟨h, hopen, hwrite⟩ := except_bind_eq_ok.mp hwrite
  obtain ⟨hfound, hopen⟩ := requireOpen_eq_ok hopen
  split at hwrite
  · cases hwrite
  · rename_i hmode
    cases hwrite
    exact ⟨h, hfound, hopen, hmode, rfl⟩

theorem find?_put_self (t : FileTable) (name : String) (h : FileHandle) :
    (t.put name h).find? name = some h := by
  rw [find?_put, if_pos rfl]

/-- An operation leaves the entries of other names alone. -/
theorem find?_perform_of_ne {op : FileOp} {reply : FileReply} (hop : op.name ≠ name)
    (h : t.perform uploads op = .ok (reply, t')) : t'.find? name = t.find? name := by
  cases op with
  | opens n mode =>
    obtain ⟨⟨g, t₁⟩, hopen, heq⟩ := except_bind_eq_ok.mp h
    obtain ⟨m, -, -, -, -, rfl⟩ := openAs_eq_ok hopen
    cases heq
    exact (find?_put t n name g).trans (if_neg hop)
  | closes n =>
    obtain ⟨⟨g, t₁⟩, hclose, heq⟩ := except_bind_eq_ok.mp h
    cases heq
    obtain ⟨-, ⟨-, rfl⟩ | ⟨-, rfl⟩⟩ := close_eq_ok hclose
    · exact (find?_erase t n name).trans (if_neg hop)
    · exact (find?_put t n name _).trans (if_neg hop)
  | reads n =>
    obtain ⟨⟨text, t₁⟩, hnext, heq⟩ := except_bind_eq_ok.mp h
    cases heq
    obtain ⟨g, -, -, -, rfl⟩ := next_eq_ok hnext
    exact (find?_put t n name _).trans (if_neg hop)
  | writes n line =>
    obtain ⟨t₁, hwrite, heq⟩ := except_bind_eq_ok.mp h
    cases heq
    obtain ⟨g, -, -, -, rfl⟩ := write_eq_ok hwrite
    exact (find?_put t n name _).trans (if_neg hop)
  | tests n =>
    obtain ⟨b, -, heq⟩ := except_bind_eq_ok.mp h
    cases heq
    rfl

/-- **What an operation does to an entry.** -/
theorem fileStep_perform {op : FileOp} {reply : FileReply}
    (h : t.perform uploads op = .ok (reply, t')) (name : String) :
    FileStep uploads name ⟨op, .ok reply⟩ (t.find? name) (t'.find? name) := by
  by_cases hop : op.name = name
  · subst hop
    cases op with
    | opens n mode =>
      obtain ⟨⟨g, t₁⟩, hopen, heq⟩ := except_bind_eq_ok.mp h
      cases heq
      obtain ⟨m, rfl, hname, hold, hnew, rfl⟩ := openAs_eq_ok hopen
      rw [opening_uploadFor hname] at hnew
      show FileStep uploads n _ (t.find? n) ((t.put n g).find? n)
      rw [find?_put_self]
      exact .opened m hname hold hnew
    | closes n =>
      obtain ⟨⟨g, t₁⟩, hclose, heq⟩ := except_bind_eq_ok.mp h
      cases heq
      show FileStep uploads n _ (t.find? n) (t'.find? n)
      obtain ⟨hfound, ⟨hmode, rfl⟩ | ⟨hmode, rfl⟩⟩ := close_eq_ok hclose
      · rw [hfound, find?_erase, if_pos rfl]
        exact .endedReading hmode
      · rw [hfound, find?_put_self]
        exact .endedWriting hmode
    | reads n =>
      obtain ⟨⟨text, t₁⟩, hnext, heq⟩ := except_bind_eq_ok.mp h
      cases heq
      obtain ⟨g, hfound, hopen, hmode, rfl⟩ := next_eq_ok hnext
      show FileStep uploads n _ (t.find? n) (FileTable.find? _ n)
      rw [hfound, find?_put_self]
      exact .read hopen hmode text
    | writes n line =>
      obtain ⟨t₁, hwrite, heq⟩ := except_bind_eq_ok.mp h
      cases heq
      obtain ⟨g, hfound, hopen, hmode, rfl⟩ := write_eq_ok hwrite
      show FileStep uploads n _ (t.find? n) (FileTable.find? _ n)
      rw [hfound, find?_put_self]
      exact .wrote hopen hmode line
    | tests n =>
      obtain ⟨b, -, heq⟩ := except_bind_eq_ok.mp h
      cases heq
      exact .tested b _
  · rw [find?_perform_of_ne hop h]
    exact .elsewhere hop reply _

theorem fileStep_event (uploads : String → Upload) (t : FileTable) (op : FileOp) (name : String) :
    FileStep uploads name (t.event uploads op).1 (t.find? name)
      ((t.event uploads op).2.find? name) := by
  unfold event
  split
  · exact fileStep_perform ‹_› name
  · exact .failed op _ _

/-- **Induction on sessions**: what one event keeps holds of an entry after every session. -/
theorem session_induction {P : List FileEvent → Option FileHandle → Prop} (start : P [] none)
    (step : ∀ log e old new, P log old → FileStep uploads name e old new → P (log ++ [e]) new)
    (ops : List FileOp) :
    P (empty.session uploads ops).1 ((empty.session uploads ops).2.find? name) := by
  have hrun : ∀ (t : FileTable) log, P log (t.find? name) →
      P (log ++ (t.session uploads ops).1) ((t.session uploads ops).2.find? name) := by
    induction ops with
    | nil =>
      intro t log h
      rw [session, List.append_nil]
      exact h
    | cons op rest ih =>
      intro t log h
      have hstep := step log _ _ _ h (fileStep_event uploads t op name)
      have hrest := ih _ _ hstep
      rw [List.append_assoc] at hrest
      exact hrest
  exact hrun empty [] start

end FileTable

/-! ## The lines of a file -/

/-- `later` is what has happened since a file was last opened for WRITE or, if it never was, since
it was first opened for APPEND. -/
inductive AccumulatesSince (name : String) : List FileEvent → List FileEvent → Prop
  | written {before later : List FileEvent} {start : FileEvent}
      (hstart : start.opensFor? name = some .write)
      (hlater : ∀ e ∈ later, e.opensFor? name ≠ some .write) :
      AccumulatesSince name (before ++ start :: later) later
  | appended {before later : List FileEvent} {start : FileEvent}
      (hbefore : ∀ e ∈ before, e.opensFor? name ≠ some .write ∧ e.opensFor? name ≠ some .append)
      (hstart : start.opensFor? name = some .append)
      (hlater : ∀ e ∈ later, e.opensFor? name ≠ some .write) :
      AccumulatesSince name (before ++ start :: later) later

/-- What has happened since a reading of a file last ended. -/
def sinceReading (name : String) (log : List FileEvent) : List FileEvent :=
  log.rtakeWhile fun e => !e.endsReading name

/-- The entry of a file holds some lines. It is not kept after a reading. -/
def HoldsLines (name : String) (entry : Option FileHandle) (lines : List String) : Prop :=
  name.isEmpty = false ∧ ∃ h, entry = some h ∧ h.lines.toList = lines ∧
    (h.mode = .read → h.isOpen = true)

/-- Nothing has been written to a file: it has no entry, or one that is open for READ. -/
def OnlyRead (entry : Option FileHandle) : Prop :=
  ∀ h ∈ entry, h.mode = .read ∧ h.isOpen = true

section Entries

variable {uploads : String → Upload} {name : String} {log later : List FileEvent} {e : FileEvent}
  {old new : Option FileHandle} {lines : List String}

/-- The last event starts the accumulation or belongs to it. -/
theorem accumulatesSince_concat (h : AccumulatesSince name (log ++ [e]) later) :
    (later = [] ∧ (e.opensFor? name = some .write ∨ e.opensFor? name = some .append ∧
        ∀ x ∈ log, x.opensFor? name ≠ some .write ∧ x.opensFor? name ≠ some .append)) ∨
      ∃ rest, later = rest ++ [e] ∧ e.opensFor? name ≠ some .write ∧
        AccumulatesSince name log rest := by
  generalize hlog : log ++ [e] = whole at h
  obtain rfl | ⟨rest, last, rfl⟩ := List.eq_nil_or_concat' later
  · refine Or.inl ⟨rfl, ?_⟩
    cases h with
    | written hstart _ =>
      obtain ⟨-, hlast⟩ := List.append_inj' hlog rfl
      cases hlast
      exact Or.inl hstart
    | appended hbefore hstart _ =>
      obtain ⟨rfl, hlast⟩ := List.append_inj' hlog rfl
      cases hlast
      exact Or.inr ⟨hstart, hbefore⟩
  · refine Or.inr ⟨rest, ?_⟩
    cases h with
    | @written before _ start hstart hlater =>
      rw [← List.cons_append, ← List.append_assoc] at hlog
      obtain ⟨rfl, hlast⟩ := List.append_inj' hlog rfl
      cases hlast
      exact ⟨rfl, hlater _ (by simp), .written hstart fun x hx => hlater x (by simp [hx])⟩
    | @appended before _ start hbefore hstart hlater =>
      rw [← List.cons_append, ← List.append_assoc] at hlog
      obtain ⟨rfl, hlast⟩ := List.append_inj' hlog rfl
      cases hlast
      exact ⟨rfl, hlater _ (by simp), .appended hbefore hstart fun x hx => hlater x (by simp [hx])⟩

theorem onlyRead_none : OnlyRead none := by
  intro h hmem
  cases hmem

namespace FileStep

theorem eq_none_of_endsReading (h : FileStep uploads name e old new)
    (hends : e.endsReading name = true) : new = none := by
  cases h with
  | endedReading _ => rfl
  | endedWriting hmode => simp [FileEvent.endsReading, hmode] at hends
  | elsewhere hop => simp [FileEvent.endsReading_elsewhere hop] at hends
  | _ => simp [FileEvent.endsReading] at hends

/-- An event that opens a file does so on an entry that is not open. -/
theorem opened_of_opensFor? {mode : FileMode} (h : FileStep uploads name e old new)
    (hopens : e.opensFor? name = some mode) :
    name.isEmpty = false ∧ (∀ g ∈ old, g.isOpen = false) ∧
      ∃ g, new = some g ∧ FileTable.opening name old (uploads name) mode = .ok g := by
  cases h with
  | @opened _ g m hname hold hnew =>
    have hmode : g.mode = mode := by simpa [FileEvent.opensFor?] using hopens
    have hm : g.mode = m := (FileTable.opening_eq_ok hnew).1
    rw [← hmode, hm]
    exact ⟨hname, hold, g, rfl, hnew⟩
  | elsewhere hop => simp [FileEvent.opensFor?_elsewhere hop] at hopens
  | _ => simp [FileEvent.opensFor?] at hopens

/-- A file that is opened for WRITE starts without lines. -/
theorem holdsLines_of_write (h : FileStep uploads name e old new)
    (hopens : e.opensFor? name = some .write) : HoldsLines name new [] := by
  obtain ⟨hname, -, g, rfl, hnew⟩ := h.opened_of_opensFor? hopens
  cases hnew
  exact ⟨hname, _, rfl, rfl, fun hmode => by cases hmode⟩

/-- So does one that is opened for APPEND when nothing was written to it. -/
theorem holdsLines_of_append (h : FileStep uploads name e old new)
    (hopens : e.opensFor? name = some .append) (honly : OnlyRead old) : HoldsLines name new [] := by
  obtain ⟨hname, hold, g, rfl, hnew⟩ := h.opened_of_opensFor? hopens
  cases old with
  | none =>
    cases hnew
    exact ⟨hname, _, rfl, rfl, fun hmode => by cases hmode⟩
  | some g' =>
    have hclosed := hold g' rfl
    rw [(honly g' rfl).2] at hclosed
    cases hclosed

/-- **What an entry holds stays**, with the line that is written, unless the file is opened for
WRITE or a reading ends. -/
theorem holdsLines_step (h : FileStep uploads name e old new) (hholds : HoldsLines name old lines)
    (hwrite : e.opensFor? name ≠ some .write) (hends : e.endsReading name = false) :
    HoldsLines name new (lines ++ (e.writes? name).toList) := by
  obtain ⟨hname, g, rfl, rfl, hread⟩ := hholds
  cases h with
  | failed op fault =>
    cases op <;> exact ⟨hname, g, rfl, by simp [FileEvent.writes?], hread⟩
  | elsewhere hop => exact ⟨hname, g, rfl, by simp [FileEvent.writes?_elsewhere hop], hread⟩
  | @opened _ g' mode _ hold hnew =>
    refine ⟨hname, g', rfl, ?_, fun _ => ?_⟩
    · cases mode with
      | write =>
        cases hnew
        simp [FileEvent.opensFor?] at hwrite
      | read =>
        cases hnew
        simp [FileEvent.writes?]
      | append =>
        cases hnew
        simp [FileEvent.writes?]
    · exact (FileTable.opening_eq_ok hnew).2
  | endedReading hmode => simp [FileEvent.endsReading, hmode] at hends
  | endedWriting hmode =>
    exact ⟨hname, _, rfl, by simp [FileEvent.writes?], fun h => absurd h hmode⟩
  | read => exact ⟨hname, _, rfl, by simp [FileEvent.writes?], hread⟩
  | wrote hopen hmode line => exact ⟨hname, _, rfl, by simp [FileEvent.writes?], hread⟩
  | tested => exact ⟨hname, g, rfl, by simp [FileEvent.writes?], hread⟩

/-- A file that is neither opened for WRITE nor for APPEND is only read. -/
theorem onlyRead_step (h : FileStep uploads name e old new) (honly : OnlyRead old)
    (hwrite : e.opensFor? name ≠ some .write) (happend : e.opensFor? name ≠ some .append) :
    OnlyRead new := by
  cases h with
  | failed => exact honly
  | elsewhere => exact honly
  | tested => exact honly
  | @opened _ g mode _ hold hnew =>
    obtain ⟨hmode, hopen⟩ := FileTable.opening_eq_ok hnew
    rintro _ ⟨⟩
    refine ⟨?_, hopen⟩
    cases mode with
    | read => exact hmode
    | write => simp [FileEvent.opensFor?, hmode] at hwrite
    | append => simp [FileEvent.opensFor?, hmode] at happend
  | endedReading => exact onlyRead_none
  | endedWriting hmode => exact absurd (honly _ rfl).1 hmode
  | @read g =>
    rintro _ ⟨⟩
    exact honly g rfl
  | wrote _ hmode => exact absurd (honly _ rfl).1 hmode

end FileStep

end Entries

section Sessions

variable {name : String} {log : List FileEvent} {e : FileEvent}

theorem sinceReading_concat_of_endsReading (hends : e.endsReading name = true) :
    sinceReading name (log ++ [e]) = [] :=
  List.rtakeWhile_concat_neg _ _ _ (by simp [hends])

theorem sinceReading_concat (hends : e.endsReading name = false) :
    sinceReading name (log ++ [e]) = sinceReading name log ++ [e] :=
  List.rtakeWhile_concat_pos _ _ _ (by simp [hends])

theorem not_accumulatesSince_nil {later : List FileEvent} : ¬ AccumulatesSince name [] later := by
  intro h
  generalize hnil : [] = whole at h
  cases h with
  | written => exact List.append_ne_nil_of_right_ne_nil _ (List.cons_ne_nil _ _) hnil.symm
  | appended => exact List.append_ne_nil_of_right_ne_nil _ (List.cons_ne_nil _ _) hnil.symm

/-- What the entry of a file is, given what has happened since a reading of it last ended: either
the file was not opened for writing and is at most being read, or the entry holds the lines that
have been accumulated. -/
structure EntryAccounts (name : String) (recent : List FileEvent) (entry : Option FileHandle) :
    Prop where
  holds : ∀ later, AccumulatesSince name recent later →
    HoldsLines name entry (later.filterMap (·.writes? name))
  onlyRead : (∀ e ∈ recent, e.opensFor? name ≠ some .write ∧ e.opensFor? name ≠ some .append) →
    OnlyRead entry

theorem entryAccounts_nil (name : String) : EntryAccounts name [] none where
  holds _ h := absurd h not_accumulatesSince_nil
  onlyRead _ := onlyRead_none

theorem EntryAccounts.step {uploads : String → Upload} {recent : List FileEvent}
    {old new : Option FileHandle} (h : EntryAccounts name recent old)
    (hstep : FileStep uploads name e old new) (hends : e.endsReading name = false) :
    EntryAccounts name (recent ++ [e]) new where
  holds later hlater := by
    obtain ⟨rfl, hwrite | ⟨happend, hnone⟩⟩ | ⟨rest, rfl, hwrite, hrest⟩ :=
      accumulatesSince_concat hlater
    · exact hstep.holdsLines_of_write hwrite
    · exact hstep.holdsLines_of_append happend (h.onlyRead hnone)
    · have hnew := hstep.holdsLines_step (h.holds rest hrest) hwrite hends
      cases hw : e.writes? name <;> simpa [hw] using hnew
  onlyRead hnone := by
    have hlast := hnone e (by simp)
    exact hstep.onlyRead_step (h.onlyRead fun x hx => hnone x (by simp [hx])) hlast.1 hlast.2

/-- **What an entry holds at every moment of a session.** -/
theorem entryAccounts_session (uploads : String → Upload) (ops : List FileOp) (name : String) :
    EntryAccounts name (sinceReading name (FileTable.empty.session uploads ops).1)
      ((FileTable.empty.session uploads ops).2.find? name) := by
  refine FileTable.session_induction (P := fun log entry =>
    EntryAccounts name (sinceReading name log) entry) (entryAccounts_nil name) ?_ ops
  intro log e old new h hstep
  by_cases hends : e.endsReading name = true
  · rw [hstep.eq_none_of_endsReading hends, sinceReading_concat_of_endsReading hends]
    exact entryAccounts_nil name
  · have hends := Bool.eq_false_iff.mpr hends
    rw [sinceReading_concat hends]
    exact h.step hstep hends

end Sessions

/-! ## Opening a file again -/

namespace FileTable

variable {uploads : String → Upload} {t : FileTable} {name : String}

theorem ofName?_name (mode : FileMode) : FileMode.ofName? mode.name = some mode := by
  cases mode <;> decide

theorem not_open_of_closed (hclosed : ∀ g ∈ t.find? name, g.isOpen = false) :
    ((t.find? name).map FileHandle.isOpen).getD false = false := by
  cases hfound : t.find? name with
  | none => rfl
  | some g => exact hclosed g hfound

theorem perform_opens_of_open {g : FileHandle} (hname : name.isEmpty = false)
    (hfound : t.find? name = some g) (hopen : g.isOpen = true) (mode : String) :
    t.perform uploads (.opens name mode) = .error (.alreadyOpen name) := by
  simp [perform, openAs, checkName, hname, hfound, hopen, bind, Except.bind, Except.map]

theorem perform_opens_of_closed {h : FileHandle} {mode : FileMode} (hname : name.isEmpty = false)
    (hclosed : ∀ g ∈ t.find? name, g.isOpen = false)
    (hnew : opening name (t.find? name) (uploads name) mode = .ok h) :
    t.perform uploads (.opens name mode.name) = .ok (.opened h, t.put name h) := by
  have hopen := not_open_of_closed hclosed
  have hnew' := (@opening_uploadFor uploads t name hname mode).trans hnew
  simp [perform, openAs, checkName, hname, hopen, ofName?_name, hnew', bind, Except.bind,
    Except.map, pure, Except.pure]

/-- A file with an entry can be opened for READ or APPEND when it is not open, and has the lines of
the entry. -/
theorem perform_opens_of_holdsLines {lines : List String} {mode : FileMode}
    (hholds : HoldsLines name (t.find? name) lines) (hmode : mode ≠ .write)
    (hclosed : ∀ g ∈ t.find? name, g.isOpen = false) :
    ∃ h t', t.perform uploads (.opens name mode.name) = .ok (.opened h, t') ∧
      h.lines.toList = lines := by
  obtain ⟨hname, g, hfound, rfl, -⟩ := hholds
  cases mode with
  | write => exact absurd rfl hmode
  | read =>
    refine ⟨{ mode := .read, lines := g.lines }, _, perform_opens_of_closed hname hclosed ?_, rfl⟩
    rw [hfound]
    rfl
  | append =>
    refine ⟨{ mode := .append, lines := g.lines, position := g.lines.size }, _,
      perform_opens_of_closed hname hclosed ?_, rfl⟩
    rw [hfound]
    rfl

/-- A file that was not written to is opened with the text that the host provides, or without
lines. -/
theorem lines_of_onlyRead {h : FileHandle} {t' : FileTable} {mode : FileMode}
    (honly : OnlyRead (t.find? name))
    (hopens : t.perform uploads (.opens name mode.name) = .ok (.opened h, t')) :
    (mode = .read → ∃ text, uploads name = .provided text ∧ h.lines.toList = Text.lines text) ∧
      (mode ≠ .read → h.lines = #[]) := by
  obtain ⟨⟨g, t₁⟩, hopen, heq⟩ := except_bind_eq_ok.mp hopens
  cases heq
  obtain ⟨m, hm, hname, hclosed, hnew, -⟩ := openAs_eq_ok hopen
  obtain rfl : mode = m := by
    have hmode := ofName?_name m
    rw [← hm, ofName?_name] at hmode
    exact Option.some.inj hmode
  rw [opening_uploadFor hname] at hnew
  cases hold : t.find? name with
  | some g =>
    have hopen := (honly g hold).2
    rw [hclosed g hold] at hopen
    cases hopen
  | none =>
    rw [hold] at hnew
    cases mode with
    | write =>
      cases hnew
      exact ⟨fun h => (by cases h), fun _ => rfl⟩
    | append =>
      cases hnew
      exact ⟨fun h => (by cases h), fun _ => rfl⟩
    | read =>
      refine ⟨fun _ => ?_, fun h => absurd rfl h⟩
      obtain ⟨lines, hlines, hnew⟩ := except_bind_eq_ok.mp hnew
      cases hnew
      cases hup : uploads name with
      | provided text =>
        rw [hup] at hlines
        cases hlines
        exact ⟨text, rfl, rfl⟩
      | missing =>
        rw [hup] at hlines
        cases hlines
      | unavailable =>
        rw [hup] at hlines
        cases hlines

end FileTable

/-- **The lines of a file are those written to it until a reading of it ends.** Whatever was done
with the files, once a name was opened for WRITE or APPEND and no reading of it has ended since, its
entry can be opened for READ or APPEND again as soon as it is not open, without asking the host, and
has the lines written since it was last opened for WRITE, or first opened for APPEND. When a reading
ends the account starts anew: until the name is opened for WRITE or APPEND again, READ gives the
text of the host and APPEND no lines. -/
theorem written_lines_stay_until_a_reading_ends (uploads : String → Upload)
    (ops : List FileOp) (name : String) :
    let recent := sinceReading name (FileTable.empty.session uploads ops).1
    let t := (FileTable.empty.session uploads ops).2
    (∀ later, AccumulatesSince name recent later →
      t.wantsUpload name FileMode.read.name = false ∧
        ∃ g, t.find? name = some g ∧ ∀ mode : FileMode, mode ≠ .write →
          (g.isOpen = true →
            t.perform uploads (.opens name mode.name) = .error (.alreadyOpen name)) ∧
          (g.isOpen = false →
            ∃ h t', t.perform uploads (.opens name mode.name) = .ok (.opened h, t') ∧
            h.lines.toList = later.filterMap (·.writes? name))) ∧
    ((∀ e ∈ recent, e.opensFor? name ≠ some .write ∧ e.opensFor? name ≠ some .append) →
      ∀ (mode : FileMode) h t', t.perform uploads (.opens name mode.name) = .ok (.opened h, t') →
        (mode = .read → ∃ text, uploads name = .provided text ∧ h.lines.toList = Text.lines text) ∧
        (mode ≠ .read → h.lines = #[])) := by
  intro recent t
  have haccounts := entryAccounts_session uploads ops name
  refine ⟨fun later hlater => ?_, fun hnone mode h t' =>
    FileTable.lines_of_onlyRead (haccounts.onlyRead hnone)⟩
  have hholds := haccounts.holds later hlater
  have ⟨hname, g, hfound, _, _⟩ := hholds
  refine ⟨?_, g, hfound, fun mode hmode => ⟨fun hopen => ?_, fun hclosed => ?_⟩⟩
  · rw [FileTable.wantsUpload, hfound, Option.isNone_some, Bool.and_false, Bool.false_and]
  · exact FileTable.perform_opens_of_open hname hfound hopen mode.name
  · refine FileTable.perform_opens_of_holdsLines hholds hmode fun g' hg' => ?_
    rw [hfound] at hg'
    cases hg'
    exact hclosed

/-- A file that is written, closed, appended to and closed again is read in full. -/
theorem written_lines_stay_over_two_closings :
    let noUploads : String → Upload := fun _ => .unavailable
    let t := (FileTable.empty.session noUploads [.opens "f" "WRITE", .writes "f" "a", .closes "f",
      .opens "f" "APPEND", .writes "f" "b", .closes "f"]).2
    ∃ h t', t.perform noUploads (.opens "f" "READ") = .ok (.opened h, t') ∧
      h.lines.toList = ["a", "b"] := by
  intro noUploads t
  obtain ⟨hkept, -⟩ := written_lines_stay_until_a_reading_ends noUploads [.opens "f" "WRITE",
    .writes "f" "a", .closes "f", .opens "f" "APPEND", .writes "f" "b", .closes "f"] "f"
  have hsince :
      AccumulatesSince "f" (sinceReading "f" (FileTable.empty.session noUploads [.opens "f" "WRITE",
      .writes "f" "a", .closes "f", .opens "f" "APPEND", .writes "f" "b", .closes "f"]).1)
      [⟨.writes "f" "a", .ok .written⟩, ⟨.closes "f", .ok (.closed ⟨.write, #["a"], 1, true⟩)⟩,
      ⟨.opens "f" "APPEND", .ok (.opened ⟨.append, #["a"], 1, true⟩)⟩,
      ⟨.writes "f" "b", .ok .written⟩,
      ⟨.closes "f", .ok (.closed ⟨.append, #["a", "b"], 2, true⟩)⟩] := by
    refine @AccumulatesSince.written "f" [] _
      ⟨.opens "f" "WRITE", .ok (.opened ⟨.write, #[], 0, true⟩)⟩ rfl ?_
    simp [FileEvent.opensFor?]
  obtain ⟨-, g, hfound, hmode⟩ := hkept _ hsince
  cases hfound
  exact (hmode .read (by decide)).2 rfl

/-- Opening a file for READ and closing it loses what was written to it: the next reading asks the
host. -/
theorem reading_loses_what_was_written :
    let uploads : String → Upload := fun _ => .provided "uploaded"
    let log := (FileTable.empty.session uploads [.opens "f" "WRITE", .writes "f" "a", .closes "f",
      .opens "f" "READ", .closes "f"]).1
    let t := (FileTable.empty.session uploads [.opens "f" "WRITE", .writes "f" "a", .closes "f",
      .opens "f" "READ", .closes "f"]).2
    ∃ later h t', AccumulatesSince "f" log later ∧ later.filterMap (·.writes? "f") = ["a"] ∧
      t.wantsUpload "f" "READ" = true ∧
        t.perform uploads (.opens "f" "READ") = .ok (.opened h, t') ∧
      h.lines.toList = ["uploaded"] := by
  refine ⟨[⟨.writes "f" "a", .ok .written⟩, ⟨.closes "f", .ok (.closed ⟨.write, #["a"], 1, true⟩)⟩,
       ⟨.opens "f" "READ", .ok (.opened ⟨.read, #["a"], 0, true⟩)⟩,
       ⟨.closes "f", .ok (.closed ⟨.read, #["a"], 0, true⟩)⟩], ⟨.read, #["uploaded"], 0, true⟩,
    _, ?_, rfl, rfl, rfl, rfl⟩
  refine @AccumulatesSince.written "f" [] _
    ⟨.opens "f" "WRITE", .ok (.opened ⟨.write, #[], 0, true⟩)⟩ rfl ?_
  simp [FileEvent.opensFor?]

end Pseudocode

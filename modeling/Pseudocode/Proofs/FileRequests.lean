import Pseudocode.Proofs.FileSessions

/-!
# Requests to a table of files

A request is an operation on a file or a look at its text. What an operation does is decided by the
entry of its file alone: it is refused for a reason (`Refuses`), or it is served with a reply and a
new entry (`Serves`). The two relations are exact: every operation is refused or served on every
entry, and the table does what they say.

Results:
* `refuses_or_serves`, `Refuses.perform`, `Serves.perform`: the table does what the two relations
  say.
* `FileTable.perform_eq_error`: an operation fails exactly for the reasons for which it is refused.
* `files_do_not_interfere`: **requests about other files make no difference** to the answers about a
  file and to its entry.
-/

namespace Pseudocode

/-- A request to a table of files. -/
inductive FileRequest where
  | perform (op : FileOp)
  /-- The text of a file is looked at, whether or not the file is open. -/
  | inspect (name : String)
  deriving DecidableEq, Repr

/-- The file that a request is about. -/
def FileRequest.name : FileRequest → String
  | perform op => op.name
  | inspect name => name

/-- Whether a request is about a file. -/
def FileRequest.isAbout (r : FileRequest) (name : String) : Bool :=
  r.name = name

/-- What a request is answered with. The lines that the user is shown are made from the reply. -/
inductive FileAnswer where
  | reply (reply : FileReply)
  | content (text : Option String)
  deriving DecidableEq, Repr

/-- A request and its outcome. -/
structure FileExchange where
  request : FileRequest
  outcome : Except FileFault FileAnswer

def FileExchange.isAbout (e : FileExchange) (name : String) : Bool :=
  e.request.isAbout name

namespace FileTable

variable (uploads : String → Upload)

/-- A request with its outcome, and the table after it. -/
def exchange (t : FileTable) : FileRequest → FileExchange × FileTable
  | .perform op =>
    match t.perform uploads op with
    | .ok (reply, t') => (⟨.perform op, .ok (.reply reply)⟩, t')
    | .error fault => (⟨.perform op, .error fault⟩, t)
  | .inspect name => (⟨.inspect name, .ok (.content (t.content? name))⟩, t)

/-- The log of a list of requests, and the table after them. -/
def exchanges (t : FileTable) : List FileRequest → List FileExchange × FileTable
  | [] => ([], t)
  | r :: rest =>
    let (e, t) := t.exchange uploads r
    let (log, t) := t.exchanges rest
    (e :: log, t)

/-- The table with the entry of a name as given, or without one. -/
def set (t : FileTable) (name : String) : Option FileHandle → FileTable
  | some h => t.put name h
  | none => ⟨t.files.erase name⟩

end FileTable

/-! ## What an entry decides -/

/-- Whether an operation wants a file with a name. Asking for the end of a file does not. -/
def FileOp.checksName : FileOp → Bool
  | tests _ => false
  | _ => true

/-- Whether an operation wants a file that is open. -/
def FileOp.wantsOpen : FileOp → Bool
  | opens _ _ => false
  | _ => true

/-- The reasons for which an operation is refused, by the entry of its file. -/
inductive Refuses (uploads : String → Upload) : Option FileHandle → FileOp → FileFault → Prop
  | emptyName {old : Option FileHandle} {op : FileOp} (hop : op.checksName = true)
      (hname : op.name.isEmpty = true) : Refuses uploads old op .emptyName
  | notOpen {old : Option FileHandle} {op : FileOp} (hop : op.wantsOpen = true)
      (hname : op.checksName = true → op.name.isEmpty = false)
      (hold : ∀ h ∈ old, h.isOpen = false) :
      Refuses uploads old op (.notOpen op.name)
  | alreadyOpen {h : FileHandle} {name mode : String} (hname : name.isEmpty = false)
      (hopen : h.isOpen = true) :
      Refuses uploads (some h) (.opens name mode) (.alreadyOpen name)
  | unknownMode {old : Option FileHandle} {name mode : String} (hname : name.isEmpty = false)
      (hold : ∀ h ∈ old, h.isOpen = false) (hmode : FileMode.ofName? mode = none) :
      Refuses uploads old (.opens name mode) (.unknownMode mode)
  | notProvided {name : String} (hname : name.isEmpty = false) (hupload : uploads name = .missing) :
      Refuses uploads none (.opens name FileMode.read.name) (.notProvided name)
  | noUploads {name : String} (hname : name.isEmpty = false)
      (hupload : uploads name = .unavailable) :
      Refuses uploads none (.opens name FileMode.read.name) .noUploads
  | notForReading {h : FileHandle} {name : String} (hname : name.isEmpty = false)
      (hopen : h.isOpen = true) (hmode : h.mode ≠ .read) :
      Refuses uploads (some h) (.reads name) (.notForReading name)
  | pastEnd {h : FileHandle} {name : String} (hname : name.isEmpty = false)
      (hopen : h.isOpen = true) (hmode : h.mode = .read) (hend : h.lines.size ≤ h.position) :
      Refuses uploads (some h) (.reads name) (.pastEnd name)
  | notForWriting {h : FileHandle} {name line : String} (hname : name.isEmpty = false)
      (hopen : h.isOpen = true) (hmode : h.mode = .read) :
      Refuses uploads (some h) (.writes name line) (.notForWriting name)
  | endOfWritten {h : FileHandle} {name : String} (hopen : h.isOpen = true)
      (hmode : h.mode ≠ .read) :
      Refuses uploads (some h) (.tests name) .endOfWritten

/-- How an operation is served, by the entry of its file: the reply and the new entry. -/
inductive Serves (uploads : String → Upload) :
    Option FileHandle → FileOp → FileReply → Option FileHandle → Prop
  | opened {old : Option FileHandle} {h : FileHandle} {name : String} {mode : FileMode}
      (hname : name.isEmpty = false) (hold : ∀ g ∈ old, g.isOpen = false)
      (hnew : FileTable.opening name old (uploads name) mode = .ok h) :
      Serves uploads old (.opens name mode.name) (.opened h) (some h)
  | endedReading {h : FileHandle} {name : String} (hname : name.isEmpty = false)
      (hopen : h.isOpen = true) (hmode : h.mode = .read) :
      Serves uploads (some h) (.closes name) (.closed h) none
  | endedWriting {h : FileHandle} {name : String} (hname : name.isEmpty = false)
      (hopen : h.isOpen = true) (hmode : h.mode ≠ .read) :
      Serves uploads (some h) (.closes name) (.closed h) (some { h with isOpen := false })
  | read {h : FileHandle} {name line : String} (hname : name.isEmpty = false)
      (hopen : h.isOpen = true) (hmode : h.mode = .read)
      (hline : h.lines[h.position]? = some line) :
      Serves uploads (some h) (.reads name) (.line line)
        (some { h with position := h.position + 1 })
  | wrote {h : FileHandle} {name line : String} (hname : name.isEmpty = false)
      (hopen : h.isOpen = true) (hmode : h.mode ≠ .read) :
      Serves uploads (some h) (.writes name line) .written
        (some { h with lines := h.lines.push line, position := (h.lines.push line).size })
  | tested {h : FileHandle} {name : String} (hopen : h.isOpen = true) (hmode : h.mode = .read) :
      Serves uploads (some h) (.tests name) (.atEnd (decide (h.lines.size ≤ h.position))) (some h)

section Entries

variable {uploads : String → Upload}

/-- Opening a file that is not open is served, unless its mode is not known or its text is not
there. -/
theorem refuses_or_serves_opens {old : Option FileHandle} {name : String} (mode : String)
    (hname : name.isEmpty = false) (hold : ∀ h ∈ old, h.isOpen = false) :
    (∃ fault, Refuses uploads old (.opens name mode) fault) ∨
      ∃ reply new, Serves uploads old (.opens name mode) reply new := by
  cases hmode : FileMode.ofName? mode with
  | none => exact Or.inl ⟨_, .unknownMode hname hold hmode⟩
  | some mode =>
    obtain rfl := FileTable.ofName?_eq_some hmode
    cases hnew : FileTable.opening name old (uploads name) mode with
    | ok h => exact Or.inr ⟨_, _, .opened hname hold hnew⟩
    | error fault =>
      left
      -- only a file that is opened for reading and has no entry may lack its text
      cases mode with
      | write => cases hnew
      | append => cases hnew
      | read =>
        cases old with
        | some h => cases hnew
        | none =>
          cases hupload : uploads name with
          | unavailable => exact ⟨_, .noUploads hname hupload⟩
          | missing => exact ⟨_, .notProvided hname hupload⟩
          | provided text =>
            rw [hupload] at hnew
            cases hnew

/-- An operation on an open file is refused or served by the mode of the file. -/
theorem refuses_or_serves_open {h : FileHandle} {op : FileOp} (hwants : op.wantsOpen = true)
    (hname : op.checksName = true → op.name.isEmpty = false) (hopen : h.isOpen = true) :
    (∃ fault, Refuses uploads (some h) op fault) ∨
      ∃ reply new, Serves uploads (some h) op reply new := by
  by_cases hmode : h.mode = .read
  · cases op with
    | opens => cases hwants
    | closes name => exact Or.inr ⟨_, _, .endedReading (hname rfl) hopen hmode⟩
    | reads name =>
      cases hline : h.lines[h.position]? with
      | none =>
        exact Or.inl ⟨_, .pastEnd (hname rfl) hopen hmode (Array.getElem?_eq_none_iff.mp hline)⟩
      | some line => exact Or.inr ⟨_, _, .read (hname rfl) hopen hmode hline⟩
    | writes name line => exact Or.inl ⟨_, .notForWriting (hname rfl) hopen hmode⟩
    | tests name => exact Or.inr ⟨_, _, .tested hopen hmode⟩
  · cases op with
    | opens => cases hwants
    | closes name => exact Or.inr ⟨_, _, .endedWriting (hname rfl) hopen hmode⟩
    | reads name => exact Or.inl ⟨_, .notForReading (hname rfl) hopen hmode⟩
    | writes name line => exact Or.inr ⟨_, _, .wrote (hname rfl) hopen hmode⟩
    | tests name => exact Or.inl ⟨_, .endOfWritten hopen hmode⟩

/-- **Every operation is refused or served**, whatever the entry. -/
theorem refuses_or_serves (uploads : String → Upload) (old : Option FileHandle) (op : FileOp) :
    (∃ fault, Refuses uploads old op fault) ∨ ∃ reply new, Serves uploads old op reply new := by
  by_cases hempty : op.checksName = true ∧ op.name.isEmpty = true
  · exact Or.inl ⟨_, .emptyName hempty.1 hempty.2⟩
  have hname : op.checksName = true → op.name.isEmpty = false :=
    fun hchecks => Bool.eq_false_iff.mpr fun h => hempty ⟨hchecks, h⟩
  by_cases hopen : ∃ h ∈ old, h.isOpen = true
  · obtain ⟨h, rfl, hopen⟩ := hopen
    cases op with
    | opens name mode => exact Or.inl ⟨_, .alreadyOpen (hname rfl) hopen⟩
    | _ => exact refuses_or_serves_open rfl hname hopen
  · have hold : ∀ h ∈ old, h.isOpen = false :=
      fun h hmem => Bool.eq_false_iff.mpr fun hopen' => hopen ⟨h, hmem, hopen'⟩
    cases op with
    | opens name mode => exact refuses_or_serves_opens mode (hname rfl) hold
    | _ => exact Or.inl ⟨_, .notOpen rfl hname hold⟩

end Entries

/-! ## The table does what its entries decide -/

section Tables

variable {uploads : String → Upload} {t : FileTable} {name : String} {h : FileHandle}

theorem Table.insertIn_of_findIn {α : Type} {a : α} {l : List (String × α)}
    (hfound : Table.findIn name l = some a) : Table.insertIn name a l = l := by
  induction l with
  | nil => cases hfound
  | cons e rest ih =>
    obtain ⟨k, b⟩ := e
    rw [Table.findIn] at hfound
    rw [Table.insertIn]
    by_cases hk : k = name
    · rw [if_pos hk, Option.some.injEq] at hfound
      rw [if_pos hk, hfound]
    · rw [if_neg hk] at hfound
      rw [if_neg hk, ih hfound]

namespace FileTable

/-- Entering what is there already changes nothing. -/
theorem put_of_find? (hfound : t.find? name = some h) : t.put name h = t :=
  congrArg (fun entries => FileTable.mk ⟨entries⟩) (Table.insertIn_of_findIn hfound)

theorem find?_set (t : FileTable) (name other : String) (entry : Option FileHandle) :
    (t.set name entry).find? other = if name = other then entry else t.find? other := by
  cases entry with
  | some h => exact find?_put t name other h
  | none => exact find?_erase t name other

theorem requireOpen_of_open (hfound : t.find? name = some h) (hopen : h.isOpen = true) :
    t.requireOpen name = .ok h := by
  rw [requireOpen, hfound]
  exact if_pos hopen

theorem requireOpen_of_closed (hold : ∀ h ∈ t.find? name, h.isOpen = false) :
    t.requireOpen name = .error (.notOpen name) := by
  rw [requireOpen]
  cases hfound : t.find? name with
  | none => rfl
  | some h => exact if_neg (Bool.eq_false_iff.mp (hold h hfound))

theorem checkName_of_nonempty (hname : name.isEmpty = false) : checkName name = .ok () :=
  if_neg (Bool.eq_false_iff.mp hname)

/-- An operation that checks the name is refused if there is none. -/
theorem perform_of_empty {op : FileOp} (hop : op.checksName = true)
    (hname : op.name.isEmpty = true) : t.perform uploads op = .error .emptyName := by
  cases op with
  | opens name mode =>
    have hcheck : checkName name = .error .emptyName := if_pos hname
    simp [perform, openAs, hcheck, bind, Except.bind, Except.map]
  | closes name =>
    have hcheck : checkName name = .error .emptyName := if_pos hname
    simp [perform, close, hcheck, bind, Except.bind, Except.map]
  | reads name =>
    have hcheck : checkName name = .error .emptyName := if_pos hname
    simp [perform, next, hcheck, bind, Except.bind, Except.map]
  | writes name line =>
    have hcheck : checkName name = .error .emptyName := if_pos hname
    simp [perform, write, hcheck, bind, Except.bind, Except.map]
  | tests name => cases hop

/-- An operation that wants an open file is refused if it is not open. -/
theorem perform_of_closed {op : FileOp} (hop : op.wantsOpen = true)
    (hname : op.checksName = true → op.name.isEmpty = false)
    (hold : ∀ h ∈ t.find? op.name, h.isOpen = false) :
    t.perform uploads op = .error (.notOpen op.name) := by
  have hopen := requireOpen_of_closed hold
  have hcheck := fun hchecks => checkName_of_nonempty (hname hchecks)
  cases op with
  | opens name mode => cases hop
  | closes name =>
    simp_all [perform, close, FileOp.name, FileOp.checksName, bind, Except.bind, Except.map]
  | reads name =>
    simp_all [perform, next, FileOp.name, FileOp.checksName, bind, Except.bind, Except.map]
  | writes name line =>
    simp_all [perform, write, FileOp.name, FileOp.checksName, bind, Except.bind, Except.map]
  | tests name => simp_all [perform, atEnd, FileOp.name, bind, Except.bind, Except.map]

/-- Opening a file that is not open fails if its new entry cannot be made. -/
theorem perform_opens_of_error {old : Option FileHandle} {mode : FileMode} {fault : FileFault}
    (hname : name.isEmpty = false) (hold : t.find? name = old)
    (hclosed : ∀ g ∈ old, g.isOpen = false)
    (hnew : opening name old (uploads name) mode = .error fault) :
    t.perform uploads (.opens name mode.name) = .error fault := by
  subst hold
  have hopen := not_open_of_closed hclosed
  have hnew' := (@opening_uploadFor uploads t name hname mode).trans hnew
  simp [perform, openAs, checkName, hname, hopen, ofName?_name, hnew', bind,
    Except.bind, Except.map]

/-- So does opening it for a mode that is not known. -/
theorem perform_opens_of_unknown {mode : String} (hname : name.isEmpty = false)
    (hclosed : ∀ g ∈ t.find? name, g.isOpen = false) (hmode : FileMode.ofName? mode = none) :
    t.perform uploads (.opens name mode) = .error (.unknownMode mode) := by
  have hopen := not_open_of_closed hclosed
  simp [perform, openAs, checkName, hname, hopen, hmode, bind, Except.bind, Except.map]

section Open

variable (hname : name.isEmpty = false) (hfound : t.find? name = some h) (hopen : h.isOpen = true)
include hfound hopen

include hname in
theorem perform_closes :
    t.perform uploads (.closes name) =
      .ok (.closed h,
        t.set name (if h.mode = .read then none else some { h with isOpen := false })) := by
  have hcheck := checkName_of_nonempty hname
  have hrequire := requireOpen_of_open hfound hopen
  cases hmode : h.mode <;>
    simp [perform, close, set, hcheck, hrequire, hmode, bind, Except.bind,
      Except.map, pure, Except.pure]

include hname in
theorem perform_reads :
    t.perform uploads (.reads name) =
      if h.mode = .read then
        (h.lines[h.position]?).elim (.error (.pastEnd name)) fun line =>
          .ok (.line line, t.put name { h with position := h.position + 1 })
      else .error (.notForReading name) := by
  have hcheck := checkName_of_nonempty hname
  have hrequire := requireOpen_of_open hfound hopen
  cases hmode : h.mode <;> cases hline : h.lines[h.position]? <;>
    simp [perform, next, hcheck, hrequire, hmode, hline, bind, Except.bind,
      Except.map, pure, Except.pure]

include hname in
theorem perform_writes (line : String) :
    t.perform uploads (.writes name line) =
      if h.mode = .read then .error (.notForWriting name)
      else .ok (.written,
        t.put name
          { h with lines := h.lines.push line, position := (h.lines.push line).size }) := by
  have hcheck := checkName_of_nonempty hname
  have hrequire := requireOpen_of_open hfound hopen
  cases hmode : h.mode <;>
    simp [perform, write, hcheck, hrequire, hmode, bind, Except.bind, Except.map, pure, Except.pure]

theorem perform_tests :
    t.perform uploads (.tests name) =
      if h.mode = .read then .ok (.atEnd (decide (h.lines.size ≤ h.position)), t)
      else .error .endOfWritten := by
  have hrequire := requireOpen_of_open hfound hopen
  cases hmode : h.mode <;>
    simp [perform, atEnd, hrequire, hmode, bind, Except.bind, Except.map, pure, Except.pure]

end Open

end FileTable

/-- **An operation that is refused fails for that reason.** -/
theorem Refuses.perform {op : FileOp} {fault : FileFault}
    (hrefuses : Refuses uploads (t.find? op.name) op fault) :
    t.perform uploads op = .error fault := by
  generalize hold : t.find? op.name = old at hrefuses
  cases hrefuses with
  | emptyName hop hname => exact FileTable.perform_of_empty hop hname
  | notOpen hop hname hclosed => exact FileTable.perform_of_closed hop hname (hold ▸ hclosed)
  | alreadyOpen hname hopen => exact FileTable.perform_opens_of_open hname hold hopen _
  | unknownMode hname hclosed hmode =>
    exact FileTable.perform_opens_of_unknown hname (fun g hg => hclosed g (hold ▸ hg)) hmode
  | notProvided hname hupload =>
    refine FileTable.perform_opens_of_error hname hold (by rintro g ⟨⟩) ?_
    rw [hupload]
    rfl
  | noUploads hname hupload =>
    refine FileTable.perform_opens_of_error hname hold (by rintro g ⟨⟩) ?_
    rw [hupload]
    rfl
  | notForReading hname hopen hmode => rw [FileTable.perform_reads hname hold hopen, if_neg hmode]
  | pastEnd hname hopen hmode hend =>
    rw [FileTable.perform_reads hname hold hopen, if_pos hmode, Array.getElem?_eq_none hend]
    rfl
  | notForWriting hname hopen hmode => rw [FileTable.perform_writes hname hold hopen, if_pos hmode]
  | endOfWritten hopen hmode => exact (FileTable.perform_tests hold hopen).trans (if_neg hmode)

/-- **An operation that is served succeeds with the reply**, and the table has the new entry. -/
theorem Serves.perform {op : FileOp} {reply : FileReply} {new : Option FileHandle}
    (hserves : Serves uploads (t.find? op.name) op reply new) :
    t.perform uploads op = .ok (reply, t.set op.name new) := by
  generalize hold : t.find? op.name = old at hserves
  cases hserves with
  | opened hname hclosed hnew =>
    subst hold
    exact FileTable.perform_opens_of_closed hname hclosed hnew
  | endedReading hname hopen hmode =>
    rw [FileTable.perform_closes hname hold hopen, if_pos hmode]
    rfl
  | endedWriting hname hopen hmode =>
    rw [FileTable.perform_closes hname hold hopen, if_neg hmode]
    rfl
  | read hname hopen hmode hline =>
    rw [FileTable.perform_reads hname hold hopen, if_pos hmode, hline]
    rfl
  | wrote hname hopen hmode =>
    rw [FileTable.perform_writes hname hold hopen, if_neg hmode]
    rfl
  | tested hopen hmode =>
    refine (FileTable.perform_tests hold hopen).trans ((if_pos hmode).trans ?_)
    exact congrArg (fun t => Except.ok (_, t)) (FileTable.put_of_find? hold).symm

theorem Refuses.exchange {op : FileOp} {fault : FileFault}
    (hrefuses : Refuses uploads (t.find? op.name) op fault) :
    t.exchange uploads (.perform op) = (⟨.perform op, .error fault⟩, t) := by
  rw [FileTable.exchange, hrefuses.perform]

theorem Serves.exchange {op : FileOp} {reply : FileReply} {new : Option FileHandle}
    (hserves : Serves uploads (t.find? op.name) op reply new) :
    t.exchange uploads (.perform op) = (⟨.perform op, .ok (.reply reply)⟩, t.set op.name new) := by
  rw [FileTable.exchange, hserves.perform]

/-- **An operation fails exactly for the reasons for which it is refused.** -/
theorem FileTable.perform_eq_error {op : FileOp} {fault : FileFault} :
    t.perform uploads op = .error fault ↔ Refuses uploads (t.find? op.name) op fault := by
  refine ⟨fun hfails => ?_, fun hrefuses => hrefuses.perform⟩
  rcases refuses_or_serves uploads
    (t.find? op.name) op with ⟨fault', hrefuses⟩ | ⟨reply, new, hserves⟩
  · cases hfails.symm.trans hrefuses.perform
    exact hrefuses
  · cases hfails.symm.trans hserves.perform

end Tables

/-! ## Other files make no difference -/

namespace FileTable

variable {uploads : String → Upload} {t u : FileTable} {name : String} {r : FileRequest}

theorem exchanges_cons (uploads : String → Upload) (t : FileTable) (r : FileRequest)
    (rest : List FileRequest) :
    t.exchanges uploads (r :: rest) =
      ((t.exchange uploads r).1 :: ((t.exchange uploads r).2.exchanges uploads rest).1,
        ((t.exchange uploads r).2.exchanges uploads rest).2) :=
  rfl

theorem exchange_request (uploads : String → Upload) (t : FileTable) (r : FileRequest) :
    (t.exchange uploads r).1.request = r := by
  cases r with
  | inspect name => rfl
  | perform op =>
    rcases refuses_or_serves uploads
      (t.find? op.name) op with ⟨fault, hrefuses⟩ | ⟨reply, new, hserves⟩
    · rw [hrefuses.exchange]
    · rw [hserves.exchange]

theorem isAbout_exchange (uploads : String → Upload) (t : FileTable)
    (r : FileRequest) (name : String) : (t.exchange uploads r).1.isAbout name = r.isAbout name := by
  rw [FileExchange.isAbout, exchange_request]

/-- A request leaves the entries of other files alone. -/
theorem find?_exchange_of_ne (hr : r.name ≠ name) :
    (t.exchange uploads r).2.find? name = t.find? name := by
  cases r with
  | inspect name => rfl
  | perform op =>
    rcases refuses_or_serves uploads
      (t.find? op.name) op with ⟨fault, hrefuses⟩ | ⟨reply, new, hserves⟩
    · rw [hrefuses.exchange]
    · rw [hserves.exchange]
      exact (find?_set t op.name name new).trans (if_neg hr)

/-- The outcome of a request and the new entry of its file depend on the old entry alone. -/
theorem exchange_congr (hsame : t.find? r.name = u.find? r.name) :
    (t.exchange uploads r).1 = (u.exchange uploads r).1 ∧
      (t.exchange uploads r).2.find? r.name = (u.exchange uploads r).2.find? r.name := by
  cases r with
  | inspect name =>
    refine ⟨?_, hsame⟩
    have hcontent : t.content? name = u.content? name := congrArg (Option.map _) hsame
    rw [exchange, exchange, hcontent]
  | perform op =>
    have hsame : t.find? op.name = u.find? op.name := hsame
    rcases refuses_or_serves uploads
      (t.find? op.name) op with ⟨fault, hrefuses⟩ | ⟨reply, new, hserves⟩
    · have hrefuses' := hrefuses
      rw [hsame] at hrefuses'
      rw [hrefuses.exchange, hrefuses'.exchange]
      exact ⟨rfl, hsame⟩
    · have hserves' := hserves
      rw [hsame] at hserves'
      rw [hserves.exchange, hserves'.exchange]
      refine ⟨rfl, ?_⟩
      show (t.set op.name new).find? op.name = (u.set op.name new).find? op.name
      rw [find?_set, find?_set, if_pos rfl, if_pos rfl]

/-- Two tables with the same entry of a file stay so, if one is sent all requests and the other
those about the file, and they answer the latter alike. -/
theorem exchanges_filter (requests : List FileRequest) (hsame : t.find? name = u.find? name) :
    (t.exchanges uploads requests).1.filter (fun e => e.isAbout name) =
        (u.exchanges uploads (requests.filter fun r => r.isAbout name)).1 ∧
      (t.exchanges uploads requests).2.find? name =
        (u.exchanges uploads (requests.filter fun r => r.isAbout name)).2.find? name := by
  induction requests generalizing t u with
  | nil => exact ⟨rfl, hsame⟩
  | cons r rest ih =>
    have habout := isAbout_exchange uploads t r name
    by_cases hr : r.name = name
    · have hr' : r.isAbout name = true := decide_eq_true hr
      subst hr
      obtain ⟨hout, hentry⟩ := @exchange_congr uploads t u r hsame
      obtain ⟨hlog, hlast⟩ := ih hentry
      simp only [exchanges_cons, List.filter_cons, habout, hr', if_true]
      exact ⟨congrArg₂ List.cons hout hlog, hlast⟩
    · have hr' : r.isAbout name = false := decide_eq_false hr
      simp only [exchanges_cons, List.filter_cons, habout, hr', Bool.false_eq_true, if_false]
      exact ih ((find?_exchange_of_ne hr).trans hsame)

end FileTable

/-- **Requests about different files do not interfere.** The answers to the requests about a file,
in order, are those it gives when all other requests are left out, and so is its entry in the
end. -/
theorem files_do_not_interfere (uploads : String → Upload) (t : FileTable)
    (requests : List FileRequest) (name : String) :
    let whole := t.exchanges uploads requests
    let alone := t.exchanges uploads (requests.filter fun r => r.isAbout name)
    whole.1.filter (fun e => e.isAbout name) = alone.1 ∧ whole.2.find? name = alone.2.find? name :=
  FileTable.exchanges_filter requests rfl

end Pseudocode

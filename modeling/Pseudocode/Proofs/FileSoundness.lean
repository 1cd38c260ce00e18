import Pseudocode.Proofs.FileRequests

/-!
# Sound tables of files

What is served keeps an entry sound (`Serves.sound`) and a file that is being read in order
(`Serves.readInOrder`); what is refused changes nothing. By induction on the requests the same holds
after every sequence of them.

A file is being read from its opening for READ to its closing. The lines that it has handed out are
read off the log, as the lines read since the file was last opened.

Results:
* `FileTable.exchanges_induction`: what one request keeps holds after all of them.
* `file_table_stays_sound`: **every entry is sound after every sequence of requests**, a file that
  is being read hands out its lines in order, and a request that fails changes nothing.
-/

namespace Pseudocode

/-! ## Sound entries -/

/-- A file that is being read is open and its position is in or right after its lines; any other
file is at its end. -/
structure FileHandle.Sound (h : FileHandle) : Prop where
  reading : h.mode = .read → h.isOpen = true ∧ h.position ≤ h.lines.size
  writing : h.mode ≠ .read → h.position = h.lines.size

/-- Every file has a name and a sound entry. -/
def FileTable.Sound (t : FileTable) : Prop :=
  ∀ name h, (name, h) ∈ t.files.entries → name ≠ "" ∧ h.Sound

section Soundness

variable {uploads : String → Upload} {t : FileTable} {name : String}

theorem Table.mem_of_findIn {α : Type} {a : α} {l : List (String × α)}
    (hfound : Table.findIn name l = some a) : (name, a) ∈ l := by
  induction l with
  | nil => cases hfound
  | cons e rest ih =>
    obtain ⟨k, b⟩ := e
    rw [Table.findIn] at hfound
    by_cases hk : k = name
    · rw [if_pos hk, Option.some.injEq] at hfound
      rw [hk, hfound]
      exact List.mem_cons_self
    · rw [if_neg hk] at hfound
      exact List.mem_cons_of_mem _ (ih hfound)

theorem Table.mem_insertIn {α : Type} {a : α} {l : List (String × α)} {e : String × α}
    (hmem : e ∈ Table.insertIn name a l) : e = (name, a) ∨ e ∈ l := by
  induction l with
  | nil => exact Or.inl (List.mem_singleton.mp hmem)
  | cons e' rest ih =>
    obtain ⟨k, b⟩ := e'
    rw [Table.insertIn] at hmem
    by_cases hk : k = name
    · rw [if_pos hk, hk] at hmem
      exact (List.mem_cons.mp hmem).imp_right (List.mem_cons_of_mem _)
    · rw [if_neg hk] at hmem
      rcases List.mem_cons.mp hmem with rfl | hmem
      · exact Or.inr List.mem_cons_self
      · exact (ih hmem).imp_right (List.mem_cons_of_mem _)

theorem FileTable.Sound.find? (ht : t.Sound) {h : FileHandle} (hfound : t.find? name = some h) :
    name ≠ "" ∧ h.Sound :=
  ht name h (Table.mem_of_findIn hfound)

theorem FileTable.Sound.set (ht : t.Sound) {new : Option FileHandle}
    (hnew : ∀ h ∈ new, name ≠ "" ∧ h.Sound) : (t.set name new).Sound := by
  intro k h hmem
  cases new with
  | none => exact ht k h (List.mem_of_mem_filter hmem)
  | some g =>
    rcases Table.mem_insertIn hmem with heq | hmem
    · cases heq
      exact hnew h rfl
    · exact ht k h hmem

/-- A file that is opened has a sound entry. -/
theorem FileHandle.sound_of_opening {old : Option FileHandle} {upload : Upload} {mode : FileMode}
    {h : FileHandle} (hnew : FileTable.opening name old upload mode = .ok h) : h.Sound := by
  cases mode with
  | read =>
    obtain ⟨lines, -, hnew⟩ := except_bind_eq_ok.mp hnew
    cases hnew
    exact ⟨fun _ => ⟨rfl, Nat.zero_le _⟩, fun hmode => absurd rfl hmode⟩
  | write =>
    cases hnew
    exact ⟨fun hmode => (by cases hmode), fun _ => rfl⟩
  | append =>
    cases hnew
    exact ⟨fun hmode => (by cases hmode), fun _ => rfl⟩

/-- **What is served keeps an entry sound.** -/
theorem Serves.sound {old new : Option FileHandle} {op : FileOp} {reply : FileReply}
    (hserves : Serves uploads old op reply new) (hold : ∀ h ∈ old, op.name ≠ "" ∧ h.Sound) :
    ∀ h ∈ new, op.name ≠ "" ∧ h.Sound := by
  cases hserves with
  | opened hname _ hnew =>
    rintro _ ⟨⟩
    exact ⟨mt String.isEmpty_iff.mpr (Bool.eq_false_iff.mp hname), FileHandle.sound_of_opening hnew⟩
  | endedReading => rintro _ ⟨⟩
  | endedWriting hname hopen hmode =>
    rintro _ ⟨⟩
    obtain ⟨hname, hsound⟩ := hold _ rfl
    exact ⟨hname, fun h => absurd h hmode, hsound.writing⟩
  | read hname hopen hmode hline =>
    rintro _ ⟨⟩
    obtain ⟨hname, hsound⟩ := hold _ rfl
    obtain ⟨hlt, -⟩ := Array.getElem?_eq_some_iff.mp hline
    exact ⟨hname, fun _ => ⟨hopen, hlt⟩, fun h => absurd hmode h⟩
  | wrote hname hopen hmode =>
    rintro _ ⟨⟩
    exact ⟨(hold _ rfl).1, fun h => absurd h hmode, fun _ => rfl⟩
  | tested => exact hold

theorem FileTable.Sound.exchange (ht : t.Sound) (r : FileRequest) :
    (t.exchange uploads r).2.Sound := by
  cases r with
  | inspect name => exact ht
  | perform op =>
    rcases refuses_or_serves uploads
      (t.find? op.name) op with ⟨fault, hrefuses⟩ | ⟨reply, new, hserves⟩
    · rw [hrefuses.exchange]
      exact ht
    · rw [hserves.exchange]
      exact ht.set (hserves.sound fun h hfound => ht.find? hfound)

end Soundness

/-! ## Lines in order -/

namespace FileExchange

/-- The entry that an exchange gives a file by opening it. -/
def opens? (e : FileExchange) (name : String) : Option FileHandle :=
  match e.request, e.outcome with
  | .perform (.opens n _), .ok (.reply (.opened h)) => if n = name then some h else none
  | _, _ => none

/-- The line that an exchange reads from a file. -/
def reads? (e : FileExchange) (name : String) : Option String :=
  match e.request, e.outcome with
  | .perform (.reads n), .ok (.reply (.line text)) => if n = name then some text else none
  | _, _ => none

theorem opens?_of_ne {r : FileRequest} {name : String} (hr : r.name ≠ name)
    (outcome : Except FileFault FileAnswer) : opens? ⟨r, outcome⟩ name = none := by
  unfold opens?
  split
  · rename_i hop _
    cases hop
    exact if_neg hr
  · rfl

theorem reads?_of_ne {r : FileRequest} {name : String} (hr : r.name ≠ name)
    (outcome : Except FileFault FileAnswer) : reads? ⟨r, outcome⟩ name = none := by
  unfold reads?
  split
  · rename_i hop _
    cases hop
    exact if_neg hr
  · rfl

theorem opens?_error (r : FileRequest) (fault : FileFault) (name : String) :
    opens? ⟨r, .error fault⟩ name = none := by
  unfold opens?
  split
  · rename_i hout
    cases hout
  · rfl

theorem reads?_error (r : FileRequest) (fault : FileFault) (name : String) :
    reads? ⟨r, .error fault⟩ name = none := by
  unfold reads?
  split
  · rename_i hout
    cases hout
  · rfl

end FileExchange

/-- The entry with which a file was last opened. -/
def lastOpening? (name : String) (log : List FileExchange) : Option FileHandle :=
  (log.filterMap (·.opens? name)).getLast?

/-- The lines that were read from a file since it was last opened, in order. -/
def linesRead (name : String) (log : List FileExchange) : List String :=
  (log.rtakeWhile fun e => (e.opens? name).isNone).filterMap (·.reads? name)

/-- A file that is being read has the lines it was opened with, and those before its position have
been read. -/
structure ReadInOrder (name : String) (log : List FileExchange) (h : FileHandle) : Prop where
  opened : ∃ g, lastOpening? name log = some g ∧ g.mode = .read ∧ h.lines = g.lines
  given : linesRead name log = h.lines.toList.take h.position

section Order

variable {uploads : String → Upload} {name : String} {log : List FileExchange} {e : FileExchange}

theorem lastOpening?_concat {h : FileHandle} (hopens : e.opens? name = some h) :
    lastOpening? name (log ++ [e]) = some h := by
  simp [lastOpening?, hopens]

theorem lastOpening?_concat_of_none (hopens : e.opens? name = none) :
    lastOpening? name (log ++ [e]) = lastOpening? name log := by
  simp [lastOpening?, hopens]

theorem linesRead_concat {h : FileHandle} (hopens : e.opens? name = some h) :
    linesRead name (log ++ [e]) = [] := by
  rw [linesRead, List.rtakeWhile_concat_neg _ _ _ (by simp [hopens])]
  rfl

theorem linesRead_concat_of_none (hopens : e.opens? name = none) :
    linesRead name (log ++ [e]) = linesRead name log ++ (e.reads? name).toList := by
  rw [linesRead, List.rtakeWhile_concat_pos _ _ _ (by simp [hopens]),
    List.filterMap_append, linesRead]
  cases hreads : e.reads? name <;> simp [hreads]

/-- An exchange that neither opens a file nor reads from it makes no difference. -/
theorem ReadInOrder.concat {h : FileHandle} (horder : ReadInOrder name log h)
    (hopens : e.opens? name = none) (hreads : e.reads? name = none) :
    ReadInOrder name (log ++ [e]) h where
  opened := by
    rw [lastOpening?_concat_of_none hopens]
    exact horder.opened
  given := by
    rw [linesRead_concat_of_none hopens, hreads]
    exact (List.append_nil _).trans horder.given

/-- A file that has just been opened for reading is at its first line. -/
theorem position_of_opening {old : Option FileHandle} {upload : Upload} {mode : FileMode}
    {h : FileHandle} (hnew : FileTable.opening name old upload mode = .ok h)
    (hmode : h.mode = .read) : h.position = 0 := by
  obtain rfl : h.mode = mode := (FileTable.opening_eq_ok hnew).1
  rw [hmode] at hnew
  obtain ⟨lines, -, hnew⟩ := except_bind_eq_ok.mp hnew
  cases hnew
  rfl

/-- **What is served keeps a file in order**: it is opened at its first line, and each line that is
read is the next one. -/
theorem Serves.readInOrder {old new : Option FileHandle} {op : FileOp} {reply : FileReply}
    (hserves : Serves uploads old op reply new)
    (hold : ∀ h ∈ old, h.mode = .read → ReadInOrder op.name log h) :
    ∀ h ∈ new, h.mode = .read →
      ReadInOrder op.name (log ++ [⟨.perform op, .ok (.reply reply)⟩]) h := by
  cases hserves with
  | @opened _ h name mode hname _ hnew =>
    rintro _ ⟨⟩ hmode
    have hopens : FileExchange.opens?
        ⟨.perform (.opens name mode.name), .ok (.reply (.opened h))⟩ name = some h :=
      if_pos rfl
    refine ⟨⟨h, lastOpening?_concat hopens, hmode, rfl⟩, ?_⟩
    rw [position_of_opening hnew hmode]
    exact linesRead_concat hopens
  | endedReading => rintro _ ⟨⟩
  | endedWriting _ _ hmode =>
    rintro _ ⟨⟩ hread
    exact absurd hread hmode
  | @read h name line hname hopen hmode hline =>
    rintro _ ⟨⟩ hread
    have horder := hold h rfl hread
    have hreads :
        FileExchange.reads? ⟨.perform (.reads name), .ok (.reply (.line line))⟩ name = some line :=
      if_pos rfl
    constructor
    · rw [lastOpening?_concat_of_none rfl]
      exact horder.opened
    · have hnext : h.lines.toList[h.position]? = some line := by
        rw [Array.getElem?_toList]
        exact hline
      show linesRead name _ = h.lines.toList.take (h.position + 1)
      rw [linesRead_concat_of_none rfl, hreads, List.take_add_one, hnext]
      exact congrArg (· ++ [line]) horder.given
  | wrote _ _ hmode =>
    rintro _ ⟨⟩ hread
    exact absurd hread hmode
  | tested => exact fun h hmem hread => (hold h hmem hread).concat rfl rfl

theorem FileTable.readInOrder_exchange {t : FileTable} {r : FileRequest}
    (ht : ∀ h ∈ t.find? name, h.mode = .read → ReadInOrder name log h) :
    ∀ h ∈ (t.exchange uploads r).2.find? name, h.mode = .read →
      ReadInOrder name (log ++ [(t.exchange uploads r).1]) h := by
  by_cases hr : r.name = name
  · subst hr
    cases r with
    | inspect name => exact fun h hmem hread => (ht h hmem hread).concat rfl rfl
    | perform op =>
      rcases refuses_or_serves uploads
        (t.find? op.name) op with ⟨fault, hrefuses⟩ | ⟨reply, new, hserves⟩
      · rw [hrefuses.exchange]
        exact fun h hmem hread =>
          (ht h hmem hread).concat (FileExchange.opens?_error _ _ _)
            (FileExchange.reads?_error _ _ _)
      · rw [hserves.exchange]
        intro h hmem
        rw [show (t.set op.name new).find? (FileRequest.perform op).name = new from
          (find?_set t op.name op.name new).trans (if_pos rfl)] at hmem
        exact hserves.readInOrder ht h hmem
  · rw [find?_exchange_of_ne hr]
    have hreq := exchange_request uploads t r
    generalize (t.exchange uploads r).1 = e at hreq
    subst hreq
    exact fun h hmem hread =>
      (ht h hmem hread).concat (FileExchange.opens?_of_ne hr e.outcome)
        (FileExchange.reads?_of_ne hr e.outcome)

end Order

/-! ## Sequences of requests -/

namespace FileTable

variable {uploads : String → Upload}

/-- **Induction on sequences of requests**: what one request keeps holds after all of them. -/
theorem exchanges_induction {P : List FileExchange → FileTable → Prop} (start : P [] empty)
    (step : ∀ log t r, P log t → P (log ++ [(t.exchange uploads r).1]) (t.exchange uploads r).2)
    (requests : List FileRequest) :
    P (empty.exchanges uploads requests).1 (empty.exchanges uploads requests).2 := by
  have hrun : ∀ log t, P log t →
      P (log ++ (t.exchanges uploads requests).1) (t.exchanges uploads requests).2 := by
    induction requests with
    | nil =>
      intro log t h
      rw [exchanges, List.append_nil]
      exact h
    | cons r rest ih =>
      intro log t h
      have hrest := ih _ _ (step log t r h)
      rw [List.append_assoc] at hrest
      exact hrest
  exact hrun [] empty start

theorem sound_exchanges (uploads : String → Upload) (requests : List FileRequest) :
    (empty.exchanges uploads requests).2.Sound :=
  exchanges_induction (P := fun _ t => t.Sound) (fun _ _ h => by cases h) (fun _ _ r h =>
    h.exchange r) requests

theorem readInOrder_exchanges (uploads : String → Upload)
    (requests : List FileRequest) (name : String) :
    ∀ h ∈ (empty.exchanges uploads requests).2.find? name, h.mode = .read →
      ReadInOrder name (empty.exchanges uploads requests).1 h :=
  exchanges_induction (P := fun log t => ∀ h ∈ t.find? name, h.mode = .read →
    ReadInOrder name log h) (fun _ h => by cases h) (fun _ _ _ h => readInOrder_exchange h) requests

/-- A request that fails leaves the table as it was. -/
theorem exchange_of_error {t : FileTable} {r : FileRequest} {fault : FileFault}
    (hfails : (t.exchange uploads r).1.outcome = .error fault) : (t.exchange uploads r).2 = t := by
  cases r with
  | inspect name => rfl
  | perform op =>
    rcases refuses_or_serves uploads
      (t.find? op.name) op with ⟨fault', hrefuses⟩ | ⟨reply, new, hserves⟩
    · rw [hrefuses.exchange]
    · rw [hserves.exchange] at hfails
      cases hfails

/-- Requests that fail can be left out. -/
theorem exchanges_succeeded (uploads : String → Upload) (t : FileTable)
    (requests : List FileRequest) :
    let log := (t.exchanges uploads requests).1.filter fun e => e.outcome.isOk
    t.exchanges uploads (log.map (·.request)) = (log, (t.exchanges uploads requests).2) := by
  induction requests generalizing t with
  | nil => rfl
  | cons r rest ih =>
    cases hout : (t.exchange uploads r).1.outcome with
    | ok answer =>
      have hok : (t.exchange uploads r).1.outcome.isOk = true := congrArg Except.isOk hout
      simp only [exchanges_cons, List.filter_cons, hok, if_true, List.map_cons, exchange_request]
      rw [ih]
    | error fault =>
      have hok : (t.exchange uploads r).1.outcome.isOk = false := congrArg Except.isOk hout
      simp only [exchanges_cons, List.filter_cons, hok, Bool.false_eq_true, if_false]
      rw [exchange_of_error hout]
      exact ih t

end FileTable

/-- What holds of a file that is being read, given what has happened. -/
structure HandsOut (uploads : String → Upload) (name : String) (log : List FileExchange)
    (t : FileTable) (h : FileHandle) : Prop extends ReadInOrder name log h where
  /-- The end has been reached exactly when every line has been read. -/
  tests :
    t.perform uploads (.tests name) = .ok (.atEnd (decide (linesRead name log = h.lines.toList)), t)
  /-- As long as there are lines left, the next one can be read. -/
  reads : (t.perform uploads (.reads name)).map Prod.fst =
    (h.lines[(linesRead name log).length]?).elim (.error (.pastEnd name)) fun line =>
      .ok (.line line)

/-- A sound entry that was read in order hands out the rest. -/
theorem ReadInOrder.handsOut {uploads : String → Upload} {name : String} {log : List FileExchange}
    {t : FileTable} {h : FileHandle} (horder : ReadInOrder name log h) (hname : name ≠ "")
    (hsound : h.Sound) (hfound : t.find? name = some h) (hmode : h.mode = .read) :
    HandsOut uploads name log t h := by
  obtain ⟨hopen, hle⟩ := hsound.reading hmode
  have hname' : name.isEmpty = false := Bool.eq_false_iff.mpr (mt String.isEmpty_iff.mp hname)
  have hlength : (linesRead name log).length = h.position := by
    rw [horder.given, List.length_take, Array.length_toList]
    exact Nat.min_eq_left hle
  have hall : linesRead name log = h.lines.toList ↔ h.lines.size ≤ h.position := by
    constructor
    · intro heq
      rw [← hlength, heq, Array.length_toList]
    · intro hend
      rw [horder.given, List.take_of_length_le hend]
  refine { horder with tests := ?_, reads := ?_ }
  · rw [FileTable.perform_tests hfound hopen, if_pos hmode, decide_eq_decide.mpr hall]
  · rw [FileTable.perform_reads hname' hfound hopen, if_pos hmode, hlength]
    cases h.lines[h.position]? with
    | none => rfl
    | some line => rfl

/-- **The table of files stays sound and failures change nothing.** After every sequence of requests
to an empty table: every file has a name and a sound entry; a file that is being read has the lines
with which it was last opened, has handed out those before its position in order, and tests for its
end accordingly; an operation fails exactly for the reasons given by the entry of its file; a
request that fails leaves the whole table as it was, so that the failed requests can be left out. -/
theorem file_table_stays_sound (uploads : String → Upload) (requests : List FileRequest) :
    let log := (FileTable.empty.exchanges uploads requests).1
    let t := (FileTable.empty.exchanges uploads requests).2
    let succeeded := log.filter fun e => e.outcome.isOk
    t.Sound ∧
    (∀ name h, t.find? name = some h → h.mode = .read → HandsOut uploads name log t h) ∧
    (∀ op fault, t.perform uploads op = .error fault ↔ Refuses uploads (t.find? op.name) op fault) ∧
    (∀ r fault, (t.exchange uploads r).1.outcome = .error fault → (t.exchange uploads r).2 = t) ∧
    FileTable.empty.exchanges uploads (succeeded.map (·.request)) = (succeeded, t) := by
  intro log t succeeded
  have hsound := FileTable.sound_exchanges uploads requests
  refine ⟨hsound, fun name h hfound hmode => ?_, fun op fault => FileTable.perform_eq_error,
    fun r fault => FileTable.exchange_of_error,
    FileTable.exchanges_succeeded uploads FileTable.empty requests⟩
  obtain ⟨hname, hentry⟩ := hsound.find? hfound
  have horder := FileTable.readInOrder_exchanges uploads requests name h hfound hmode
  exact horder.handsOut hname hentry hfound hmode

end Pseudocode

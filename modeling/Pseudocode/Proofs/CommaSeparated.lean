import Mathlib.Data.List.DropRight
import Mathlib.Data.List.Forall2
import Pseudocode.Trace.Format

/-!
# Comma-separated values lose nothing

The rules of comma-separated values are those of a reader that goes through a text one character at
a time (`Csv.Reader.step`): commas separate the fields of a record, line feeds end records, and a
field may stand in quotes, in which quotes are doubled and everything else stands for itself. A
carriage return is a character like any other. The last record need not be ended.

Only commas, quotes and line feeds have to be quoted, but more may be (`Csv.Spells`). Whatever way
the fields are written, reading a record leaves its fields and nothing else
(`Csv.Reader.Completes`), so the ends of fields and records are found where they were. When the line
feeds at the end of a text are dropped, a last record of two or more fields loses none of its own:
its last character is a comma, a quote, or a character of a field that holds no line feed.

Results:
* `Csv.read_csvText`: records of two or more fields are read back.
* `csv_traces_lose_nothing`: so is the table of every trace.
-/

namespace Pseudocode

namespace Csv

/-! ## Reading -/

/-- Where a reader stands: before a field, in one without quotes, in one with quotes, or behind a
quote in the latter, which closes the field unless it is the first of two. -/
inductive Stand where
  | before | plain | quoted | closing
  deriving DecidableEq, Repr

/-- A reader: the records that have ended, the fields of the next one that have, and the characters
of the next field. -/
structure Reader where
  records : List (List String) := []
  fields : List String := []
  field : List Char := []
  stand : Stand := .before
  deriving DecidableEq, Repr

namespace Reader

def endField (r : Reader) : Reader :=
  { r with fields := r.fields ++ [String.ofList r.field], field := [], stand := .before }

def endRecord (r : Reader) : Reader :=
  { records := r.records ++ [r.endField.fields] }

/-- A character of a field. -/
def take (r : Reader) (c : Char) (stand : Stand) : Reader :=
  { r with field := r.field ++ [c], stand := stand }

/-- **The rules of comma-separated values**, one character at a time. -/
def step (r : Reader) (c : Char) : Option Reader :=
  if r.stand = .quoted then
    if c = '"' then some { r with stand := .closing } else some (r.take c .quoted)
  else if c = ',' then some r.endField
  else if c = '\n' then some r.endRecord
  else
    match r.stand with
    | .before => if c = '"' then some { r with stand := .quoted } else some (r.take c .plain)
    | .plain => if c = '"' then none else some (r.take c .plain)
    | _ => if c = '"' then some (r.take c .quoted) else none

/-- The records of a text at its end, where the last one need not have been ended. -/
def finish (r : Reader) : Option (List (List String)) :=
  if r.stand = .quoted then none
  else if r.stand = .before ∧ r.fields = [] then some r.records
  else some r.endRecord.records

end Reader

/-- The records of a text; `none` if it breaks the rules. -/
def read (text : String) : Option (List (List String)) :=
  (text.toList.foldlM Reader.step {}).bind Reader.finish

/-- Quoted and empty fields, a quote and a line feed in a field, a carriage return in another. -/
example : read "a,\"b\"\"c\nd\"\n,\r" = some [["a", "b\"c\nd"], ["", "\r"]] := by
  decide +kernel

/-- A quote in a field that does not begin with one. -/
example : read "a\"b" = none := by
  decide +kernel

/-! ## Fields -/

/-- The characters of a field between its quotes. -/
def doubled (cs : List Char) : List Char :=
  cs.flatMap fun c => if c == '"' then [c, c] else [c]

/-- The ways to write a field: as it is, unless a character in it has a meaning, or in quotes. -/
inductive Spells (s : String) : List Char → Prop
  | plain (h : ∀ c ∈ s.toList, c ≠ ',' ∧ c ≠ '"' ∧ c ≠ '\n') : Spells s s.toList
  | quoted : Spells s ('"' :: doubled s.toList ++ ['"'])

theorem spells_csvField (s : String) : Spells s (csvField s).toList := by
  unfold csvField
  dsimp only
  split_ifs with h
  · rw [String.toList_ofList]
    exact .quoted
  · refine .plain fun c hc => ?_
    simp only [List.any_eq_true, not_exists, not_and, Bool.or_eq_true, beq_iff_eq, not_or] at h
    obtain ⟨⟨hcomma, hquote⟩, hfeed⟩ := h c hc
    exact ⟨hcomma, hquote, hfeed⟩

/-- However a field is written, it does not end in a line feed. -/
theorem Spells.getLast?_ne {s : String} {cs : List Char} (h : Spells s cs) :
    cs.getLast? ≠ some '\n' := by
  cases h with
  | plain h =>
    intro hlast
    exact (h '\n' (List.mem_of_getLast? hlast)).2.2 rfl
  | quoted =>
    rw [List.getLast?_concat]
    decide

namespace Reader

variable {r : Reader}

theorem read_plain {cs : List Char} (hr : r.stand = .before ∨ r.stand = .plain)
    (h : ∀ c ∈ cs, c ≠ ',' ∧ c ≠ '"' ∧ c ≠ '\n') :
    ∃ stand, (stand = .before ∨ stand = .plain) ∧
      cs.foldlM step r = some { r with field := r.field ++ cs, stand := stand } := by
  induction cs generalizing r with
  | nil => exact ⟨r.stand, hr, by simp⟩
  | cons c cs ih =>
    obtain ⟨hcomma, hquote, hfeed⟩ := h c List.mem_cons_self
    have hstep : r.step c = some (r.take c .plain) := by
      rcases hr with hr | hr <;> simp [step, hr, hcomma, hquote, hfeed]
    obtain ⟨stand, hstand, hrest⟩ :=
      ih (r := r.take c .plain) (.inr rfl) fun d hd => h d (List.mem_cons_of_mem c hd)
    refine ⟨stand, hstand, ?_⟩
    rw [List.foldlM_cons, hstep, Option.bind_eq_bind, Option.bind_some, hrest]
    simp [take]

theorem read_doubled (cs : List Char) (hr : r.stand = .quoted) :
    (doubled cs).foldlM step r = some { r with field := r.field ++ cs } := by
  induction cs generalizing r with
  | nil => simp [doubled]
  | cons c cs ih =>
    have hchar : (if c == '"' then [c, c] else [c]).foldlM step r = some (r.take c .quoted) := by
      by_cases hc : c = '"'
      · simp [hc, step, hr, take]
      · simp [hc, step, hr]
    have hrest : (doubled cs).foldlM step (r.take c .quoted) =
        some { r.take c .quoted with field := r.field ++ [c] ++ cs } := ih rfl
    rw [doubled, List.flatMap_cons, List.foldlM_append, hchar,
      Option.bind_eq_bind, Option.bind_some]
    rw [doubled] at hrest
    rw [hrest]
    simp [take, hr]

/-- **Reading a field** leaves its characters, outside of quotes. -/
theorem read_field {s : String} {cs : List Char} (h : Spells s cs) (hr : r.stand = .before)
    (hf : r.field = []) :
    ∃ stand, stand ≠ .quoted ∧
      cs.foldlM step r = some { r with field := s.toList, stand := stand } := by
  cases h with
  | plain h =>
    obtain ⟨stand, hstand, hread⟩ := read_plain (.inl hr) h
    refine ⟨stand, ?_, by rw [hread, hf, List.nil_append]⟩
    rcases hstand with rfl | rfl <;> decide
  | quoted =>
    refine ⟨.closing, by decide, ?_⟩
    have hopen : r.step '"' = some { r with stand := .quoted } := by simp [step, hr]
    have hinside := read_doubled (r := { r with stand := .quoted }) s.toList rfl
    rw [List.cons_append, List.foldlM_cons, hopen, Option.bind_eq_bind, Option.bind_some,
      List.foldlM_append, hinside]
    simp [step, hf]

end Reader

/-! ## Records -/

/-- The reader `r'` has gone through the fields of `row`, up to the end of the last one. -/
structure Reader.Completes (r : Reader) (row : List String) (r' : Reader) : Prop where
  records : r'.records = r.records
  fields : r'.endField.fields = r.fields ++ row
  stand : r'.stand ≠ .quoted

namespace Reader

variable {r r' : Reader} {row : List String}

theorem Completes.step_comma (h : r.Completes row r') :
    r'.step ',' = some { r with fields := r.fields ++ row, field := [], stand := .before } := by
  rw [step, if_neg h.stand, if_pos rfl, ← h.fields, ← h.records]
  rfl

theorem Completes.step_feed (h : r.Completes row r') :
    r'.step '\n' = some { records := r.records ++ [r.fields ++ row] } := by
  rw [step, if_neg h.stand, if_neg (by decide), if_pos rfl, endRecord, h.fields, h.records]

/-- A record that is not ended by a line feed; one field alone might be nothing at all. -/
theorem Completes.finish (h : r.Completes row r') (hrow : 2 ≤ row.length) :
    r'.finish = some (r.records ++ [r.fields ++ row]) := by
  have hfields : r'.fields ≠ [] := by
    intro hnone
    have hlength := congrArg List.length h.fields
    simp only [endField, hnone, List.nil_append, List.length_singleton,
      List.length_append] at hlength
    omega
  rw [Reader.finish, if_neg h.stand, if_neg (fun hbefore => hfields hbefore.2), endRecord,
    h.fields, h.records]

/-- **Reading a record** leaves its fields, however they are written. -/
theorem read_record {texts : List (List Char)} (h : List.Forall₂ Spells row texts) (hne : row ≠ [])
    (hr : r.stand = .before) (hf : r.field = []) :
    ∃ r', ([','].intercalate texts).foldlM step r = some r' ∧ r.Completes row r' := by
  induction h generalizing r with
  | nil => exact absurd rfl hne
  | @cons s cs row texts hfirst hrest ih =>
    obtain ⟨stand, hstand, hfield⟩ := read_field hfirst hr hf
    have hcompletes : r.Completes [s] { r with field := s.toList, stand := stand } :=
      ⟨rfl, by simp [endField], hstand⟩
    cases hrest with
    | nil => exact ⟨_, by rw [List.intercalate_singleton, hfield], hcompletes⟩
    | @cons t cs' row texts hsecond hmore =>
      obtain ⟨r', hread, hdone⟩ :=
        ih (r := { r with fields := r.fields ++ [s], field := [], stand := .before })
        (List.cons_ne_nil _ _) rfl rfl
      refine ⟨r', ?_, hdone.records, ?_, hdone.stand⟩
      · rw [List.intercalate_cons_cons, List.foldlM_append, List.foldlM_append, hfield]
        simp only [Option.bind_eq_bind, Option.bind_some, List.foldlM_cons, List.foldlM_nil,
          hcompletes.step_comma]
        exact hread
      · rw [hdone.fields, List.append_assoc]
        rfl

end Reader

theorem toList_csvRecord (row : List String) :
    (csvRecord row).toList = [','].intercalate (row.map fun s => (csvField s).toList) := by
  rw [csvRecord, String.toList_intercalate, List.map_map]
  rfl

theorem spells_csvFields (row : List String) :
    List.Forall₂ Spells row (row.map fun s => (csvField s).toList) := by
  rw [List.forall₂_map_right_iff]
  exact List.forall₂_same.mpr fun s _ => spells_csvField s

theorem getLast?_intercalate_ne {texts : List (List Char)}
    (h : ∀ cs ∈ texts, cs.getLast? ≠ some '\n') :
    ([','].intercalate texts).getLast? ≠ some '\n' := by
  induction texts with
  | nil => simp
  | cons cs texts ih =>
    cases texts with
    | nil =>
      rw [List.intercalate_singleton]
      exact h cs List.mem_cons_self
    | cons cs' texts =>
      have hrest := ih fun d hd => h d (List.mem_cons_of_mem cs hd)
      rw [List.intercalate_cons_cons, List.getLast?_append, List.getLast?_append]
      cases hlast : ([','].intercalate (cs' :: texts)).getLast? with
      | none => simp
      | some c =>
        rw [hlast] at hrest
        exact hrest

/-- A record of two or more fields has a last character, which is not a line feed. -/
theorem csvRecord_concat {row : List String} (hrow : 2 ≤ row.length) :
    ∃ cs c, (csvRecord row).toList = cs ++ [c] ∧ c ≠ '\n' := by
  have hne : (csvRecord row).toList ≠ [] := by
    rw [toList_csvRecord]
    rcases row with _ | ⟨s, _ | ⟨t, row⟩⟩
    · simp at hrow
    · simp at hrow
    · simp [List.intercalate_cons_cons]
  have hlast : (csvRecord row).toList.getLast? ≠ some '\n' := by
    rw [toList_csvRecord]
    refine getLast?_intercalate_ne fun cs hcs => ?_
    obtain ⟨s, -, rfl⟩ := List.mem_map.mp hcs
    exact (spells_csvField s).getLast?_ne
  refine ⟨_, _, (List.dropLast_append_getLast hne).symm, fun hfeed => hlast ?_⟩
  rw [List.getLast?_eq_getLast_of_ne_nil hne, hfeed]

/-! ## Texts -/

/-- Records that are ended by line feeds are read one after the other. -/
theorem read_records (done : List (List String)) {rows : List (List String)}
    (h : ∀ row ∈ rows, row ≠ []) :
    (rows.flatMap fun row => (csvRecord row).toList ++ ['\n']).foldlM Reader.step
      { records := done } = some { records := done ++ rows } := by
  induction rows generalizing done with
  | nil => simp
  | cons row rows ih =>
    obtain ⟨r', hread, hdone⟩ :=
      Reader.read_record (r := { records := done }) (spells_csvFields row)
      (h row List.mem_cons_self) rfl rfl
    have hrest := ih (done ++ [row]) fun row' hrow' => h row' (List.mem_cons_of_mem row hrow')
    rw [← toList_csvRecord] at hread
    rw [List.flatMap_cons, List.foldlM_append, List.foldlM_append, hread]
    simp only [Option.bind_eq_bind, Option.bind_some, List.foldlM_cons, List.foldlM_nil,
      hdone.step_feed, List.nil_append, Option.pure_def]
    rw [hrest, List.append_assoc]
    rfl

/-- Dropping the line feeds at the end of a text takes away only the one that ended its last
record. -/
theorem toList_csvText (rows : List (List String)) {last : List String} (hlast : 2 ≤ last.length) :
    (csvText (rows ++ [last])).toList =
      (rows.flatMap fun row => (csvRecord row).toList ++ ['\n']) ++ (csvRecord last).toList := by
  obtain ⟨cs, c, hrecord, hc⟩ := csvRecord_concat hlast
  rw [csvText, String.toList_ofList, List.flatMap_append, List.flatMap_singleton, hrecord,
    ← List.append_assoc, ← List.append_assoc]
  show List.rdropWhile (· == '\n') _ = _
  rw [List.rdropWhile_concat_pos _ _ _ (by decide),
    List.rdropWhile_concat_neg _ _ _ (by simpa using hc)]

/-- **Records of two or more fields are read back.** -/
theorem read_csvText {rows : List (List String)} (hne : rows ≠ [])
    (h : ∀ row ∈ rows, 2 ≤ row.length) : read (csvText rows) = some rows := by
  obtain ⟨rows, last, rfl⟩ := (List.eq_nil_or_concat' rows).resolve_left hne
  have hlast : 2 ≤ last.length := h last (by simp)
  have hrows : ∀ row ∈ rows, row ≠ [] := by
    rintro row hrow rfl
    exact absurd (h [] (by simp [hrow])) (by simp)
  obtain ⟨r', hread, hdone⟩ := Reader.read_record (r := { records := rows }) (spells_csvFields last)
    (by rintro rfl; simp at hlast) rfl rfl
  have hbefore := read_records [] hrows
  rw [← toList_csvRecord] at hread
  rw [List.nil_append] at hbefore
  rw [read, toList_csvText rows hlast, List.foldlM_append, hbefore, Option.bind_eq_bind,
    Option.bind_some, hread, Option.bind_some, hdone.finish hlast]
  rfl

end Csv

/-- A row of the table of a trace has a cell for each column, and four besides. -/
theorem length_of_mem_traceTable {rows : List TraceRow} {cells : List String}
    (h : cells ∈ traceTable rows) : cells.length = (columnNames rows).length + 4 := by
  rcases List.mem_cons.mp h with rfl | h
  · simp [traceHeader]
  · obtain ⟨row, -, rfl⟩ := List.mem_map.mp h
    simp [TraceRow.cells]

/-- **A trace that is written as comma-separated values loses nothing**: reading the text gives the
table of the trace, its head and one record for each row, with the same cells. -/
theorem csv_traces_lose_nothing (rows : List TraceRow) :
    Csv.read (formatTrace .csv rows) = some (traceTable rows) := by
  refine Csv.read_csvText (List.cons_ne_nil _ _) fun cells hcells => ?_
  rw [length_of_mem_traceTable hcells]
  omega

end Pseudocode

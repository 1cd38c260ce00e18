import Pseudocode.Proofs.FileSessions
import Pseudocode.Proofs.Numerals

/-!
# Values in files

A value is written to a file as the line that shows it, and a line that is read is turned into a
value of the type that receives it. For whole numbers with few enough digits, truth values and texts
the two are inverse (`Value.Travels.reread`). A line is an entry of its own, so a text may hold line
breaks.

A file that is written and then read passes through certain stages (`Passage`): it is opened for
WRITE, closed, opened for APPEND and closed any number of times, and then opened for READ.
`Passage.Fits` says what the table of files holds at a stage. Each deed that belongs to the stage
succeeds and leads to the next one; what happens to other files does not matter.

Results:
* `Value.Travels.reread`: values and the lines that show them.
* `FileTable.openAs_of_fits`, `FileTable.close_of_fits`, `FileTable.write_of_fits`,
  `FileTable.next_of_fits`: the deeds of a passage succeed.
* `FileTable.atEnd_of_fits`, `FileTable.next_pastEnd`: the end of a file.
-/

namespace Pseudocode

/-! ## Whole numbers -/

namespace Number

theorem trimChars_eq_self {cs : List Char} (h : ∀ c ∈ cs, Text.isBlank c = false) :
    Text.trimChars cs = cs := by
  have hkeep : ∀ ds : List Char, (∀ c ∈ ds, Text.isBlank c = false) →
      ds.dropWhile Text.isBlank = ds := by
    intro ds hds
    cases ds with
    | nil => rfl
    | cons c ds =>
      rw [List.dropWhile_cons_of_neg]
      rw [hds c List.mem_cons_self]
      exact Bool.false_ne_true
  rw [Text.trimChars, hkeep cs h, hkeep, List.reverse_reverse]
  exact fun c hc => h c (List.mem_reverse.mp hc)

theorem isBlank_digit {c : Char} (h : c.isDigit = true) : Text.isBlank c = false := by
  have hdigits : ∀ d ∈ "0123456789".toList, Text.isBlank d = false :=
    List.forall_iff_forall_mem.mp (by decide)
  exact hdigits c (mem_digits h)

/-- The digits of a natural, with a sign in front or without, are read as the number. -/
theorem readWhole_digits {k : Nat} (hk : k < writeLimit) :
    readWhole (String.ofList (Nat.toDigits 10 k)) = .value k ∧
      readWhole (String.ofList ('-' :: Nat.toDigits 10 k)) = .value (-k) := by
  have hdigits := isDigits_toDigits k
  have hne : Nat.toDigits 10 k ≠ [] := Nat.toDigits_ne_nil
  have hlength : ¬ digitLimit < (Nat.toDigits 10 k).length :=
    Nat.not_lt.mpr (lt_writeLimit_iff.mp hk)
  have hvalue := digitsValue_toDigits k
  generalize Nat.toDigits 10 k = ds at hdigits hne hlength hvalue
  obtain ⟨c, cs, rfl⟩ := List.exists_cons_of_ne_nil hne
  have hall : (c :: cs).all Char.isDigit = true := List.all_eq_true.mpr hdigits
  have hplain : ∀ d ∈ c :: cs, Text.isBlank d = false := fun d hd => isBlank_digit (hdigits d hd)
  have hsigned : ∀ d ∈ '-' :: c :: cs, Text.isBlank d = false := by
    intro d hd
    rcases List.mem_cons.mp hd with rfl | hd
    · decide
    · exact hplain d hd
  constructor
  · rw [readWhole, String.toList_ofList, trimChars_eq_self hplain,
      splitSign_digit (hdigits c List.mem_cons_self)]
    simp only [List.isEmpty_cons, hall, Bool.not_false, Bool.and_true, if_true, wholeOfDigits,
      if_neg hlength, hvalue]
    rfl
  · rw [readWhole, String.toList_ofList, trimChars_eq_self hsigned]
    simp only [splitSign, List.isEmpty_cons, hall, Bool.not_false, Bool.and_true, if_true,
      wholeOfDigits, if_neg hlength, hvalue]

/-- **A whole number that can be written is read back.** -/
theorem readWhole_toString {n : Int} (h : n.natAbs < writeLimit) :
    readWhole (toString n) = .value n := by
  rw [toString_int]
  by_cases hn : n < 0
  · rw [if_pos hn, (readWhole_digits h).2]
    exact congrArg _ (by omega)
  · rw [if_neg hn, (readWhole_digits h).1]
    exact congrArg _ (by omega)

end Number

/-! ## Values and lines -/

/-- The values that survive a file, each with the type of the variables that it is read into: whole
numbers of at most 4300 digits, truth values, and texts of any characters. -/
inductive Value.Travels : DataType → Value → Prop
  | int {n : Int} (h : (Nat.toDigits 10 n.natAbs).length ≤ 4300) : Travels .integer (.int n)
  | bool (b : Bool) : Travels .boolean (.bool b)
  | text (s : String) : Travels .string (.text s)

/-- **A value is read back from the line that shows it.** -/
theorem Value.Travels.reread {type : DataType} {v : Value} (h : v.Travels type) :
    ∃ line, v.shown? = some line ∧ Value.ofText type line = .ok v := by
  cases h with
  | @int n h =>
    have hlimit : n.natAbs < Number.writeLimit := Number.lt_writeLimit_iff.mpr h
    have hwritable : Number.isWritable n = true := decide_eq_true hlimit
    refine ⟨toString n, ?_, ?_⟩
    · rw [Value.shown?, Number.wholeText?, if_pos hwritable]
    · simp only [Value.ofText, Number.readWhole_toString hlimit]
  | bool b => cases b <;> exact ⟨_, rfl, by decide⟩
  | text s => exact ⟨s, rfl, rfl⟩

/-- The lines of a file show the values. -/
def Shows (lines : Array String) (values : List Value) : Prop :=
  lines.toList.map some = values.map Value.shown?

theorem Shows.push {lines : Array String} {values : List Value} (h : Shows lines values) {v : Value}
    {line : String} (hline : v.shown? = some line) : Shows (lines.push line) (values ++ [v]) := by
  unfold Shows at h ⊢
  rw [Array.toList_push, List.map_append, List.map_append, h, List.map_singleton,
    List.map_singleton, hline]

theorem Shows.size_eq {lines : Array String} {values : List Value} (h : Shows lines values) :
    lines.size = values.length := by
  have hlength := congrArg List.length h
  rwa [List.length_map, List.length_map, Array.length_toList] at hlength

theorem Shows.getElem? {lines : Array String} {values : List Value} (h : Shows lines values)
    {k : Nat} {v : Value} (hv : values[k]? = some v) :
    ∃ line, lines[k]? = some line ∧ v.shown? = some line := by
  have hk := congrArg (·[k]?) h
  simp only [List.getElem?_map, hv, Option.map_some, Array.getElem?_toList] at hk
  obtain ⟨line, hline, hshown⟩ := Option.map_eq_some_iff.mp hk
  exact ⟨line, hline, hshown.symm⟩

/-! ## Stages -/

/-- The stages of a file that is written and then read, with the values written to it so far. -/
inductive Passage where
  /-- The file is not open, and whatever it held before does not matter. -/
  | fresh
  | writing (values : List Value)
  /-- The file has been written and closed. -/
  | written (values : List Value)
  /-- The first `count` of the values have been read. -/
  | reading (values : List Value) (count : Nat)

/-- What the table of files holds at a stage of the file `f`. -/
def Passage.Fits (f : String) (t : FileTable) : Passage → Prop
  | fresh => ∀ h ∈ t.find? f, h.isOpen = false
  | writing values => ∃ h, t.find? f = some h ∧ h.isOpen = true ∧ h.mode ≠ .read ∧
    Shows h.lines values
  | written values => ∃ h, t.find? f = some h ∧ h.isOpen = false ∧ Shows h.lines values
  | reading values count =>
    ∃ h, t.find? f = some h ∧ h.isOpen = true ∧ h.mode = .read ∧ h.position = count ∧
      Shows h.lines values

/-- What a statement does to a file. -/
inductive Deed where
  | opens (mode : String)
  | closes
  | writes (v : Value)
  | reads

/-- The operation on the file `f` that a deed is, if its value can be shown. -/
def Deed.op? (f : String) : Deed → Option FileOp
  | opens mode => some (.opens f mode)
  | closes => some (.closes f)
  | writes v => v.shown?.map (.writes f)
  | reads => some (.reads f)

theorem Deed.name_of_op? {f : String} {deed : Deed} {op : FileOp} (h : deed.op? f = some op) :
    op.name = f := by
  cases deed with
  | writes v =>
    obtain ⟨line, -, rfl⟩ := Option.map_eq_some_iff.mp h
    rfl
  | _ =>
    cases h
    rfl

/-- A deed on the file `f` succeeds on a table of files and leaves another. -/
def FileTable.Does (t : FileTable) (f : String) (deed : Deed) (t' : FileTable) : Prop :=
  ∃ op uploads reply, deed.op? f = some op ∧ t.perform uploads op = .ok (reply, t')

/-- How a file passes from one stage to the next. -/
inductive Passage.Moves : Deed → Passage → Passage → Prop
  | start : Moves (.opens FileMode.write.name) .fresh (.writing [])
  | write {values : List Value} {type : DataType} {v : Value} (hv : v.Travels type) :
      Moves (.writes v) (.writing values) (.writing (values ++ [v]))
  | close (values : List Value) : Moves .closes (.writing values) (.written values)
  | append (values : List Value) :
      Moves (.opens FileMode.append.name) (.written values) (.writing values)
  | read (values : List Value) :
      Moves (.opens FileMode.read.name) (.written values) (.reading values 0)
  | next {values : List Value} {count : Nat} (h : count < values.length) :
      Moves .reads (.reading values count) (.reading values (count + 1))

namespace FileTable

variable {f : String} {t t' : FileTable} {values : List Value} {count : Nat}

/-- Only the entry of the file matters. -/
theorem fits_congr {p : Passage} (h : t'.find? f = t.find? f) : p.Fits f t' ↔ p.Fits f t := by
  cases p <;> simp only [Passage.Fits, h]

theorem requireOpen_of_find? {h : FileHandle} (hfound : t.find? f = some h)
    (hopen : h.isOpen = true) : t.requireOpen f = .ok h := by
  simp only [requireOpen, hfound, hopen, if_true]

variable (hf : f.isEmpty = false)
include hf

theorem checkName_of_ne : checkName f = .ok () := by
  rw [checkName, hf]
  rfl

theorem openAs_of_closed {h : FileHandle} {mode : FileMode} {upload : Upload}
    (hclosed : ∀ g ∈ t.find? f, g.isOpen = false)
    (hnew : opening f (t.find? f) upload mode = .ok h) :
    t.openAs f mode.name upload = .ok (h, t.put f h) := by
  have hopen : ((t.find? f).map FileHandle.isOpen).getD false = false := by
    cases hfound : t.find? f with
    | none => rfl
    | some g => exact hclosed g hfound
  simp [openAs, checkName_of_ne hf, hopen, ofName?_name, hnew, bind, Except.bind, pure, Except.pure]

/-- **Opening** a file at a stage, which needs no text from the host. -/
theorem openAs_of_fits {mode : String} {p p' : Passage} (hfits : p.Fits f t)
    (hmoves : p.Moves (.opens mode) p') :
    t.wantsUpload f mode = false ∧
      ∃ h t', t.openAs f mode .missing = .ok (h, t') ∧ p'.Fits f t' := by
  cases hmoves with
  | start =>
    have hname : (FileMode.write.name == FileMode.read.name) = false := by decide
    refine ⟨by simp [wantsUpload, hname], _, _, openAs_of_closed hf hfits rfl, ?_⟩
    exact ⟨_, find?_put_self t f _, rfl, by simp, rfl⟩
  | append values =>
    obtain ⟨h, hfound, hclosed, hshows⟩ := hfits
    have hname : (FileMode.append.name == FileMode.read.name) = false := by decide
    have hold : ∀ g ∈ t.find? f, g.isOpen = false := by
      rintro g hg
      cases hfound.symm.trans hg
      exact hclosed
    have hnew : opening f (t.find? f) .missing .append =
        .ok { mode := .append, lines := h.lines, position := h.lines.size } := by
      rw [hfound]
      rfl
    refine ⟨by simp [wantsUpload, hname], _, _, openAs_of_closed hf hold hnew, ?_⟩
    exact ⟨_, find?_put_self t f _, rfl, by simp, hshows⟩
  | read values =>
    obtain ⟨h, hfound, hclosed, hshows⟩ := hfits
    have hold : ∀ g ∈ t.find? f, g.isOpen = false := by
      rintro g hg
      cases hfound.symm.trans hg
      exact hclosed
    have hnew : opening f (t.find? f) .missing .read = .ok { mode := .read, lines := h.lines } := by
      rw [hfound]
      rfl
    refine ⟨by simp [wantsUpload, hfound], _, _, openAs_of_closed hf hold hnew, ?_⟩
    exact ⟨_, find?_put_self t f _, rfl, rfl, rfl, hshows⟩

/-- **Closing** a file that is being written. -/
theorem close_of_fits (hfits : (Passage.writing values).Fits f t) :
    ∃ h t', t.close f = .ok (h, t') ∧ (Passage.written values).Fits f t' := by
  obtain ⟨h, hfound, hopen, hmode, hshows⟩ := hfits
  refine ⟨h, t.put f { h with isOpen := false }, ?_, _, find?_put_self t f _, rfl, hshows⟩
  obtain ⟨mode, lines, position, isOpen⟩ := h
  cases mode with
  | read => exact absurd rfl hmode
  | _ =>
    simp only [close, checkName_of_ne hf, requireOpen_of_find? hfound hopen, bind,
      Except.bind, pure, Except.pure]

/-- **Writing** a value. -/
theorem write_of_fits {v : Value} {line : String} (hfits : (Passage.writing values).Fits f t)
    (hline : v.shown? = some line) :
    ∃ t', t.write f line = .ok t' ∧ (Passage.writing (values ++ [v])).Fits f t' := by
  obtain ⟨h, hfound, hopen, hmode, hshows⟩ := hfits
  refine ⟨t.put f { h with lines := h.lines.push line, position := (h.lines.push line).size }, ?_,
    _, find?_put_self t f _, hopen, hmode, hshows.push hline⟩
  obtain ⟨mode, lines, position, isOpen⟩ := h
  cases mode with
  | read => exact absurd rfl hmode
  | _ =>
    simp only [write, checkName_of_ne hf, requireOpen_of_find? hfound hopen, bind,
      Except.bind, pure, Except.pure]

/-- **Reading** the next value. -/
theorem next_of_fits {v : Value} (hfits : (Passage.reading values count).Fits f t)
    (hv : values[count]? = some v) :
    ∃ line t', t.next f = .ok (line, t') ∧ v.shown? = some line ∧
      (Passage.reading values (count + 1)).Fits f t' := by
  obtain ⟨h, hfound, hopen, hmode, rfl, hshows⟩ := hfits
  obtain ⟨line, hline, hshown⟩ := hshows.getElem? hv
  refine ⟨line, t.put f { h with position := h.position + 1 }, ?_, hshown, _, find?_put_self t f _,
    hopen, hmode, rfl, hshows⟩
  simp only [next, checkName_of_ne hf, requireOpen_of_find? hfound hopen, bind, Except.bind, pure,
    Except.pure, hmode, hline]

/-- There is nothing to read once all values have been. -/
theorem next_pastEnd (hfits : (Passage.reading values count).Fits f t)
    (hend : values.length ≤ count) : t.next f = .error (.pastEnd f) := by
  obtain ⟨h, hfound, hopen, hmode, rfl, hshows⟩ := hfits
  have hline : h.lines[h.position]? = none := by
    rw [Array.getElem?_eq_none]
    rw [hshows.size_eq]
    exact hend
  simp only [next, checkName_of_ne hf, requireOpen_of_find? hfound hopen, bind,
    Except.bind, hmode, hline]

omit hf in
theorem atEnd_of_fits (hfits : (Passage.reading values count).Fits f t) :
    t.atEnd f = .ok (decide (values.length ≤ count)) := by
  obtain ⟨h, hfound, hopen, hmode, rfl, hshows⟩ := hfits
  simp only [atEnd, requireOpen_of_find? hfound hopen, bind, Except.bind, pure, Except.pure,
    hmode, hshows.size_eq]

/-- Whatever text the host has for the file, a deed that belongs to the stage succeeds and leads to
the next one. -/
theorem perform_of_fits {deed : Deed} {p p' : Passage} (hfits : p.Fits f t)
    (hmoves : p.Moves deed p') :
    ∃ op reply t', deed.op? f = some op ∧ p'.Fits f t' ∧
      ∀ uploads, t.perform uploads op = .ok (reply, t') := by
  cases deed with
  | opens mode =>
    obtain ⟨hwants, h, t', hopen, hfits'⟩ := openAs_of_fits hf hfits hmoves
    refine ⟨_, .opened h, t', rfl, hfits', fun uploads => ?_⟩
    rw [perform, uploadFor, hwants, if_neg Bool.false_ne_true, hopen]
    rfl
  | closes =>
    cases hmoves with
    | close =>
      obtain ⟨h, t', hclose, hfits'⟩ := close_of_fits hf hfits
      refine ⟨_, .closed h, t', rfl, hfits', fun uploads => ?_⟩
      rw [perform, hclose]
      rfl
  | writes v =>
    cases hmoves with
    | write hv =>
      obtain ⟨line, hline, -⟩ := hv.reread
      obtain ⟨t', hwrite, hfits'⟩ := write_of_fits hf hfits hline
      refine ⟨.writes f line, .written, t', Option.map_eq_some_iff.mpr ⟨line, hline, rfl⟩,
        hfits', fun uploads => ?_⟩
      rw [perform, hwrite]
      rfl
  | reads =>
    cases hmoves with
    | next hcount =>
      obtain ⟨line, t', hnext, -, hfits'⟩ := next_of_fits hf hfits (List.getElem?_eq_getElem hcount)
      refine ⟨_, .line line, t', rfl, hfits', fun uploads => ?_⟩
      rw [perform, hnext]
      rfl

theorem Does.fits {deed : Deed} {p p' : Passage} (h : t.Does f deed t') (hfits : p.Fits f t)
    (hmoves : p.Moves deed p') : p'.Fits f t' := by
  obtain ⟨op, uploads, reply, hop, hdone⟩ := h
  obtain ⟨op', reply', t₁, hop', hfits', hsucceeds⟩ := perform_of_fits hf hfits hmoves
  cases hop.symm.trans hop'
  cases hdone.symm.trans (hsucceeds uploads)
  exact hfits'

omit hf in
theorem Does.find?_of_ne {g : String} {deed : Deed} (h : t.Does g deed t') (hne : g ≠ f) :
    t'.find? f = t.find? f := by
  obtain ⟨op, uploads, reply, hop, hdone⟩ := h
  exact find?_perform_of_ne (by rwa [Deed.name_of_op? hop]) hdone

end FileTable

end Pseudocode

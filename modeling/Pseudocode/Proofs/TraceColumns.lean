import Mathlib.Data.List.Lex
import Mathlib.Data.Prod.Lex
import Mathlib.Data.String.Basic
import Pseudocode.Proofs.CommaSeparated
import Pseudocode.Proofs.LineScanning
import Pseudocode.Proofs.Snapshots
import Pseudocode.Proofs.Tracing

/-!
# The columns of a trace

The names of the columns are texts: a scalar has its own name, and an element the name of its array
with the indices in brackets (`elementKey`). To put the elements in order the names are taken apart
again (`ElementKey.ofName`). A name of the language has no bracket in it and the bounds of an array
are numbers that can be written, so what is taken apart is what was put together. That the globals
of a program have such names and bounds is kept along its run (`Memory.Legible`).

Results:
* `elementKey_inj`: elements with different arrays or indices have different names, however large
  the indices are.
* `ElementKey.ofName_elementKey`: the name of an element is taken apart into its array and its
  indices.
* `ElementKey.le_iff`: elements are put in order by array, and then by indices as numbers.
* `keyed_of_snapshot`: the names in a snapshot are such names, and differ.
* `trace_columns_are_in_order`: the columns of the trace of a program.
-/

namespace Pseudocode

open Number (writeLimit)

/-! ## Names of elements -/

theorem cutAt_of_not_mem {c : Char} {cs : List Char} (h : c ∉ cs) : Text.cutAt c cs = [cs] := by
  induction cs with
  | nil => rfl
  | cons d cs ih =>
    have hd : ¬(d == c) = true := fun hd => h (beq_iff_eq.mp hd ▸ List.mem_cons_self)
    rw [Text.cutAt, if_neg hd, ih fun hc => h (List.mem_cons_of_mem d hc)]

/-- A text that is cut at the separators it was joined with falls into the same pieces. -/
theorem cutAt_intercalate {c : Char} {pieces : List (List Char)} (hne : pieces ≠ [])
    (h : ∀ p ∈ pieces, c ∉ p) : Text.cutAt c ([c].intercalate pieces) = pieces := by
  induction pieces with
  | nil => exact absurd rfl hne
  | cons p rest ih =>
    have hp : Text.cutAt c p = [p] := cutAt_of_not_mem (h p List.mem_cons_self)
    cases rest with
    | nil => rw [List.intercalate_singleton, hp]
    | cons q rest =>
      rw [List.intercalate_cons_cons, List.append_assoc, List.singleton_append, cutAt_break, hp,
        ih (List.cons_ne_nil q rest) fun r hr => h r (List.mem_cons_of_mem p hr)]
      rfl

/-- The indices of an element as its name shows them. -/
def indexPieces (indices : List Int) : List (List Char) :=
  indices.map fun i => (toString i).toList

theorem mem_toString_int {i : Int} {c : Char} (h : c ∈ (toString i).toList) :
    c ∈ "-0123456789".toList := by
  have hsub : ∀ d ∈ "0123456789".toList, d ∈ "-0123456789".toList :=
    List.forall_iff_forall_mem.mp (by decide)
  have hdigits : ∀ c ∈ Nat.toDigits 10 i.natAbs, c ∈ "-0123456789".toList := fun c hc =>
    hsub c (Number.mem_digits (Number.isDigits_toDigits _ c hc))
  rw [Number.toString_int, String.toList_ofList] at h
  split at h
  · rcases List.mem_cons.mp h with rfl | h
    · decide
    · exact hdigits c h
  · exact hdigits c h

theorem toString_int_ne_nil (i : Int) : (toString i).toList ≠ [] := by
  rw [Number.toString_int, String.toList_ofList]
  split
  · exact List.cons_ne_nil _ _
  · exact Nat.toDigits_ne_nil

theorem not_mem_intercalate {c d : Char} (hcd : d ≠ c) {pieces : List (List Char)}
    (h : ∀ p ∈ pieces, d ∉ p) : d ∉ [c].intercalate pieces := by
  induction pieces with
  | nil => simp
  | cons p rest ih =>
    have hp : d ∉ p := h p List.mem_cons_self
    cases rest with
    | nil => rwa [List.intercalate_singleton]
    | cons q rest =>
      have hrest := ih fun r hr => h r (List.mem_cons_of_mem p hr)
      rw [List.intercalate_cons_cons]
      simp [hp, hcd, hrest]

theorem not_mem_indexPieces {indices : List Int} {c : Char} (hc : c ∉ "-0123456789".toList) :
    ∀ p ∈ indexPieces indices, c ∉ p := by
  intro p hp hmem
  obtain ⟨i, -, rfl⟩ := List.mem_map.mp hp
  exact hc (mem_toString_int hmem)

theorem toString_int_injective : Function.Injective fun i : Int => (toString i).toList := by
  intro i j h
  have hminus : ∀ k, '-' ∉ Nat.toDigits 10 k := fun k hk =>
    absurd (Number.isDigits_toDigits k _ hk) (by decide)
  have habs : ∀ {k l : Nat}, Nat.toDigits 10 k = Nat.toDigits 10 l → k = l := fun {k l} h => by
    rw [← Number.digitsValue_toDigits k, h, Number.digitsValue_toDigits]
  dsimp only at h
  rw [Number.toString_int, Number.toString_int, String.toList_ofList, String.toList_ofList] at h
  split at h <;> split at h
  · have := habs (List.cons.inj h).2
    omega
  · exact absurd (h ▸ List.mem_cons_self) (hminus _)
  · exact absurd (h.symm ▸ List.mem_cons_self) (hminus _)
  · have := habs h
    omega

/-- What stands between the brackets tells the indices. -/
theorem indexPieces_inj {is js : List Int}
    (h : [','].intercalate (indexPieces is) = [','].intercalate (indexPieces js)) : is = js := by
  have hcut : ∀ {ks : List Int}, ks ≠ [] →
      Text.cutAt ',' ([','].intercalate (indexPieces ks)) = indexPieces ks :=
    fun hks =>
      cutAt_intercalate (by simpa [indexPieces] using hks) (not_mem_indexPieces (by decide))
  -- no index is written as nothing, so no indices differ from any
  have hnone : ∀ {ks : List Int}, [','].intercalate (indexPieces ks) = [] → ks = [] := by
    intro ks hks
    by_contra hne
    have hpieces := hcut hne
    rw [hks] at hpieces
    obtain ⟨k, rest, rfl⟩ := List.exists_cons_of_ne_nil hne
    exact toString_int_ne_nil k (List.cons.inj hpieces).1.symm
  by_cases his : is = []
  · rw [his] at h ⊢
    exact (hnone h.symm).symm
  · have hjs : js ≠ [] := by
      rintro rfl
      exact his (hnone h)
    have hpieces : indexPieces is = indexPieces js := by rw [← hcut his, h, hcut hjs]
    exact List.map_injective_iff.mpr toString_int_injective hpieces

theorem toList_elementKey (name : String) (indices : List Int) :
    (elementKey name indices).toList = name.toList ++
      '[' :: ([','].intercalate (indexPieces indices) ++ [']']) := by
  simp [elementKey, String.toList_intercalate, indexPieces, Function.comp_def]

theorem isName_bracket {name : String} (h : IsName name) : '[' ∉ name.toList := by
  obtain ⟨⟨c, rest, hname, hstart, hrest⟩, -⟩ := h
  have hbracket : Text.isWord '[' = false := by decide +kernel
  intro hmem
  rw [hname] at hmem
  rcases List.mem_cons.mp hmem with rfl | hmem
  · rw [Text.isWordStart, hbracket] at hstart
    cases hstart
  · rw [hrest _ hmem] at hbracket
    cases hbracket

/-- A name of an element is cut before the bracket. -/
theorem cut_bracket {cs : List Char} (h : '[' ∉ cs) (rest : List Char) :
    (cs ++ '[' :: rest).takeWhile (· != '[') = cs ∧
      (cs ++ '[' :: rest).dropWhile (· != '[') = '[' :: rest := by
  have hcs : ∀ c ∈ cs, (c != '[') = true := fun c hc => bne_iff_ne.mpr (ne_of_mem_of_not_mem hc h)
  rw [List.takeWhile_append_of_pos hcs, List.dropWhile_append_of_pos hcs]
  simp

/-- The bracket behind the indices is dropped. -/
theorem strip_bracket {cs : List Char} (h : ']' ∉ cs) :
    ((cs ++ [']']).reverse.dropWhile (· == ']')).reverse = cs := by
  have hcs : ∀ c ∈ cs.reverse, ¬(c == ']') = true :=
    fun c hc hb => h (beq_iff_eq.mp hb ▸ List.mem_reverse.mp hc)
  rw [List.reverse_append, List.reverse_singleton, List.singleton_append,
    List.dropWhile_cons_of_pos (by simp)]
  cases hrev : cs.reverse with
  | nil => exact (List.reverse_eq_nil_iff.mp hrev).symm
  | cons c rest =>
    have hc : ¬(c == ']') = true := hcs c (hrev ▸ List.mem_cons_self)
    rw [List.dropWhile_cons_of_neg (p := (· == ']')) hc, ← hrev, List.reverse_reverse]

/-- **Different elements have different names.** -/
theorem elementKey_inj {name name' : String} {is js : List Int} (hn : '[' ∉ name.toList)
    (hn' : '[' ∉ name'.toList) (h : elementKey name is = elementKey name' js) :
    name = name' ∧ is = js := by
  have hchars := congrArg String.toList h
  rw [toList_elementKey, toList_elementKey] at hchars
  have hbase := congrArg (List.takeWhile (· != '[')) hchars
  have hinner := congrArg (List.dropWhile (· != '[')) hchars
  rw [(cut_bracket hn _).1, (cut_bracket hn' _).1] at hbase
  rw [(cut_bracket hn _).2, (cut_bracket hn' _).2] at hinner
  exact ⟨String.toList_inj.mp hbase,
    indexPieces_inj (List.append_cancel_right (List.cons.inj hinner).2)⟩

namespace ElementKey

theorem mapM_liberalWhole? {indices : List Int} (h : ∀ i ∈ indices, i.natAbs < writeLimit) :
    ((indexPieces indices).mapM fun part => Number.liberalWhole? (String.ofList part)) =
      some indices := by
  induction indices with
  | nil => rfl
  | cons i rest ih =>
    have hi : Number.liberalWhole? (String.ofList (toString i).toList) = some i := by
      rw [String.ofList_toList]
      exact Number.liberalWhole?_toString (h i List.mem_cons_self)
    have hrest := ih fun j hj => h j (List.mem_cons_of_mem i hj)
    rw [indexPieces, List.map_cons, List.mapM_cons, hi]
    rw [indexPieces] at hrest
    rw [hrest]
    rfl

/-- **The name of an element is taken apart** into the array and the indices. -/
theorem ofName_elementKey {name : String} (hn : '[' ∉ name.toList) {indices : List Int}
    (h : ∀ i ∈ indices, i.natAbs < writeLimit) :
    ofName (elementKey name indices) = ⟨name, indices⟩ := by
  have hclosing : ']' ∉ [','].intercalate (indexPieces indices) :=
    not_mem_intercalate (by decide) (not_mem_indexPieces (by decide))
  unfold ofName
  dsimp only
  rw [toList_elementKey, (cut_bracket hn _).1, (cut_bracket hn _).2, List.drop_one, List.tail_cons,
    strip_bracket hclosing, String.ofList_toList]
  by_cases hne : indices = []
  · subst hne
    have hblank : Number.liberalWhole? (String.ofList []) = none := by decide +kernel
    simp [indexPieces, Text.cutAt, hblank]
  · rw [cutAt_intercalate (by simpa [indexPieces] using hne) (not_mem_indexPieces (by decide)),
      mapM_liberalWhole? h]
    rfl

/-! ## The order of elements -/

/-- The order of elements: by the name of the array, and in one array by the indices as numbers. -/
def Before (a b : ElementKey) : Prop :=
  a.base < b.base ∨ a.base = b.base ∧ a.indices < b.indices

theorem indicesLe_iff {is js : List Int} : indicesLe is js = true ↔ is ≤ js := by
  rw [← not_lt]
  induction is generalizing js with
  | nil => simp [indicesLe]
  | cons i is ih =>
    cases js with
    | nil => simp [indicesLe]
    | cons j js =>
      rw [indicesLe, List.cons_lt_cons_iff]
      by_cases hij : i = j
      · simp [hij, ih]
      · simp only [if_neg hij, decide_eq_true_iff]
        omega

/-- **Elements are put in order by array, and then by indices.** -/
theorem le_iff {a b : ElementKey} :
    a.le b = true ↔ toLex (a.base, a.indices) ≤ toLex (b.base, b.indices) := by
  rw [le, Prod.Lex.toLex_le_toLex]
  by_cases hbase : a.base = b.base
  · simp [hbase, indicesLe_iff]
  · simp [hbase]

theorem before_of_le {a b : ElementKey} (h : a.le b = true) (hne : a ≠ b) : a.Before b := by
  rcases Prod.Lex.toLex_le_toLex.mp (le_iff.mp h) with hlt | ⟨hbase, hle⟩
  · exact .inl hlt
  · refine .inr ⟨hbase, lt_of_le_of_ne hle fun hindices => hne ?_⟩
    cases a
    cases b
    simp_all

end ElementKey

/-! ## Columns -/

/-- What a column is named after: a scalar, or an element whose indices can be written. -/
def IsColumn (key : String) : Prop :=
  IsName key ∨ ∃ e : ElementKey, IsName e.base ∧ (∀ i ∈ e.indices, i.natAbs < writeLimit) ∧
    key = elementKey e.base e.indices

/-- A row with an entry for each of its columns, and no other. -/
structure TraceRow.Keyed (row : TraceRow) : Prop where
  columns : ∀ key ∈ row.globals.names, IsColumn key
  distinct : row.globals.names.Nodup

theorem isElementName_iff {name : String} : isElementName name = true ↔ '[' ∈ name.toList := by
  rw [isElementName, List.contains_iff_mem]

/-- A column is that of a scalar or that of an element, as its name tells. -/
theorem IsColumn.cases {key : String} (h : IsColumn key) :
    isElementName key = false ∧ IsName key ∨
      isElementName key = true ∧ IsName (ElementKey.ofName key).base ∧
      elementKey (ElementKey.ofName key).base (ElementKey.ofName key).indices = key := by
  rcases h with hname | ⟨⟨base, indices⟩, hbase, hindices, rfl⟩
  · refine .inl ⟨?_, hname⟩
    rw [← Bool.not_eq_true, isElementName_iff]
    exact isName_bracket hname
  · rw [ElementKey.ofName_elementKey (isName_bracket hbase) hindices]
    refine .inr ⟨?_, hbase, rfl⟩
    rw [isElementName_iff, toList_elementKey]
    simp

theorem nodup_eraseDups {α : Type} [DecidableEq α] (l : List α) : l.eraseDups.Nodup := by
  induction hn : l.length using Nat.strong_induction_on generalizing l with
  | _ n ih =>
    cases l with
    | nil => simp
    | cons x rest =>
      rw [List.eraseDups_cons, List.nodup_cons, List.mem_eraseDups]
      have hlength := List.length_filter_le (fun y => !y == x) rest
      rw [List.length_cons] at hn
      exact ⟨by simp, ih _ (by omega) _ rfl⟩

section Columns

variable {rows : List TraceRow}

theorem columnNames_perm (rows : List TraceRow) :
    (columnNames rows).Perm (rows.flatMap fun r => r.globals.names).eraseDups := by
  unfold columnNames
  dsimp only
  refine ((List.mergeSort_perm _ _).append (List.mergeSort_perm _ _)).trans ?_
  refine List.perm_append_comm.trans ?_
  exact List.filter_append_perm isElementName _

/-- There is a column for each name in any of the rows. -/
theorem mem_columnNames {key : String} :
    key ∈ columnNames rows ↔ ∃ row ∈ rows, key ∈ row.globals.names := by
  rw [(columnNames_perm rows).mem_iff, List.mem_eraseDups, List.mem_flatMap]

theorem nodup_columnNames (rows : List TraceRow) : (columnNames rows).Nodup :=
  (columnNames_perm rows).nodup_iff.mpr (nodup_eraseDups _)

/-- Scalars in the order of their code points, and after them elements by array and indices. -/
def Arranged (names : List String) : Prop :=
  ∃ (scalars : List String) (elements : List ElementKey),
    names = scalars ++ elements.map (fun e => elementKey e.base e.indices) ∧
      (∀ name ∈ scalars, IsName name) ∧ scalars.Pairwise (· < ·) ∧
      (∀ e ∈ elements, IsName e.base) ∧ elements.Pairwise ElementKey.Before

/-- Scalars that differ, put in order. -/
theorem pairwise_scalars {names : List String} (h : names.Nodup) :
    (names.mergeSort fun a b => decide (a ≤ b)).Pairwise (· < ·) := by
  have hsorted : (names.mergeSort fun a b => decide (a ≤ b)).Pairwise fun a b =>
      decide (a ≤ b) = true := by
    refine List.pairwise_mergeSort (fun a b c hab hbc => ?_) (fun a b => ?_) names
    · simp only [decide_eq_true_iff] at hab hbc ⊢
      exact hab.trans hbc
    · simpa using le_total a b
  have hnodup := (List.mergeSort_perm names fun a b => decide (a ≤ b)).nodup_iff.mpr h
  exact (hsorted.and hnodup).imp fun hab => lt_of_le_of_ne (of_decide_eq_true hab.1) hab.2

/-- Elements that differ, put in order. -/
theorem pairwise_elements {names : List String} (h : (names.map ElementKey.ofName).Nodup) :
    ((names.mergeSort fun a b =>
      (ElementKey.ofName a).le (ElementKey.ofName b)).map ElementKey.ofName).Pairwise
      ElementKey.Before := by
  have hsorted :
      (names.mergeSort fun a b => (ElementKey.ofName a).le (ElementKey.ofName b)).Pairwise
      fun a b => (ElementKey.ofName a).le (ElementKey.ofName b) = true := by
    refine List.pairwise_mergeSort (fun a b c hab hbc => ?_) (fun a b => ?_) names
    · exact ElementKey.le_iff.mpr ((ElementKey.le_iff.mp hab).trans (ElementKey.le_iff.mp hbc))
    · rw [Bool.or_eq_true, ElementKey.le_iff, ElementKey.le_iff]
      exact le_total _ _
  have hnodup := ((List.mergeSort_perm names fun a b =>
    (ElementKey.ofName a).le (ElementKey.ofName b)).map ElementKey.ofName).nodup_iff.mpr h
  rw [List.pairwise_map]
  exact (hsorted.and (List.pairwise_map.mp hnodup)).imp fun hab =>
    ElementKey.before_of_le hab.1 hab.2

/-- **The columns are in order**, first the scalars and then the elements. -/
theorem arranged_columnNames (h : ∀ key ∈ columnNames rows, IsColumn key) :
    Arranged (columnNames rows) := by
  have hcolumn : ∀ key ∈ (rows.flatMap fun r => r.globals.names).eraseDups, IsColumn key :=
    fun key hkey => h key ((columnNames_perm rows).mem_iff.mpr hkey)
  have hnodup := nodup_eraseDups (rows.flatMap fun r => r.globals.names)
  unfold columnNames
  dsimp only
  generalize (rows.flatMap fun r => r.globals.names).eraseDups = names at hcolumn hnodup ⊢
  have helement : ∀ key ∈ names.filter isElementName, IsName (ElementKey.ofName key).base ∧
      elementKey (ElementKey.ofName key).base (ElementKey.ofName key).indices = key := by
    intro key hkey
    obtain ⟨hmem, hbracket⟩ := List.mem_filter.mp hkey
    rcases (hcolumn key hmem).cases with ⟨hplain, -⟩ | ⟨-, hparts⟩
    · rw [hbracket] at hplain
      cases hplain
    · exact hparts
  -- the names of elements differ, so what they are taken apart into differs
  have hdistinct : ((names.filter isElementName).map ElementKey.ofName).Nodup := by
    refine (hnodup.filter _).map_on fun a ha b hb heq => ?_
    rw [← (helement a ha).2, ← (helement b hb).2, heq]
  refine ⟨_, _, congrArg _ ?_, ?_, pairwise_scalars (hnodup.filter _), ?_,
    pairwise_elements hdistinct⟩
  · rw [List.map_map]
    refine (List.map_id _).symm.trans (List.map_congr_left fun key hkey => ?_)
    exact (helement key (List.mem_mergeSort.mp hkey)).2.symm
  · intro key hkey
    obtain ⟨hmem, hplain⟩ := List.mem_filter.mp (List.mem_mergeSort.mp hkey)
    rcases (hcolumn key hmem).cases with ⟨-, hname⟩ | ⟨hbracket, -⟩
    · exact hname
    · simp [hbracket] at hplain
  · intro e he
    obtain ⟨key, hkey, rfl⟩ := List.mem_map.mp he
    exact (helement key (List.mem_mergeSort.mp hkey)).1

end Columns

/-! ## Cells -/

/-- The cell of a row under a name: what the row shows of it, or a dash. -/
structure TraceRow.ShowsAt (row : TraceRow) (columns : List String) (i : Nat) (key : String) :
    Prop where
  head : (traceHeader columns)[i + 3]? = some key
  shown : ∀ text, (key, text) ∈ row.globals.entries → (row.cells columns)[i + 3]? = some text
  unset : key ∉ row.globals.names → (row.cells columns)[i + 3]? = some unsetText

theorem TraceRow.Keyed.showsAt {row : TraceRow} (h : row.Keyed) {columns : List String} {i : Nat}
    {key : String} (hi : columns[i]? = some key) : row.ShowsAt columns i key := by
  have hlt : i < columns.length := (List.getElem?_eq_some_iff.mp hi).1
  have hcell : (row.cells columns)[i + 3]? = some ((row.globals.find? key).getD unsetText) := by
    rw [TraceRow.cells, List.append_assoc, List.getElem?_append_right (by simp), List.length_cons]
    rw [List.getElem?_append_left (by simpa using hlt)]
    simp [hi]
  refine ⟨?_, fun text htext => ?_, fun hout => ?_⟩
  · rw [traceHeader, List.append_assoc, List.getElem?_append_right (by simp)]
    rw [List.getElem?_append_left (by simpa using hlt)]
    simpa using hi
  · have hfind : row.globals.find? key = some text := (Table.findIn_eq_some h.distinct).mpr htext
    rw [hcell, hfind, Option.getD_some]
  · have hfind : row.globals.find? key = none := by
      rw [Option.eq_none_iff_forall_ne_some]
      intro text htext
      exact hout (List.mem_map_of_mem ((Table.findIn_eq_some h.distinct).mp htext))
    rw [hcell, hfind, Option.getD_none]

/-! ## Snapshots -/

/-- The indices of a cell can be written if the bounds can. -/
theorem Bounds.InBox.legible {bounds : Bounds} {indices : List Int} (h : bounds.InBox indices)
    (hbounds : ∀ d ∈ bounds, d.1.natAbs < writeLimit ∧ d.2.natAbs < writeLimit) :
    ∀ i ∈ indices, i.natAbs < writeLimit := by
  induction h with
  | nil => exact fun i hi => absurd hi List.not_mem_nil
  | @cons d i _ _ hin _ ih =>
    intro j hj
    rcases List.mem_cons.mp hj with rfl | hj
    · have hd := hbounds d List.mem_cons_self
      omega
    · exact ih (fun e he => hbounds e (List.mem_cons_of_mem d he)) j hj

/-- The names that a trace has for a variable: its own, or those of the assigned elements of an
array. -/
def Variable.columns (name : String) : Variable → List String
  | .array _ grid => grid.assigned.map fun e => elementKey name e.1
  | _ => [name]

/-- What is listed of each element in turn. -/
theorem map_of_mapM {α β γ : Type} {f : α → Attempt β} {g : β → γ} {k : α → γ} {l : List α}
    {ys : List β} (hf : ∀ x ∈ l, ∀ y, f x = .ok y → g y = k x) (h : l.mapM f = .ok ys) :
    ys.map g = l.map k := by
  induction l generalizing ys with
  | nil =>
    cases h
    rfl
  | cons x rest ih =>
    rw [List.mapM_cons] at h
    obtain ⟨y, hy, h⟩ := except_bind_eq_ok.mp h
    obtain ⟨zs, hzs, h⟩ := except_bind_eq_ok.mp h
    cases h
    have hrest := ih (fun x hx => hf x (List.mem_cons_of_mem _ hx)) hzs
    rw [List.map_cons, List.map_cons, hf x List.mem_cons_self y hy, hrest]

theorem Variable.Sound.columns_eq {v : Variable} (hv : v.Sound) {name : String}
    {cells : List (String × String)} (h : shownCells name v = .ok cells) :
    cells.map Prod.fst = v.columns name := by
  cases hv with
  | @scalar type held ht _ =>
    have harray := Variable.isArray_scalar ht held
    rw [shownCells, harray] at h
    cases held with
    | none =>
      cases h
      rfl
    | some value =>
      obtain ⟨text, -, h⟩ := except_bind_eq_ok.mp h
      cases h
      rfl
  | @array element grid _ _ =>
    refine map_of_mapM (fun e _ cell hcell => ?_) h
    obtain ⟨text, -, hcell⟩ := except_bind_eq_ok.mp hcell
    cases hcell
    rfl

section Names

variable {name key : String} {v : Variable} (hname : IsName name)
include hname

/-- Before the bracket of a column stands the name of the variable. -/
theorem base_of_mem_columns (h : key ∈ v.columns name) :
    key.toList.takeWhile (· != '[') = name.toList := by
  have hscalar : name.toList.takeWhile (· != '[') = name.toList := by
    rw [List.takeWhile_eq_self_iff]
    exact fun c hc => bne_iff_ne.mpr (ne_of_mem_of_not_mem hc (isName_bracket hname))
  cases v with
  | array element grid =>
    obtain ⟨e, -, rfl⟩ := List.mem_map.mp h
    rw [toList_elementKey]
    exact (cut_bracket (isName_bracket hname) _).1
  | scalar type held =>
    rw [List.mem_singleton.mp h]
    exact hscalar
  | replaced element grid value =>
    rw [List.mem_singleton.mp h]
    exact hscalar

theorem isColumn_of_mem_columns (hv : v.Legible) (h : key ∈ v.columns name) : IsColumn key := by
  cases v with
  | array element grid =>
    obtain ⟨⟨indices, value⟩, hmem, rfl⟩ := List.mem_map.mp h
    refine .inr ⟨⟨name, indices⟩, hname, ?_, rfl⟩
    have hread : grid.get name indices = .ok value := Grid.mem_assigned.mp hmem
    exact (Grid.get_eq_ok.mp hread).1.legible hv
  | scalar type held => exact .inl (List.mem_singleton.mp h ▸ hname)
  | replaced element grid value => exact .inl (List.mem_singleton.mp h ▸ hname)

theorem nodup_columns (v : Variable) : (v.columns name).Nodup := by
  cases v with
  | array element grid =>
    have hlisted : (grid.assigned.map Prod.fst).map (elementKey name) =
        (Variable.array element grid).columns name := by
      rw [List.map_map]
      rfl
    rw [← hlisted]
    exact grid.nodup_assigned.map fun is js h =>
      (elementKey_inj (isName_bracket hname) (isName_bracket hname) h).2
  | scalar type held => exact List.nodup_singleton name
  | replaced element grid value => exact List.nodup_singleton name

end Names

/-- **The names in a snapshot are those of columns, and differ.** -/
theorem keyed_of_snapshot {m : Machine} (hm : m.Sound) (hl : m.memory.Legible)
    {globals : Table String} (h : m.memory.snapshot = .ok globals) :
    (∀ key ∈ globals.names, IsColumn key) ∧ globals.names.Nodup := by
  have hglobal : ∀ e ∈ m.memory.globalVariables, IsName e.1 ∧ e.2.Legible ∧ e.2.Sound := by
    intro e he
    obtain ⟨l, hbound, hat⟩ := Option.bind_eq_some_iff.mp (Memory.mem_globalVariables.mp he)
    have hlisted : e.1 ∈ m.memory.globals.names :=
      List.mem_map_of_mem ((Table.findIn_eq_some m.memory.distinct).mp hbound)
    exact ⟨hl.names e.1 hlisted, hl.store l e.2 hat, hm.store l.index e.2 hat⟩
  obtain ⟨cells, hcells, h⟩ := except_bind_eq_ok.mp h
  have hplain : (m.memory.globalVariables.all fun e => !e.1.toList.contains '[') = true := by
    rw [List.all_eq_true]
    intro e he
    rw [Bool.not_eq_true', ← Bool.not_eq_true, List.contains_iff_mem]
    exact isName_bracket (hglobal e he).1
  have hshown : (if (m.memory.globalVariables.all fun e => !e.1.toList.contains '[') =
      true then ⟨cells.flatten⟩ else Table.ofList cells.flatten) = globals := Except.ok.inj h
  rw [if_pos hplain] at hshown
  subst hshown
  have hlists : cells.map (List.map Prod.fst) = m.memory.globalVariables.map fun e =>
      e.2.columns e.1 :=
    map_of_mapM (fun e he _ hy => (hglobal e he).2.2.columns_eq hy) hcells
  have hnames : Table.names ⟨cells.flatten⟩ = m.memory.globalVariables.flatMap fun e =>
      e.2.columns e.1 := by
    rw [Table.names, List.map_flatten, hlists, List.flatMap_def]
  rw [hnames]
  refine ⟨fun key hkey =>
    ?_, List.nodup_flatMap.mpr ⟨fun e he => nodup_columns (hglobal e he).1 e.2, ?_⟩⟩
  · obtain ⟨e, he, hkey⟩ := List.mem_flatMap.mp hkey
    exact isColumn_of_mem_columns (hglobal e he).1 (hglobal e he).2.1 hkey
  · have hdistinct := List.pairwise_map.mp m.memory.nodup_globalVariables
    refine hdistinct.imp_of_mem fun {e e'} he he' hne key hkey hkey' => hne ?_
    rw [← String.toList_inj, ← base_of_mem_columns (hglobal e he).1 hkey,
      ← base_of_mem_columns (hglobal e' he').1 hkey']

/-! ## Runs -/

/-- What is recorded of a sound and legible machine is in columns. -/
theorem Recorder.keyed_reply {rec : Recorder} {m : Machine} (hm : m.Sound) (hl : m.memory.Legible)
    (h : ∀ row ∈ rec.rows, row.Keyed) (q : Query) : ∀ row ∈ (rec.reply m q).2.rows, row.Keyed := by
  cases q with
  | ended t =>
    cases ht : t.form.isCompound with
    | true =>
      rw [reply_closed rec m ht]
      exact h
    | false =>
      cases hglobals : m.memory.snapshot with
      | error halt =>
        rw [reply, record, ht, hglobals]
        exact h
      | ok globals =>
        obtain ⟨hcolumns, hdistinct⟩ := keyed_of_snapshot hm hl hglobals
        rw [reply_ended rec m ht hglobals]
        intro row hrow
        rcases Array.mem_push.mp hrow with hold | rfl
        · exact h row hold
        · exact ⟨hcolumns, hdistinct⟩
  | input label type =>
    unfold reply
    cases rec.inputs <;> exact h
  | _ => exact h

theorem keyed_drain {r : Run} (hr : r.Always fun m => m.Sound ∧ m.memory.Legible) {rec : Recorder}
    (h : ∀ row ∈ rec.rows, row.Keyed) :
    ∀ row ∈ (r.drain Recorder.host rec).2.2.rows, row.Keyed := by
  induction r generalizing rec with
  | finished ending m => exact h
  | asking q m resume ih =>
    rw [Recorder.drain_asking]
    exact ih _ _ (hr.after _) (Recorder.keyed_reply hr.here.1 hr.here.2 h q)

/-- The table of a trace: there is a column for each name in any of the rows, the columns are in
order, and every row has a cell for each column of the head. -/
structure Tabulated (rows : List TraceRow) : Prop where
  complete : ∀ key, key ∈ columnNames rows ↔ ∃ row ∈ rows, key ∈ row.globals.names
  distinct : (columnNames rows).Nodup
  arranged : Arranged (columnNames rows)
  even : ∀ cells ∈ traceTable rows, cells.length = (traceHeader (columnNames rows)).length
  cells : ∀ row ∈ rows, ∀ i key, (columnNames rows)[i]? = some key →
    row.ShowsAt (columnNames rows) i key

theorem tabulated_of_keyed {rows : List TraceRow} (h : ∀ row ∈ rows, row.Keyed) :
    Tabulated rows where
  complete _ := mem_columnNames
  distinct := nodup_columnNames rows
  arranged := by
    refine arranged_columnNames fun key hkey => ?_
    obtain ⟨row, hrow, hkey⟩ := mem_columnNames.mp hkey
    exact (h row hrow).columns key hkey
  even cells hcells := by
    rw [length_of_mem_traceTable hcells]
    simp [traceHeader]
  cells row hrow _ _ hi := (h row hrow).showsAt hi

/-- **The columns of a trace are complete, distinct and in order.** Names of elements tell the array
and the indices, and are no names of scalars. -/
theorem trace_columns_are_in_order {source : String} {program : Block}
    (hp : parseSource source = .ok program) {m : Machine} (hm : m.Sound) (hl : m.memory.Legible)
    {rec : Recorder} (hrows : rec.rows = #[]) :
    Tabulated (traceProgram program m rec).2.2.rows.toList ∧
      ∀ name name' : String, IsName name → IsName name' → ∀ is js : List Int,
        elementKey name is ≠ name' ∧
          (elementKey name is = elementKey name' js → name = name' ∧ is = js) := by
  have hsound : Machine.Sound { m with takesInput := true } :=
    ⟨hm.store, hm.procedures, hm.functions⟩
  have hruns : (executeProgram plenty program { m with takesInput := true }).Always
      fun m' => m'.Sound ∧ m'.memory.Legible :=
    (executeProgram_evolves plenty (writable_of_parseSource hp) hsound).imp fun _ h =>
      ⟨h.sound, h.legible hl⟩
  constructor
  · refine tabulated_of_keyed fun row hrow =>
      keyed_drain hruns (fun row hrow => ?_) row (Array.mem_toList_iff.mp hrow)
    rw [hrows] at hrow
    exact absurd hrow (Array.not_mem_empty row)
  · intro name name' hname hname' is js
    refine ⟨fun heq => ?_, elementKey_inj (isName_bracket hname) (isName_bracket hname')⟩
    apply isName_bracket hname'
    rw [← heq, toList_elementKey]
    simp

/-- Scalars that are declared out of order, and an array that is declared again, with other
bounds. -/
def redeclared : String :=
  "DECLARE z, B, b : INTEGER\nDECLARE a : ARRAY[-10:10] OF INTEGER\n" ++
    "a[10] <- 1\na[2] <- 1\na[-1] <- 1\na[-10] <- 1\n" ++
    "DECLARE a : ARRAY[1:2, 9:10] OF INTEGER\na[1, 10] <- 1\na[1, 9] <- 1\n"

theorem redeclared_trace_columns_are_in_order : ∃ program, parseSource redeclared = .ok program ∧
    Machine.Sound {} ∧ Memory.Legible {} ∧ Tabulated (traceProgram program {} {}).2.2.rows.toList ∧
    columnNames (traceProgram program {} {}).2.2.rows.toList =
      ["B", "b", "z", "a[-10]", "a[-1]", "a[1,9]", "a[1,10]", "a[2]", "a[10]"] := by
  have hsound : Machine.Sound {} := Machine.sound_of_empty rfl rfl rfl
  have hlegible : Memory.Legible {} :=
    ⟨fun _ h => absurd h List.not_mem_nil, fun _ _ h => by cases h⟩
  have hparsed : (parseSource redeclared).toOption.map
      (fun program =>
        ((traceProgram program {} {}).2.2.rows.toList.flatMap (·.globals.names)).eraseDups) =
        some ["z", "B", "b", "a[10]", "a[2]", "a[-1]", "a[-10]", "a[1,10]", "a[1,9]"] := by
    decide +kernel
  obtain ⟨program, hp, hnames⟩ := exists_of_parseSource hparsed
  refine ⟨program, hp, hsound, hlegible, (trace_columns_are_in_order hp hsound hlegible rfl).1, ?_⟩
  have hkeys : ["a[10]", "a[2]", "a[-1]", "a[-10]", "a[1,10]", "a[1,9]"].map ElementKey.ofName =
      [⟨"a", [10]⟩, ⟨"a", [2]⟩, ⟨"a", [-1]⟩, ⟨"a", [-10]⟩, ⟨"a", [1, 10]⟩, ⟨"a", [1, 9]⟩] := by
    decide +kernel
  simp only [List.map_cons, List.map_nil, List.cons.injEq] at hkeys
  simp [columnNames, hnames, isElementName, List.mergeSort, List.MergeSort.Internal.splitInTwo,
    hkeys, ElementKey.le, ElementKey.indicesLe]

end Pseudocode

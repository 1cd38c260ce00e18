/-!
# Tables in order of first entry

A table maps names to entries and lists them in the order in which the names were first entered.
Entering a name again replaces its entry and keeps its place; a name that was erased starts over at
the end.
-/

namespace Pseudocode

/-- A table from names to entries of type `α`, oldest name first. -/
structure Table (α : Type) where
  entries : List (String × α) := []
  deriving Repr

namespace Table

variable {α β : Type}

/-- The table without entries. -/
def empty : Table α := {}

/-- The entry of a name in a list of entries. -/
def findIn (name : String) : List (String × α) → Option α
  | [] => none
  | (k, a) :: rest => if k = name then some a else findIn name rest

/-- Replaces the entry of a name in place, or adds it at the end. -/
def insertIn (name : String) (a : α) : List (String × α) → List (String × α)
  | [] => [(name, a)]
  | (k, b) :: rest => if k = name then (k, a) :: rest else (k, b) :: insertIn name a rest

/-- The entry of a name. -/
def find? (t : Table α) (name : String) : Option α :=
  findIn name t.entries

/-- Whether a name has an entry. -/
def contains (t : Table α) (name : String) : Bool :=
  (t.find? name).isSome

/-- Enters `a` under `name`. -/
def insert (t : Table α) (name : String) (a : α) : Table α :=
  ⟨insertIn name a t.entries⟩

/-- Drops the entry of a name. -/
def erase (t : Table α) (name : String) : Table α :=
  ⟨t.entries.filter fun e => e.1 != name⟩

/-- The names, oldest first. -/
def names (t : Table α) : List String :=
  t.entries.map Prod.fst

/-- A table entered from a list; later entries win. -/
def ofList (l : List (String × α)) : Table α :=
  l.foldl (fun t e => t.insert e.1 e.2) empty

/-! ## Lemmas -/

@[simp] theorem find?_empty (name : String) : (empty : Table α).find? name = none := rfl

theorem findIn_insertIn (name other : String) (a : α) (l : List (String × α)) :
    findIn other (insertIn name a l) = if name = other then some a else findIn other l := by
  induction l with
  | nil => simp [insertIn, findIn]
  | cons e rest ih =>
    obtain ⟨k, b⟩ := e
    by_cases hk : k = name
    · subst hk
      by_cases ho : k = other <;> simp [insertIn, findIn, ho]
    · by_cases ho : k = other
      · subst ho
        have hne : ¬name = k := fun h => hk h.symm
        simp [insertIn, findIn, hk, hne]
      · simp [insertIn, findIn, hk, ho, ih]

/-- After an entry, the name has it and every other name is as before. -/
theorem find?_insert (t : Table α) (name other : String) (a : α) :
    (t.insert name a).find? other = if name = other then some a else t.find? other :=
  findIn_insertIn name other a t.entries

theorem names_insertIn (name : String) (a : α) (l : List (String × α)) :
    (insertIn name a l).map Prod.fst =
      if name ∈ l.map Prod.fst then l.map Prod.fst else l.map Prod.fst ++ [name] := by
  induction l with
  | nil => simp [insertIn]
  | cons e rest ih =>
    obtain ⟨k, b⟩ := e
    by_cases hk : k = name
    · simp [insertIn, hk]
    · have hne : ¬name = k := fun h => hk h.symm
      rw [insertIn, if_neg hk]
      show k :: (insertIn name a rest).map Prod.fst = _
      rw [ih]
      by_cases hmem : name ∈ rest.map Prod.fst <;> simp_all

/-- A new name is listed last, and a known one stays where it is; so no name is listed twice. -/
theorem nodup_insert {t : Table α} (ht : t.names.Nodup) (name : String) (a : α) :
    (t.insert name a).names.Nodup := by
  show ((insertIn name a t.entries).map Prod.fst).Nodup
  rw [names_insertIn]
  split
  · exact ht
  · next hnew =>
    rw [List.nodup_append]
    refine ⟨ht, by simp, ?_⟩
    rintro x hx y hy rfl
    exact hnew (List.mem_singleton.mp hy ▸ hx)

/-- If no name is listed twice, a name has just the entry that is listed with it. -/
theorem findIn_eq_some {l : List (String × α)} (hl : (l.map Prod.fst).Nodup)
    {name : String} {a : α} : findIn name l = some a ↔ (name, a) ∈ l := by
  induction l with
  | nil => simp [findIn]
  | cons e rest ih =>
    obtain ⟨k, b⟩ := e
    rw [List.map_cons, List.nodup_cons] at hl
    by_cases hk : k = name
    · subst hk
      have hout : (k, a) ∉ rest := fun h => hl.1 (List.mem_map.mpr ⟨_, h, rfl⟩)
      simp [findIn, hout, eq_comm]
    · have hne : ¬name = k := fun h => hk h.symm
      simp [findIn, hk, hne, ih hl.2]

/-- What holds of all entries and of a new one holds of all afterwards. -/
theorem forall_find?_insert {P : α → Prop} {t : Table α}
    (ht : ∀ name a, t.find? name = some a → P a) {a : α} (ha : P a) {name : String} (other : String)
    (b : α) (h : (t.insert name a).find? other = some b) : P b := by
  rw [find?_insert] at h
  split at h
  · cases h
    exact ha
  · exact ht other b h

theorem findIn_filter_ne (name other : String) (l : List (String × α)) :
    findIn other (l.filter fun e => e.1 != name) = if name = other then none
      else findIn other l := by
  induction l with
  | nil => simp [findIn]
  | cons e rest ih =>
    obtain ⟨k, b⟩ := e
    by_cases hk : k = name
    · subst hk
      by_cases ho : k = other
      · subst ho
        simpa [findIn] using ih
      · simp [findIn, ih, ho]
    · by_cases ho : k = other
      · subst ho
        have hne : ¬name = k := fun h => hk h.symm
        simp [findIn, hk, hne]
      · simp [findIn, hk, ho, ih]

/-- After an erasure the name has no entry and every other name is as before. -/
theorem find?_erase (t : Table α) (name other : String) :
    (t.erase name).find? other = if name = other then none else t.find? other :=
  findIn_filter_ne name other t.entries

end Table

end Pseudocode

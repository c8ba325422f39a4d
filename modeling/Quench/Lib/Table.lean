import Mathlib.Data.List.AList
import Mathlib.Data.List.NodupEquivFin

/-!
# Finite tables

Association lists with unique keys, read as the finite maps a program keeps its bookkeeping in.
`Table K V` is the non-dependent case of `AList`. On top of the lookup laws of `AList` the module
adds `total`, the sum of a measure over all values, with the two balance equations `total_insert`
and `total_erase`. They account for a measure when one entry is replaced or removed.
-/

namespace Quench.Lib

open List Option

/-- A finite map from `K` to `V` with unique keys. -/
abbrev Table (K V : Type) := AList fun _ : K => V

namespace Table

variable {K V : Type} [DecidableEq K]

/-- Looking up after an insertion, for every key at once. -/
theorem lookup_insert_ite (table : Table K V) (key other : K) (value : V) :
    (table.insert key value).lookup other =
      if other = key then some value else table.lookup other := by
  by_cases h : other = key
  · subst h
    simp
  · simp [h, AList.lookup_insert_ne h]

theorem mem_of_lookup {table : Table K V} {key : K} {value : V}
    (h : table.lookup key = some value) : key ∈ table :=
  AList.lookup_isSome.mp (by rw [h]; rfl)

/-- Looking up after an erasure, for every key at once. -/
theorem lookup_erase_ite (table : Table K V) (key other : K) :
    (table.erase key).lookup other = if other = key then none else table.lookup other := by
  by_cases h : other = key
  · subst h
    simp
  · simp [h, AList.lookup_erase_ne h]

/-- The sum of a measure over the values of an association list. -/
def sumOf (measure : V → Nat) : List (Sigma fun _ : K => V) → Nat
  | [] => 0
  | entry :: entries => measure entry.2 + sumOf measure entries

variable (measure : V → Nat)

/-- The sum of a measure over all values of a table. -/
def total (table : Table K V) : Nat := sumOf measure table.entries

variable {table : Table K V} {key other : K} {value : V}

omit [DecidableEq K] in
/-- A table without keys is empty. -/
theorem eq_empty (h : ∀ key, key ∉ table) : table = ∅ := by
  refine AList.ext (eq_nil_iff_forall_not_mem.mpr fun entry hmem => h entry.1 ?_)
  exact mem_keys_of_mem hmem

omit [DecidableEq K] in
@[simp] theorem total_empty : total measure (∅ : Table K V) = 0 := rfl

/-- Erasing a key from an association list removes exactly the measure of its value. -/
theorem sumOf_kerase (key : K) (entries : List (Sigma fun _ : K => V)) :
    sumOf measure (entries.kerase key) + ((entries.dlookup key).map measure).getD 0
      = sumOf measure entries := by
  induction entries with
  | nil => rfl
  | cons entry entries ih =>
    by_cases h : key = entry.1
    · obtain ⟨first, value⟩ := entry
      obtain rfl : key = first := h
      simp only [kerase_cons_eq, dlookup_cons_eq, map_some, getD_some,
        sumOf]
      omega
    · rw [kerase_cons_ne h, dlookup_cons_ne _ _ h]
      simp only [sumOf]
      omega

/-- Erasing a key removes the measure of its value. -/
theorem total_erase (table : Table K V) (key : K) :
    total measure (table.erase key) + ((table.lookup key).map measure).getD 0
      = total measure table :=
  sumOf_kerase measure key table.entries

/-- Inserting a value replaces the measure of the value it overwrites. -/
theorem total_insert (table : Table K V) (key : K) (value : V) :
    total measure (table.insert key value) + ((table.lookup key).map measure).getD 0
      = measure value + total measure table := by
  have herase := total_erase measure table key
  have hinsert : total measure (table.insert key value)
      = measure value + total measure (table.erase key) := by
    rfl
  omega

/-- A value's measure is part of the total. -/
theorem le_total (h : table.lookup key = some value) : measure value ≤ total measure table := by
  have herase := total_erase measure table key
  rw [h] at herase
  simp only [map_some, getD_some] at herase
  omega

/-- Two different keys contribute separately. -/
theorem add_le_total {otherValue : V} (hne : other ≠ key) (h : table.lookup key = some value)
    (hother : table.lookup other = some otherValue) :
    measure value + measure otherValue ≤ total measure table := by
  have herase := total_erase measure table key
  have hrest : (table.erase key).lookup other = some otherValue := by
    rw [lookup_erase_ite, if_neg hne, hother]
  have hle := le_total measure hrest
  rw [h] at herase
  simp only [map_some, getD_some] at herase
  omega

/-! ## Values -/

/-- The values of a table, one for each key. -/
def values (table : Table K V) : List V := table.entries.map Sigma.snd

/-- A value that is looked up is one of the values. -/
theorem mem_values (h : table.lookup key = some value) : value ∈ table.values :=
  mem_map.mpr ⟨⟨key, value⟩, of_mem_dlookup h, rfl⟩

/-- The values are what the keys look up. -/
theorem mem_values_iff : value ∈ table.values ↔ ∃ key, table.lookup key = some value := by
  refine ⟨fun h => ?_, fun ⟨_, h⟩ => mem_values h⟩
  obtain ⟨⟨key, _⟩, hmem, rfl⟩ := mem_map.mp h
  exact ⟨key, AList.mem_lookup_iff.mpr hmem⟩

/-- A new key adds its value. -/
theorem values_insert (h : table.lookup key = none) :
    values (table.insert key value) = value :: values table := by
  have hkey : key ∉ table := AList.lookup_eq_none.mp h
  unfold values
  rw [AList.entries_insert_of_notMem hkey]
  rfl

/-- Erasing a key removes its value once. -/
theorem values_erase (h : table.lookup key = some value) :
    table.values.Perm (value :: values (table.erase key)) := by
  obtain ⟨other, before, after, hbefore, hentries, herase⟩ := exists_of_kerase (mem_of_lookup h)
  have hother : table.lookup key = some other := by
    unfold AList.lookup
    rw [hentries, dlookup_append, dlookup_eq_none.mpr hbefore, dlookup_cons_eq]
    rfl
  obtain rfl : value = other := some.inj (h.symm.trans hother)
  unfold values
  rw [show (table.erase key).entries = table.entries.kerase key from rfl, herase, hentries]
  simp only [map_append, map_cons]
  exact perm_middle

/-- With each value once, different keys have different values. -/
theorem lookup_ne_of_nodup (hnodup : table.values.Nodup) (hne : other ≠ key)
    (h : table.lookup key = some value) : table.lookup other ≠ some value := by
  intro hother
  have hcons := (values_erase h).nodup_iff.mp hnodup
  have hrest : (table.erase key).lookup other = some value := by
    rw [lookup_erase_ite, if_neg hne, hother]
  exact (nodup_cons.mp hcons).1 (mem_values hrest)

end Table

variable {α : Type} {list : List α}

/-- An element counts at most once if it is found at no two positions. -/
theorem count_le_one_iff [BEq α] [LawfulBEq α] {a : α} :
    list.count a ≤ 1 ↔ ∀ i j : Nat, list[i]? = some a → list[j]? = some a → i = j := by
  classical
  cases lawful_beq_subsingleton ‹BEq α› instBEqOfDecidableEq
  rw [← not_lt, ← Nat.succ_le_iff, ← duplicate_iff_two_le_count, duplicate_iff_exists_distinct_get]
  constructor
  · intro hnot i j hi hj
    obtain ⟨hi', rfl⟩ := List.getElem?_eq_some_iff.mp hi
    obtain ⟨hj', heq⟩ := List.getElem?_eq_some_iff.mp hj
    rcases lt_trichotomy i j with hlt | hsame | hgt
    · exact (hnot ⟨⟨i, hi'⟩, ⟨j, hj'⟩, hlt, rfl, heq.symm⟩).elim
    · exact hsame
    · exact (hnot ⟨⟨j, hj'⟩, ⟨i, hi'⟩, hgt, heq.symm, rfl⟩).elim
  · rintro h ⟨i, j, hlt, rfl, heq⟩
    refine hlt.ne (Fin.ext (h i j (getElem?_eq_getElem i.2) ?_))
    rw [heq]
    exact getElem?_eq_getElem j.2

/-- The count over a stretch of a list, one element at a time. -/
theorem count_take_drop_succ [BEq α] [LawfulBEq α] [DecidableEq α] (list : List α) (a : α)
    (i n : Nat) :
    ((list.drop i).take (n + 1)).count a =
      ((list.drop (i + 1)).take n).count a + if list[i]? = some a then 1 else 0 := by
  by_cases hi : i < list.length
  · rw [drop_eq_getElem_cons hi, take_succ_cons, count_cons,
      getElem?_eq_getElem hi]
    simp only [some.injEq, beq_iff_eq]
  · rw [drop_eq_nil_of_le (by omega), drop_eq_nil_of_le (by omega),
      getElem?_eq_none (by omega)]
    simp

/-- Two lists that agree up to a length agree on every shorter stretch. -/
theorem take_eq_of_le {list' : List α} {m n : Nat} (h : list.take n = list'.take n) (hle : m ≤ n) :
    list.take m = list'.take m := by
  have hshorter : ∀ list : List α, list.take m = (list.take n).take m := fun list => by
    rw [take_take, min_eq_left hle]
  rw [hshorter list, hshorter list', h]

end Quench.Lib

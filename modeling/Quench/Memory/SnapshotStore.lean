import Mathlib.Data.Finset.Basic
import Quench.Lib.Runs
import Quench.Lib.Table

/-!
# The store of recurrent-state snapshots

`RecurrentSnapshotStore` of `memory/recurrent_snapshot_store.cpp` after `init`: a map of entries in
the order of their use, over buffers that are all allocated in advance. Entries are handed out as
`shared_ptr`s, and the last one that goes away gives the buffer back. Entries are numbered here in
the order they are made, and `held` has one item for each pointer that is out.

`Linked` is what every operation keeps, and `snapshot_buffers_sound` what holds in every run. A save
that fails can have evicted entries before it gives up (`failed_save_evicts`).
-/

namespace Quench

open Lib List Table AList

/-- `RecurrentSnapshotEntry`, with the number of its buffer. -/
structure SnapshotEntry (Key : Type) where
  key : Key
  nTokens : Int
  data : Nat
  deriving DecidableEq, Repr

/-- The store, the entries that exist, and what the buffers hold. The free list begins with the back
of the source's vector; `lruMap` has the keys with an iterator into `lru`. -/
structure SnapshotStore (Key Data : Type) [DecidableEq Key] where
  capacity : Nat
  freeBufs : List Nat
  entries : Table Key Nat := ∅
  lru : List Key := []
  lruMap : Finset Key := ∅
  objects : Table Nat (SnapshotEntry Key) := ∅
  nextObject : Nat := 0
  held : List Nat := []
  memory : Nat → Data

namespace SnapshotStore

variable {Key Data : Type} [DecidableEq Key]

/-- The store after `init` with this many buffers. -/
def init (capacity : Nat) (memory : Nat → Data) : SnapshotStore Key Data :=
  { capacity, freeBufs := (List.range capacity).reverse, memory }

/-! ## Operations -/

variable (s : SnapshotStore Key Data)

/-- A pointer to an entry went away. The last one runs the deleter, which recycles the buffer. -/
def dropRef (id : Nat) : SnapshotStore Key Data :=
  if id ∈ s.entries.values ∨ id ∈ s.held then s
  else match s.objects.lookup id with
    | none => s
    | some entry =>
      { s with freeBufs := entry.data :: s.freeBufs, objects := s.objects.erase id }

/-- `entries_.erase(key)`. -/
def eraseEntry (key : Key) : SnapshotStore Key Data :=
  match s.entries.lookup key with
  | none => s
  | some id => { s with entries := s.entries.erase key }.dropRef id

/-- `find`: the entry, which is the most recently used now and is held by one more pointer. -/
def find (key : Key) : Option Nat × SnapshotStore Key Data :=
  match s.entries.lookup key with
  | none => (none, s)
  | some id =>
    let s := if key ∈ s.lruMap then { s with lru := s.lru.erase key ++ [key] } else s
    (some id, { s with held := id :: s.held })

/-- One round of the loop of `acquire_buffer_`: the victim leaves the order and the map. -/
def evict (victim : Key) (rest : List Key) : SnapshotStore Key Data :=
  { s with lru := rest, lruMap := s.lruMap.erase victim }.eraseEntry victim

/-- The loop of `acquire_buffer_` over the order: evict until a buffer comes back. -/
def evictUntilFree : List Key → SnapshotStore Key Data → Option Nat × SnapshotStore Key Data
  | [], s => (none, s)
  | victim :: rest, s =>
    let s := s.evict victim rest
    match s.freeBufs with
    | buf :: free => (some buf, { s with freeBufs := free })
    | [] => evictUntilFree rest s

/-- `acquire_buffer_`. -/
def acquireBuffer : Option Nat × SnapshotStore Key Data :=
  match s.freeBufs with
  | buf :: free => (some buf, { s with freeBufs := free })
  | [] => evictUntilFree s.lru s

/-- The entry that a successful `save` makes for a filled buffer. -/
def insertEntry (key : Key) (nTokens : Int) (data : Data) (buf : Nat) : SnapshotStore Key Data :=
  { s with
    memory := fun other => if other = buf then data else s.memory other
    objects := s.objects.insert s.nextObject ⟨key, nTokens, buf⟩
    nextObject := s.nextObject + 1
    entries := s.entries.insert key s.nextObject
    lru := s.lru ++ [key]
    lruMap := insert key s.lruMap }

/-- `save`. The source is null or has the state to copy, and the copy may fail. -/
def save (key : Key) (nTokens : Int) (src : Option Data)
    (copyOk : Bool) : Bool × SnapshotStore Key Data :=
  match src with
  | none => (false, s)
  | some data =>
    if s.capacity = 0 ∨ nTokens ≤ 0 then (false, s)
    else if key ∈ s.entries then (true, s)
    else
      match s.acquireBuffer with
      | (none, s) => (false, s)
      | (some buf, s) =>
        if copyOk then (true, s.insertEntry key nTokens data buf)
        else (false, { s with freeBufs := buf :: s.freeBufs })

/-- `clear`. The map destroys its pointers in some order. -/
def clear : SnapshotStore Key Data :=
  { s.entries.keys.foldl eraseEntry s with lru := [], lruMap := ∅ }

/-- A request gives back one of the pointers that are out. -/
def release (s : SnapshotStore Key Data) (id : Nat) : SnapshotStore Key Data :=
  if id ∈ s.held then { s with held := s.held.erase id }.dropRef id else s

/-- What happens to a store. -/
inductive Event (Key Data : Type) where
  | save (key : Key) (nTokens : Int) (src : Option Data) (copyOk : Bool)
  | find (key : Key)
  | clear
  | release (id : Nat)

/-- The store after an event. -/
def step : Event Key Data → SnapshotStore Key Data
  | .save key nTokens src copyOk => (s.save key nTokens src copyOk).2
  | .find key => (s.find key).2
  | .clear => s.clear
  | .release id => s.release id

/-! ## Erased and evicted entries -/

section

/-- Dropping a pointer leaves the map, the order and the other pointers alone. -/
theorem dropRef_frame (id : Nat) :
    (s.dropRef id).entries = s.entries ∧ (s.dropRef id).lru = s.lru ∧
      (s.dropRef id).held = s.held := by
  unfold dropRef
  split
  · exact ⟨rfl, rfl, rfl⟩
  · split <;> exact ⟨rfl, rfl, rfl⟩

theorem eraseEntry_frame (key : Key) :
    (s.eraseEntry key).entries = s.entries.erase key ∧ (s.eraseEntry key).lru = s.lru ∧
      (s.eraseEntry key).held = s.held := by
  unfold eraseEntry
  split
  next hnone =>
    refine ⟨ext ?_, rfl, rfl⟩
    exact (kerase_of_notMem_keys (lookup_eq_none.mp hnone)).symm
  next id _ =>
    exact dropRef_frame { s with entries := s.entries.erase key } id

/-- The order plays no part when a key is erased from the map. -/
theorem eraseEntry_order (key : Key) (lru : List Key) (lruMap : Finset Key) :
    { s with lru, lruMap }.eraseEntry key = { s.eraseEntry key with lru, lruMap } := by
  unfold eraseEntry dropRef
  cases s.entries.lookup key with
  | none => rfl
  | some id =>
    dsimp only
    split
    · rfl
    · split <;> rfl

end

/-- `acquire_buffer_` evicts from the front of the order until a buffer is free. -/
theorem acquireBuffer_rule {s : SnapshotStore Key Data} {P : SnapshotStore Key Data → Prop}
    {Q : Option Nat × SnapshotStore Key Data → Prop}
    (hevict : ∀ t victim rest, t.lru = victim :: rest → P t → P (t.evict victim rest))
    (htake : ∀ t buf free, t.freeBufs = buf :: free → P t →
      Q (some buf, { t with freeBufs := free }))
    (hnone : ∀ t, P t → Q (none, t)) (h : P s) : Q s.acquireBuffer := by
  have hloop : ∀ lru t, t.lru = lru → P t → Q (evictUntilFree lru t) := by
    intro lru
    induction lru with
    | nil => exact fun t _ ht => hnone t ht
    | cons victim rest ih =>
      intro t hlru ht
      have hnext := hevict t victim rest hlru ht
      unfold evictUntilFree
      dsimp only
      split
      next buf free hfree => exact htake _ buf free hfree hnext
      next => exact ih _ (eraseEntry_frame _ victim).2.1 hnext
  unfold acquireBuffer
  split
  next buf free hfree => exact htake s buf free hfree h
  next => exact hloop s.lru s rfl h

/-- Taking a buffer adds no entry. -/
theorem entries_acquireBuffer (s : SnapshotStore Key Data) (key : Key) :
    key ∈ s.acquireBuffer.2.entries → key ∈ s.entries := by
  refine acquireBuffer_rule (P := fun t => key ∈ t.entries → key ∈ s.entries)
    (Q := fun out => key ∈ out.2.entries → key ∈ s.entries) (fun t victim rest _ ht hmem => ht ?_)
    (fun _ _ _ _ ht => ht) (fun _ ht => ht) id
  have hframe : (t.evict victim rest).entries = t.entries.erase victim :=
    (eraseEntry_frame _ victim).1
  rw [hframe, mem_erase] at hmem
  exact hmem.2

/-! ## Entries that are still referenced -/

/-- No entry of `s` changes or loses its contents: it is the same in `s'` or gone for good. -/
structure Keeps (s s' : SnapshotStore Key Data) : Prop where
  capacity : s'.capacity = s.capacity
  next : s.nextObject ≤ s'.nextObject
  same : ∀ id < s.nextObject, ∀ entry, s'.objects.lookup id = some entry →
    s.objects.lookup id = some entry ∧ s'.memory entry.data = s.memory entry.data

namespace Keeps

variable {s s' s'' : SnapshotStore Key Data}

theorem refl (s : SnapshotStore Key Data) : Keeps s s :=
  ⟨rfl, le_rfl, fun _ _ _ h => ⟨h, rfl⟩⟩

theorem trans (h : Keeps s s') (h' : Keeps s' s'') : Keeps s s'' where
  capacity := h'.capacity.trans h.capacity
  next := h.next.trans h'.next
  same id hid entry hentry := by
    obtain ⟨hmiddle, hmemory'⟩ := h'.same id (hid.trans_le h.next) entry hentry
    obtain ⟨hfirst, hmemory⟩ := h.same id hid entry hmiddle
    exact ⟨hfirst, hmemory'.trans hmemory⟩

section

variable (s : SnapshotStore Key Data)

theorem dropRef (id : Nat) : Keeps s (s.dropRef id) := by
  unfold SnapshotStore.dropRef
  split
  · exact refl s
  · split
    · exact refl s
    · refine ⟨rfl, le_rfl, fun other _ entry hentry => ⟨?_, rfl⟩⟩
      rw [lookup_erase_ite] at hentry
      split at hentry
      · cases hentry
      · exact hentry

theorem eraseEntry (key : Key) : Keeps s (s.eraseEntry key) := by
  unfold SnapshotStore.eraseEntry
  split
  · exact refl s
  next id _ =>
    exact { dropRef { s with entries := s.entries.erase key } id with }

theorem evict (victim : Key) (rest : List Key) : Keeps s (s.evict victim rest) :=
  { eraseEntry { s with lru := rest, lruMap := s.lruMap.erase victim } victim with }

theorem takeBuffer (free : List Nat) : Keeps s { s with freeBufs := free } :=
  { refl s with }

theorem acquireBuffer : Keeps s s.acquireBuffer.2 :=
  acquireBuffer_rule (Q := (Keeps s ·.2)) (fun t victim rest _ ht => ht.trans (evict t victim rest))
    (fun t _ free _ ht => ht.trans (takeBuffer t free)) (fun _ ht => ht) (refl s)

end

end Keeps

/-! ## What every operation keeps -/

/-- Every buffer is free, with an entry, or in `pending` while a save is at work; every entry is
referenced or in `loose`; the order and the map have the same keys. -/
structure Linked (pending loose : List Nat) (s : SnapshotStore Key Data) : Prop where
  buffers : (pending ++ s.freeBufs ++ s.objects.values.map SnapshotEntry.data).Perm
    (List.range s.capacity)
  live : ∀ id, id ∈ s.objects ↔ id ∈ s.entries.values ∨ id ∈ s.held ∨ id ∈ loose
  stored : s.entries.values.Nodup
  keyed : ∀ key id, s.entries.lookup key = some id →
    ∃ entry, s.objects.lookup id = some entry ∧ entry.key = key
  fresh : ∀ id ∈ s.objects, id < s.nextObject
  nodup : s.lru.Nodup
  keys : ∀ key, key ∈ s.lru ↔ key ∈ s.entries
  mapped : ∀ key, key ∈ s.lruMap ↔ key ∈ s.lru

variable {id buf : Nat} {key victim : Key} {rest lru : List Key}

namespace Linked

variable {pending loose : List Nat} {s : SnapshotStore Key Data}

theorem init (capacity : Nat) (memory : Nat → Data) :
    Linked [] [] (init capacity memory : SnapshotStore Key Data) where
  buffers := by
    simp [SnapshotStore.init, values]
  live id := by simp [SnapshotStore.init, values]
  stored := nodup_nil
  keyed key id h := by cases h
  fresh id h := absurd h (notMem_empty _)
  nodup := nodup_nil
  keys key := ⟨fun h => absurd h not_mem_nil, fun h => absurd h (notMem_empty _)⟩
  mapped key := ⟨fun h => absurd h (Finset.notMem_empty _), fun h => absurd h not_mem_nil⟩

/-- An entry that lost a pointer is kept or its buffer recycled. -/
theorem dropRef (h : Linked pending [id] s) : Linked pending [] (s.dropRef id) := by
  unfold SnapshotStore.dropRef
  split
  next href =>
    refine { h with live := fun other => ?_ }
    rw [h.live other]
    refine ⟨?_, Or.imp_right (Or.imp_right (absurd · not_mem_nil))⟩
    rintro (hmem | hmem | hmem)
    · exact .inl hmem
    · exact .inr (.inl hmem)
    · rw [mem_singleton.mp hmem]
      exact href.imp_right .inl
  next hunref =>
    rw [not_or] at hunref
    cases hentry : s.objects.lookup id with
    | none =>
      have hmem := (h.live id).mpr (.inr (.inr (mem_singleton_self id)))
      exact absurd hmem (lookup_eq_none.mp hentry)
    | some entry =>
      have hperm := (values_erase hentry).map SnapshotEntry.data
      refine { h with buffers := ?_, live := fun other => ?_, keyed := ?_, fresh := ?_ }
      · refine List.Perm.trans ?_ ((hperm.append_left _).symm.trans h.buffers)
        rw [append_assoc, cons_append]
        exact perm_middle.trans (by rw [← append_assoc]; exact perm_middle.symm)
      · rw [mem_erase, h.live other]
        constructor
        · rintro ⟨hne, hmem | hmem | hmem⟩
          · exact .inl hmem
          · exact .inr (.inl hmem)
          · exact absurd (mem_singleton.mp hmem) hne
        · rintro (hmem | hmem | hmem)
          · exact ⟨fun heq => hunref.1 (heq ▸ hmem), .inl hmem⟩
          · exact ⟨fun heq => hunref.2 (heq ▸ hmem), .inr (.inl hmem)⟩
          · exact absurd hmem not_mem_nil
      · intro key other hlookup
        obtain ⟨found, hfound, hkey⟩ := h.keyed key other hlookup
        have hne : other ≠ id := fun heq => hunref.1 (heq ▸ mem_values hlookup)
        exact ⟨found, by rw [lookup_erase_ite, if_neg hne, hfound], hkey⟩
      · exact fun other hother => h.fresh other (mem_erase.mp hother).2

/-- A key leaves the map; the order is that of the other keys. -/
theorem eraseEntry {lruMap : Finset Key} (h : Linked pending [] s) (hnodup : rest.Nodup)
    (hrest : ∀ other, other ∈ rest ↔ other ≠ key ∧ other ∈ s.lru)
    (hmap : ∀ other, other ∈ lruMap ↔ other ∈ rest) :
    Linked pending [] ({ s with lru := rest, lruMap }.eraseEntry key) := by
  unfold SnapshotStore.eraseEntry
  cases hlookup : s.entries.lookup key with
  | none =>
    refine { h with nodup := hnodup, mapped := hmap, keys := fun other => ?_ }
    rw [hrest other, h.keys other]
    refine and_iff_right_of_imp fun hmem heq => ?_
    exact lookup_eq_none.mp hlookup (heq ▸ hmem)
  | some id =>
    have hperm := values_erase hlookup
    refine dropRef { h with
      live := fun other => ?_, stored := ?_, keyed := fun other id' hother => ?_,
      nodup := hnodup, mapped := hmap, keys := fun other => ?_ }
    · rw [h.live other, hperm.mem_iff, mem_cons, mem_singleton]
      tauto
    · exact (nodup_cons.mp (hperm.nodup_iff.mp h.stored)).2
    · rw [lookup_erase_ite] at hother
      split at hother
      · cases hother
      · exact h.keyed other id' hother
    · rw [hrest other, h.keys other, mem_erase]

theorem evict (h : Linked pending [] s) (hlru : s.lru = victim :: rest) :
    Linked pending [] (s.evict victim rest) := by
  have hnodup := h.nodup
  rw [hlru, nodup_cons] at hnodup
  refine h.eraseEntry hnodup.2 (fun other => ?_) (fun other => ?_)
  · rw [hlru, mem_cons]
    refine ⟨fun hmem => ⟨fun heq => hnodup.1 (heq ▸ hmem), .inr hmem⟩, ?_⟩
    rintro ⟨hne, heq | hmem⟩
    · exact absurd heq hne
    · exact hmem
  · rw [Finset.mem_erase, h.mapped other, hlru, mem_cons]
    refine ⟨fun hmem => hmem.2.resolve_left hmem.1, fun hmem => ⟨?_, .inr hmem⟩⟩
    rintro rfl
    exact hnodup.1 hmem

/-- A free buffer is taken for a save. -/
theorem takeBuffer {free : List Nat} (h : Linked [] [] s) (hfree : s.freeBufs = buf :: free) :
    Linked [buf] [] { s with freeBufs := free } := by
  refine { h with buffers := ?_ }
  have hbuffers := h.buffers
  rwa [hfree] at hbuffers

/-- What `acquire_buffer_` leaves: the buffer it found is in nobody's hands. -/
theorem acquireBuffer (h : Linked [] [] s) :
    Linked s.acquireBuffer.1.toList [] s.acquireBuffer.2 :=
  acquireBuffer_rule (Q := fun out => Linked out.1.toList [] out.2)
    (fun _ _ _ hlru ht => ht.evict hlru) (fun _ _ _ hfree ht => ht.takeBuffer hfree)
    (fun _ ht => ht) h

/-- The next entry's number is not in use. -/
theorem nextObject_new (h : Linked pending loose s) :
    s.nextObject ∉ s.objects ∧ s.nextObject ∉ s.entries.values := by
  have hnew : s.nextObject ∉ s.objects := fun hmem => lt_irrefl _ (h.fresh _ hmem)
  exact ⟨hnew, fun hmem => hnew ((h.live _).mpr (.inl hmem))⟩

theorem insertEntry (h : Linked [buf] [] s) (hkey : key ∉ s.entries) (nTokens : Int) (data : Data) :
    Linked [] [] (s.insertEntry key nTokens data buf) := by
  obtain ⟨hnew, hunused⟩ := h.nextObject_new
  have hobjects : values (s.objects.insert s.nextObject ⟨key, nTokens, buf⟩)
      = ⟨key, nTokens, buf⟩ :: s.objects.values :=
    values_insert (lookup_eq_none.mpr hnew)
  have hvalues : values (s.entries.insert key s.nextObject)
      = s.nextObject :: s.entries.values :=
    values_insert (lookup_eq_none.mpr hkey)
  have hlru : key ∉ s.lru := fun hmem => hkey ((h.keys key).mp hmem)
  constructor
  · refine List.Perm.trans ?_ h.buffers
    change (s.freeBufs ++ (values (s.objects.insert s.nextObject _)).map _).Perm _
    rw [hobjects]
    exact perm_middle
  · intro id
    change id ∈ s.objects.insert s.nextObject _ ↔ id ∈ values (s.entries.insert key _) ∨ _
    rw [mem_insert, hvalues, mem_cons, h.live id, or_assoc]
    rfl
  · change (values (s.entries.insert key s.nextObject)).Nodup
    rw [hvalues]
    exact nodup_cons.mpr ⟨hunused, h.stored⟩
  · intro other id hother
    change (s.entries.insert key s.nextObject).lookup other = some id at hother
    change ∃ entry, (s.objects.insert s.nextObject _).lookup id = some entry ∧ _
    rw [lookup_insert_ite] at hother
    rw [lookup_insert_ite]
    split at hother
    next heq =>
      obtain rfl : s.nextObject = id := Option.some.inj hother
      exact ⟨_, if_pos rfl, heq.symm⟩
    next =>
      have hne : id ≠ s.nextObject := fun heq => hunused (heq ▸ mem_values hother)
      rw [if_neg hne]
      exact h.keyed other id hother
  · intro id hid
    rcases (mem_insert _).mp hid with rfl | hid
    · exact Nat.lt_succ_self _
    · exact Nat.lt_succ_of_lt (h.fresh id hid)
  · exact nodup_append'.mpr
      ⟨h.nodup, nodup_singleton key, disjoint_singleton.mpr hlru⟩
  · intro other
    change other ∈ s.lru ++ [key] ↔ other ∈ s.entries.insert key _
    rw [mem_append, mem_singleton, mem_insert, h.keys other]
    exact or_comm
  · intro other
    change other ∈ insert key s.lruMap ↔ other ∈ s.lru ++ [key]
    rw [Finset.mem_insert, mem_append, mem_singleton, h.mapped other]
    exact or_comm

/-- The buffer of a new entry belongs to no other one. -/
theorem keeps_insertEntry (h : Linked [buf] [] s) (key : Key) (nTokens : Int) (data : Data) :
    Keeps s (s.insertEntry key nTokens data buf) := by
  refine ⟨rfl, Nat.le_succ _, fun id hid entry hentry => ?_⟩
  change (s.objects.insert s.nextObject _).lookup id = some entry at hentry
  rw [lookup_insert_ite, if_neg hid.ne] at hentry
  have hnodup := h.buffers.nodup_iff.mpr nodup_range
  have hdata : entry.data ∈ s.objects.values.map SnapshotEntry.data :=
    mem_map_of_mem (mem_values hentry)
  have hne : entry.data ≠ buf := by
    rintro heq
    rw [heq] at hdata
    exact (nodup_cons.mp hnodup).1 (mem_append_right _ hdata)
  exact ⟨hentry, if_neg hne⟩

variable (h : Linked [] [] s)
include h

theorem save (key : Key) (nTokens : Int) (src : Option Data) (copyOk : Bool) :
    Linked [] [] (s.save key nTokens src copyOk).2 ∧
      Keeps s (s.save key nTokens src copyOk).2 := by
  unfold SnapshotStore.save
  split
  · exact ⟨h, .refl s⟩
  next data =>
    split
    · exact ⟨h, .refl s⟩
    · split
      · exact ⟨h, .refl s⟩
      next hkey =>
        have hacquired := h.acquireBuffer
        have hkeeps := Keeps.acquireBuffer s
        have hkept := s.entries_acquireBuffer key
        generalize s.acquireBuffer = acquired at hacquired hkeeps hkept ⊢
        obtain ⟨buf, after⟩ := acquired
        cases buf with
        | none => exact ⟨hacquired, hkeeps⟩
        | some buf =>
          dsimp only
          split
          · exact ⟨hacquired.insertEntry (fun hmem => hkey (hkept hmem)) nTokens data,
              hkeeps.trans (hacquired.keeps_insertEntry key nTokens data)⟩
          · refine ⟨{ hacquired with buffers := ?_ }, hkeeps.trans (.takeBuffer after _)⟩
            exact hacquired.buffers

theorem find (key : Key) : Linked [] [] (s.find key).2 ∧ Keeps s (s.find key).2 := by
  unfold SnapshotStore.find
  split
  · exact ⟨h, .refl s⟩
  next id hlookup =>
    have hmem : key ∈ s.lru := (h.keys key).mpr (Table.mem_of_lookup hlookup)
    rw [if_pos ((h.mapped key).mpr hmem)]
    have hsame : ∀ other, other ∈ s.lru.erase key ++ [key] ↔ other ∈ s.lru := by
      intro other
      by_cases heq : other = key
      · simp [heq, hmem]
      · simp [heq]
    refine ⟨{ h with live := fun other => ?_, nodup := ?_, keys := ?_, mapped := ?_ },
      { Keeps.refl s with }⟩
    · rw [h.live other, mem_cons]
      -- the entry that is found is in the map
      refine ⟨Or.imp_right (Or.imp_left .inr), ?_⟩
      rintro (hmem | (rfl | hmem) | hmem)
      · exact .inl hmem
      · exact .inl (mem_values hlookup)
      · exact .inr (.inl hmem)
      · exact absurd hmem not_mem_nil
    · refine nodup_append'.mpr ⟨h.nodup.erase key, nodup_singleton key,
        disjoint_singleton.mpr fun hagain => ?_⟩
      exact absurd rfl (h.nodup.mem_erase_iff.mp hagain).1
    · exact fun other => (hsame other).trans (h.keys other)
    · exact fun other => (h.mapped other).trans (hsame other).symm

theorem release (id : Nat) : Linked [] [] (s.release id) ∧ Keeps s (s.release id) := by
  unfold SnapshotStore.release
  split
  next hheld =>
    refine ⟨dropRef { h with live := fun other => ?_ },
      { Keeps.dropRef { s with held := s.held.erase id } id with }⟩
    rw [h.live other, mem_singleton]
    by_cases heq : other = id
    · simp [heq, hheld]
    · simp [heq, mem_erase_of_ne heq]
  next => exact ⟨h, .refl s⟩

/-- Erasing keys from the map, with the order that goes with what is left. -/
theorem eraseEntries (keys : List Key) :
    (∃ lru lruMap, Linked [] [] { keys.foldl SnapshotStore.eraseEntry s with lru, lruMap }) ∧
      ∀ key, key ∈ (keys.foldl SnapshotStore.eraseEntry s).entries ↔
        key ∉ keys ∧ key ∈ s.entries := by
  suffices hloop : ∀ t : SnapshotStore Key Data,
      (∃ lru lruMap, Linked [] [] { t with lru, lruMap }) →
      (∃ lru lruMap, Linked [] [] { keys.foldl SnapshotStore.eraseEntry t with lru, lruMap }) ∧
        ∀ key, key ∈ (keys.foldl SnapshotStore.eraseEntry t).entries ↔
          key ∉ keys ∧ key ∈ t.entries from hloop s ⟨s.lru, s.lruMap, h⟩
  induction keys with
  | nil => exact fun t ht => ⟨ht, fun key => by simp⟩
  | cons first keys ih =>
    rintro t ⟨lru, lruMap, ht⟩
    have herased : Linked [] [] { t.eraseEntry first with
        lru := lru.erase first, lruMap := lruMap.erase first } := by
      rw [← eraseEntry_order]
      refine ht.eraseEntry (ht.nodup.erase first) (fun other => ht.nodup.mem_erase_iff)
        fun other => ?_
      rw [Finset.mem_erase, ht.nodup.mem_erase_iff]
      exact and_congr_right fun _ => ht.mapped other
    obtain ⟨hlinked, hmem⟩ := ih (t.eraseEntry first) ⟨_, _, herased⟩
    refine ⟨hlinked, fun key => (hmem key).trans ?_⟩
    rw [(t.eraseEntry_frame first).1, mem_erase, mem_cons, not_or]
    tauto

theorem clear : Linked [] [] s.clear ∧ Keeps s s.clear := by
  obtain ⟨⟨lru, lruMap, hlinked⟩, hmem⟩ := h.eraseEntries s.entries.keys
  have hempty : ∀ key, key ∉ (s.entries.keys.foldl SnapshotStore.eraseEntry s).entries :=
    fun key hkey => ((hmem key).mp hkey).1 ((hmem key).mp hkey).2
  have hlru : lru = [] := eq_nil_iff_forall_not_mem.mpr fun key hkey =>
    hempty key ((hlinked.keys key).mp hkey)
  have hmap : lruMap = ∅ := Finset.eq_empty_iff_forall_notMem.mpr fun key hkey => by
    have := (hlinked.mapped key).mp hkey
    rw [hlru] at this
    exact absurd this not_mem_nil
  rw [hlru, hmap] at hlinked
  have hkeeps := s.entries.keys.foldlRecOn SnapshotStore.eraseEntry (Keeps.refl s)
    fun t ht key _ => ht.trans (.eraseEntry t key)
  exact ⟨hlinked, { hkeeps with }⟩

theorem step (event : Event Key Data) :
    Linked [] [] (s.step event) ∧ Keeps s (s.step event) := by
  cases event with
  | save key nTokens src copyOk => exact h.save key nTokens src copyOk
  | find key => exact h.find key
  | clear => exact h.clear
  | release id => exact h.release id

end Linked

variable {s : SnapshotStore Key Data}

/-- What a whole run keeps. -/
theorem run_linked (h : Linked [] [] s) (events : List (Event Key Data)) :
    Linked [] [] (runFrom step s events) ∧ Keeps s (runFrom step s events) := by
  induction events generalizing s with
  | nil => exact ⟨h, .refl s⟩
  | cons event events ih =>
    obtain ⟨hnext, hkept⟩ := h.step event
    obtain ⟨hlinked, hkeeps⟩ := ih hnext
    exact ⟨hlinked, hkept.trans hkeeps⟩

/-! ## Failed saves -/

/-- A save that fails evicts nothing: it is refused at once, the key is stored already, a buffer is
free, nothing is stored, or a stored entry that no request holds can be evicted and the copy into
its buffer succeeds. -/
def SaveSafe (s : SnapshotStore Key Data) (key : Key) (nTokens : Int) (src : Option Data)
    (copyOk : Bool) : Prop :=
  (src = none ∨ s.capacity = 0 ∨ nTokens ≤ 0) ∨ key ∈ s.entries ∨ s.freeBufs ≠ [] ∨ s.lru = [] ∨
    copyOk = true ∧ ∃ id ∈ s.entries.values, id ∉ s.held

/-- The victim's buffer comes back at once when no request holds the entry. -/
theorem evict_frees (h : Linked [] [] s) (hvictim : s.entries.lookup victim = some id)
    (hid : id ∉ s.held) : (s.evict victim rest).freeBufs ≠ [] := by
  obtain ⟨entry, hentry, -⟩ := h.keyed victim id hvictim
  have hvalues := (values_erase hvictim).nodup_iff.mp h.stored
  have hgone : ¬(id ∈ values (s.entries.erase victim) ∨ id ∈ s.held) :=
    not_or.mpr ⟨(nodup_cons.mp hvalues).1, hid⟩
  simp only [evict, eraseEntry, dropRef, hvictim, if_neg hgone, hentry]
  exact cons_ne_nil _ _

/-- If a key of the order has an entry that no request holds, the loop finds a buffer. -/
theorem evictUntilFree_some (h : Linked [] [] s) (hlru : s.lru = lru)
    (hunheld : ∃ id ∈ s.entries.values, id ∉ s.held) : (evictUntilFree lru s).1.isSome = true := by
  induction lru generalizing s with
  | nil =>
    obtain ⟨id, hid, -⟩ := hunheld
    obtain ⟨key, hkey⟩ := mem_values_iff.mp hid
    have hmem : key ∈ s.lru := (h.keys key).mpr (Table.mem_of_lookup hkey)
    rw [hlru] at hmem
    exact absurd hmem not_mem_nil
  | cons victim rest ih =>
    unfold evictUntilFree
    dsimp only
    split
    · rfl
    next hfree =>
      obtain ⟨hentries, hlru', hheld⟩ :=
        eraseEntry_frame { s with lru := rest, lruMap := s.lruMap.erase victim } victim
      refine ih (h.evict hlru) hlru' ?_
      obtain ⟨id, hid, hfresh⟩ := hunheld
      refine ⟨id, ?_, fun hmem => hfresh (hheld ▸ hmem)⟩
      obtain ⟨key, hkey⟩ := mem_values_iff.mp hid
      -- the entry is not the victim's, whose buffer would have come back
      have hne : key ≠ victim := fun heq => evict_frees h (heq ▸ hkey) hfresh hfree
      refine mem_values_iff.mpr ⟨key, ?_⟩
      change (eraseEntry { s with lru := rest, lruMap := _ } victim).entries.lookup key = _
      rw [hentries, lookup_erase_ite, if_neg hne, hkey]

/-- The loop only takes keys out of the map, the first victim among them. -/
theorem mem_of_mem_evictUntilFree (h : key ∈ (evictUntilFree lru s).2.entries) :
    key ∈ s.entries ∧ lru.head? ≠ some key := by
  induction lru generalizing s with
  | nil => exact ⟨h, nofun⟩
  | cons victim rest ih =>
    have hevict : key ∈ (s.evict victim rest).entries := by
      unfold evictUntilFree at h
      dsimp only at h
      split at h
      · exact h
      · exact (ih h).1
    rw [evict, (eraseEntry_frame _ victim).1, mem_erase] at hevict
    exact ⟨hevict.2, fun heq => hevict.1 (Option.some.inj heq).symm⟩

/-- While requests hold all entries, no buffer comes back. -/
theorem evictUntilFree_none (hfree : s.freeBufs = [])
    (hheld : ∀ id ∈ s.entries.values, id ∈ s.held) : (evictUntilFree lru s).1 = none := by
  induction lru generalizing s with
  | nil => rfl
  | cons victim rest ih =>
    obtain ⟨hentries, -, hheld'⟩ :=
      eraseEntry_frame { s with lru := rest, lruMap := s.lruMap.erase victim } victim
    have hnext : (s.evict victim rest).freeBufs = [] := by
      unfold evict eraseEntry
      split
      · exact hfree
      next id hid =>
        rw [dropRef, if_pos (.inr (hheld id (mem_values_iff.mpr ⟨victim, hid⟩)))]
        exact hfree
    unfold evictUntilFree
    dsimp only
    rw [hnext]
    refine ih hnext fun id hid => ?_
    rw [evict, hheld']
    rw [evict, hentries] at hid
    obtain ⟨key, hkey⟩ := mem_values_iff.mp hid
    rw [lookup_erase_ite] at hkey
    split_ifs at hkey
    exact hheld id (mem_values_iff.mpr ⟨key, hkey⟩)

/-- A save that fails leaves the map as it was if and only if it was safe. -/
theorem entries_save_iff (h : Linked [] [] s) (key : Key) (nTokens : Int) (src : Option Data)
    (copyOk : Bool) :
    ((s.save key nTokens src copyOk).1 = false →
      (s.save key nTokens src copyOk).2.entries = s.entries) ↔
      s.SaveSafe key nTokens src copyOk := by
  cases src with
  | none => exact iff_of_true (fun _ => rfl) (.inl (.inl rfl))
  | some data =>
    simp only [save]
    by_cases hguard : s.capacity = 0 ∨ nTokens ≤ 0
    · rw [if_pos hguard]
      exact iff_of_true (fun _ => rfl) (.inl (.inr hguard))
    rw [if_neg hguard]
    by_cases hkey : key ∈ s.entries
    · rw [if_pos hkey]
      exact iff_of_true (fun _ => rfl) (.inr (.inl hkey))
    rw [if_neg hkey]
    cases hcons : s.freeBufs with
    | cons buf free =>
      simp only [acquireBuffer, hcons]
      refine iff_of_true ?_ (.inr (.inr (.inl (by simp [hcons]))))
      cases copyOk with
      | true => exact nofun
      | false => exact fun _ => rfl
    | nil =>
      simp only [acquireBuffer, hcons]
      cases hlru : s.lru with
      | nil => exact iff_of_true (fun _ => rfl) (.inr (.inr (.inr (.inl hlru))))
      | cons victim rest =>
        -- the first victim was stored and is not any more
        have hvictim : victim ∈ s.entries := (h.keys victim).mp (by simp [hlru])
        have hchanged : (evictUntilFree (victim :: rest) s).2.entries ≠ s.entries :=
          fun heq => (mem_of_mem_evictUntilFree (heq ▸ hvictim)).2 rfl
        have hsafe : s.SaveSafe key nTokens (some data) copyOk ↔
            copyOk = true ∧ ∃ id ∈ s.entries.values, id ∉ s.held := by
          simp [SaveSafe, hcons, hlru, hkey, not_or.mp hguard]
        rw [hsafe]
        by_cases hunheld : ∃ id ∈ s.entries.values, id ∉ s.held
        · have hfound := evictUntilFree_some h hlru hunheld
          generalize evictUntilFree (victim :: rest) s = acquired at hfound hchanged ⊢
          obtain ⟨buf, after⟩ := acquired
          cases buf with
          | none => cases hfound
          | some buf =>
            cases copyOk with
            | true => exact iff_of_true nofun ⟨rfl, hunheld⟩
            | false => exact iff_of_false (fun hsame => hchanged (hsame rfl)) nofun
        · have hnone : (evictUntilFree (victim :: rest) s).1 = none :=
            evictUntilFree_none hcons fun id hid => not_not.mp fun hfresh =>
              hunheld ⟨id, hid, hfresh⟩
          generalize evictUntilFree (victim :: rest) s = acquired at hnone hchanged ⊢
          obtain ⟨buf, after⟩ := acquired
          cases hnone
          exact iff_of_false (fun hsame => hchanged (hsame rfl)) fun hboth => hunheld hboth.2

/-- After every run, each buffer is free or with one entry that is in the map or held by a request;
the order has the keys of the map once; an entry that was found has its contents as long as it is
held; and a failed save keeps the stored snapshots if and only if it was safe. -/
theorem snapshot_buffers_sound (capacity : Nat) (memory : Nat → Data)
    (before after : List (Event Key Data)) :
    let s := runFrom step (SnapshotStore.init capacity memory) before
    (s.freeBufs ++ s.objects.values.map SnapshotEntry.data).Perm (List.range capacity) ∧
      (∀ id, id ∈ s.objects ↔ (∃ key, s.entries.lookup key = some id) ∨ id ∈ s.held) ∧
      (∀ key id, s.entries.lookup key = some id →
        ∃ entry, s.objects.lookup id = some entry ∧ entry.key = key) ∧
      (s.lru.Nodup ∧ ∀ key, key ∈ s.lru ↔ key ∈ s.entries) ∧
      (∀ key id, (s.find key).1 = some id →
        let t := runFrom step (s.find key).2 after
        id ∈ t.held → ∃ entry, s.objects.lookup id = some entry ∧
          t.objects.lookup id = some entry ∧ t.memory entry.data = s.memory entry.data) ∧
      ∀ key nTokens src copyOk,
        ((s.save key nTokens src copyOk).1 = false →
          (s.save key nTokens src copyOk).2.entries = s.entries) ↔
        s.SaveSafe key nTokens src copyOk := by
  intro s
  obtain ⟨hlinked, hkept⟩ := run_linked (Linked.init capacity memory) before
  refine ⟨?_, fun id => ?_, hlinked.keyed, ⟨hlinked.nodup, hlinked.keys⟩, ?_, ?_⟩
  · have hbuffers := hlinked.buffers
    rw [hkept.capacity] at hbuffers
    exact hbuffers
  · have hlive := hlinked.live id
    rw [Table.mem_values_iff] at hlive
    simp only [not_mem_nil, or_false] at hlive
    exact hlive
  · intro key id hfind t hheld
    obtain ⟨hfound, hkeepsFind⟩ := hlinked.find key
    obtain ⟨htlinked, htkept⟩ := run_linked hfound after
    have hlookup : s.entries.lookup key = some id := by
      unfold find at hfind
      split at hfind
      · cases hfind
      next hlookup => exact hlookup.trans hfind
    obtain ⟨found, hfound, -⟩ := hlinked.keyed key id hlookup
    have hold : id < s.nextObject := hlinked.fresh id (Table.mem_of_lookup hfound)
    have halive : id ∈ t.objects := (htlinked.live id).mpr (.inr (.inl hheld))
    obtain ⟨entry, hentry⟩ := Option.isSome_iff_exists.mp (AList.lookup_isSome.mpr halive)
    obtain ⟨hbefore, hmemory⟩ := (hkeepsFind.trans htkept).same id hold entry hentry
    exact ⟨entry, hbefore, hentry, hmemory⟩
  · exact entries_save_iff hlinked

/-- Two buffers and one snapshot, which survives a copy that fails. -/
theorem snapshot_buffers_sound_kept :
    let s := runFrom step (SnapshotStore.init 2 (fun _ => 0) : SnapshotStore Nat Nat)
      [.save 1 4 (some 7) true]
    1 ∈ s.entries ∧ (s.save 3 4 (some 9) false).1 = false ∧
      (s.save 3 4 (some 9) false).2.entries = s.entries :=
  ⟨by decide, by decide, ((snapshot_buffers_sound 2 (fun _ => 0) [.save 1 4 (some 7) true]
    []).2.2.2.2.2 3 4 (some 9) false).mpr (.inr (.inr (.inl (by decide)))) (by decide)⟩

/-- With every buffer held by a request, a save empties the map before it gives up. -/
theorem failed_save_evicts :
    let s := runFrom step (SnapshotStore.init 1 (fun _ => 0) : SnapshotStore Nat Nat)
      [.save 1 4 (some 7) true, .find 1]
    1 ∈ s.entries ∧ (s.save 2 4 (some 8) true).1 = false ∧
      1 ∉ (s.save 2 4 (some 8) true).2.entries := by
  decide

end SnapshotStore

end Quench

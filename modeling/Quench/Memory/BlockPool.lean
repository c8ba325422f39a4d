import Mathlib.Data.List.Nodup
import Mathlib.Data.List.Range

/-!
# The fixed-block pool

`BlockPool` of `memory/block_pool.cpp` in its id-space mode (`open_slots`): reference counts per
block id, and the stack of ids whose count is zero. A pool carries the proof that its free list
holds exactly the ids with count zero, once each, so an operation that loses or duplicates a free
block cannot be written down.

A `BlockRef` is an owning handle. An empty handle (`id_ = -1` in the source) is `none`. The handle's
destructor is `dropRef`, and a copy of a live handle is `shareById`.
-/

namespace Quench

open List Option

/-- An owning handle to one block, or an empty handle. -/
abbrev BlockRef := Option Int

/-- The id a handle reports: `-1` when it is empty. -/
def BlockRef.id (ref : BlockRef) : Int := ref.getD (-1)

@[simp] theorem BlockRef.id_some (block : Int) : BlockRef.id (some block) = block := rfl

/-- A pool of blocks: a count per id, and the free ids with the next one to hand out first.
The source keeps that one at the back of a vector. -/
structure BlockPool where
  refcount : List Nat
  freeList : List Int
  free_nodup : freeList.Nodup
  mem_free : ∀ id, id ∈ freeList ↔ 0 ≤ id ∧ refcount[id.toNat]? = some 0

namespace BlockPool

variable {pool after : BlockPool} {id other : Int}

/-- The capacity of the pool. -/
def numBlocks (pool : BlockPool) : Nat := pool.refcount.length

/-- `num_free_blocks`: the length of the free list. -/
def freeCount (pool : BlockPool) : Nat := pool.freeList.length

/-- `ref_count`: the number of references to a block, `0` for an id outside the pool. -/
def refCount (pool : BlockPool) (id : Int) : Nat :=
  if 0 ≤ id then pool.refcount[id.toNat]?.getD 0 else 0

/-- `open_slots`: every block is free, and the first `acquire` hands out block `0`. -/
def openSlots (numBlocks : Nat) : BlockPool where
  refcount := List.replicate numBlocks 0
  freeList := (List.range numBlocks).map Int.ofNat
  free_nodup := nodup_range.map fun _ _ h => Int.ofNat.inj h
  mem_free := by
    intro id
    simp only [List.mem_map, mem_range, getElem?_replicate]
    constructor
    · rintro ⟨n, hn, rfl⟩
      simp [hn]
    · rintro ⟨hid, h⟩
      refine ⟨id.toNat, ?_, Int.toNat_of_nonneg hid⟩
      by_contra hn
      simp [hn] at h

/-- A block with a positive count is a valid index of the count table. -/
theorem getElem?_of_refCount_pos (h : 0 < pool.refCount id) :
    0 ≤ id ∧ pool.refcount[id.toNat]? = some (pool.refCount id) := by
  unfold refCount at h ⊢
  split at h
  next hid =>
    cases hc : pool.refcount[id.toNat]? with
    | none => simp [hc] at h
    | some count => simp [hid]
  next => simp at h

variable {counts : List Nat} {old new : Nat}

/-- The counts after one entry of the table is overwritten. -/
theorem getElem?_set_refcount (hid : 0 ≤ id) (hold : counts[id.toNat]? = some old)
    (hother : 0 ≤ other) :
    (counts.set id.toNat new)[other.toNat]? =
      if other = id then some new else counts[other.toNat]? := by
  by_cases h : other = id
  · subst h
    obtain ⟨hlt, _⟩ := List.getElem?_eq_some_iff.1 hold
    simp [hlt]
  · simp [h, getElem?_set_ne (show id.toNat ≠ other.toNat by omega)]

/-- `acquire`: take the free block on top of the stack with count one, if there is one. -/
def acquire (pool : BlockPool) : BlockRef × BlockPool :=
  match hfree : pool.freeList with
  | [] => (none, pool)
  | id :: rest =>
    (some id,
      { refcount := pool.refcount.set id.toNat 1
        freeList := rest
        free_nodup := (nodup_cons.1 (hfree ▸ pool.free_nodup)).2
        mem_free := by
          intro other
          have hnodup := nodup_cons.1 (hfree ▸ pool.free_nodup)
          obtain ⟨hid, hcount⟩ := (pool.mem_free id).1 (by simp [hfree])
          have hmem := pool.mem_free other
          rw [hfree, mem_cons] at hmem
          constructor
          · intro hother
            obtain ⟨hpos, hzero⟩ := hmem.1 (Or.inr hother)
            have hne : other ≠ id := fun h => hnodup.1 (h ▸ hother)
            exact ⟨hpos, by rw [getElem?_set_refcount hid hcount hpos, if_neg hne, hzero]⟩
          · rintro ⟨hpos, hzero⟩
            rw [getElem?_set_refcount hid hcount hpos] at hzero
            split at hzero
            · simp at hzero
            next hne => exact (hmem.2 ⟨hpos, hzero⟩).resolve_left hne })

/-- `share_by_id`: one more reference to a block somebody already holds. -/
def shareById (pool : BlockPool) (id : Int) : BlockRef × BlockPool :=
  if hpos : 0 < pool.refCount id then
    (some id,
      { refcount := pool.refcount.set id.toNat (pool.refCount id + 1)
        freeList := pool.freeList
        free_nodup := pool.free_nodup
        mem_free := by
          intro other
          obtain ⟨hid, hcount⟩ := getElem?_of_refCount_pos hpos
          rw [pool.mem_free other]
          refine and_congr_right fun hother => ?_
          rw [getElem?_set_refcount hid hcount hother]
          split
          next h =>
            subst h
            simp only [hcount, some.injEq]
            omega
          next => rfl })
  else (none, pool)

/-- `dec_ref_impl_`: drop one reference, and return the block to the free list with the last.
A block without references is left alone. -/
def decRef (pool : BlockPool) (id : Int) : BlockPool :=
  if hpos : 0 < pool.refCount id then
    { refcount := pool.refcount.set id.toNat (pool.refCount id - 1)
      freeList := if pool.refCount id - 1 = 0 then id :: pool.freeList else pool.freeList
      free_nodup := by
        obtain ⟨_, hcount⟩ := getElem?_of_refCount_pos hpos
        split
        · refine nodup_cons.2 ⟨fun hmem => ?_, pool.free_nodup⟩
          have hzero := ((pool.mem_free id).1 hmem).2
          rw [hcount, some.injEq] at hzero
          omega
        · exact pool.free_nodup
      mem_free := by
        intro other
        obtain ⟨hid, hcount⟩ := getElem?_of_refCount_pos hpos
        have hmem := pool.mem_free other
        by_cases hother : 0 ≤ other
        · rw [getElem?_set_refcount hid hcount hother]
          by_cases hne : other = id
          · subst hne
            rw [hcount, some.injEq] at hmem
            split
            · simp [*]
            · simp only [hmem, hid, if_true, some.injEq, true_and]
              omega
          · rw [if_neg hne, ← hmem]
            split
            · simp [hne]
            · rfl
        · have hne : other ≠ id := fun h => hother (h ▸ hid)
          have hnot : other ∉ pool.freeList := fun h => hother (hmem.1 h).1
          split <;> simp [hne, hnot, hother] }
  else pool

/-- Destroying a handle drops the reference it owns, if any. -/
def dropRef (pool : BlockPool) : BlockRef → BlockPool
  | none => pool
  | some id => pool.decRef id

/-- Destroying a vector of handles drops them in order. -/
def dropRefs (pool : BlockPool) (refs : List BlockRef) : BlockPool := refs.foldl dropRef pool

@[simp] theorem dropRefs_nil (pool : BlockPool) : pool.dropRefs [] = pool := rfl

@[simp] theorem dropRefs_cons (pool : BlockPool) (ref : BlockRef) (refs : List BlockRef) :
    pool.dropRefs (ref :: refs) = (pool.dropRef ref).dropRefs refs := rfl

/-! ## What each operation does to the counts -/

/-- A fresh pool has no references. -/
@[simp] theorem refCount_openSlots (numBlocks : Nat) (id : Int) :
    (openSlots numBlocks).refCount id = 0 := by
  simp only [refCount, openSlots, getElem?_replicate]
  split
  · split <;> rfl
  · rfl

/-- The free list holds exactly the ids of the pool without references. -/
theorem mem_freeList :
    id ∈ pool.freeList ↔ 0 ≤ id ∧ id < pool.numBlocks ∧ pool.refCount id = 0 := by
  rw [pool.mem_free]
  refine and_congr_right fun hid => ?_
  simp only [numBlocks, refCount, if_pos hid]
  cases hc : pool.refcount[id.toNat]? with
  | none =>
    have := List.getElem?_eq_none_iff.1 hc
    simp only [getD_none, and_true, reduceCtorEq, false_iff]
    omega
  | some count =>
    obtain ⟨hlt, _⟩ := List.getElem?_eq_some_iff.1 hc
    simp only [some.injEq, getD_some]
    omega

/-- A block with references has an id of the pool. -/
theorem lt_numBlocks_of_refCount_pos (h : 0 < pool.refCount id) : 0 ≤ id ∧ id < pool.numBlocks := by
  obtain ⟨hid, hcount⟩ := getElem?_of_refCount_pos h
  obtain ⟨hlt, _⟩ := List.getElem?_eq_some_iff.1 hcount
  exact ⟨hid, by simp only [numBlocks]; omega⟩

/-- Overwriting one count is a pointwise update of `refCount`. -/
theorem refCount_set (hcounts : counts = pool.refcount.set id.toNat new) (hid : 0 ≤ id)
    (hold : pool.refcount[id.toNat]? = some old) :
    (if 0 ≤ other then counts[other.toNat]?.getD 0 else 0) =
      if other = id then new else pool.refCount other := by
  subst hcounts
  by_cases hother : 0 ≤ other
  · rw [if_pos hother, getElem?_set_refcount hid hold hother, refCount, if_pos hother]
    split <;> rfl
  · have hne : other ≠ id := fun h => hother (h ▸ hid)
    simp [refCount, hother, hne]

/-- An exhausted pool is unchanged by `acquire`. -/
theorem acquire_of_none (h : pool.acquire = (none, after)) : after = pool ∧ pool.freeList = [] := by
  unfold acquire at h
  split at h
  next hfree => exact ⟨(Prod.mk.inj h).2.symm, hfree⟩
  next => cases (Prod.mk.inj h).1

/-- `acquire` hands out a block that had no reference and now has one. -/
theorem refCount_acquire (h : pool.acquire = (some id, after)) :
    pool.refCount id = 0 ∧ 0 ≤ id ∧
      ∀ other, after.refCount other = if other = id then 1 else pool.refCount other := by
  unfold acquire at h
  split at h
  · cases (Prod.mk.inj h).1
  next first rest hfree =>
    obtain ⟨hfirst, hafter⟩ := Prod.mk.inj h
    cases hfirst
    subst hafter
    have hmem : id ∈ pool.freeList := by simp [hfree]
    obtain ⟨hid, hcount⟩ := (pool.mem_free id).1 hmem
    exact ⟨(mem_freeList.1 hmem).2.2, hid, fun other => refCount_set rfl hid hcount⟩

/-- Sharing a held block adds one reference to it. -/
theorem refCount_shareById {shared : Int} (h : pool.shareById id = (some shared, after)) :
    shared = id ∧ 0 < pool.refCount id ∧
      ∀ other, after.refCount other = pool.refCount other + if other = id then 1 else 0 := by
  unfold shareById at h
  split at h
  next hpos =>
    obtain ⟨hshared, hafter⟩ := Prod.mk.inj h
    cases hshared
    subst hafter
    obtain ⟨hid, hcount⟩ := getElem?_of_refCount_pos hpos
    refine ⟨rfl, hpos, fun other => ?_⟩
    rw [refCount, refCount_set rfl hid hcount]
    split <;> simp [*]
  next => cases (Prod.mk.inj h).1

/-- Sharing succeeds on every held block. -/
theorem shareById_of_pos (h : 0 < pool.refCount id) :
    ∃ after, pool.shareById id = (some id, after) := by
  unfold shareById
  rw [dif_pos h]
  exact ⟨_, rfl⟩

variable (pool : BlockPool)

/-- Dropping a reference lowers that block's count by one. -/
theorem refCount_decRef (id other : Int) :
    (pool.decRef id).refCount other = pool.refCount other - if other = id then 1 else 0 := by
  unfold decRef
  split
  next hpos =>
    obtain ⟨hid, hcount⟩ := getElem?_of_refCount_pos hpos
    rw [refCount, refCount_set rfl hid hcount]
    split <;> simp [*]
  next hzero =>
    split
    next h =>
      subst h
      omega
    next => rfl

/-- Dropping a list of handles lowers each count by the number of handles to that block. -/
theorem refCount_dropRefs (refs : List BlockRef) (block : Int) :
    (pool.dropRefs refs).refCount block = pool.refCount block - refs.count (some block) := by
  induction refs generalizing pool with
  | nil => simp
  | cons ref refs ih =>
    rw [dropRefs_cons, ih, count_cons]
    cases ref with
    | none => simp [dropRef]
    | some id =>
      simp only [dropRef, refCount_decRef, beq_iff_eq, some.injEq]
      by_cases h : block = id
      · subst h
        omega
      · simp [h, Ne.symm h]

/-- No operation changes the capacity. -/
theorem numBlocks_acquire : pool.acquire.2.numBlocks = pool.numBlocks := by
  unfold acquire
  split <;> simp [numBlocks]

theorem numBlocks_shareById (id : Int) : (pool.shareById id).2.numBlocks = pool.numBlocks := by
  unfold shareById
  split <;> simp [numBlocks]

theorem numBlocks_decRef (id : Int) : (pool.decRef id).numBlocks = pool.numBlocks := by
  unfold decRef
  split <;> simp [numBlocks]

theorem numBlocks_dropRef (ref : BlockRef) : (pool.dropRef ref).numBlocks = pool.numBlocks := by
  cases ref with
  | none => rfl
  | some id => exact numBlocks_decRef pool id

theorem numBlocks_dropRefs (refs : List BlockRef) :
    (pool.dropRefs refs).numBlocks = pool.numBlocks := by
  induction refs generalizing pool with
  | nil => rfl
  | cons ref refs ih => rw [dropRefs_cons, ih, numBlocks_dropRef]

end BlockPool

end Quench

import Quench.Memory.PinOps

/-!
# The blocks an allocation can take

A block is available when it is free, or when only the cache holds it and no pin keeps it there.
While one is available, `allocate_block_ref_with_eviction` succeeds and uses up exactly one, so a
plain allocation succeeds as long as the available blocks cover it
(`Counted.allocateBlocksLoop_available`).
-/

namespace Quench.KVCacheManager

open Lib List KVCacheManager Finset

/-! ## The blocks an allocation can take -/

/-- A block an allocation can end up with: it is free, or only the cache holds it and reclaiming may
take it. -/
def IsAvailable (s : KVCacheManager) (reserved : List Int) (block : Int) : Prop :=
  s.refCount block = 0 ∨ block ∈ s.cachedBlocksMap ∧ block ∉ s.pinnedBlocks ∧
    s.refCount block = 1 ∧ block ∉ reserved

instance (s : KVCacheManager) (reserved : List Int) (block : Int) :
    Decidable (s.IsAvailable reserved block) :=
  inferInstanceAs (Decidable (_ ∨ _ ∧ _ ∧ _ ∧ _))

/-- The blocks of the pool that are available when the reserved ones are kept. -/
def available (s : KVCacheManager) (reserved : List Int) : Finset Nat :=
  (Finset.range s.pool.numBlocks).filter fun id => s.IsAvailable reserved id

variable {reserved : List Int} {block : Int}

theorem mem_available {s : KVCacheManager} {id : Nat} :
    id ∈ s.available reserved ↔ id < s.pool.numBlocks ∧ s.IsAvailable reserved id := by
  rw [available, Finset.mem_filter, Finset.mem_range]

theorem available_congr {s s' : KVCacheManager} {reserved' : List Int}
    (hsize : s'.pool.numBlocks = s.pool.numBlocks)
    (h : ∀ block, s'.IsAvailable reserved' block ↔ s.IsAvailable reserved block) :
    s'.available reserved' = s.available reserved := by
  unfold available
  rw [hsize]
  exact filter_congr fun id _ => h id

/-- Within one turn of the list, rotation brings an unpinned block to the front. -/
theorem rotatePinned_head (pinned : Finset Int) (n : Nat) (lru : List Int)
    (hmem : block ∈ lru.take n) (hout : block ∉ pinned) :
    ∃ first rest, rotatePinned pinned n lru = first :: rest ∧ first ∉ pinned := by
  induction n generalizing lru with
  | zero => simp at hmem
  | succ n ih =>
    cases lru with
    | nil => simp at hmem
    | cons head lru =>
      unfold rotatePinned
      split
      next hpinned =>
        refine ih (lru ++ [head]) ?_
        have hne : block ≠ head := fun heq => hout (heq ▸ hpinned)
        have hlater := (mem_cons.mp hmem).resolve_left hne
        rw [take_append]
        exact mem_append_left _ hlater
      next hunpinned => exact ⟨head, lru, rfl, hunpinned⟩

namespace Counted

variable {slack total : Nat} {s s' : KVCacheManager} {inflight inflight' : List BlockRef}

/-- While an unpinned block is cached, reclaiming finds one. -/
theorem reclaimCachedBlock_nonneg (h : Counted slack total s inflight)
    (hcached : block ∈ s.cachedBlocksMap) (hout : block ∉ s.pinnedBlocks) :
    0 ≤ s.reclaimCachedBlock.1 := by
  have hin : block ∈ s.cachedBlocksMap \ s.pinnedBlocks := mem_sdiff.mpr ⟨hcached, hout⟩
  have hpos := card_pos.mpr ⟨block, hin⟩
  have hcount := h.counted.reclaimable
  have hlru : block ∈ s.cachedBlocksLru.take s.cachedBlocksLru.length := by
    rw [take_length]
    exact (h.owned.mem_lru block).mpr hcached
  obtain ⟨first, rest, hrotated, hfirst⟩ := rotatePinned_head s.pinnedBlocks _ _ hlru hout
  have hperm := rotatePinned_perm s.pinnedBlocks s.cachedBlocksLru.length s.cachedBlocksLru
  have hlive : 0 < s.refCount first := by
    refine h.owned.refCount_pos_of_cached ((h.owned.mem_lru first).mp (hperm.mem_iff.mp ?_))
    rw [hrotated]
    exact mem_cons_self
  unfold KVCacheManager.reclaimCachedBlock
  rw [if_neg (by omega)]
  rw [hrotated]
  dsimp only
  rw [if_neg hfirst]
  exact (BlockPool.lt_numBlocks_of_refCount_pos hlive).1

/-- Reclaiming makes no block available and takes none away. -/
theorem available_reclaimCachedBlock (h : Counted slack total s inflight) :
    s.reclaimCachedBlock.2.available [] = s.available [] := by
  rcases s.reclaimCachedBlock_spec with ⟨-, howners, hpins⟩ | ⟨block, hmem, hout, -, hreclaims⟩
  · refine available_congr (congrArg BlockPool.numBlocks howners.pool) fun other => ?_
    rw [IsAvailable, IsAvailable, refCount, howners.pool, hpins.cached, hpins.pinned]
    rfl
  · refine available_congr hreclaims.numBlocks fun other => ?_
    have hcached : block ∈ s.cachedBlocksMap := (h.owned.mem_lru block).mp hmem
    have hmap : s.reclaimCachedBlock.2.cachedBlocksMap = s.cachedBlocksMap.erase block :=
      hreclaims.pins.cached
    have hpinned : s.reclaimCachedBlock.2.pinnedBlocks = s.pinnedBlocks := hreclaims.pins.pinned
    rw [IsAvailable, IsAvailable, hreclaims.refs, hmap, hpinned, mem_erase]
    by_cases heq : other = block
    · -- with its last reference gone the block is free; with others left it never was available
      subst heq
      simp only [ne_eq, not_true_eq_false, false_and, or_false, hcached, hout, not_false_eq_true,
        not_mem_nil, true_and, and_true, if_true]
      omega
    · simp only [ne_eq, heq, not_false_eq_true, true_and, if_false, Nat.sub_zero]

/-- Taking a free block leaves one available block fewer. -/
theorem available_acquireBlockRef (h : Counted slack total s inflight)
    (hacquire : s.acquireBlockRef = (some block, s')) :
    (s'.available []).card + 1 = (s.available []).card := by
  have howned := h.owned.acquireBlockRef hacquire
  obtain ⟨pool, rfl, hfree, hnonneg, hcounts⟩ := acquireBlockRef_some hacquire
  have hblocks : pool.numBlocks = s.pool.numBlocks := howned.numBlocks.trans h.owned.numBlocks.symm
  have hinside : block.toNat < s.pool.numBlocks := by
    have hpos : 0 < pool.refCount block := by
      rw [hcounts, if_pos rfl]
      exact Nat.one_pos
    have hlt := (BlockPool.lt_numBlocks_of_refCount_pos hpos).2
    omega
  have hnew : block ∉ s.cachedBlocksMap := fun hcached =>
    absurd hfree (Nat.pos_iff_ne_zero.mp (h.owned.refCount_pos_of_cached hcached))
  have hmem : block.toNat ∈ s.available [] := by
    refine mem_available.mpr ⟨hinside, .inl ?_⟩
    rw [Int.toNat_of_nonneg hnonneg]
    exact hfree
  have hleft : ∀ other, IsAvailable { s with pool } [] other ↔
      other ≠ block ∧ s.IsAvailable [] other := by
    intro other
    change pool.refCount other = 0 ∨ _ ∧ _ ∧ pool.refCount other = 1 ∧ _ ↔ _
    rw [hcounts]
    by_cases heq : other = block
    · simp [heq, hnew]
    · simp only [heq, if_false, ne_eq, not_false_eq_true, true_and]
      rfl
  have herase : available { s with pool } [] =
      (s.available []).erase block.toNat := by
    ext id
    have hid : id ≠ block.toNat ↔ (id : Int) ≠ block := by omega
    rw [mem_erase, hid, mem_available, mem_available, hleft, hblocks]
    exact and_left_comm
  rw [herase, card_erase_add_one hmem]

/-- With the free list empty, an available block is one that reclaiming may take. -/
theorem exists_reclaimable (hempty : s.pool.freeList = []) (havail : 0 < (s.available []).card) :
    ∃ block ∈ s.cachedBlocksMap, block ∉ s.pinnedBlocks := by
  obtain ⟨id, hid⟩ := card_pos.mp havail
  obtain ⟨hrange, hfree | ⟨hcached, hout, -⟩⟩ := mem_available.mp hid
  · have hmem : (id : Int) ∈ s.pool.freeList :=
      BlockPool.mem_freeList.mpr ⟨by omega, by exact_mod_cast hrange, hfree⟩
    rw [hempty] at hmem
    cases hmem
  · exact ⟨id, hcached, hout⟩

variable (h : Counted slack total s inflight)
include h

theorem not_cached_of_lru (hnil : s.cachedBlocksLru = []) : block ∉ s.cachedBlocksMap := by
  intro hcached
  have hlru := (h.owned.mem_lru block).mpr hcached
  rw [hnil] at hlru
  cases hlru

/-- The reclaim loop gives up only when every cached block is pinned: each round takes one block out
of the cached LRU. -/
theorem reclaimLoop_none (rounds : Nat) (hempty : s.pool.freeList = [])
    (hrounds : s.cachedBlocksLru.length ≤ rounds) (hloop : reclaimLoop rounds s = (none, s')) :
    s'.pool.freeList = [] ∧ ∀ block ∈ s'.cachedBlocksMap, block ∈ s'.pinnedBlocks := by
  induction rounds generalizing s with
  | zero =>
    cases hloop
    have hnil := length_eq_zero_iff.mp (Nat.le_zero.mp hrounds)
    exact ⟨hempty, fun block hcached => absurd hcached (h.not_cached_of_lru hnil)⟩
  | succ rounds ih =>
    unfold reclaimLoop at hloop
    split at hloop
    next hnil =>
      cases hloop
      exact ⟨hempty, fun block hcached =>
        absurd hcached (h.not_cached_of_lru (List.isEmpty_iff.mp hnil))⟩
    split at hloop
    next hneg =>
      cases hloop
      have hpinned : ∀ block ∈ s.cachedBlocksMap, block ∈ s.pinnedBlocks := by
        intro block hcached
        by_contra hout
        have hnonneg := h.reclaimCachedBlock_nonneg hcached hout
        omega
      rcases s.reclaimCachedBlock_spec with ⟨-, howners, hpins⟩ | ⟨block, hmem, hout, -⟩
      · rw [howners.pool, hpins.cached, hpins.pinned]
        exact ⟨hempty, hpinned⟩
      · exact absurd (hpinned block ((h.owned.mem_lru block).mp hmem)) hout
    next hnonneg =>
      split at hloop
      · cases hloop
      next after hacquire =>
        cases acquireBlockRef_none hacquire
        obtain ⟨hnone, -⟩ := Prod.mk.inj hacquire
        have hfree := (BlockPool.acquire_of_none (Prod.ext hnone rfl)).2
        rcases s.reclaimCachedBlock_spec with ⟨hfail, -⟩ | ⟨_, -, -, -, hreclaims⟩
        · omega
        · have hshorter := hreclaims.lru
          exact ih h.reclaimCachedBlock hfree (by omega) hloop

/-- If no block is found, none is free and all cached ones are pinned. -/
theorem allocateBlockRefWithEviction_none (halloc : s.allocateBlockRefWithEviction = (none, s')) :
    s'.pool.freeList = [] ∧ ∀ block ∈ s'.cachedBlocksMap, block ∈ s'.pinnedBlocks := by
  unfold KVCacheManager.allocateBlockRefWithEviction at halloc
  split at halloc
  · cases halloc
  next after hacquire =>
    cases acquireBlockRef_none hacquire
    obtain ⟨hnone, -⟩ := Prod.mk.inj hacquire
    have hfree := (BlockPool.acquire_of_none (Prod.ext hnone rfl)).2
    exact h.reclaimLoop_none _ hfree le_rfl halloc

/-- While a block is available, allocation succeeds and takes one. -/
theorem allocateBlockRefWithEviction_available (havail : 0 < (s.available []).card) :
    ∃ block s', s.allocateBlockRefWithEviction = (some block, s') ∧
      (s'.available []).card + 1 = (s.available []).card := by
  cases halloc : s.allocateBlockRefWithEviction with
  | mk ref s' =>
    obtain ⟨t, ⟨ht, hsame⟩, hcase⟩ := allocateBlockRefWithEviction_rule
      (fun t => Counted slack total t inflight ∧ t.available [] = s.available [])
      (fun t ht => ⟨ht.1.reclaimCachedBlock, ht.1.available_reclaimCachedBlock.trans ht.2⟩)
      ⟨h, rfl⟩ halloc
    rcases hcase with ⟨rfl, rfl⟩ | ⟨block, rfl, hacquire⟩
    · obtain ⟨hfree, hpinned⟩ := h.allocateBlockRefWithEviction_none halloc
      obtain ⟨block, hcached, hout⟩ := exists_reclaimable hfree (hsame ▸ havail)
      exact absurd (hpinned block hcached) hout
    · exact ⟨block, s', rfl, (ht.available_acquireBlockRef hacquire).trans (by rw [hsame])⟩

/-! ## Plain allocation -/

theorem congr (howned : Owned total s' inflight')
    (hsame : SamePins s s') : Counted slack total s' inflight' :=
  ⟨howned, h.counted.congr hsame⟩

theorem allocateBlockRefWithEviction {ref : BlockRef}
    (halloc : s.allocateBlockRefWithEviction = (ref, s')) :
    Counted slack total s' (ref :: inflight) := by
  obtain ⟨t, ht, hcase⟩ := allocateBlockRefWithEviction_rule
    (fun t => Counted slack total t inflight)
    (fun _ ht => ht.reclaimCachedBlock) h halloc
  refine ⟨h.owned.allocateBlockRefWithEviction halloc, ?_⟩
  rcases hcase with ⟨-, rfl⟩ | ⟨block, -, hacquire⟩
  · exact ht.counted
  · obtain ⟨-, rfl⟩ := Prod.mk.inj hacquire
    exact { ht.counted with }

/-- Each round of `allocate_blocks` uses up one available block, so it succeeds while the available
blocks cover what is left to allocate. -/
theorem allocateBlocksLoop_available (seq : Int) (originalSize n : Nat)
    (hcover : n ≤ (s.available []).card) :
    (allocateBlocksLoop seq originalSize n s).1 = true := by
  induction n generalizing s with
  | zero => rfl
  | succ n ih =>
    obtain ⟨block, after, halloc, hcard⟩ :=
      h.allocateBlockRefWithEviction_available (Nat.zero_lt_of_lt hcover)
    have hpushed : Counted slack total (after.pushBlock seq (some block)) inflight :=
      (h.allocateBlockRefWithEviction halloc).congr
        ((h.owned.allocateBlockRefWithEviction halloc).pushBlock seq) ⟨rfl, rfl, rfl, rfl⟩
    unfold allocateBlocksLoop
    rw [halloc]
    refine ih hpushed ?_
    change n ≤ (after.available []).card
    omega

end Counted

end Quench.KVCacheManager

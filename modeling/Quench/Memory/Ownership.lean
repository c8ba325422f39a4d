import Quench.Memory.Footprints

/-!
# Conservation of block references

Every reference of the pool has exactly one owner: a slot of a sequence table, the entry of the
prefix cache, or a handle held by the operation that is running. `Owned s inflight` says so with the
handles of the running operation in `inflight`. Each primitive moves references between these
places, and each operation starts and ends with none in flight: `step_owned`, and over whole runs
`run_conserves_ownership`.
-/

namespace Quench.KVCacheManager

open Lib List KVCacheManager

variable {block seq : Int} {s s' : KVCacheManager} {total : Nat}

/-- The number of table slots that hold a block, over all sequences. -/
def slotCount (s : KVCacheManager) (block : Int) : Nat :=
  Table.total (fun refs => refs.count (some block)) s.seqBlocks

/-- The number of references the prefix cache holds to a block. -/
def cachedCount (s : KVCacheManager) (block : Int) : Nat :=
  if block ∈ s.cachedBlocksMap then 1 else 0

/-- Every reference is held by a table slot, by the prefix cache, or by a handle in flight. -/
structure Owned (total : Nat) (s : KVCacheManager) (inflight : List BlockRef) : Prop where
  numBlocks : s.pool.numBlocks = total
  refs : ∀ block, s.refCount block =
    s.slotCount block + s.cachedCount block + inflight.count (some block)
  lru_nodup : s.cachedBlocksLru.Nodup
  mem_lru : ∀ block, block ∈ s.cachedBlocksLru ↔ block ∈ s.cachedBlocksMap

/-- Two states with the same references and owners. The order of the cached LRU may differ. -/
structure SameOwners (s s' : KVCacheManager) : Prop where
  pool : s'.pool = s.pool
  seqBlocks : s'.seqBlocks = s.seqBlocks
  cachedBlocksMap : s'.cachedBlocksMap = s.cachedBlocksMap
  cachedBlocksLru : s'.cachedBlocksLru.Perm s.cachedBlocksLru

theorem SameOwners.blockTable (h : SameOwners s s') (seq : Int) :
    s'.blockTable seq = s.blockTable seq := by
  simp only [KVCacheManager.blockTable, h.seqBlocks]

/-- Two states that differ at most in pins, counters and LRU orders. -/
structure SameBlocks (s s' : KVCacheManager) : Prop extends SameOwners s s' where
  blockSize : s'.blockSize = s.blockSize
  prefixCachingEnabled : s'.prefixCachingEnabled = s.prefixCachingEnabled
  blockHashToId : s'.blockHashToId = s.blockHashToId
  blockIdToHash : s'.blockIdToHash = s.blockIdToHash
  seqBlockHashes : s'.seqBlockHashes = s.seqBlockHashes

theorem SameBlocks.rfl' (s : KVCacheManager) : SameBlocks s s :=
  ⟨⟨rfl, rfl, rfl, .refl _⟩, rfl, rfl, rfl, rfl, rfl⟩

theorem Owned.congr {inflight : List BlockRef}
    (h : Owned total s inflight) (hsame : SameOwners s s') :
    Owned total s' inflight where
  numBlocks := by rw [hsame.pool, h.numBlocks]
  refs block := by
    simpa only [refCount, slotCount, cachedCount, hsame.pool, hsame.seqBlocks,
      hsame.cachedBlocksMap] using h.refs block
  lru_nodup := hsame.cachedBlocksLru.nodup_iff.mpr h.lru_nodup
  mem_lru block := by
    rw [hsame.cachedBlocksLru.mem_iff, hsame.cachedBlocksMap, h.mem_lru]

/-! ## Counting slots -/

variable {refs blocks : List BlockRef} {t : KVCacheManager}

section

variable (s : KVCacheManager)

theorem slotCount_setTable (seq : Int) (blocks : List BlockRef) (block : Int) :
    (s.setTable seq blocks).slotCount block + (s.blockTable seq).count (some block) =
      blocks.count (some block) + s.slotCount block := by
  have htotal := Table.total_insert (fun refs : List BlockRef => refs.count (some block))
    s.seqBlocks seq blocks
  unfold slotCount blockTable setTable
  cases hlookup : s.seqBlocks.lookup seq <;> simp_all

theorem slotCount_eraseTable (seq block : Int) :
    (s.eraseTable seq).slotCount block + (s.blockTable seq).count (some block) =
      s.slotCount block := by
  have htotal := Table.total_erase (fun refs : List BlockRef => refs.count (some block))
    s.seqBlocks seq
  unfold slotCount blockTable eraseTable
  cases hlookup : s.seqBlocks.lookup seq <;> simp_all

theorem count_blockTable_le_slotCount (seq block : Int) :
    (s.blockTable seq).count (some block) ≤ s.slotCount block := by
  have herase := s.slotCount_eraseTable seq block
  omega

theorem count_some_cons (refs : List BlockRef) (block other : Int) :
    (some block :: refs).count (some other) =
      refs.count (some other) + if other = block then 1 else 0 := by
  by_cases hother : other = block
  · simp [hother]
  · simp [hother, count_cons_of_ne (fun h => hother (Option.some.inj h).symm)]

/-- Making a hole takes away the one handle that was there. -/
theorem count_set_none {slot : Nat} (hslot : refs[slot]? = some (some block)) (other : Int) :
    refs.count (some other) =
      (refs.set slot none).count (some other) + if other = block then 1 else 0 := by
  obtain ⟨hlt, hget⟩ := List.getElem?_eq_some_iff.mp hslot
  have hset := count_set (a := none) (b := some other) hlt
  rw [hget] at hset
  by_cases hother : other = block
  · have hpos : 0 < refs.count (some other) :=
      count_pos_iff.mpr (hother ▸ mem_of_getElem? hslot)
    subst hother
    simp at hset ⊢
    omega
  · have hne : ¬ block = other := fun heq => hother heq.symm
    simp [hother, hne] at hset ⊢
    omega

theorem cachedCount_cacheBlock (hnew : block ∉ s.cachedBlocksMap) (other : Int) :
    (s.cacheBlock block).cachedCount other =
      s.cachedCount other + if other = block then 1 else 0 := by
  by_cases hother : other = block
  · subst hother
    simp [cachedCount, cacheBlock, hnew]
  · simp [cachedCount, cacheBlock, hother]

theorem cachedCount_uncacheBlock (hmem : block ∈ s.cachedBlocksMap) (other : Int) :
    (s.uncacheBlock block).cachedCount other + (if other = block then 1 else 0) =
      s.cachedCount other := by
  by_cases hother : other = block
  · subst hother
    simp [cachedCount, uncacheBlock, hmem]
  · simp [cachedCount, uncacheBlock, hother]

end

theorem blockTable_of_lookup
    (h : s.seqBlocks.lookup seq = some blocks) : s.blockTable seq = blocks := by
  rw [blockTable, h, Option.getD_some]

theorem blockHashes_of_lookup {hashes : List Hash}
    (h : s.seqBlockHashes.lookup seq = some hashes) : s.blockHashes seq = hashes := by
  rw [blockHashes, h, Option.getD_some]

/-! ## The moves of a reference -/

namespace Owned

variable {inflight inflight' : List BlockRef}
variable {ref : BlockRef}

/-- A table edit moves the difference between the slots and the handles in flight. -/
theorem setTable (h : Owned total s inflight)
    (hcount : ∀ block, (s.blockTable seq).count (some block) + inflight.count (some block) =
      blocks.count (some block) + inflight'.count (some block)) :
    Owned total (s.setTable seq blocks) inflight' where
  __ := h
  refs block := by
    have hrefs := h.refs block
    have hslots := s.slotCount_setTable seq blocks block
    have hmoved := hcount block
    change s.refCount block = _ + s.cachedCount block + _
    omega

/-- Forgetting a table leaves its handles in flight. -/
theorem eraseTable (h : Owned total s inflight)
    (hcount : ∀ block, (s.blockTable seq).count (some block) + inflight.count (some block) =
      inflight'.count (some block)) : Owned total (s.eraseTable seq) inflight' where
  __ := h
  refs block := by
    have hrefs := h.refs block
    have hslots := s.slotCount_eraseTable seq block
    have hmoved := hcount block
    change s.refCount block = _ + s.cachedCount block + _
    omega

/-- A handle in flight may be pushed on a table. -/
theorem pushBlock (h : Owned total s (ref :: inflight)) (seq : Int) :
    Owned total (s.pushBlock seq ref) inflight :=
  h.setTable fun block => by simp only [count_append, count_cons, count_nil]; omega

/-- Destroying handles in flight drops their references. -/
theorem dropRefs (h : Owned total s (refs ++ inflight)) :
    Owned total (s.dropRefs refs) inflight where
  __ := h
  numBlocks := (s.pool.numBlocks_dropRefs refs).trans h.numBlocks
  refs block := by
    have hrefs := h.refs block
    have hdrop : (s.dropRefs refs).refCount block = s.refCount block - refs.count (some block) :=
      s.pool.refCount_dropRefs refs block
    rw [count_append] at hrefs
    change _ = s.slotCount block + s.cachedCount block + _
    omega

/-- The order of the handles in flight does not matter. -/
theorem perm (h : Owned total s inflight) (hperm : inflight.Perm inflight') :
    Owned total s inflight' :=
  { h with refs := fun block => by rw [← hperm.count_eq]; exact h.refs block }

/-- Destroying the first handle in flight drops its reference. -/
theorem dropRef (h : Owned total s (ref :: inflight)) :
    Owned total (s.dropRefs [ref]) inflight := dropRefs h

/-- An empty handle owns nothing. -/
theorem of_none_cons (h : Owned total s (none :: inflight)) : Owned total s inflight :=
  { h with refs := fun block => by simpa using h.refs block }

theorem none_cons (h : Owned total s inflight) : Owned total s (none :: inflight) :=
  { h with refs := fun block => by simpa using h.refs block }

/-- A handle in flight may be handed to the prefix cache. -/
theorem cacheBlock (h : Owned total s (some block :: inflight)) (hnew : block ∉ s.cachedBlocksMap) :
    Owned total (s.cacheBlock block) inflight where
  numBlocks := h.numBlocks
  refs other := by
    have hrefs := h.refs other
    have hcached := s.cachedCount_cacheBlock hnew other
    rw [count_some_cons] at hrefs
    change s.refCount other = s.slotCount other + _ + _
    omega
  lru_nodup := nodup_append'.mpr ⟨h.lru_nodup, nodup_singleton block,
    disjoint_singleton.mpr fun hlru => hnew ((h.mem_lru block).mp hlru)⟩
  mem_lru other := by
    simp only [KVCacheManager.cacheBlock, mem_append, mem_singleton, Finset.mem_insert,
      h.mem_lru, or_comm]

variable (h : Owned total s inflight)
include h

/-- Taking a block out of the prefix cache leaves the cache's handle in flight. -/
theorem uncacheBlock (hmem : block ∈ s.cachedBlocksMap) :
    Owned total (s.uncacheBlock block) (some block :: inflight) where
  numBlocks := h.numBlocks
  refs other := by
    have hrefs := h.refs other
    have hcached := s.cachedCount_uncacheBlock hmem other
    rw [count_some_cons]
    change s.refCount other = s.slotCount other + _ + _
    omega
  lru_nodup := h.lru_nodup.erase block
  mem_lru other := by
    simp only [KVCacheManager.uncacheBlock, h.lru_nodup.mem_erase_iff, Finset.mem_erase, h.mem_lru]

/-- A block taken from the free list is in flight. -/
theorem acquireBlockRef (hacquire : s.acquireBlockRef = (ref, s')) :
    Owned total s' (ref :: inflight) := by
  obtain ⟨href, rfl⟩ := Prod.mk.inj hacquire
  refine ⟨s.pool.numBlocks_acquire.trans h.numBlocks, fun block => ?_, h.lru_nodup, h.mem_lru⟩
  have hrefs := h.refs block
  have hpool : s.pool.acquire = (ref, s.pool.acquire.2) := Prod.ext href rfl
  change s.pool.acquire.2.refCount block = s.slotCount block + s.cachedCount block + _
  cases ref with
  | none =>
    rw [(BlockPool.acquire_of_none hpool).1]
    simpa [refCount] using hrefs
  | some id =>
    obtain ⟨hzero, -, hcount⟩ := BlockPool.refCount_acquire hpool
    rw [count_some_cons, hcount block]
    unfold refCount at hrefs
    split
    next heq =>
      -- a free block had no owner at all
      rw [heq, hzero] at hrefs
      rw [heq]
      omega
    next => omega

/-- A shared block has one more handle, now in flight. -/
theorem shareBlock (hlive : 0 < s.refCount block) :
    (s.shareBlock block).1 = some block ∧
      Owned total (s.shareBlock block).2 (some block :: inflight) := by
  obtain ⟨after, hshare⟩ := BlockPool.shareById_of_pos hlive
  obtain ⟨-, -, hcount⟩ := BlockPool.refCount_shareById hshare
  refine ⟨by simp [KVCacheManager.shareBlock, hshare],
    (s.pool.numBlocks_shareById block).trans h.numBlocks, fun other => ?_, h.lru_nodup, h.mem_lru⟩
  have hrefs := h.refs other
  change (s.pool.shareById block).2.refCount other = s.slotCount other + s.cachedCount other + _
  rw [hshare, hcount other, count_some_cons]
  unfold refCount at hrefs
  omega

/-- A cached block has a reference. -/
theorem refCount_pos_of_cached (hmem : block ∈ s.cachedBlocksMap) :
    0 < s.refCount block := by
  rw [h.refs block, cachedCount, if_pos hmem]
  omega

end Owned

/-! ## Bookkeeping that moves no reference -/

namespace SameOwners

theorem pushHash (s : KVCacheManager) (seq : Int) (hash : Hash) :
    SameOwners s (s.pushHash seq hash) := ⟨rfl, rfl, rfl, .refl _⟩

theorem of_records (h : RecordsOnly s t) : SameOwners s t :=
  ⟨h.keeps (·.pool) fun _ _ => rfl, h.keeps (·.seqBlocks) fun _ _ => rfl,
    h.keeps (·.cachedBlocksMap) fun _ _ => rfl,
    .of_eq (h.keeps (·.cachedBlocksLru) fun _ _ => rfl)⟩

theorem of_index (h : IndexOnly s t) : SameOwners s t := of_records h.records

end SameOwners

namespace SameBlocks

variable (s : KVCacheManager)

theorem trackLru (seq : Int) : SameBlocks s (s.trackLru seq) := by
  unfold KVCacheManager.trackLru
  split <;> exact ⟨⟨rfl, rfl, rfl, .refl _⟩, rfl, rfl, rfl, rfl, rfl⟩

theorem of_pins {s : KVCacheManager} (h : PinsOnly s t) : SameBlocks s t where
  pool := h.keeps (·.pool) fun _ _ => rfl
  seqBlocks := h.keeps (·.seqBlocks) fun _ _ => rfl
  cachedBlocksMap := h.keeps (·.cachedBlocksMap) fun _ _ => rfl
  cachedBlocksLru := .of_eq (h.keeps (·.cachedBlocksLru) fun _ _ => rfl)
  blockSize := h.keeps (·.blockSize) fun _ _ => rfl
  prefixCachingEnabled := h.keeps (·.prefixCachingEnabled) fun _ _ => rfl
  blockHashToId := h.keeps (·.blockHashToId) fun _ _ => rfl
  blockIdToHash := h.keeps (·.blockIdToHash) fun _ _ => rfl
  seqBlockHashes := h.keeps (·.seqBlockHashes) fun _ _ => rfl

theorem pinPrefix (seq numBlocks : Int) :
    SameBlocks s (s.pinPrefix seq numBlocks) := of_pins (.pinPrefix s seq numBlocks)

end SameBlocks

theorem Misses.sameOwners {hash : Hash} (h : Misses s hash t) : SameOwners s t := .of_index h.index

/-- What giving a live block to a sequence does. -/
structure Reuses (s : KVCacheManager) (seq block : Int) (s' : KVCacheManager) : Prop where
  pinned : s'.pinnedBlocks = s.pinnedBlocks
  cached : s'.cachedBlocksMap = s.cachedBlocksMap.erase block
  seqBlocks : s'.seqBlocks = (s.pushBlock seq (some block)).seqBlocks
  numBlocks : s'.pool.numBlocks = s.pool.numBlocks
  refs : ∀ other, s'.refCount other =
    s.refCount other + if other = block ∧ block ∉ s.cachedBlocksMap then 1 else 0
  blockSize : s'.blockSize = s.blockSize
  enabled : s'.prefixCachingEnabled = s.prefixCachingEnabled
  ids : s'.blockHashToId = s.blockHashToId
  hashes : s'.blockIdToHash = s.blockIdToHash
  records : s'.seqBlockHashes = s.seqBlockHashes

theorem reuseBlock_spec (seq : Int)
    (hlive : 0 < s.refCount block) : Reuses s seq block (s.reuseBlock seq block) := by
  unfold reuseBlock
  split
  next hcached =>
    split
    · exact ⟨rfl, rfl, rfl, rfl, fun other => by simp [hcached]; rfl, rfl, rfl, rfl, rfl, rfl⟩
    · exact ⟨rfl, rfl, rfl, rfl, fun other => by simp [hcached]; rfl, rfl, rfl, rfl, rfl, rfl⟩
  next hcached =>
    obtain ⟨after, hshare⟩ := BlockPool.shareById_of_pos hlive
    have hpool : (s.shareBlock block).2.pool = after := by simp only [shareBlock, hshare]
    have href : (s.shareBlock block).1 = some block := by simp only [shareBlock, hshare]
    rw [href]
    refine ⟨rfl, (Finset.erase_eq_of_notMem hcached).symm, rfl, ?_, fun other => ?_, rfl, rfl, rfl,
      rfl, rfl⟩
    · exact BlockPool.numBlocks_shareById s.pool block
    · change (s.shareBlock block).2.pool.refCount other = _
      rw [hpool, (BlockPool.refCount_shareById hshare).2.2]
      simp only [hcached, not_false_eq_true, and_true]
      rfl

/-! ## Allocation -/

namespace Owned

variable {inflight : List BlockRef}

section

variable (h : Owned total s inflight)
include h

theorem reclaimCachedBlock : Owned total s.reclaimCachedBlock.2 inflight := by
  obtain ⟨lru, hperm, hcase⟩ := s.reclaimCachedBlock_cases
  have hrotated : Owned total { s with cachedBlocksLru := lru } inflight :=
    h.congr ⟨rfl, rfl, rfl, hperm⟩
  rcases hcase with heq | ⟨block, hmem, -, heq⟩
  · rw [heq]
    exact hrotated
  · rw [heq]
    have huncached := hrotated.uncacheBlock ((hrotated.mem_lru block).mp hmem)
    have hcounted : Owned total ((({ s with cachedBlocksLru := lru }).uncacheBlock
        block).addReclaimable (-1)) (some block :: inflight) := { huncached with }
    exact (hcounted.congr (.of_index (.eraseBlockHash _ block))).dropRef

omit h in
/-- The handle `allocate_block_ref_with_eviction` returns is in flight. -/
theorem allocateBlockRefWithEviction {ref : BlockRef} (h : Owned total s inflight)
    (halloc : s.allocateBlockRefWithEviction = (ref, s')) : Owned total s' (ref :: inflight) := by
  obtain ⟨t, ht, hcase⟩ :=
    allocateBlockRefWithEviction_rule (Owned total · inflight) (fun _ h => h.reclaimCachedBlock) h
      halloc
  rcases hcase with ⟨rfl, rfl⟩ | ⟨block, rfl, hacquire⟩
  · exact ht.none_cons
  · exact ht.acquireBlockRef hacquire

variable (seq : Int)

/-- Cutting a table leaves the handles past the cut in flight. -/
theorem cutTable (size : Nat) :
    Owned total (s.setTable seq ((s.blockTable seq).take size))
      ((s.blockTable seq).drop size ++ inflight) := by
  refine h.setTable fun block => ?_
  have hsplit := congrArg (List.count (some block)) (take_append_drop size (s.blockTable seq))
  rw [count_append] at hsplit
  rw [count_append]
  omega

/-- Shrinking a table destroys exactly the handles that leave it. -/
theorem resizeTable (size : Nat) :
    Owned total (s.resizeTable seq size) inflight := (h.cutTable seq size).dropRefs

/-- An empty table may be forgotten. -/
theorem eraseEmptyTable {seq : Int} (hempty : (s.blockTable seq).isEmpty = true) :
    Owned total (s.eraseTable seq) inflight :=
  h.eraseTable fun block => by rw [List.isEmpty_iff.mp hempty]; simp

/-- Creating an entry for a sequence moves nothing. -/
theorem touchTable : Owned total (s.setTable seq (s.blockTable seq)) inflight :=
  h.setTable fun _ => rfl

theorem giveUp (size : Nat) : Owned total (s.giveUp seq size) inflight := by
  unfold KVCacheManager.giveUp
  split
  next hempty => exact (h.resizeTable seq size).eraseEmptyTable hempty
  next => exact h.resizeTable seq size

theorem trackLru : Owned total (s.trackLru seq) inflight :=
  h.congr (SameBlocks.trackLru s seq).toSameOwners

end

theorem allocateBlocks (seq numBlocks : Int) (h : Owned total s inflight) :
    Owned total (s.allocateBlocks seq numBlocks).2 inflight :=
  allocateBlocks_rule (I := fun _ s => Owned total s inflight)
    (P := fun out => Owned total out.2 inflight) (fun _ => h) (h.touchTable seq)
    (fun _ _ _ _ h halloc => (h.allocateBlockRefWithEviction halloc).pushBlock seq)
    (fun _ h => h.trackLru seq)
    fun _ _ _ h halloc => (h.allocateBlockRefWithEviction halloc).of_none_cons.giveUp seq _

section

variable (seq : Int)

theorem appendBlock (h : Owned total s inflight) : Owned total (s.appendBlock seq).2 inflight :=
  appendBlock_rule (P := (Owned total · inflight)) h
    (fun _ halloc => (h.allocateBlockRefWithEviction halloc).of_none_cons)
    fun _ _ _ halloc => (h.allocateBlockRefWithEviction halloc).pushBlock seq

/-! ## Freeing -/

/-- The slot loop of `free_sequence` splits the handles of the table, which are in flight here,
into those the cache takes and those it returns. -/
theorem releaseSlots (blocks : List BlockRef) (h : Owned total s (blocks ++ inflight)) :
    Owned total (releaseSlots blocks s).2 ((releaseSlots blocks s).1 ++ inflight) := by
  fun_induction KVCacheManager.releaseSlots blocks s generalizing inflight
  case case1 => exact h
  case case2 _ _ ih => exact (ih h.of_none_cons).none_cons
  case case3 block rest s hkeep _ ih =>
    have hcached : Owned total (s.cacheBlock block) (rest ++ inflight) :=
      h.cacheBlock (not_cached_of_keepsCached hkeep)
    refine ih ?_
    split
    · exact hcached
    · exact { hcached with }
  case case4 block rest s _ ih =>
    -- the handle stays in the table, so it is set aside while the rest is processed
    exact (ih (h.perm perm_middle.symm)).perm perm_middle

/-- The slot loop neither reads nor changes the tables. -/
theorem releaseSlots_eraseTable (blocks : List BlockRef) (s : KVCacheManager) (seq : Int) :
    KVCacheManager.releaseSlots blocks (s.eraseTable seq) =
      ((KVCacheManager.releaseSlots blocks s).1,
        (KVCacheManager.releaseSlots blocks s).2.eraseTable seq) := by
  induction blocks generalizing s with
  | nil => rfl
  | cons ref rest ih =>
    cases ref with
    | none => simp only [KVCacheManager.releaseSlots, ih, Prod.map, id]
    | some block =>
      have hkeeps : (s.eraseTable seq).keepsCached block = s.keepsCached block := rfl
      simp only [KVCacheManager.releaseSlots, hkeeps]
      split
      · by_cases hpinned : block ∈ s.pinnedBlocks
        · have hpinned' : block ∈ (s.eraseTable seq).pinnedBlocks := hpinned
          rw [if_pos hpinned, if_pos hpinned']
          exact ih (s.cacheBlock block)
        · rw [if_neg hpinned, if_neg (show block ∉ (s.eraseTable seq).pinnedBlocks from hpinned)]
          exact ih ((s.cacheBlock block).addReclaimable 1)
      · simp only [ih, Prod.map, id]

variable (h : Owned total s inflight)
include h

/-- A freed table: its handles are the cache's, or in flight. -/
theorem detach (hlookup : s.seqBlocks.lookup seq = some blocks) :
    Owned total ((KVCacheManager.releaseSlots blocks s).2.eraseTable seq)
      ((KVCacheManager.releaseSlots blocks s).1 ++ inflight) := by
  have hdetached : Owned total (s.eraseTable seq) (blocks ++ inflight) :=
    h.eraseTable fun block => by rw [blockTable_of_lookup hlookup, count_append]
  have hreleased := hdetached.releaseSlots
  rwa [releaseSlots_eraseTable] at hreleased

theorem freeSequence : Owned total (s.freeSequence seq) inflight := by
  unfold KVCacheManager.freeSequence
  split
  · exact h
  next blocks hlookup =>
    exact { (h.detach seq hlookup).dropRefs with }

/-! ## Prefix reuse -/

theorem dropTail (size : Nat) :
    Owned total (s.dropTail seq size) inflight :=
  (h.congr (SameOwners.of_index (.dropStale _ s))).resizeTable seq size

theorem rollbackPartialAllocation :
    Owned total (s.rollbackPartialAllocation seq 0) inflight := by
  rw [rollbackPartialAllocation_zero]
  have hempty : ((s.dropTail seq 0).blockTable seq).isEmpty = true :=
    List.isEmpty_iff.mpr ((blockTable_dropTail s seq 0).trans take_zero)
  exact { (h.dropTail seq 0).eraseEmptyTable hempty with }

theorem reuseBlock (hlive : block ∈ s.cachedBlocksMap ∨ 0 < s.refCount block) :
    Owned total (s.reuseBlock seq block) inflight := by
  unfold KVCacheManager.reuseBlock
  split
  next hcached =>
    have hmoved := (h.uncacheBlock hcached).pushBlock seq
    split
    · exact hmoved
    · exact { hmoved with }
  next hcached =>
    obtain ⟨hshared, howned⟩ := h.shareBlock (hlive.resolve_left hcached)
    rw [hshared]
    exact howned.pushBlock seq

theorem entered (seq : Int) : Owned total (s.entered seq) inflight :=
  { h.touchTable seq with }

theorem startTable (tokens : List Token) (maxReuseBlocks : Int) (contentSalt : Hash) :
    Owned total (s.startTable seq tokens maxReuseBlocks contentSalt).2 inflight := by
  refine prefixLoop_rule (I := fun _ t => Owned total t inflight)
    (P := fun out => Owned total out.2 inflight) ?_ ?_ (fun _ _ h => h) ?_ (h.entered seq)
  · intro n t hash block h hlive
    exact { h.reuseBlock seq hlive with }
  · intro n t u v hash block recorded h hmiss halloc
    have hfresh := (h.congr hmiss.sameOwners).allocateBlockRefWithEviction halloc
    exact { hfresh.pushBlock seq with }
  · intro n t u v hash h hmiss halloc
    have hfailed := (h.congr hmiss.sameOwners).allocateBlockRefWithEviction halloc
    exact hfailed.of_none_cons.rollbackPartialAllocation seq

theorem allocateBlocksWithPrefix (tokens : List Token) (maxReuseBlocks : Int) (contentSalt : Hash) :
    Owned total (s.allocateBlocksWithPrefix seq tokens maxReuseBlocks contentSalt).2 inflight :=
  allocateBlocksWithPrefix_keeps (Q := (Owned total · inflight)) h
    (fun n => (h.touchTable seq).allocateBlocks seq n)
    (h.startTable seq tokens maxReuseBlocks contentSalt) fun _ h => h.trackLru seq

/-! ## Edits of a live table -/

/-- Making a hole destroys the handle that was in the slot. -/
theorem evictSlot (slot : Nat) :
    Owned total (s.evictSlot seq slot) inflight := by
  unfold KVCacheManager.evictSlot
  split
  next block hslot =>
    have hsame := SameOwners.of_index (.eraseBlockHash s block)
    dsimp only
    refine dropRef ((h.congr hsame).setTable fun other => ?_)
    rw [hsame.blockTable]
    rw [count_set_none hslot, count_some_cons]
    omega
  next => exact h

theorem clearHashesFrom (sinkEnd totalBlocks : Nat) :
    Owned total (s.clearHashesFrom seq sinkEnd totalBlocks) inflight :=
  h.congr (.of_records (.clearHashesFrom s seq sinkEnd totalBlocks))

end

theorem evictMiddleBlocks (seq nSinkTokens nWindowTokens : Int) (h : Owned total s inflight) :
    Owned total (s.evictMiddleBlocks seq nSinkTokens nWindowTokens).2 inflight :=
  evictMiddleBlocks_rule (P := (Owned total · inflight)) h
    (fun _ => h.congr (SameBlocks.pinPrefix s seq _).toSameOwners)
    (fun _ slot h => h.evictSlot seq slot) fun _ sinkEnd n h => h.clearHashesFrom seq sinkEnd n

theorem rollback (seq newSeqLen : Int) (h : Owned total s inflight) :
    Owned total (s.rollback seq newSeqLen) inflight := by
  have hpopped : ∀ n, Owned total (popBlocks seq n s) inflight := fun n =>
    popBlocks_rule (I := fun _ t => Owned total t inflight) (P := (Owned total · inflight))
      (fun _ _ _ h => h.dropTail seq _) (fun _ _ h => h) h
  exact rollback_rule (P := (Owned total · inflight)) h (fun _ _ => hpopped _)
    (fun _ _ _ h => { h with }) fun _ _ h => { h with }

/-! ## The persisted prefix cache -/

variable (records : List (Hash × Bool))

theorem loadRecords (h : Owned total s inflight) :
    Owned total (loadRecords records s).2
      (((loadRecords records s).1.map fun entry => some entry.2.2) ++ inflight) := by
  refine loadRecords_rule (I := fun entries t => Owned total t
    ((entries.map fun entry => some entry.2.2) ++ inflight)) h ?_
  intro entries t u record block _ _ hacquire ht
  rw [map_append, append_assoc]
  exact (ht.acquireBlockRef hacquire).perm perm_middle.symm

/-- A block taken by the record loop has one reference when the loop ends. -/
theorem refCount_loadRecords (s : KVCacheManager) :
    ∀ entry ∈ (KVCacheManager.loadRecords records s).1,
      (KVCacheManager.loadRecords records s).2.refCount entry.2.2 = 1 := by
  refine loadRecords_rule (I := fun entries t => ∀ entry ∈ entries, t.refCount entry.2.2 = 1)
    (fun _ hmem => by cases hmem) ?_
  intro entries t u record block _ _ hacquire ht entry hmem
  obtain ⟨pool, rfl, -, -, hcount⟩ := acquireBlockRef_some hacquire
  refine (hcount entry.2.2).trans ?_
  split
  next => rfl
  next hne =>
    rcases mem_append.mp hmem with hold | hlast
    · exact ht entry hold
    · exact absurd (congrArg (·.2.2) (mem_singleton.mp hlast)) hne

/-- A block whose only reference is a handle in flight is not cached. -/
theorem not_cached_of_inflight (h : Owned total s (some block :: inflight))
    (hone : s.refCount block = 1) : block ∉ s.cachedBlocksMap := fun hcached => by
  have hrefs := h.refs block
  rw [hone, cachedCount, if_pos hcached, count_some_cons, if_pos rfl] at hrefs
  omega

theorem restoreEntry (hash : Hash) (h : Owned total s (some block :: inflight))
    (hone : s.refCount block = 1) : Owned total (s.restoreEntry hash block) inflight :=
  { cacheBlock h (h.not_cached_of_inflight hone) with }

theorem restoreEntries (entries : List (Hash × Bool × Int))
    (h : Owned total s ((entries.map fun entry => some entry.2.2) ++ inflight))
    (hone : ∀ entry ∈ entries, s.refCount entry.2.2 = 1) :
    Owned total (restoreEntries entries s) (failedRefs entries ++ inflight) := by
  induction entries generalizing s inflight with
  | nil => exact h
  | cons entry rest ih =>
    obtain ⟨hash, copyOk, block⟩ := entry
    have honeRest : ∀ entry ∈ rest, s.refCount entry.2.2 = 1 :=
      fun entry hentry => hone entry (mem_cons_of_mem _ hentry)
    cases copyOk with
    | true =>
      exact ih (restoreEntry hash h (hone _ mem_cons_self)) honeRest
    | false =>
      have hrest : Owned total (restoreEntries rest s)
          (failedRefs rest ++ some block :: inflight) :=
        ih (h.perm perm_middle.symm) honeRest
      exact hrest.perm perm_middle

theorem loadPrefixCache (h : Owned total s inflight) :
    Owned total (s.loadPrefixCache records).2 inflight := by
  unfold KVCacheManager.loadPrefixCache
  split
  · exact ((h.loadRecords records).restoreEntries _ (refCount_loadRecords records s)).dropRefs
  · exact h

end Owned

/-! ## Runs -/

theorem fresh_owned (blockSize totalBlocks swaBlocks : Nat) :
    Owned totalBlocks (fresh blockSize totalBlocks swaBlocks) [] where
  numBlocks := by simp [fresh, BlockPool.numBlocks, BlockPool.openSlots]
  refs block := by
    simp [fresh, refCount, slotCount, cachedCount, BlockPool.refCount_openSlots]
  lru_nodup := nodup_nil
  mem_lru block := by simp [fresh]

/-- Every operation moves references without losing or inventing one. -/
theorem step_owned (s : KVCacheManager) (op : Op) (h : Owned total s []) :
    Owned total (s.step op) [] := by
  cases op with
  | allocateBlocks => exact h.allocateBlocks ..
  | allocateBlocksWithPrefix => exact h.allocateBlocksWithPrefix ..
  | appendBlock => exact h.appendBlock ..
  | freeSequence => exact h.freeSequence ..
  | registerBlockHashes => exact h.congr (SameOwners.of_records (.registerBlockHashes ..))
  | pinPrefix => exact h.congr (SameBlocks.pinPrefix ..).toSameOwners
  | unpinPrefix => exact h.congr (SameBlocks.of_pins (.unpinPrefix ..)).toSameOwners
  | rollback => exact h.rollback ..
  | evictMiddleBlocks => exact h.evictMiddleBlocks ..
  | evictCachedBlock => exact h.reclaimCachedBlock
  | evictLru => exact evictLru_keeps (P := (Owned total · [])) h h.freeSequence
  | loadPrefixCache => exact h.loadPrefixCache ..
  | touch | setPrefixCachingEnabled | setPinBudgetBlocks | enableSwaSizing | swaPrepare | swaTrim =>
    exact { h with }

theorem owned_of_run (blockSize totalBlocks swaBlocks : Nat) (ops : List Op) :
    Owned totalBlocks ((fresh blockSize totalBlocks swaBlocks).run ops) [] :=
  run_invariant step_owned (fresh_owned blockSize totalBlocks swaBlocks) ops

/-- After every run from a fresh manager, a block's reference count is the number of table slots
that hold it plus the prefix cache's own reference; the free list holds exactly the unreferenced
ids, once each; and the cached LRU lists exactly the cached blocks, once each. -/
theorem run_conserves_ownership (blockSize totalBlocks swaBlocks : Nat) (ops : List Op) :
    let s := (fresh blockSize totalBlocks swaBlocks).run ops
    (∀ block, s.refCount block = s.slotCount block + if block ∈ s.cachedBlocksMap then 1 else 0) ∧
    s.pool.freeList.Nodup ∧
    (∀ block, block ∈ s.pool.freeList ↔ 0 ≤ block ∧ block < totalBlocks ∧ s.refCount block = 0) ∧
    s.cachedBlocksLru.Nodup ∧
    ∀ block, block ∈ s.cachedBlocksLru ↔ block ∈ s.cachedBlocksMap := by
  intro s
  have h : Owned totalBlocks s [] := owned_of_run blockSize totalBlocks swaBlocks ops
  refine ⟨fun block => by simpa [cachedCount] using h.refs block, s.pool.free_nodup,
    fun block => ?_, h.lru_nodup, h.mem_lru⟩
  rw [BlockPool.mem_freeList, h.numBlocks]
  rfl

end Quench.KVCacheManager

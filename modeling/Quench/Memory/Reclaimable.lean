import Quench.Memory.LiveSequences
import Quench.Memory.PinRuns

/-!
# The fast path of `can_allocate`

`can_allocate` answers yes without looking further when the free blocks and
`reclaimable_cached_count_` cover the request. `fast_path_allocates` is what that answer is worth:
`allocate_blocks` then succeeds and takes nothing from another sequence.

It rests on the counter being the number of cached blocks without a pin, which holds after every run
that loads a persisted cache only while all pinned blocks have references (`Counted.step`), and on
each of these blocks returning to the pool when it is reclaimed. The second can fail
(`counted_block_not_reclaimed`).
-/

namespace Quench.KVCacheManager

open Lib

variable {s : KVCacheManager} {slack total : Nat} (seq : Int) (tokens : List Token)
  (maxReuseBlocks : Int) (contentSalt : Hash)

/-! ## Operations that leave the pins and the cache alone -/

namespace SamePins

variable (s : KVCacheManager) (seq : Int)

theorem trackLru : SamePins s (s.trackLru seq) := by
  unfold KVCacheManager.trackLru
  split <;> exact ⟨rfl, rfl, rfl, rfl⟩

theorem dropTail (size : Nat) : SamePins s (s.dropTail seq size) :=
  (SamePins.of_index (.dropStale _ s)).trans ⟨rfl, rfl, rfl, rfl⟩

theorem rollback (s : KVCacheManager) (seq newSeqLen : Int) :
    SamePins s (s.rollback seq newSeqLen) := by
  have hpopped : ∀ n, SamePins s (popBlocks seq n s) := fun n =>
    popBlocks_rule (I := fun _ => SamePins s) (fun _ t _ h => h.trans (dropTail t seq _))
      (fun _ _ h => h) (.rfl' s)
  exact rollback_rule (.rfl' s) (fun _ _ => hpopped _) (fun _ _ _ h => h.trans ⟨rfl, rfl, rfl, rfl⟩)
    fun _ _ h => h.trans ⟨rfl, rfl, rfl, rfl⟩

theorem rollbackPartialAllocation : SamePins s (s.rollbackPartialAllocation seq 0) := by
  rw [rollbackPartialAllocation_zero]
  exact (dropTail s seq 0).trans ⟨rfl, rfl, rfl, rfl⟩

end SamePins

/-! ## The counter over whole runs -/

namespace Counted

variable {s' : KVCacheManager} {inflight : List BlockRef}

theorem pushBlock {ref : BlockRef} (h : Counted slack total s (ref :: inflight)) (seq : Int) :
    Counted slack total (s.pushBlock seq ref) inflight :=
  h.congr (h.owned.pushBlock seq) ⟨rfl, rfl, rfl, rfl⟩

variable (h : Counted slack total s inflight)
include h

theorem touchTable : Counted slack total (s.setTable seq (s.blockTable seq)) inflight :=
  h.congr (h.owned.touchTable seq) ⟨rfl, rfl, rfl, rfl⟩

theorem allocateBlocks (seq numBlocks : Int) :
    PinsCounted slack (s.allocateBlocks seq numBlocks).2 := by
  refine allocateBlocks_rule (I := fun _ s => Counted slack total s inflight)
    (P := fun out => PinsCounted slack out.2) (fun _ => h.counted) (h.touchTable seq)
    (fun _ _ _ _ h halloc => (h.allocateBlockRefWithEviction halloc).pushBlock seq)
    (fun t h => h.counted.congr (.trackLru t seq)) fun _ _ u h halloc => ?_
  refine (h.allocateBlockRefWithEviction halloc).counted.congr ?_
  dsimp only [giveUp]
  split <;> exact ⟨rfl, rfl, rfl, rfl⟩

theorem appendBlock : PinsCounted slack (s.appendBlock seq).2 :=
  appendBlock_rule h.counted (fun _ halloc => (h.allocateBlockRefWithEviction halloc).counted)
    fun _ _ _ halloc => ((h.allocateBlockRefWithEviction halloc).pushBlock seq).counted

theorem startTable : PinsCounted slack (s.startTable seq tokens maxReuseBlocks contentSalt).2 := by
  have hmissed : ∀ {t u v hash ref}, Counted slack total t inflight → Misses t hash u →
      u.allocateBlockRefWithEviction = (ref, v) → Counted slack total v (ref :: inflight) :=
    fun h hmiss halloc => (h.congr (h.owned.congr hmiss.sameOwners)
      hmiss.samePins).allocateBlockRefWithEviction halloc
  refine prefixLoop_rule (I := fun _ t => Counted slack total t inflight)
    (P := fun out => PinsCounted slack out.2) ?_ ?_ (fun _ _ h => h.counted) ?_
    (h.congr (h.owned.entered seq) ⟨rfl, rfl, rfl, rfl⟩)
  · intro n t hash block h hlive
    exact ⟨(h.owned.reuseBlock seq hlive).congr (.pushHash _ seq hash),
      { h.counted.reuseBlock seq block with }⟩
  · intro n t u v hash block recorded h hmiss halloc
    have hpushed := (hmissed h hmiss halloc).pushBlock seq
    exact hpushed.congr (hpushed.owned.congr (.pushHash _ seq recorded)) ⟨rfl, rfl, rfl, rfl⟩
  · intro n t u v hash h hmiss halloc
    exact (hmissed h hmiss halloc).counted.congr (.rollbackPartialAllocation v seq)

theorem allocateBlocksWithPrefix
    :
    PinsCounted slack (s.allocateBlocksWithPrefix seq tokens maxReuseBlocks contentSalt).2 :=
  allocateBlocksWithPrefix_keeps h.counted (fun n => (h.touchTable seq).allocateBlocks seq n)
    (h.startTable seq tokens maxReuseBlocks contentSalt) fun t h => h.congr (.trackLru t seq)

theorem freeSequence : PinsCounted slack (s.freeSequence seq) := by
  unfold KVCacheManager.freeSequence
  split
  · exact h.counted
  next blocks _ =>
    exact { (PinsHeld.counted_releaseSlots blocks h.counted).1 with }

theorem evictMiddleBlocks (seq nSinkTokens nWindowTokens : Int) :
    PinsCounted slack (s.evictMiddleBlocks seq nSinkTokens nWindowTokens).2 :=
  evictMiddleBlocks_rule h.counted (fun sinkEnd => h.counted.pinPrefix seq sinkEnd)
    (fun t slot ht => ht.congr (PinsHeld.pins_evictSlot seq slot t).1)
    fun t sinkEnd n ht => ht.congr (.of_records (.clearHashesFrom t seq sinkEnd n))

end Counted

/-- A persisted cache is loaded only while every pinned block has a reference; a pinned block on the
free list could come back as a cached one, and the counter would count it. -/
def LoadSafe (s : KVCacheManager) : Op → Prop
  | .loadPrefixCache _ => ∀ block ∈ s.pinnedBlocks, 0 < s.refCount block
  | _ => True

instance LoadSafe.decidable (s : KVCacheManager) : (op : Op) → Decidable (LoadSafe s op)
  | .loadPrefixCache _ => inferInstanceAs (Decidable (∀ block ∈ s.pinnedBlocks, _ < _))
  | .allocateBlocksWithPrefix _ _ _ _ | .rollback _ _ | .evictMiddleBlocks _ _ _
  | .allocateBlocks _ _ | .appendBlock _ | .freeSequence _ | .registerBlockHashes _ _ _
  | .pinPrefix _ _ | .unpinPrefix _ | .evictCachedBlock | .evictLru | .touch _
  | .setPrefixCachingEnabled _ | .setPinBudgetBlocks _ | .enableSwaSizing _ _ | .swaPrepare _ _ _
  | .swaTrim _ _ => inferInstanceAs (Decidable True)

/-- Every call but a load keeps the counter in every state. -/
theorem Counted.step_of_ne {op : Op}
    (h : Counted slack total s []) (hne : ∀ records, op ≠ .loadPrefixCache records) :
    Counted slack total (s.step op) [] := by
  refine ⟨step_owned s op h.owned, ?_⟩
  cases op with
  | allocateBlocks => exact h.allocateBlocks ..
  | allocateBlocksWithPrefix => exact h.allocateBlocksWithPrefix ..
  | appendBlock => exact h.appendBlock ..
  | freeSequence => exact h.freeSequence ..
  | registerBlockHashes => exact h.counted.congr (.of_records (.registerBlockHashes ..))
  | pinPrefix => exact h.counted.pinPrefix ..
  | unpinPrefix => exact h.counted.unpinPrefix ..
  | rollback => exact h.counted.congr (.rollback ..)
  | evictMiddleBlocks => exact h.evictMiddleBlocks ..
  | evictCachedBlock => exact h.reclaimCachedBlock.counted
  | evictLru => exact evictLru_keeps h.counted h.freeSequence
  | loadPrefixCache records => exact absurd rfl (hne records)
  | touch | setPrefixCachingEnabled | setPinBudgetBlocks | enableSwaSizing | swaPrepare | swaTrim =>
    exact { h.counted with }

/-- A safe load keeps it exact. -/
theorem Counted.step (s : KVCacheManager) (op : Op) (h : Counted 0 total s [])
    (hsafe : LoadSafe s op) : Counted 0 total (s.step op) [] := by
  by_cases hload : ∃ records, op = .loadPrefixCache records
  · obtain ⟨records, rfl⟩ := hload
    exact (PinsHeld.loadPrefixCache records ⟨h.owned, h.counted, hsafe⟩).toCounted
  · exact h.step_of_ne fun records heq => hload ⟨records, heq⟩

/-- Any load counts one for each block that it hands to the cache, which may have been pinned. -/
theorem PinsCounted.loadPrefixCache (records : List (Hash × Bool)) (h : PinsCounted slack s) :
    ∃ slack', PinsCounted slack' (s.loadPrefixCache records).2 := by
  unfold KVCacheManager.loadPrefixCache
  split
  · have hloaded : SamePins s (loadRecords records s).2 := by
      refine loadRecords_rule (I := fun _ t => SamePins s t) (.rfl' s) ?_
      rintro entries t u record block _ _ hacquire hsame
      obtain ⟨pool, rfl, -⟩ := acquireBlockRef_some hacquire
      exact hsame.trans ⟨rfl, rfl, rfl, rfl⟩
    obtain ⟨slack', hrestored⟩ : ∃ slack', PinsCounted slack'
        (restoreEntries (loadRecords records s).1 (loadRecords records s).2) := by
      refine List.foldlRecOn (motive := fun t => ∃ slack', PinsCounted slack' t) _ _
        ⟨slack, h.congr hloaded⟩ fun t ht entry _ => ?_
      split
      · obtain ⟨slack', ht⟩ := ht
        have hcard : (insert entry.2.2 t.cachedBlocksMap \ t.pinnedBlocks).card ≤
            (insert entry.2.2 (t.cachedBlocksMap \ t.pinnedBlocks)).card :=
          Finset.card_le_card fun other hmem => by
            obtain ⟨hin, hout⟩ := Finset.mem_sdiff.mp hmem
            rcases Finset.mem_insert.mp hin with rfl | hin
            · exact Finset.mem_insert_self _ _
            · exact Finset.mem_insert_of_mem (Finset.mem_sdiff.mpr ⟨hin, hout⟩)
        have hinsert := Finset.card_insert_le entry.2.2 (t.cachedBlocksMap \ t.pinnedBlocks)
        have hcount := ht.reclaimable
        refine ⟨slack' + 1 + (t.cachedBlocksMap \ t.pinnedBlocks).card -
          (insert entry.2.2 t.cachedBlocksMap \ t.pinnedBlocks).card, ht.pinned, ?_⟩
        change t.reclaimableCachedCount + 1 =
          ((insert entry.2.2 t.cachedBlocksMap \ t.pinnedBlocks).card : Int) + _
        omega
      · exact ht
    exact ⟨slack', hrestored.congr ⟨rfl, rfl, rfl, rfl⟩⟩
  · exact ⟨slack, h⟩

/-- After every run the counter covers the cached blocks without a pin. -/
theorem counted_of_run (blockSize totalBlocks swaBlocks : Nat) (ops : List Op) :
    ∃ slack, Counted slack totalBlocks ((fresh blockSize totalBlocks swaBlocks).run ops) [] := by
  have hstep : ∀ s op, (∃ slack, Counted slack totalBlocks s []) →
      ∃ slack, Counted slack totalBlocks (s.step op) [] := by
    rintro s op ⟨slack, h⟩
    by_cases hload : ∃ records, op = .loadPrefixCache records
    · obtain ⟨records, rfl⟩ := hload
      obtain ⟨slack', hcounted⟩ := h.counted.loadPrefixCache records
      exact ⟨slack', step_owned s (.loadPrefixCache records) h.owned, hcounted⟩
    · exact ⟨slack, h.step_of_ne fun records heq => hload ⟨records, heq⟩⟩
  exact run_invariant hstep ⟨0, (fresh_pinsHeld blockSize totalBlocks swaBlocks).toCounted⟩ ops

/-! ## What the counter is worth -/

/-- No cached block that reclaiming may take is still in a slot of a sequence. -/
def ReclaimableUnshared (s : KVCacheManager) : Prop :=
  ∀ block ∈ s.cachedBlocksMap, block ∉ s.pinnedBlocks → s.slotCount block = 0

instance (s : KVCacheManager) : Decidable s.ReclaimableUnshared :=
  inferInstanceAs (Decidable (∀ block ∈ s.cachedBlocksMap, _))

/-- If no sequence uses them, the free and the counted blocks are the available ones. -/
theorem Counted.card_available (h : Counted 0 total s []) (hlone : s.ReclaimableUnshared) :
    ((s.available []).card : Int) = s.numFreeBlocks + s.reclaimableCachedCount := by
  have hone : ∀ block ∈ s.cachedBlocksMap, block ∉ s.pinnedBlocks → s.refCount block = 1 := by
    intro block hcached hout
    have hrefs := h.owned.refs block
    rw [hlone block hcached hout, cachedCount, if_pos hcached, List.count_nil] at hrefs
    exact hrefs
  have hdisjoint : Disjoint s.pool.freeList.toFinset (s.cachedBlocksMap \ s.pinnedBlocks) := by
    refine Finset.disjoint_left.mpr fun block hfree hmem => ?_
    have hzero : s.refCount block = 0 :=
      (BlockPool.mem_freeList.mp (List.mem_toFinset.mp hfree)).2.2
    have hpos := h.owned.refCount_pos_of_cached (Finset.mem_sdiff.mp hmem).1
    omega
  have hunion : (s.available []).map ⟨Int.ofNat, fun _ _ heq => Int.ofNat.inj heq⟩ =
      s.pool.freeList.toFinset ∪ (s.cachedBlocksMap \ s.pinnedBlocks) := by
    ext block
    rw [Finset.mem_union, List.mem_toFinset, BlockPool.mem_freeList, Finset.mem_sdiff,
      Finset.mem_map]
    constructor
    · rintro ⟨id, hid, rfl⟩
      obtain ⟨hrange, hfree | ⟨hcached, hout, -⟩⟩ := mem_available.mp hid
      · exact .inl ⟨Int.natCast_nonneg id, Int.ofNat_lt.mpr hrange, hfree⟩
      · exact .inr ⟨hcached, hout⟩
    · rintro (⟨hnonneg, hlt, hzero⟩ | ⟨hcached, hout⟩)
      · refine ⟨block.toNat, mem_available.mpr ⟨by omega, .inl ?_⟩, Int.toNat_of_nonneg hnonneg⟩
        rw [Int.toNat_of_nonneg hnonneg]
        exact hzero
      · have hbounds := BlockPool.lt_numBlocks_of_refCount_pos
          (h.owned.refCount_pos_of_cached hcached)
        refine ⟨block.toNat, mem_available.mpr ⟨by omega, .inr ?_⟩, Int.toNat_of_nonneg hbounds.1⟩
        rw [Int.toNat_of_nonneg hbounds.1]
        exact ⟨hcached, hout, hone block hcached hout, List.not_mem_nil⟩
  have hcard := congrArg Finset.card hunion
  rw [Finset.card_union_of_disjoint hdisjoint, Finset.card_map,
    List.toFinset_card_of_nodup s.pool.free_nodup] at hcard
  rw [hcard, h.counted.reclaimable]
  push_cast
  rfl

/-- After every run with safe loads, in a state in which no counted block is still in use: if the
free and the counted blocks cover a request, the request is granted and no other sequence's table
changes. -/
theorem fast_path_allocates (blockSize totalBlocks swaBlocks : Nat) (ops : List Op)
    (hloads : SafeRun LoadSafe (fresh blockSize totalBlocks swaBlocks) ops)
    (hlone : ((fresh blockSize totalBlocks swaBlocks).run ops).ReclaimableUnshared) :
    let s := (fresh blockSize totalBlocks swaBlocks).run ops
    ∀ seq numBlocks : Int, 0 < numBlocks →
      numBlocks ≤ s.numFreeBlocks + s.reclaimableCachedCount →
      s.canAllocate numBlocks = true ∧ (s.allocateBlocks seq numBlocks).1 = true ∧
        ∀ other, other ≠ seq →
          (s.allocateBlocks seq numBlocks).2.seqBlocks.lookup other = s.seqBlocks.lookup other := by
  intro s seq numBlocks hpos hcover
  have h : Counted 0 totalBlocks s [] := safeRun_invariant Counted.step
    (fresh_pinsHeld blockSize totalBlocks swaBlocks).toCounted hloads
  refine ⟨?_, ?_, (Serves.allocateBlocks s seq numBlocks).table⟩
  · unfold canAllocate
    rw [decide_eq_true hcover, Bool.or_true, Bool.true_or]
  · have hcard := h.card_available hlone
    have hloop := (h.touchTable seq).allocateBlocksLoop_available seq (s.blockTable seq).length
      numBlocks.toNat (by change _ ≤ (s.available []).card; omega)
    unfold allocateBlocks
    rw [if_neg (by omega)]
    dsimp only
    split
    next after heq => rw [heq] at hloop; exact hloop
    next => rfl

/-- A pool of four blocks: one is cached and pinned, two are cached without a pin, one is free. The
counter covers three. -/
theorem fast_path_allocates_three :
    let s := (fresh 1 4 0).run [.setPrefixCachingEnabled true,
      .allocateBlocksWithPrefix 0 [1, 2, 3] (-1) 0, .registerBlockHashes 0 [1, 2, 3] 0,
      .pinPrefix 0 1, .freeSequence 0]
    s.numFreeBlocks = 1 ∧ s.reclaimableCachedCount = 2 ∧ s.canAllocate 3 = true ∧
      (s.allocateBlocks 7 3).1 = true ∧ ∀ other, other ≠ 7 →
        (s.allocateBlocks 7 3).2.seqBlocks.lookup other = s.seqBlocks.lookup other :=
  ⟨by decide +kernel, by decide +kernel,
    fast_path_allocates 1 4 0 _ (by decide +kernel) (by decide +kernel) 7 3 (by decide)
      (by decide +kernel)⟩

/-- Two sequences share a pinned block. The first is freed, which caches the block, and unpins it:
the counter counts a block that the second still uses, and reclaiming it frees nothing. Loading a
cache into a pinned block that was on the free list is the other way to count too much. -/
theorem counted_block_not_reclaimed :
    (let s := (fresh 1 1 0).run [.setPrefixCachingEnabled true,
      .allocateBlocksWithPrefix 0 [1] (-1) 0, .registerBlockHashes 0 [1] 0, .pinPrefix 0 1,
      .allocateBlocksWithPrefix 1 [1] (-1) 0, .freeSequence 0, .unpinPrefix 0]
     s.numFreeBlocks = 0 ∧ s.reclaimableCachedCount = 1 ∧ s.canAllocate 1 = true ∧
       (s.allocateBlocks 2 1).1 = false) ∧
    (let s := (fresh 1 1 0).run [.setPrefixCachingEnabled true, .allocateBlocks 0 1,
      .pinPrefix 0 1, .rollback 0 0, .loadPrefixCache [(5, true)]]
     s.numFreeBlocks = 0 ∧ s.reclaimableCachedCount = 1 ∧ s.canAllocate 1 = true ∧
       (s.allocateBlocks 2 1).1 = false) := by
  decide +kernel

end Quench.KVCacheManager

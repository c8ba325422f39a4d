import Quench.Memory.PrefixIndex

/-!
# Index entries that name blocks

What reuse relies on is weaker than the two-way index: an entry of `block_hash_to_id_` that names a
block can be found again from the block, and the block has references. `Filed` says this. `Shrinks`
is what every operation but publication does to the entries: some may go, none comes, and a block
with at most one reference and no entry stays so.
-/

namespace Quench.KVCacheManager

open Lib List KVCacheManager

variable {seq : Int} {s : KVCacheManager}

/-! ## What the slot loops leave -/

variable {block : Int} {hash : Hash} {total : Nat} {inflight : List BlockRef} {ref : BlockRef}

section

variable (blocks : List BlockRef) (s : KVCacheManager)

/-- The slot loop of `free_sequence` takes nothing out of the cache. -/
theorem releaseSlots_grows : s.cachedBlocksMap ⊆ (releaseSlots blocks s).2.cachedBlocksMap := by
  fun_induction releaseSlots blocks s
  case case1 => exact Finset.Subset.refl _
  case case2 _ _ ih => exact ih
  case case3 block _ s _ _ ih =>
    refine Finset.Subset.trans ?_ ih
    split <;> exact Finset.subset_insert block s.cachedBlocksMap
  case case4 _ _ _ _ ih => exact ih

theorem releaseSlots_sublist : (releaseSlots blocks s).1.Sublist blocks := by
  fun_induction releaseSlots blocks s
  case case1 => exact .slnil
  case case2 _ _ ih => exact ih.cons_cons none
  case case3 block _ _ _ _ ih => exact ih.cons (some block)
  case case4 block _ _ _ ih => exact ih.cons_cons (some block)

/-- A block that is pinned, or the last reference of a block of the index, ends in the cache. -/
theorem releaseSlots_caches (hkept : (decide (block ∈ s.pinnedBlocks) ||
      (s.prefixCachingEnabled && decide (s.refCount block = 1) &&
        (s.blockIdToHash.lookup block).isSome)) = true) (hmem : some block ∈ blocks) :
    block ∈ (releaseSlots blocks s).2.cachedBlocksMap := by
  fun_induction releaseSlots blocks s
  case case1 => cases hmem
  case case2 _ _ ih => exact ih hkept ((mem_cons.mp hmem).resolve_left (by simp))
  case case3 first rest s _ _ ih =>
    rcases mem_cons.mp hmem with heq | hmem
    · cases heq
      refine releaseSlots_grows rest _ ?_
      split <;> exact Finset.mem_insert_self block s.cachedBlocksMap
    · exact ih (by split <;> exact hkept) hmem
  case case4 first rest s hdrop ih =>
    rcases mem_cons.mp hmem with heq | hmem
    · cases heq
      refine releaseSlots_grows rest s (not_not.mp fun hcached => hdrop ?_)
      rw [keepsCached, hkept, decide_eq_true hcached, Bool.and_self]
    · exact ih hkept hmem

end

/-- A block of the index has more references than the handles of a freed table that are dropped. -/
theorem dropped_lt {blocks : List BlockRef}
    (howned : Owned total ((releaseSlots blocks s).2.eraseTable seq)
      ((releaseSlots blocks s).1 ++ inflight)) (henabled : s.prefixCachingEnabled = true)
    (hlookup : s.blockIdToHash.lookup block = some hash) (hpos : 0 < s.refCount block)
    (hone : blocks.count (some block) ≤ 1) : (releaseSlots blocks s).1.count (some block) <
      (releaseSlots blocks s).2.refCount block := by
  have hrefs := howned.refs block
  change (releaseSlots blocks s).2.refCount block =
    _ + (releaseSlots blocks s).2.cachedCount block + _ at hrefs
  have hcount : (releaseSlots blocks s).2.refCount block = s.refCount block :=
    (CacheOnly.releaseSlots blocks s).keeps (·.refCount block) fun _ _ => rfl
  have hfew := ((releaseSlots_sublist blocks s).count_le (some block)).trans hone
  rw [count_append] at hrefs
  by_cases hmem : some block ∈ (releaseSlots blocks s).1
  · rcases eq_or_ne (s.refCount block) 1 with hlast | hmany
    · have hcached := releaseSlots_caches blocks s (by simp [henabled, hlookup, hlast])
        ((releaseSlots_sublist blocks s).subset hmem)
      rw [cachedCount, if_pos hcached] at hrefs
      omega
    · omega
  · rw [count_eq_zero.mpr hmem, hcount]
    exact hpos

/-- Evicting a slot leaves a hole there and every other slot as it was. -/
theorem blockTable_evictSlot (seq : Int) (slot : Nat) (s : KVCacheManager) :
    (s.evictSlot seq slot).blockTable seq = (s.blockTable seq).set slot none := by
  unfold evictSlot
  split
  next block hslot =>
    change blockTable (setTable _ seq _) seq = _
    rw [blockTable_setTable, (SameTables.of_index (.eraseBlockHash s block)).blockTable]
  next hnone =>
    refine ext_getElem? fun i => ?_
    by_cases hi : slot = i
    · subst hi
      rw [getElem?_set_self']
      cases hget : (s.blockTable seq)[slot]? with
      | none => rfl
      | some ref =>
        cases ref with
        | none => rfl
        | some block => exact absurd hget (hnone block)
    · rw [getElem?_set_ne hi]

/-- The hash list `clear_hashes_from` leaves: zero from the sinks on, up to the table's end. -/
theorem getD_clearedHashes (hashes : List Hash) (sinkEnd stop i : Nat)
    (hstop : stop ≤ hashes.length) :
    (hashes.take sinkEnd ++ List.replicate (stop - sinkEnd) 0 ++
      hashes.drop (max stop sinkEnd)).getD i 0 =
      if sinkEnd ≤ i ∧ i < stop then 0 else hashes.getD i 0 := by
  rcases le_or_gt stop sinkEnd with hle | hlt
  · rw [Nat.sub_eq_zero_of_le hle, replicate_zero, append_nil, max_eq_right hle,
      take_append_drop, if_neg (by omega)]
  · have hlength : (hashes.take sinkEnd).length = sinkEnd := length_take_of_le (by omega)
    simp only [getD_eq_getElem?_getD, append_assoc, getElem?_append, hlength, length_replicate,
      getElem?_take, getElem?_replicate, getElem?_drop, max_eq_left hlt.le]
    by_cases hsink : i < sinkEnd
    · rw [if_pos hsink, if_pos hsink, if_neg (by omega)]
    · rw [if_neg hsink]
      by_cases hi : i < stop
      · rw [if_pos (by omega), if_pos (by omega), if_pos ⟨by omega, hi⟩]
        rfl
      · rw [if_neg (by omega), if_neg (by omega),
          show stop + (i - sinkEnd - (stop - sinkEnd)) = i by omega]

/-- Freeing a sequence forgets its table and hashes. -/
theorem freeSequence_empty (s : KVCacheManager) (seq : Int) :
    (s.freeSequence seq).seqBlocks.lookup seq = none ∧
      ((s.freeSequence seq).blockHashes seq = [] ∨ s.freeSequence seq = s) := by
  unfold freeSequence
  split
  next hnone => exact ⟨hnone, .inr rfl⟩
  next blocks _ =>
    refine ⟨?_, .inl ?_⟩
    · change ((releaseSlots blocks s).2.seqBlocks.erase seq).lookup seq = none
      rw [Table.lookup_erase_ite, if_pos rfl]
    · change (eraseHashes _ seq).blockHashes seq = []
      rw [blockHashes_eraseHashes_ite, if_pos rfl]

/-- Clearing hashes leaves every recorded hash as it was or forgets it, from the sinks on. -/
theorem recordedHash_clearHashesFrom (seq : Int) (sinkEnd totalBlocks : Nat) (s : KVCacheManager)
    (other : Int) (i : Nat) : let after := s.clearHashesFrom seq sinkEnd totalBlocks
    after.recordedHash other i = s.recordedHash other i ∨
      other = seq ∧ sinkEnd ≤ i ∧ after.recordedHash other i = 0 := by
  unfold clearHashesFrom
  split
  · exact .inl rfl
  next hashes hlookup =>
    have hsame := fun refs => SameTables.of_index (.foldl IndexOnly.eraseRefHash refs s)
    dsimp only
    rw [recordedHash, blockHashes_setHashes_ite]
    split
    next heq =>
      rw [getD_clearedHashes hashes sinkEnd _ i (min_le_right _ _)]
      split
      next hrange => exact .inr ⟨heq, hrange.1, rfl⟩
      next => exact .inl (by rw [heq, recordedHash, blockHashes_of_lookup hlookup])
    next => exact .inl ((hsame _).recordedHash other i)

/-! ## Entries -/

/-- The index names this block under this hash. -/
def Files (s : KVCacheManager) (hash : Hash) (block : Int) : Prop :=
  s.blockHashToId.lookup hash = some block ∧ 0 ≤ block

/-- Every entry that names a block can be found from the block, and the block is live. -/
structure Filed (s : KVCacheManager) : Prop where
  named : ∀ hash block, Files s hash block → s.blockIdToHash.lookup block = some hash
  live : ∀ hash block, Files s hash block → 0 < s.refCount block

/-- A block with at most one reference and no entry: its holder may write to it. -/
def Exclusive (s : KVCacheManager) (block : Int) : Prop :=
  s.refCount block ≤ 1 ∧ ∀ hash, ¬ Files s hash block

/-- A block that belongs to one slot alone is in no other. -/
theorem Exclusive.unique (hexcl : Exclusive s block)
    (howned : Owned total s inflight) {other : Int} {i j : Nat} (hslot : HasSlot s seq i block)
    (hslot' : HasSlot s other j block) : other = seq ∧ j = i := by
  have hrefs := howned.refs block
  have hone := hexcl.1
  exact hslot.unique hslot' (by omega)

/-- The entries may lose some and exclusive blocks stay exclusive. -/
structure Shrinks (s s' : KVCacheManager) : Prop where
  filed : Filed s'
  sub : ∀ hash block, Files s' hash block → Files s hash block
  exclusive : ∀ block, Exclusive s block → Exclusive s' block
  blockSize : s'.blockSize = s.blockSize
  enabled : s'.prefixCachingEnabled = s.prefixCachingEnabled

/-- A block without references has no entry. -/
theorem Filed.exclusive_of_free (h : Filed s) (hfree : s.refCount block = 0) : Exclusive s block :=
  ⟨by omega, fun hash hfiles => by
    have := h.live hash block hfiles
    omega⟩

namespace Shrinks

variable {s' s'' : KVCacheManager}

theorem rfl' (h : Filed s) : Shrinks s s := ⟨h, fun _ _ h => h, fun _ h => h, rfl, rfl⟩

theorem trans (h : Shrinks s s') (h' : Shrinks s' s'') : Shrinks s s'' :=
  ⟨h'.filed, fun hash block hfiles => h.sub hash block (h'.sub hash block hfiles),
    fun block hexcl => h'.exclusive block (h.exclusive block hexcl),
    h'.blockSize.trans h.blockSize, h'.enabled.trans h.enabled⟩

section

variable (h : Filed s) (hsize : s'.blockSize = s.blockSize)
  (henabled : s'.prefixCachingEnabled = s.prefixCachingEnabled)
  (hids : s'.blockHashToId = s.blockHashToId) (hhashes : s'.blockIdToHash = s.blockIdToHash)
include h hsize henabled hids hhashes

/-- A step that leaves the index alone and raises no count of an exclusive block. -/
theorem of_counts (hlive : ∀ hash block, Files s hash block → 0 < s'.refCount block)
    (hcount : ∀ block, Exclusive s block → s'.refCount block ≤ 1) : Shrinks s s' := by
  have hfiles : ∀ hash block, Files s' hash block ↔ Files s hash block := fun hash block => by
    rw [Files, hids, Files]
  refine ⟨⟨fun hash block hentry => ?_, fun hash block hentry => ?_⟩,
    fun hash block => (hfiles hash block).mp, fun block hexcl => ⟨hcount block hexcl, ?_⟩,
    hsize, henabled⟩
  · rw [hhashes]
    exact h.named hash block ((hfiles hash block).mp hentry)
  · exact hlive hash block ((hfiles hash block).mp hentry)
  · exact fun hash hentry => hexcl.2 hash ((hfiles hash block).mp hentry)

/-- A step that leaves the index and the counts alone. -/
theorem of_same (hpool : s'.pool = s.pool) : Shrinks s s' :=
  of_counts h hsize henabled hids hhashes
    (fun hash block hfiles => by rw [refCount, hpool]; exact h.live hash block hfiles)
    fun block hexcl => by rw [refCount, hpool]; exact hexcl.1

end

variable (h : Filed s)
include h

theorem of_sameBlocks (hsame : SameBlocks s s') : Shrinks s s' :=
  of_same h hsame.blockSize hsame.prefixCachingEnabled hsame.blockHashToId hsame.blockIdToHash
    hsame.pool

/-! ## Dropping entries and references -/

/-- A block whose entries are erased has none. -/
theorem not_files_eraseBlockHash (block : Int) (hash : Hash) :
    ¬ Files (s.eraseBlockHash block) hash block := by
  intro hfiles
  obtain ⟨hlookup, hother⟩ := lookup_eraseBlockHash hfiles.1
  exact hother (h.named hash block ⟨hlookup, hfiles.2⟩)

theorem eraseBlockHash (block : Int) : Shrinks s (s.eraseBlockHash block) := by
  have hpool : (s.eraseBlockHash block).pool = s.pool :=
    (SameOwners.of_index (.eraseBlockHash s block)).pool
  have hsub : ∀ hash other, Files (s.eraseBlockHash block) hash other → Files s hash other :=
    fun _ _ hfiles => ⟨(lookup_eraseBlockHash hfiles.1).1, hfiles.2⟩
  have hframe := SameTables.of_index (.eraseBlockHash s block)
  refine ⟨⟨fun hash other hfiles => ?_, fun hash other hfiles => ?_⟩, hsub,
    fun other hexcl => ⟨?_, fun hash hfiles => hexcl.2 hash (hsub hash other hfiles)⟩,
    hframe.blockSize, hframe.prefixCachingEnabled⟩
  · have hne : other ≠ block := fun heq => not_files_eraseBlockHash h block hash (heq ▸ hfiles)
    rw [blockIdToHash_eraseBlockHash, if_neg hne]
    exact h.named hash other (hsub hash other hfiles)
  · rw [refCount, hpool]
    exact h.live hash other (hsub hash other hfiles)
  · rw [refCount, hpool]
    exact hexcl.1

/-- Handles may be destroyed if every block in the index has more references than that. -/
theorem dropRefs {refs : List BlockRef}
    (hkeep : ∀ hash block, Files s hash block → refs.count (some block) < s.refCount block) :
    Shrinks s (s.dropRefs refs) := by
  have hcount : ∀ block, (s.dropRefs refs).refCount block =
      s.refCount block - refs.count (some block) := BlockPool.refCount_dropRefs s.pool refs
  refine of_counts h rfl rfl rfl rfl (fun hash block hfiles => ?_) fun block hexcl => ?_
  · have := hkeep hash block hfiles
    rw [hcount]
    omega
  · have := hexcl.1
    rw [hcount]
    omega

/-- A block without entries may lose a reference. -/
theorem dropRef (hout : ∀ hash, ¬ Files s hash block) :
    Shrinks s (s.dropRefs [some block]) := by
  refine dropRefs h fun hash other hfiles => ?_
  have hne : other ≠ block := fun heq => hout hash (heq ▸ hfiles)
  rw [count_some_cons, if_neg hne]
  exact h.live hash other hfiles

/-! ## Taking a block -/

theorem reclaimCachedBlock : Shrinks s s.reclaimCachedBlock.2 := by
  obtain ⟨lru, -, heq | ⟨block, -, -, heq⟩⟩ := s.reclaimCachedBlock_cases
  · rw [heq]
    exact of_same h rfl rfl rfl rfl rfl
  · rw [heq]
    have huncached : Shrinks s
        ((({ s with cachedBlocksLru := lru }).uncacheBlock block).addReclaimable (-1)) :=
      of_same h rfl rfl rfl rfl rfl
    have hforgotten := huncached.trans (eraseBlockHash huncached.filed block)
    exact hforgotten.trans
      (dropRef hforgotten.filed (not_files_eraseBlockHash huncached.filed block))

theorem acquireBlockRef (hacquire : s.acquireBlockRef = (ref, s')) :
    Shrinks s s' ∧ ∀ block, ref = some block → s'.refCount block = 1 ∧ Exclusive s' block := by
  cases ref with
  | none =>
    cases acquireBlockRef_none hacquire
    exact ⟨rfl' h, fun _ heq => by cases heq⟩
  | some block =>
    obtain ⟨pool, rfl, hfree, -, hcounts⟩ := acquireBlockRef_some hacquire
    have hshrinks : Shrinks s { s with pool } := by
      refine of_counts h rfl rfl rfl rfl (fun hash other hfiles => ?_) fun other hexcl => ?_
      · change 0 < pool.refCount other
        rw [hcounts]
        split
        · exact Nat.one_pos
        · exact h.live hash other hfiles
      · change pool.refCount other ≤ 1
        rw [hcounts]
        split
        · exact le_refl 1
        · exact hexcl.1
    refine ⟨hshrinks, fun other heq => ?_⟩
    cases heq
    exact ⟨(hcounts block).trans (if_pos rfl), hshrinks.exclusive block (h.exclusive_of_free hfree)⟩

/-- The block an allocation takes has one reference and no entry. -/
theorem allocateBlockRefWithEviction (halloc : s.allocateBlockRefWithEviction = (ref, s')) :
    Shrinks s s' ∧ ∀ block, ref = some block → s'.refCount block = 1 ∧ Exclusive s' block := by
  obtain ⟨t, ht, hcase⟩ := allocateBlockRefWithEviction_rule (Shrinks s ·)
    (fun t ht => ht.trans (reclaimCachedBlock ht.filed)) (rfl' h) halloc
  rcases hcase with ⟨rfl, rfl⟩ | ⟨block, rfl, hacquire⟩
  · exact ⟨ht, fun _ heq => by cases heq⟩
  · obtain ⟨hafter, hfresh⟩ := acquireBlockRef ht.filed hacquire
    exact ⟨ht.trans hafter, hfresh⟩

/-! ## Shrinking a table -/

/-- Handles past the new size may be destroyed if every block in the index keeps another
reference. -/
theorem resizeTable {size : Nat} (hkeep : ∀ hash block, Files s hash block →
      ((s.blockTable seq).drop size).count (some block) < s.refCount block) :
    Shrinks s (s.resizeTable seq size) := by
  have hcut : Shrinks s (s.setTable seq ((s.blockTable seq).take size)) :=
    of_same h rfl rfl rfl rfl rfl
  exact hcut.trans (dropRefs hcut.filed hkeep)

/-- The stale-hash pass leaves an entry only to blocks that have another reference or are not among
the handles. -/
theorem dropStale (refs : List BlockRef) : let after := dropStale refs s
    Shrinks s after ∧ ∀ hash block, Files after hash block → some block ∈ refs →
      s.refCount block ≠ 1 := by
  induction refs generalizing s with
  | nil => exact ⟨rfl' h, fun _ _ _ hmem => by cases hmem⟩
  | cons ref refs ih =>
    have hfirst : Shrinks s (s.dropStaleHashIfLast (BlockRef.id ref)) := by
      unfold dropStaleHashIfLast
      split
      · exact eraseBlockHash h _
      · exact rfl' h
    obtain ⟨hrest, hmany⟩ := ih hfirst.filed
    refine ⟨hfirst.trans hrest, fun hash block hfiles hmem => ?_⟩
    have hpool := (SameOwners.of_index (.dropStaleHashIfLast s (BlockRef.id ref))).pool
    rcases mem_cons.mp hmem with rfl | hmem
    · -- the pass met this handle here: a last reference lost its entry
      intro hone
      have hstill := hrest.sub hash block hfiles
      rw [dropStaleHashIfLast, BlockRef.id_some,
        if_pos ⟨(hfirst.sub hash block hstill).2, hone⟩] at hstill
      exact not_files_eraseBlockHash h block hash hstill
    · have := hmany hash block hfiles hmem
      rwa [refCount, hpool] at this

/-- A table whose slots past the cut hold different blocks may be cut once stale hashes are
dropped. -/
theorem dropTail (seq : Int) (size : Nat)
    (hnodup : ∀ block, ((s.blockTable seq).drop size).count (some block) ≤ 1) :
    Shrinks s (s.dropTail seq size) := by
  obtain ⟨hpass, hmany⟩ := dropStale h ((s.blockTable seq).drop size)
  have hsame := SameOwners.of_index (.dropStale ((s.blockTable seq).drop size) s)
  refine hpass.trans (resizeTable hpass.filed fun hash block hfiles => ?_)
  have hpos := h.live hash block (hpass.sub hash block hfiles)
  have hone := hnodup block
  rw [hsame.blockTable, refCount, hsame.pool]
  change _ < s.refCount block
  by_cases hmem : some block ∈ (s.blockTable seq).drop size
  · have := hmany hash block hfiles hmem
    omega
  · rw [count_eq_zero.mpr hmem]
    exact hpos

theorem rollback (seq newSeqLen : Int) : Shrinks s (s.rollback seq newSeqLen) := by
  have hpopped : ∀ n, Shrinks s (popBlocks seq n s) := fun n =>
    popBlocks_rule (I := fun _ => Shrinks s) (fun _ t _ ht => ht.trans (dropTail ht.filed seq _
      fun block => by
        refine count_le_length.trans ?_
        rw [length_drop]
        omega)) (fun _ _ ht => ht) (rfl' h)
  exact rollback_rule (rfl' h) (fun _ _ => hpopped _)
    (fun _ _ _ ht => ht.trans (of_same ht.filed rfl rfl rfl rfl rfl))
    fun _ _ ht => ht.trans (of_same ht.filed rfl rfl rfl rfl rfl)

/-- A table with different blocks in its slots may be given up. -/
theorem rollbackPartialAllocation (seq : Int)
    (hnodup : ∀ block, (s.blockTable seq).count (some block) ≤ 1) :
    Shrinks s (s.rollbackPartialAllocation seq 0) := by
  have hcut := dropTail h seq 0 hnodup
  rw [rollbackPartialAllocation_zero]
  exact hcut.trans (of_same hcut.filed rfl rfl rfl rfl rfl)

/-! ## Freeing -/

/-- A sequence with different blocks in its slots may be freed: with prefix caching on, a last
reference to a block in the index goes to the cache. -/
theorem freeSequence (seq : Int) (howned : Owned total s inflight)
    (hactive : s.prefixCachingEnabled = true ∨ ∀ hash block, ¬ Files s hash block)
    (hnodup : ∀ block, (s.blockTable seq).count (some block) ≤ 1) :
    Shrinks s (s.freeSequence seq) := by
  unfold KVCacheManager.freeSequence
  split
  · exact rfl' h
  next blocks hlookup =>
    have htable := blockTable_of_lookup hlookup
    have hcache := CacheOnly.releaseSlots blocks s
    have hpool := hcache.keeps (·.pool) fun _ _ => rfl
    have hids := hcache.keeps (·.blockHashToId) fun _ _ => rfl
    have hmoved : Shrinks s ((releaseSlots blocks s).2.eraseTable seq) :=
      of_same h (hcache.keeps (·.blockSize) fun _ _ => rfl)
        (hcache.keeps (·.prefixCachingEnabled) fun _ _ => rfl) hids
        (hcache.keeps (·.blockIdToHash) fun _ _ => rfl) hpool
    have hdropped : ∀ hash block, Files ((releaseSlots blocks s).2.eraseTable seq) hash block →
        (releaseSlots blocks s).1.count (some block) <
          ((releaseSlots blocks s).2.eraseTable seq).refCount block := by
      intro hash block hfiles
      have hold := hmoved.sub hash block hfiles
      exact dropped_lt (howned.detach seq hlookup)
        (hactive.resolve_right fun hnone => hnone hash block hold) (h.named hash block hold)
        (h.live hash block hold) (htable ▸ hnodup block)
    have hfreed := hmoved.trans (dropRefs hmoved.filed hdropped)
    exact hfreed.trans (of_same hfreed.filed rfl rfl rfl rfl rfl)

/-! ## Streaming eviction -/

theorem evictSlot (seq : Int) (slot : Nat) : Shrinks s (s.evictSlot seq slot) := by
  unfold KVCacheManager.evictSlot
  split
  next block _ =>
    have hforgotten := eraseBlockHash h block
    have hhole : Shrinks s ((s.eraseBlockHash block).setTable seq
        (((s.eraseBlockHash block).blockTable seq).set slot none)) :=
      hforgotten.trans (of_same hforgotten.filed rfl rfl rfl rfl rfl)
    exact hhole.trans (dropRef hhole.filed (not_files_eraseBlockHash h block))
  next => exact rfl' h

theorem clearHashesFrom (seq : Int) (sinkEnd totalBlocks : Nat) :
    Shrinks s (s.clearHashesFrom seq sinkEnd totalBlocks) := by
  unfold KVCacheManager.clearHashesFrom
  split
  · exact rfl' h
  next hashes _ =>
    have hpass : ∀ refs : List BlockRef, Shrinks s (refs.foldl eraseRefHash s) := fun refs =>
      foldlRecOn refs _ (rfl' h) fun t ht ref _ => by
        cases ref with
        | none => exact ht
        | some block => exact ht.trans (eraseBlockHash ht.filed block)
    exact (hpass _).trans (of_same (hpass _).filed rfl rfl rfl rfl rfl)

theorem evictMiddleBlocks (seq nSinkTokens nWindowTokens : Int) :
    Shrinks s (s.evictMiddleBlocks seq nSinkTokens nWindowTokens).2 :=
  evictMiddleBlocks_rule (rfl' h) (fun _ => of_sameBlocks h (SameBlocks.pinPrefix s seq _))
    (fun _ slot ht => ht.trans (evictSlot ht.filed seq slot))
    fun _ sinkEnd n ht => ht.trans (clearHashesFrom ht.filed seq sinkEnd n)

/-! ## Reuse -/

theorem misses (hmiss : Misses s hash s') : Shrinks s s' := by
  cases hmiss with
  | absent => exact rfl' h
  | stale block hlookup hzero _ =>
    have hneg : ¬ 0 ≤ block := fun hnonneg => by
      have := h.live hash block ⟨hlookup, hnonneg⟩
      omega
    have hsub : ∀ found other, Files { s with
        blockIdToHash := s.blockIdToHash.erase block
        blockHashToId := s.blockHashToId.erase hash } found other → Files s found other := by
      rintro found other ⟨hfound, hnonneg⟩
      rw [Table.lookup_erase_ite] at hfound
      split at hfound
      · cases hfound
      · exact ⟨hfound, hnonneg⟩
    refine ⟨⟨fun found other hfiles => ?_, fun found other hfiles =>
      h.live found other (hsub found other hfiles)⟩, hsub, fun other hexcl =>
        ⟨hexcl.1, fun found hfiles => hexcl.2 found (hsub found other hfiles)⟩, rfl, rfl⟩
    have hne : other ≠ block := fun heq => hneg (heq ▸ hfiles.2)
    rw [Table.lookup_erase_ite, if_neg hne]
    exact h.named found other (hsub found other hfiles)

/-- Giving a block of the index to a sequence moves or adds a reference to it, and no other. -/
theorem reuseBlock (seq : Int) (hfiles : Files s hash block) :
    Shrinks s (s.reuseBlock seq block) := by
  have hspec := reuseBlock_spec seq (h.live hash block hfiles)
  refine of_counts h hspec.blockSize hspec.enabled hspec.ids hspec.hashes
    (fun found other hfound => ?_) fun other hexcl => ?_
  · have := h.live found other hfound
    have := hspec.refs other
    omega
  · have hne : other ≠ block := fun heq => hexcl.2 hash (heq ▸ hfiles)
    have := hexcl.1
    rw [hspec.refs, if_neg fun hboth => hne hboth.1]
    omega

end Shrinks

/-! ## Growing a table -/

/-- A sequence's table is as it was up to a size, and has blocks of its own past it. -/
structure Extends (seq : Int) (size : Nat) (s s' : KVCacheManager) : Prop where
  shrinks : Shrinks s s'
  length : size ≤ (s'.blockTable seq).length
  slots : ∀ i block, HasSlot s' seq i block →
    i < size ∧ HasSlot s seq i block ∨ size ≤ i ∧ Exclusive s' block
  others : ∀ other, other ≠ seq → s'.blockTable other = s.blockTable other
  hashes : ∀ other, s'.blockHashes other = s.blockHashes other

namespace Extends

variable {s' s'' : KVCacheManager} {size : Nat}

section

variable (h : Extends seq size s s')
include h

theorem trans (h' : Extends seq size s' s'') : Extends seq size s s'' where
  shrinks := h.shrinks.trans h'.shrinks
  length := h'.length
  slots i block hslot := by
    rcases h'.slots i block hslot with ⟨hlt, hmiddle⟩ | hown
    · rcases h.slots i block hmiddle with hold | ⟨hge, -⟩
      · exact .inl hold
      · omega
    · exact .inr hown
  others other hne := (h'.others other hne).trans (h.others other hne)
  hashes other := (h'.hashes other).trans (h.hashes other)

omit h in
/-- A step that keeps the tables. -/
theorem keeps (hshrinks : Shrinks s s') (hsame : SameTables s s') :
    Extends seq (s.blockTable seq).length s s' where
  shrinks := hshrinks
  length := by rw [hsame.blockTable]
  slots i block hslot := by
    have hold := hsame.hasSlot.mp hslot
    exact .inl ⟨(List.getElem?_eq_some_iff.mp hold).1, hold⟩
  others other _ := hsame.blockTable other
  hashes := hsame.blockHashes

theorem sameTables (hshrinks : Shrinks s' s'') (hsame : SameTables s' s'') :
    Extends seq size s s'' where
  shrinks := h.shrinks.trans hshrinks
  length := by rw [hsame.blockTable]; exact h.length
  slots i block hslot := (h.slots i block (hsame.hasSlot.mp hslot)).imp_right
    fun hown => ⟨hown.1, hshrinks.exclusive block hown.2⟩
  others other hne := (hsame.blockTable other).trans (h.others other hne)
  hashes other := (hsame.blockHashes other).trans (h.hashes other)

/-- The slots past the size are the sequence's own. -/
theorem tail : ∀ i block, size ≤ i → HasSlot s' seq i block → Exclusive s' block := by
  intro i block hge hslot
  rcases h.slots i block hslot with ⟨hlt, -⟩ | ⟨-, hown⟩
  · omega
  · exact hown

theorem taken (halloc : s'.allocateBlockRefWithEviction = (ref, s'')) : Extends seq size s s'' :=
  h.sameTables (Shrinks.allocateBlockRefWithEviction h.shrinks.filed halloc).1
    (.allocateBlockRefWithEviction halloc)

/-- A block that the call takes is the sequence's own. -/
theorem pushTaken (halloc : s'.allocateBlockRefWithEviction = (some block, s'')) :
    Extends seq size s (s''.pushBlock seq (some block)) where
  shrinks := (h.taken halloc).shrinks.trans
    (.of_same (h.taken halloc).shrinks.filed rfl rfl rfl rfl rfl)
  length := by
    rw [pushBlock, blockTable_setTable, length_append]
    exact Nat.le_add_right_of_le (h.taken halloc).length
  slots i held hslot := by
    rw [HasSlot, pushBlock, blockTable_setTable, getElem?_append] at hslot
    split at hslot
    next => exact (h.taken halloc).slots i held hslot
    next hge =>
      have hlast := mem_singleton.mp (mem_of_getElem? hslot)
      cases hlast
      obtain ⟨-, hfresh⟩ := Shrinks.allocateBlockRefWithEviction h.shrinks.filed halloc
      exact .inr ⟨(h.taken halloc).length.trans (Nat.not_lt.mp hge), (hfresh block rfl).2⟩
  others other hne := by
    rw [pushBlock, blockTable_setTable_ite, if_neg hne]
    exact (h.taken halloc).others other hne
  hashes := (h.taken halloc).hashes

theorem giveUp : Extends seq size s (s'.giveUp seq size) := by
  have htable : (s'.resizeTable seq size).blockTable seq = (s'.blockTable seq).take size :=
    blockTable_setTable s' seq _
  have hcut : Extends seq size s' (s'.resizeTable seq size) := by
    refine ⟨.resizeTable h.shrinks.filed fun hash block hfiles => ?_, ?_, ?_, ?_, fun _ => rfl⟩
    · rw [count_eq_zero.mpr fun hmem => ?_]
      · exact h.shrinks.filed.live hash block hfiles
      · obtain ⟨i, hi⟩ := getElem?_of_mem hmem
        rw [getElem?_drop] at hi
        exact (h.tail (size + i) block (by omega) hi).2 hash hfiles
    · rw [htable, length_take]
      exact Nat.le_min.mpr ⟨le_rfl, h.length⟩
    · exact fun i block hslot => .inl (hslot.of_take htable)
    · intro other hne
      exact (Slots.resizeTable s' seq size).blockTable hne
  unfold KVCacheManager.giveUp
  split
  next hempty =>
    exact (h.trans hcut).sameTables (.of_same hcut.shrinks.filed rfl rfl rfl rfl rfl)
      (.eraseEmptyTable hempty)
  next => exact h.trans hcut

end

theorem allocateBlocks (h : Filed s) (seq numBlocks : Int) :
    Extends seq (s.blockTable seq).length s (s.allocateBlocks seq numBlocks).2 := by
  refine allocateBlocks_rule (I := fun _ => Extends seq (s.blockTable seq).length s)
    (P := fun out => Extends seq (s.blockTable seq).length s out.2)
    (fun _ => keeps (.rfl' h) (.rfl' s))
    (keeps (.of_same h rfl rfl rfl rfl rfl) (.touchTable s seq))
    (fun _ _ _ _ ht halloc => ht.pushTaken halloc) (fun t ht => ?_)
    fun _ _ _ ht halloc => (ht.taken halloc).giveUp
  have hsame := SameBlocks.trackLru t seq
  exact ht.sameTables (.of_sameBlocks ht.shrinks.filed hsame) (.of_sameBlocks hsame)

theorem appendBlock (h : Filed s) (seq : Int) :
    Extends seq (s.blockTable seq).length s (s.appendBlock seq).2 := by
  have hkept : Extends seq (s.blockTable seq).length s s := keeps (.rfl' h) (.rfl' s)
  unfold KVCacheManager.appendBlock
  split
  · exact hkept
  · split
    next after halloc => exact hkept.taken halloc
    next block after halloc => exact hkept.pushTaken halloc

end Extends

/-! ## Losing slots -/

/-- Tables keep their lengths; slots may become holes and recorded hashes may be cleared. -/
structure Loses (s s' : KVCacheManager) : Prop where
  length : ∀ seq, (s'.blockTable seq).length = (s.blockTable seq).length
  slots : ∀ seq i block, HasSlot s' seq i block → HasSlot s seq i block
  hashes : ∀ seq i, recordedHash s' seq i ≠ 0 → recordedHash s' seq i = recordedHash s seq i

namespace Loses

variable {s' s'' : KVCacheManager}

theorem trans (h : Loses s s') (h' : Loses s' s'') : Loses s s'' where
  length seq := (h'.length seq).trans (h.length seq)
  slots seq i block hslot := h.slots seq i block (h'.slots seq i block hslot)
  hashes seq i hne := by
    have heq := h'.hashes seq i hne
    rw [heq]
    exact h.hashes seq i (heq ▸ hne)

theorem of_sameTables (h : SameTables s s') : Loses s s' where
  length seq := by rw [h.blockTable]
  slots _ _ _ := h.hasSlot.mp
  hashes seq i _ := h.recordedHash seq i

theorem evictSlot (seq : Int) (slot : Nat) (s : KVCacheManager) :
    Loses s (s.evictSlot seq slot) := by
  have htable := blockTable_evictSlot seq slot s
  have hslots := Slots.evictSlot seq slot s
  refine ⟨fun other => ?_, fun other i block hslot => ?_, fun other i _ => ?_⟩
  · by_cases heq : other = seq
    · rw [heq, htable, length_set]
    · rw [hslots.blockTable heq]
  · by_cases heq : other = seq
    · rw [heq, HasSlot, htable, getElem?_set] at hslot
      rw [heq]
      split at hslot
      · split at hslot <;> cases hslot
      · exact hslot
    · rwa [HasSlot, hslots.blockTable heq] at hslot
  · rw [recordedHash, hslots.blockHashes, recordedHash]

theorem clearHashesFrom (seq : Int) (sinkEnd totalBlocks : Nat) (s : KVCacheManager) :
    Loses s (s.clearHashesFrom seq sinkEnd totalBlocks) := by
  have hsame := SameOwners.of_records (.clearHashesFrom s seq sinkEnd totalBlocks)
  refine ⟨fun other => by rw [hsame.blockTable],
    fun other i block hslot => by rwa [HasSlot, hsame.blockTable] at hslot, fun other i hne => ?_⟩
  rcases recordedHash_clearHashesFrom seq sinkEnd totalBlocks s other i with heq | ⟨-, -, hzero⟩
  · exact heq
  · exact absurd hzero hne

theorem evictMiddleBlocks (seq nSinkTokens nWindowTokens : Int) (s : KVCacheManager) :
    Loses s (s.evictMiddleBlocks seq nSinkTokens nWindowTokens).2 :=
  evictMiddleBlocks_rule (.of_sameTables (.rfl' s))
    (fun _ => .of_sameTables (.of_sameBlocks (SameBlocks.pinPrefix s seq _)))
    (fun t slot ht => ht.trans (evictSlot seq slot t))
    fun t sinkEnd n ht => ht.trans (clearHashesFrom seq sinkEnd n t)

end Loses

end Quench.KVCacheManager

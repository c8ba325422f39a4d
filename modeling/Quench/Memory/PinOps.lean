import Quench.Memory.Pins

/-!
# The operations that destroy handles, against the pins

`free_sequence` and `load_prefix_cache` keep `PinsHeld` in every state: a pinned block of a freed
sequence moves to the cache, and a loaded block is fresh. `rollback` and `evict_middle_blocks` do
not look at the pins; they keep it when every pinned block has more references than they drop.
-/

namespace Quench.KVCacheManager

open Lib List

/-! ## The handles an edit drops -/

/-- The slots `evict_middle_blocks` empties: from the end of the sinks to the window. -/
def middleSlots (s : KVCacheManager) (seq nSinkTokens nWindowTokens : Int) : List BlockRef :=
  if nSinkTokens ≤ 0 ∨ nWindowTokens ≤ 0 then []
  else
    let blocks := s.blockTable seq
    let sinkEnd := (nSinkTokens.toNat + s.blockSize - 1) / s.blockSize
    let windowCount := (nWindowTokens.toNat + s.blockSize - 1) / s.blockSize
    (blocks.drop sinkEnd).take (blocks.length - windowCount - 1 - sinkEnd)

/-- The blocks `evict_middle_blocks` pins: those in the attention sinks. -/
def sinkBlocks (s : KVCacheManager) (seq nSinkTokens : Int) : List Int :=
  ((s.blockTable seq).take ((nSinkTokens.toNat + s.blockSize - 1) / s.blockSize)).filterMap id

/-- The slots `rollback` pops. -/
def poppedSlots (s : KVCacheManager) (seq newSeqLen : Int) : List BlockRef :=
  if newSeqLen < 0 then []
  else (s.blockTable seq).drop ((newSeqLen.toNat + s.blockSize - 1) / s.blockSize)

theorem refCount_resizeTable (s : KVCacheManager) (seq : Int) (size : Nat) (block : Int) :
    (s.resizeTable seq size).refCount block =
      s.refCount block - ((s.blockTable seq).drop size).count (some block) :=
  BlockPool.refCount_dropRefs s.pool ((s.blockTable seq).drop size) block

namespace PinsHeld

variable {total : Nat} {s s' : KVCacheManager} {inflight inflight' : List BlockRef}

/-! ## Freeing -/

/-- The slot loop of `free_sequence` keeps the pins and their bookkeeping. -/
theorem counted_releaseSlots {slack : Nat} (blocks : List BlockRef) (h : PinsCounted slack s) :
    PinsCounted slack (releaseSlots blocks s).2 ∧
      (releaseSlots blocks s).2.pinnedBlocks = s.pinnedBlocks := by
  refine ⟨?_, (CacheOnly.releaseSlots blocks s).keeps (·.pinnedBlocks) fun _ _ => rfl⟩
  fun_induction releaseSlots blocks s
  case case1 => exact h
  case case2 _ _ ih => exact ih h
  case case3 block _ s hkeep _ ih => exact ih (h.cacheBlock (not_cached_of_keepsCached hkeep))
  case case4 _ _ _ _ ih => exact ih h

section

variable (seq : Int)

theorem freeSequence (h : PinsHeld total s inflight) :
    PinsHeld total (s.freeSequence seq) inflight := by
  unfold KVCacheManager.freeSequence
  split
  · exact h
  next blocks hlookup =>
    obtain ⟨hcounted, hpinned⟩ := counted_releaseSlots blocks h.counted
    have hpool := (CacheOnly.releaseSlots blocks s).keeps (·.pool) fun _ _ => rfl
    have hmoved : PinsHeld total ((releaseSlots blocks s).2.eraseTable seq)
        ((releaseSlots blocks s).1 ++ inflight) := by
      refine ⟨h.owned.detach seq hlookup, { hcounted with }, fun block hmem => ?_⟩
      have hlive := h.live block (hpinned ▸ hmem)
      rwa [refCount, ← hpool] at hlive
    have hfreed := hmoved.dropRefs fun block hmem => by
      by_cases href : some block ∈ (releaseSlots blocks s).1
      · -- the cache holds one more reference than the handles that drop
        have hpin : block ∈ s.pinnedBlocks := hpinned ▸ hmem
        have hcached := releaseSlots_caches blocks s (by simp [hpin])
          ((releaseSlots_sublist blocks s).subset href)
        have hrefs := hmoved.owned.refs block
        have hone : ((releaseSlots blocks s).2.eraseTable seq).cachedCount block = 1 :=
          if_pos hcached
        rw [count_append, hone] at hrefs
        omega
      · rw [count_eq_zero.mpr href]
        exact hmoved.live block hmem
    exact hfreed.congr ⟨rfl, rfl, rfl, .refl _⟩ ⟨rfl, rfl, rfl, rfl⟩

/-! ## Pinning -/

theorem unpinPrefix (h : PinsHeld total s inflight) :
    PinsHeld total (s.unpinPrefix seq) inflight := by
  have hsame := (SameBlocks.of_pins (.unpinPrefix s seq)).toSameOwners
  refine ⟨h.owned.congr hsame, h.counted.unpinPrefix seq, fun block hmem => ?_⟩
  rw [refCount, hsame.pool]
  exact h.live block (pinnedBlocks_unpinPrefix s seq hmem)

/-- `pin_prefix` pins blocks in slots, and those have references. -/
theorem pinPrefix (seq numBlocks : Int) (h : PinsHeld total s inflight) :
    PinsHeld total (s.pinPrefix seq numBlocks) inflight := by
  have hsame := (SameBlocks.pinPrefix s seq numBlocks).toSameOwners
  refine ⟨h.owned.congr hsame, h.counted.pinPrefix seq numBlocks, fun block hmem => ?_⟩
  rw [refCount, hsame.pool]
  rcases mem_pinnedBlocks_pinPrefix hmem with hold | hslot
  · exact h.live block hold
  · obtain ⟨i, hi⟩ := getElem?_of_mem (mem_of_mem_take hslot)
    exact h.owned.refCount_pos_of_slot hi

/-! ## Streaming eviction -/

/-- Evicting a slot keeps the pins and drops the one reference the slot holds. -/
theorem pins_evictSlot (slot : Nat) (s : KVCacheManager) :
    SamePins s (s.evictSlot seq slot) ∧ ∀ block, (s.evictSlot seq slot).refCount block =
      s.refCount block - if (s.blockTable seq)[slot]? = some (some block) then 1 else 0 := by
  unfold KVCacheManager.evictSlot
  split
  next held hslot =>
    have honly := IndexOnly.eraseBlockHash s held
    refine ⟨(SamePins.of_index honly).trans ⟨rfl, rfl, rfl, rfl⟩, fun block => ?_⟩
    change ((s.eraseBlockHash held).pool.dropRefs [some held]).refCount block = _
    rw [BlockPool.refCount_dropRefs, (SameOwners.of_index honly).pool, count_some_cons,
      count_nil, Nat.zero_add, hslot]
    simp only [Option.some.injEq, eq_comm]
    rfl
  next hnone =>
    refine ⟨.rfl' s, fun block => ?_⟩
    rw [if_neg (hnone block), Nat.sub_zero]

variable (h : PinsHeld total s inflight)
include h

/-- The middle loop may go on while every pinned block has more references than the slots to come
hold. -/
theorem evictSlots (count slot : Nat) (hkeep : ∀ block ∈
      s.pinnedBlocks, (((s.blockTable seq).drop slot).take count).count (some block) < s.refCount
      block) : PinsHeld total (evictSlots seq count slot s) inflight := by
  induction count generalizing s slot with
  | zero => exact h
  | succ count ih =>
    obtain ⟨hpins, hrefs⟩ := pins_evictSlot seq slot s
    have hrest : ∀ block ∈ s.pinnedBlocks,
        ((((s.evictSlot seq slot).blockTable seq).drop (slot + 1)).take count).count
          (some block) < (s.evictSlot seq slot).refCount block := by
      intro block hmem
      have hlt := hkeep block hmem
      rw [count_take_drop_succ] at hlt
      rw [blockTable_evictSlot, drop_set_of_lt
        (by omega : slot < slot + 1), hrefs block]
      omega
    refine ih ?_ (slot + 1) ?_
    · exact h.of_samePins (h.owned.evictSlot seq slot) hpins fun block hmem =>
        Nat.zero_lt_of_lt (hrest block hmem)
    · rw [hpins.pinned]
      exact hrest

theorem clearHashesFrom (sinkEnd totalBlocks : Nat) :
    PinsHeld total (s.clearHashesFrom seq sinkEnd totalBlocks) inflight :=
  h.congr (.of_records (.clearHashesFrom s seq sinkEnd totalBlocks))
    (.of_records (.clearHashesFrom s seq sinkEnd totalBlocks))

/-- Streaming eviction keeps the invariant when every block that is pinned, or that it pins as a
sink, has more references than the middle slots hold. -/
theorem evictMiddleBlocks (seq nSinkTokens nWindowTokens : Int)
    (hkeep : ∀ block, block ∈ s.pinnedBlocks ∨ block ∈ s.sinkBlocks seq nSinkTokens →
      (s.middleSlots seq nSinkTokens nWindowTokens).count (some block) < s.refCount block) :
    PinsHeld total (s.evictMiddleBlocks seq nSinkTokens nWindowTokens).2 inflight := by
  unfold KVCacheManager.evictMiddleBlocks
  split
  · exact h
  next blocks hlookup =>
    have htable := blockTable_of_lookup hlookup
    split
    · exact h
    next hargs =>
      have hpositive : ¬ (nSinkTokens ≤ 0 ∨ nWindowTokens ≤ 0) := fun hle =>
        hargs (hle.elim .inl fun hwindow => .inr (.inl hwindow))
      dsimp only
      split
      · exact h
      · refine PinsHeld.clearHashesFrom seq ?_ _ _
        unfold sinkBlocks middleSlots at hkeep
        rw [htable, if_neg hpositive] at hkeep
        generalize (nSinkTokens.toNat + s.blockSize - 1) / s.blockSize = sinkEnd at hkeep ⊢
        split
        · have hsame := (SameBlocks.pinPrefix s seq sinkEnd).toSameOwners
          refine (h.pinPrefix seq sinkEnd).evictSlots seq _ _ fun block hmem => ?_
          rw [refCount, hsame.pool, hsame.blockTable, htable]
          refine hkeep block ?_
          rcases mem_pinnedBlocks_pinPrefix hmem with hold | hslot
          · exact .inl hold
          · rw [htable] at hslot
            exact .inr (mem_filterMap.mpr ⟨some block, hslot, rfl⟩)
        · refine h.evictSlots seq _ _ fun block hmem => ?_
          rw [htable]
          exact hkeep block (.inl hmem)

/-! ## Rolling back -/

/-- A table may be cut when every pinned block has more references than the slots past the cut. -/
theorem dropTail (seq : Int) (size : Nat)
    (hkeep : ∀ block ∈ s.pinnedBlocks,
      ((s.blockTable seq).drop size).count (some block) < s.refCount block) :
    PinsHeld total (s.dropTail seq size) inflight := by
  have hsame := SameOwners.of_index (.dropStale ((s.blockTable seq).drop size) s)
  have hpins := SamePins.of_index (.dropStale ((s.blockTable seq).drop size) s)
  refine (h.congr hsame hpins).resizeTable seq size fun block hmem => ?_
  rw [hpins.pinned] at hmem
  rw [refCount, hsame.pool, hsame.blockTable]
  exact hkeep block hmem

/-- The pop loop may go on while every pinned block has more references than the slots to pop. -/
theorem popBlocks (n : Nat) (hkeep : ∀ block ∈ s.pinnedBlocks,
      ((s.blockTable seq).drop ((s.blockTable seq).length - n)).count (some block) < s.refCount
      block) : PinsHeld total (popBlocks seq n s) inflight := by
  refine popBlocks_rule (I := fun n t => PinsHeld total t inflight ∧ ∀ block ∈ t.pinnedBlocks,
      ((t.blockTable seq).drop ((t.blockTable seq).length - n)).count (some block) <
        t.refCount block) (P := (PinsHeld total · inflight)) ?_ (fun _ _ h => h.1) ⟨h, hkeep⟩
  rintro n t hne ⟨h, hkeep⟩
  -- what the last slot and the slots before it hold adds up to what this loop drops
  have hsplit : ∀ block, ((t.blockTable seq).drop
      ((t.blockTable seq).length - (n + 1))).count (some block) =
      (((t.blockTable seq).take ((t.blockTable seq).length - 1)).drop
        ((t.blockTable seq).length - (n + 1))).count (some block) +
      ((t.blockTable seq).drop ((t.blockTable seq).length - 1)).count (some block) := by
    intro block
    rw [← count_append, ← drop_append_of_le_length (by simp; omega),
      take_append_drop]
  refine ⟨h.dropTail seq _ fun block hmem => ?_, fun block hmem => ?_⟩
  · have := hkeep block hmem
    have := hsplit block
    omega
  · have hsame := IndexOnly.dropStale ((t.blockTable seq).drop ((t.blockTable seq).length - 1)) t
    have hlt := hkeep block ((SamePins.of_index hsame).pinned ▸ hmem)
    have hsum := hsplit block
    rw [blockTable_dropTail, KVCacheManager.dropTail, refCount_resizeTable,
      (SameOwners.of_index hsame).blockTable, refCount, (SameOwners.of_index hsame).pool,
      length_take, Nat.min_eq_left (by omega), Nat.sub_sub, Nat.add_comm 1 n]
    change _ < t.refCount block - _
    omega

theorem rollback (seq newSeqLen : Int)
    (hkeep : ∀ block ∈ s.pinnedBlocks,
      (s.poppedSlots seq newSeqLen).count (some block) < s.refCount block) :
    PinsHeld total (s.rollback seq newSeqLen) inflight := by
  refine rollback_rule (P := (PinsHeld total · inflight)) h (fun hnonneg _ => ?_)
    (fun _ _ _ h => h.congr ⟨rfl, rfl, rfl, .refl _⟩ ⟨rfl, rfl, rfl, rfl⟩)
    fun _ _ h => h.congr ⟨rfl, rfl, rfl, .refl _⟩ ⟨rfl, rfl, rfl, rfl⟩
  rw [poppedSlots, if_neg (Int.not_lt.mpr hnonneg)] at hkeep
  generalize (newSeqLen.toNat + s.blockSize - 1) / s.blockSize = blocksNeeded at hkeep ⊢
  refine h.popBlocks seq _ fun block hmem => ?_
  rcases le_total blocksNeeded (s.blockTable seq).length with hle | hge
  · rw [Nat.sub_sub_self hle]
    exact hkeep block hmem
  · rw [Nat.sub_eq_zero_of_le hge, Nat.sub_zero, drop_length]
    exact h.live block hmem

theorem rollbackPartialAllocation
    (hkeep : ∀ block ∈ s.pinnedBlocks, (s.blockTable seq).count (some block) < s.refCount block) :
    PinsHeld total (s.rollbackPartialAllocation seq 0) inflight := by
  rw [rollbackPartialAllocation_zero]
  have hempty : ((s.dropTail seq 0).blockTable seq).isEmpty = true :=
    List.isEmpty_iff.mpr ((blockTable_dropTail s seq 0).trans take_zero)
  exact ((h.dropTail seq 0 hkeep).eraseEmptyTable hempty).congr ⟨rfl, rfl, rfl, .refl _⟩
    ⟨rfl, rfl, rfl, rfl⟩

end

/-! ## Loading -/

theorem loadRecords (records : List (Hash × Bool)) (h : PinsHeld total s inflight) :
    PinsHeld total (loadRecords records s).2
        (((loadRecords records s).1.map fun entry => some entry.2.2) ++ inflight) ∧
      KeepsPinned s (loadRecords records s).2 ∧
      ∀ entry ∈ (loadRecords records s).1, entry.2.2 ∉ s.pinnedBlocks := by
  refine loadRecords_rule (I := fun entries t =>
      PinsHeld total t ((entries.map fun entry => some entry.2.2) ++ inflight) ∧ KeepsPinned s t ∧
      ∀ entry ∈ entries, entry.2.2 ∉ s.pinnedBlocks)
    ⟨h, ⟨rfl, rfl, fun _ _ => rfl⟩, fun _ hmem => by cases hmem⟩ ?_
  rintro entries t u record block _ _ hacquire ⟨ht, hkept, hentries⟩
  obtain ⟨hu, hkept', hout⟩ := ht.acquireBlockRef hacquire
  refine ⟨?_, hkept.trans hkept', forall_mem_append.mpr
    ⟨hentries, forall_mem_singleton.mpr (hkept.pinned ▸ hout block rfl)⟩⟩
  rw [map_append, append_assoc]
  exact { hu with owned := hu.owned.perm perm_middle.symm }

/-- A loaded block is not pinned, so it is one more reclaimable block. -/
theorem restoreEntry (hash : Hash) (h : PinsHeld total s (some block :: inflight))
    (hone : s.refCount block = 1) (hout : block ∉ s.pinnedBlocks) :
    PinsHeld total (s.restoreEntry hash block) inflight := by
  have hnew : block ∉ s.cachedBlocksMap := h.owned.not_cached_of_inflight hone
  have hcounted := h.counted.cacheBlock hnew
  rw [if_neg hout] at hcounted
  exact ⟨h.owned.restoreEntry hash hone, { hcounted with }, h.live⟩

theorem restoreEntries (entries : List (Hash × Bool × Int))
    (h : PinsHeld total s ((entries.map fun entry => some entry.2.2) ++ inflight))
    (hfresh : ∀ entry ∈ entries, s.refCount entry.2.2 = 1 ∧ entry.2.2 ∉ s.pinnedBlocks) :
    PinsHeld total (restoreEntries entries s) (failedRefs entries ++ inflight) ∧
      (restoreEntries entries s).pinnedBlocks = s.pinnedBlocks := by
  induction entries generalizing s inflight with
  | nil => exact ⟨h, rfl⟩
  | cons entry rest ih =>
    obtain ⟨hash, copyOk, block⟩ := entry
    obtain ⟨⟨hone, hout⟩, hfreshRest⟩ := forall_mem_cons.mp hfresh
    cases copyOk with
    | true => exact ih (restoreEntry hash h hone hout) hfreshRest
    | false =>
      have haside : PinsHeld total s
          ((rest.map fun entry => some entry.2.2) ++ some block :: inflight) :=
        { h with owned := h.owned.perm perm_middle.symm }
      obtain ⟨hrest, hpinned⟩ := ih haside hfreshRest
      exact ⟨{ hrest with owned := hrest.owned.perm perm_middle }, hpinned⟩

theorem loadPrefixCache (records : List (Hash × Bool)) (h : PinsHeld total s inflight) :
    PinsHeld total (s.loadPrefixCache records).2 inflight := by
  unfold KVCacheManager.loadPrefixCache
  split
  · obtain ⟨hloaded, hkept, hout⟩ := h.loadRecords records
    obtain ⟨hrestored, hpinned⟩ := hloaded.restoreEntries _ fun entry hmem =>
      ⟨Owned.refCount_loadRecords records s entry hmem, hkept.pinned ▸ hout entry hmem⟩
    refine hrestored.dropUnpinned fun block hmem => ?_
    rw [hpinned, hkept.pinned]
    obtain ⟨entry, hentry, heq⟩ := mem_map.mp hmem
    cases heq
    exact hout entry (mem_of_mem_filter hentry)
  · exact h

end PinsHeld

end Quench.KVCacheManager

import Quench.Memory.LiveSequences
import Quench.Memory.PinRuns

/-!
# What is left when everybody has gone

When no sequence has a table, a block is free or in the prefix cache. The cached ones can all be
reclaimed if none is pinned, and then free and reclaimable blocks are the whole pool
(`all_blocks_return`).

Pins belong to an owner and stay until it drops them with `unpin_prefix`. `free_sequence` does not
drop those that `evict_middle_blocks` made, so a streamed sequence leaves its sinks behind
(`sinks_stay_pinned`).
-/

namespace Quench.KVCacheManager

open List KVCacheManager

variable {s t : KVCacheManager}

open Lib

/-! ## Pins and their owners -/

/-- The number of pins on a block. -/
def pinsOf (s : KVCacheManager) (block : Int) : Nat := (s.pinRefcount.lookup block).getD 0

/-- A pinned block has a pin, and no pin count is zero. -/
structure PinsKeyed (s : KVCacheManager) : Prop where
  positive : ∀ block ∈ s.pinRefcount, 0 < s.pinsOf block
  keys : ∀ block ∈ s.pinnedBlocks, block ∈ s.pinRefcount

/-- Every pin belongs to an owner as well. -/
structure PinsOwned (s : KVCacheManager) : Prop extends PinsKeyed s where
  counts : ∀ block, s.pinsOf block = Table.total (fun owned => owned.count block) s.pinnedSeqBlocks

/-- Without an owner there are no pins. -/
theorem PinsOwned.no_pins (h : PinsOwned s) (hnone : ∀ seq, seq ∉ s.pinnedSeqBlocks) (block : Int) :
    block ∉ s.pinRefcount := by
  intro hmem
  have hpositive := h.positive block hmem
  rw [h.counts block, Table.eq_empty hnone, Table.total_empty] at hpositive
  exact absurd hpositive (lt_irrefl 0)

/-- Without an owner no block is pinned. -/
theorem PinsOwned.pinned_eq_empty (h : PinsOwned s) (hnone : ∀ seq, seq ∉ s.pinnedSeqBlocks) :
    s.pinnedBlocks = ∅ :=
  Finset.eq_empty_iff_forall_notMem.mpr fun block hmem => h.no_pins hnone block (h.keys block hmem)

theorem PinsOwned.congr (h : PinsOwned s) (hsame : SameOwnedPins s t) : PinsOwned t := by
  obtain ⟨⟨hpositive, hkeys⟩, hcounts⟩ := h
  refine ⟨⟨?_, ?_⟩, ?_⟩
  · rw [hsame.pins]
    intro block hmem
    rw [pinsOf, hsame.pins]
    exact hpositive block hmem
  · rw [hsame.pins, hsame.pinned]
    exact hkeys
  · intro block
    rw [pinsOf, hsame.pins, hsame.owners]
    exact hcounts block

variable {block : Int} {total : Nat}

theorem pinsOf_insert {pins : Nat} (h : t.pinRefcount = s.pinRefcount.insert block pins)
    (other : Int) : t.pinsOf other = if other = block then pins else s.pinsOf other := by
  rw [pinsOf, h, Table.lookup_insert_ite]
  split <;> rfl

theorem pinsOf_erase (h : t.pinRefcount = s.pinRefcount.erase block) (other : Int) :
    t.pinsOf other = if other = block then 0 else s.pinsOf other := by
  rw [pinsOf, h, Table.lookup_erase_ite]
  split <;> rfl

/-- What dropping one pin of a block does to the pin table. -/
theorem unpinBlock_cases (s : KVCacheManager) (block : Int) :
    block ∉ s.pinRefcount ∧ s.unpinBlock block = s ∨
    1 < s.pinsOf block ∧ (s.unpinBlock block).pinnedBlocks = s.pinnedBlocks ∧
      (s.unpinBlock block).pinRefcount = s.pinRefcount.insert block (s.pinsOf block - 1) ∨
    s.pinsOf block ≤ 1 ∧ (s.unpinBlock block).pinnedBlocks = s.pinnedBlocks.erase block ∧
      (s.unpinBlock block).pinRefcount = s.pinRefcount.erase block := by
  unfold unpinBlock pinsOf
  cases hlookup : s.pinRefcount.lookup block with
  | none => exact .inl ⟨AList.lookup_eq_none.mp hlookup, rfl⟩
  | some pins =>
    dsimp only [Option.getD_some]
    split
    next hmore => exact .inr (.inl ⟨by omega, rfl, rfl⟩)
    next hlast =>
      refine .inr (.inr ⟨by omega, ?_⟩)
      split <;> exact ⟨rfl, rfl⟩

theorem pinsOf_unpinBlock (s : KVCacheManager) (block other : Int) :
    (s.unpinBlock block).pinsOf other = s.pinsOf other - if other = block then 1 else 0 := by
  obtain ⟨hnone, heq⟩ | ⟨-, -, hpins⟩ | ⟨hlast, -, hpins⟩ := s.unpinBlock_cases block
  · rw [heq]
    split
    next hother =>
      rw [hother, pinsOf, AList.lookup_eq_none.mpr hnone]
      rfl
    · rfl
  · rw [pinsOf_insert hpins]
    split
    next hother => rw [hother]
    · rfl
  · rw [pinsOf_erase hpins]
    split
    next hother =>
      rw [hother]
      omega
    · rfl

theorem PinsKeyed.unpinBlock (h : PinsKeyed s) (block : Int) : PinsKeyed (s.unpinBlock block) := by
  have hpinsOf := s.pinsOf_unpinBlock block
  obtain ⟨-, heq⟩ | ⟨hmore, hpinned, hpins⟩ | ⟨-, hpinned, hpins⟩ := s.unpinBlock_cases block
  · rw [heq]
    exact h
  · refine ⟨fun other hmem => ?_, fun other hmem => ?_⟩
    · rw [hpins, AList.mem_insert] at hmem
      rw [hpinsOf]
      split
      next hother =>
        rw [hother]
        omega
      next hother => exact h.positive other (hmem.resolve_left hother)
    · rw [hpinned] at hmem
      rw [hpins, AList.mem_insert]
      exact .inr (h.keys other hmem)
  · refine ⟨fun other hmem => ?_, fun other hmem => ?_⟩
    · rw [hpins, AList.mem_erase] at hmem
      rw [hpinsOf, if_neg hmem.1]
      exact h.positive other hmem.2
    · rw [hpinned, Finset.mem_erase] at hmem
      rw [hpins, AList.mem_erase]
      exact ⟨hmem.1, h.keys other hmem.2⟩

theorem pinBlock_pins (s : KVCacheManager) (block : Int) :
    (s.pinBlock block).pinRefcount = s.pinRefcount.insert block (s.pinsOf block + 1) ∧
      (s.pinBlock block).pinnedBlocks ⊆ insert block s.pinnedBlocks := by
  unfold pinBlock
  dsimp only
  split
  · split
    · exact ⟨rfl, Finset.Subset.refl _⟩
    · exact ⟨rfl, Finset.Subset.refl _⟩
  · exact ⟨rfl, Finset.subset_insert _ _⟩

theorem pinsOf_pinBlock (s : KVCacheManager) (block other : Int) :
    (s.pinBlock block).pinsOf other = s.pinsOf other + if other = block then 1 else 0 := by
  rw [pinsOf_insert (s.pinBlock_pins block).1]
  split
  next hother => rw [hother]
  · rfl

theorem PinsKeyed.pinBlock (h : PinsKeyed s) (block : Int) : PinsKeyed (s.pinBlock block) := by
  obtain ⟨hpins, hpinned⟩ := s.pinBlock_pins block
  refine ⟨fun other hmem => ?_, fun other hmem => ?_⟩
  · rw [hpins, AList.mem_insert] at hmem
    rw [pinsOf_pinBlock]
    split
    · exact Nat.succ_pos _
    next hother => exact h.positive other (hmem.resolve_left hother)
  · rw [hpins, AList.mem_insert]
    exact (Finset.mem_insert.mp (hpinned hmem)).imp_right (h.keys other)

/-! ## Pin operations -/

theorem owners_unpinBlock (s : KVCacheManager) (block : Int) :
    (s.unpinBlock block).pinnedSeqBlocks = s.pinnedSeqBlocks ∧
      (s.unpinBlock block).pinFifo = s.pinFifo := by
  unfold unpinBlock
  split
  · exact ⟨rfl, rfl⟩
  · split
    · exact ⟨rfl, rfl⟩
    · dsimp only
      split <;> exact ⟨rfl, rfl⟩

theorem owners_pinBlock (s : KVCacheManager) (block : Int) :
    (s.pinBlock block).pinnedSeqBlocks = s.pinnedSeqBlocks ∧
      (s.pinBlock block).pinFifo = s.pinFifo := by
  unfold pinBlock
  dsimp only
  split
  · split <;> exact ⟨rfl, rfl⟩
  · exact ⟨rfl, rfl⟩

/-- A loop over the blocks of an owner whose body adds or takes one pin changes the pins of each by
its count. -/
theorem pins_fold {body : KVCacheManager → Int → KVCacheManager} {change : Nat → Nat → Nat}
    (hkeyed : ∀ {s}, PinsKeyed s → ∀ block, PinsKeyed (body s block))
    (howners : ∀ s block, (body s block).pinnedSeqBlocks = s.pinnedSeqBlocks ∧
      (body s block).pinFifo = s.pinFifo)
    (hpins : ∀ s block other, (body s block).pinsOf other =
      change (s.pinsOf other) (if other = block then 1 else 0)) (hzero : ∀ n, change n 0 = n)
    (hadd : ∀ n a b, change (change n a) b = change n (b + a)) (owned : List Int)
    (h : PinsKeyed s) : PinsKeyed (owned.foldl body s) ∧
      ((owned.foldl body s).pinnedSeqBlocks = s.pinnedSeqBlocks ∧
        (owned.foldl body s).pinFifo = s.pinFifo) ∧
      ∀ block, (owned.foldl body s).pinsOf block = change (s.pinsOf block) (owned.count block) := by
  induction owned generalizing s with
  | nil => exact ⟨h, ⟨rfl, rfl⟩, fun block => (hzero _).symm⟩
  | cons first owned ih =>
    obtain ⟨hrest, hsame, hcount⟩ := ih (hkeyed h first)
    obtain ⟨hseqs, hfifo⟩ := howners s first
    refine ⟨hrest, ⟨hsame.1.trans hseqs, hsame.2.trans hfifo⟩, fun block => ?_⟩
    simp only [foldl_cons, hcount, hpins, hadd, count_cons, beq_iff_eq,
      @eq_comm _ block first]

theorem unpinBlocks_fold (owned : List Int) (h : PinsKeyed s) :
    PinsKeyed (owned.foldl unpinBlock s) ∧
      ((owned.foldl unpinBlock s).pinnedSeqBlocks = s.pinnedSeqBlocks ∧
        (owned.foldl unpinBlock s).pinFifo = s.pinFifo) ∧
      ∀ block, (owned.foldl unpinBlock s).pinsOf block = s.pinsOf block - owned.count block :=
  pins_fold (fun h => h.unpinBlock) owners_unpinBlock pinsOf_unpinBlock (fun _ => rfl)
    (fun _ _ _ => by omega) owned h

theorem pinBlocks_fold (owned : List Int) (h : PinsKeyed s) :
    PinsKeyed (owned.foldl pinBlock s) ∧
      ((owned.foldl pinBlock s).pinnedSeqBlocks = s.pinnedSeqBlocks ∧
        (owned.foldl pinBlock s).pinFifo = s.pinFifo) ∧
      ∀ block, (owned.foldl pinBlock s).pinsOf block = s.pinsOf block + owned.count block :=
  pins_fold (fun h => h.pinBlock) owners_pinBlock pinsOf_pinBlock (fun _ => rfl)
    (fun _ _ _ => by omega) owned h

namespace PinsOwned

variable (h : PinsOwned s)
include h

theorem unpinPrefix (seq : Int) :
    PinsOwned (s.unpinPrefix seq) ∧
      (s.unpinPrefix seq).pinnedSeqBlocks = s.pinnedSeqBlocks.erase seq := by
  unfold KVCacheManager.unpinPrefix
  split
  next hnone =>
    refine ⟨h, AList.ext ?_⟩
    exact (kerase_of_notMem_keys (AList.lookup_eq_none.mp hnone)).symm
  next owned hlookup =>
    obtain ⟨hkeyed, ⟨howners, -⟩, hpins⟩ := unpinBlocks_fold owned h.toPinsKeyed
    refine ⟨⟨⟨hkeyed.positive, hkeyed.keys⟩, fun block => ?_⟩, congrArg (AList.erase seq) howners⟩
    have htotal := Table.total_erase (fun owned => owned.count block) s.pinnedSeqBlocks seq
    rw [hlookup, Option.map_some, Option.getD_some] at htotal
    refine (hpins block).trans ?_
    change _ = Table.total _ ((owned.foldl unpinBlock s).pinnedSeqBlocks.erase seq)
    rw [howners, h.counts block]
    omega

/-- The owner's old pins go, and room is made. -/
theorem replaced (seq toPin : Int) :
    let t := (s.unpinPrefix seq).makePinRoom toPin
    PinsOwned t ∧ seq ∉ t.pinnedSeqBlocks := by
  refine makePinRoom_rule (P := fun t => PinsOwned t ∧ seq ∉ t.pinnedSeqBlocks) toPin
    (fun t other ht => ?_) ?_
  · obtain ⟨hunpinned, howners⟩ := ht.1.unpinPrefix other
    rw [howners, AList.mem_erase]
    exact ⟨hunpinned, fun hmem => ht.2 hmem.2⟩
  · obtain ⟨hunpinned, howners⟩ := h.unpinPrefix seq
    rw [howners, AList.mem_erase]
    exact ⟨hunpinned, fun hmem => hmem.1 rfl⟩

/-- Pins for an owner that has none. -/
theorem pinBlocks {seq : Int} (hnew : seq ∉ s.pinnedSeqBlocks) (owned : List Int) :
    PinsOwned (s.pinBlocks seq owned) := by
  obtain ⟨hkeyed, ⟨howners, -⟩, hpins⟩ := pinBlocks_fold owned h.toPinsKeyed
  unfold KVCacheManager.pinBlocks
  split
  next hempty =>
    refine ⟨hkeyed, fun block => ?_⟩
    rw [hpins, howners, List.isEmpty_iff.mp hempty, count_nil, Nat.add_zero, h.counts]
  next =>
    refine ⟨⟨hkeyed.positive, hkeyed.keys⟩, fun block => ?_⟩
    have htotal := Table.total_insert (fun owned => owned.count block) s.pinnedSeqBlocks seq owned
    rw [AList.lookup_eq_none.mpr hnew, Option.map_none, Option.getD_none, Nat.add_zero] at htotal
    refine (hpins block).trans ?_
    change _ = Table.total _ ((owned.foldl pinBlock s).pinnedSeqBlocks.insert seq
      owned)
    rw [howners, htotal, h.counts block, Nat.add_comm]

theorem pinPrefix (seq numBlocks : Int) : PinsOwned (s.pinPrefix seq numBlocks) := by
  obtain ⟨heq, -⟩ | ⟨toPin, -, -, heq⟩ := s.pinPrefix_cases seq numBlocks <;> rw [heq]
  · exact h
  · exact (h.replaced seq toPin).1.pinBlocks (h.replaced seq toPin).2 _

end PinsOwned

/-! ## Every operation -/

/-- Three calls work on the pins; the others leave pins and owners alone. -/
theorem step_sameOwnedPins (s : KVCacheManager) (op : Op)
    (hpin : ∀ seq numBlocks, op ≠ .pinPrefix seq numBlocks) (hunpin : ∀ seq, op ≠ .unpinPrefix seq)
    (hevict : ∀ seq nSinkTokens nWindowTokens,
      op ≠ .evictMiddleBlocks seq nSinkTokens nWindowTokens) : SameOwnedPins s (s.step op) := by
  cases op with
  | allocateBlocks => exact .of_call (Serves.allocateBlocks ..).rest
  | allocateBlocksWithPrefix => exact .of_call (Serves.allocateBlocksWithPrefix ..).rest
  | appendBlock => exact .of_call (Serves.appendBlock ..).rest
  | freeSequence => exact .of_call (Serves.freeSequence ..).rest
  | registerBlockHashes => exact .of_call (Serves.of_edits (.registerBlockHashes ..)).rest
  | pinPrefix => exact absurd rfl (hpin _ _)
  | unpinPrefix => exact absurd rfl (hunpin _)
  | rollback => exact .of_call (Serves.rollback ..).rest
  | evictMiddleBlocks => exact absurd rfl (hevict _ _ _)
  | evictCachedBlock => exact .of_call ((StoreOnly.reclaimCachedBlock s).mono fun _ _ => rfl)
  | evictLru =>
    exact evictLru_keeps ⟨rfl, rfl, rfl, rfl⟩ fun seq => .of_call (Serves.freeSequence s seq).rest
  | loadPrefixCache => exact .of_call ((StoreOnly.loadPrefixCache ..).mono fun _ _ => rfl)
  | touch | setPrefixCachingEnabled | setPinBudgetBlocks | enableSwaSizing | swaPrepare | swaTrim =>
    exact ⟨rfl, rfl, rfl, rfl⟩

theorem step_pinsOwned (s : KVCacheManager) (op : Op) (h : PinsOwned s) :
    PinsOwned (s.step op) := by
  cases op with
  | pinPrefix seq numBlocks => exact h.pinPrefix seq numBlocks
  | unpinPrefix seq => exact (h.unpinPrefix seq).1
  | evictMiddleBlocks seq nSinkTokens nWindowTokens =>
    exact evictMiddleBlocks_rule h (fun sinkEnd => h.pinPrefix seq sinkEnd)
      (fun t slot ht => ht.congr (.of_call (Serves.of_slots (.evictSlot seq slot t)).rest))
      fun t sinkEnd n ht =>
        ht.congr (.of_call (Serves.of_edits (.clearHashesFrom t seq sinkEnd n)).rest)
  | _ =>
    exact h.congr (s.step_sameOwnedPins _ (fun _ _ => nofun) (fun _ => nofun) fun _ _ _ => nofun)

/-! ## Where the blocks of the pool are -/

/-- The blocks in the slots of all tables. -/
def heldBlocks (s : KVCacheManager) : Finset Int :=
  (s.seqBlocks.entries.flatMap fun entry => entry.2.filterMap id).toFinset

theorem mem_heldBlocks : block ∈ s.heldBlocks ↔ 0 < s.slotCount block := by
  have hlist : ∀ entries : List (Sigma fun _ : Int => List BlockRef),
      block ∈ entries.flatMap (fun entry => entry.2.filterMap id) ↔
        0 < Table.sumOf (fun blocks => blocks.count (some block)) entries := by
    intro entries
    induction entries with
    | nil => simp [Table.sumOf]
    | cons entry entries ih =>
      have hentry : block ∈ entry.2.filterMap id ↔ 0 < entry.2.count (some block) := by
        rw [count_pos_iff, mem_filterMap]
        simp only [id_eq, exists_eq_right]
      rw [flatMap_cons, mem_append, ih, hentry, Table.sumOf]
      omega
  rw [heldBlocks, mem_toFinset]
  exact hlist s.seqBlocks.entries

/-- Every block of the pool is free, or cached or held in a table. -/
theorem free_add_held (h : Owned total s []) :
    s.numFreeBlocks + (s.cachedBlocksMap ∪ s.heldBlocks).card = total := by
  have hlive : ∀ block, block ∈ s.cachedBlocksMap ∪ s.heldBlocks ↔ 0 < s.refCount block := by
    intro block
    rw [Finset.mem_union, mem_heldBlocks, h.refs block, count_nil, cachedCount]
    split
    next hcached => simp [hcached]
    next hcached => simp [hcached]
  have hdisjoint : Disjoint s.pool.freeList.toFinset (s.cachedBlocksMap ∪ s.heldBlocks) := by
    refine Finset.disjoint_left.mpr fun block hfree hmem => ?_
    have hzero : s.refCount block = 0 :=
      (BlockPool.mem_freeList.mp (mem_toFinset.mp hfree)).2.2
    have hpos := (hlive block).mp hmem
    omega
  have hpool : s.pool.freeList.toFinset ∪ (s.cachedBlocksMap ∪ s.heldBlocks) =
      (Finset.range total).map ⟨Int.ofNat, fun _ _ heq => Int.ofNat.inj heq⟩ := by
    ext block
    rw [Finset.mem_union, mem_toFinset, BlockPool.mem_freeList, hlive, h.numBlocks,
      Finset.mem_map]
    constructor
    · intro hmem
      have hbounds : 0 ≤ block ∧ block < total := hmem.elim (fun hfree => ⟨hfree.1, hfree.2.1⟩)
        fun hpos => h.numBlocks ▸ BlockPool.lt_numBlocks_of_refCount_pos hpos
      exact ⟨block.toNat, Finset.mem_range.mpr (by omega), Int.toNat_of_nonneg hbounds.1⟩
    · rintro ⟨id, hid, rfl⟩
      rcases Nat.eq_zero_or_pos (s.refCount (Int.ofNat id)) with hzero | hpos
      · exact .inl ⟨Int.natCast_nonneg id, Int.ofNat_lt.mpr (Finset.mem_range.mp hid), hzero⟩
      · exact .inr hpos
  have hcard := congrArg Finset.card hpool
  rw [Finset.card_union_of_disjoint hdisjoint, Finset.card_map, Finset.card_range,
    toFinset_card_of_nodup s.pool.free_nodup] at hcard
  exact hcard

/-- Without tables, a block of the pool is free or cached. -/
theorem free_add_cached (h : Owned total s []) (hnone : ∀ seq, seq ∉ s.seqBlocks) :
    s.numFreeBlocks + s.cachedBlocksMap.card = total := by
  have hpool := free_add_held h
  rwa [heldBlocks, Table.eq_empty hnone, show (∅ : Table Int (List BlockRef)).entries = [] from rfl,
    flatMap_nil, toFinset_nil, Finset.union_empty] at hpool

end Quench.KVCacheManager

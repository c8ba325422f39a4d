import Quench.Memory.PrefixProbe
import Quench.Memory.Reclaimable
import Quench.Memory.Released

/-!
# A prefix allocation that fails

When the pool runs out, `allocate_blocks_with_prefix` undoes what it did: it drops the handles it
took and erases the index entries of blocks that lose their last reference. A hit on a block that a
sequence holds is undone by this. A hit on a cached block is not: the cache's reference moved to the
table, so the block loses its last reference and its entry (`failed_hit_forgotten`). The entry goes
as well if another block is filed under its hash and the call takes that block before it fails.
`failed_prefix_allocation_clean` says that these are the only cases (`HitsSafe`).
-/

namespace Quench.KVCacheManager

open List

variable {s : KVCacheManager} {tokens : List Token} {maxReuseBlocks : Int} {salt : Hash}
  {ref : BlockRef} {hash : Hash} {seq : Int} {t : KVCacheManager} {inflight : List BlockRef}
  {total : Nat}

open Lib

/-! ## The hits of a call -/

/-- The hits of a prefix allocation that starts a table: the chained hashes of the leading blocks,
each with the block found under it. -/
def prefixHits (s : KVCacheManager) (tokens : List Token) (maxReuseBlocks : Int) (salt : Hash) :
    List (Hash × Int) :=
  (s.reusedBlocks tokens maxReuseBlocks ((tokens.length + s.blockSize - 1) / s.blockSize) 0
    salt).zipIdx.map fun hit => (chainHash s.blockSize salt tokens (hit.2 + 1), hit.1)

variable {block : Int} {hit : Hash × Int}

theorem reusedBlocks_getElem {n b i : Nat} (h : (s.reusedBlocks tokens maxReuseBlocks
      n b (chainHash s.blockSize salt tokens b))[i]? = some block) :
    s.blockHashToId.lookup (chainHash s.blockSize salt tokens (b + i + 1)) = some block ∧
      0 < s.refCount block := by
  induction n generalizing b i with
  | zero => cases h
  | succ n ih =>
    unfold reusedBlocks at h
    dsimp only at h
    split at h
    · split at h
      · cases h
      next found hlookup =>
        split at h
        · cases h
        next hlive =>
          cases i with
          | zero =>
            cases h
            exact ⟨hlookup, Nat.pos_of_ne_zero hlive⟩
          | succ i =>
            rw [show b + (i + 1) + 1 = b + 1 + i + 1 by omega]
            exact ih h
    · cases h

/-- A hit is in the index, and its block has references. -/
theorem prefixHits_live (h : hit ∈ s.prefixHits tokens maxReuseBlocks salt) :
    s.blockHashToId.lookup hit.1 = some hit.2 ∧ 0 < s.refCount hit.2 := by
  obtain ⟨⟨block, i⟩, hmem, rfl⟩ := mem_map.mp h
  have hspec := reusedBlocks_getElem (b := 0) (mem_zipIdx_iff_getElem?.mp hmem)
  rwa [Nat.zero_add] at hspec

theorem exists_prefixHit (h : block ∈ s.reusedBlocks tokens maxReuseBlocks
      ((tokens.length + s.blockSize - 1) / s.blockSize) 0 salt) :
    ∃ hit ∈ s.prefixHits tokens maxReuseBlocks salt, hit.2 = block := by
  obtain ⟨i, hi⟩ := getElem?_of_mem h
  exact ⟨_, mem_map.mpr ⟨(block, i), mem_zipIdx_iff_getElem?.mpr hi, rfl⟩, rfl⟩

/-- The block of the entry that the first miss of a prefix allocation drops, from block `b` on. -/
def missedEntry (s : KVCacheManager) (tokens : List Token) (maxReuseBlocks : Int) :
    Nat → Nat → Hash → Option Int
  | 0, _, _ => none
  | n + 1, b, parentHash =>
    let hash := computeBlockHash (blockTokens s.blockSize tokens b) parentHash
    match s.lookedUp tokens maxReuseBlocks b true hash with
    | none => none
    | some block =>
      if s.refCount block = 0 then some block
      else s.missedEntry tokens maxReuseBlocks n (b + 1) hash

section

variable {parentHash : Hash} {n b : Nat} {reuseOpen : Bool}

theorem lookedUp_eq_some : s.lookedUp tokens maxReuseBlocks b reuseOpen hash = some block ↔
    CanHit s tokens maxReuseBlocks b reuseOpen ∧ s.blockHashToId.lookup hash = some block := by
  unfold lookedUp
  split
  next hcan => exact (and_iff_right ⟨hcan.1, hcan.2.1, hcan.2.2.1, hcan.2.2.2⟩).symm
  next hcan =>
    refine iff_of_false (by simp) fun h => hcan ?_
    exact ⟨h.1.reuseOpen, h.1.enabled, h.1.full, h.1.below_cap⟩

theorem missedEntry_congr {s' : KVCacheManager} (hsize : s'.blockSize = s.blockSize)
    (henabled : s'.prefixCachingEnabled = s.prefixCachingEnabled)
    (hids : s'.blockHashToId = s.blockHashToId)
    (hlive : ∀ block, s'.refCount block = 0 ↔ s.refCount block = 0) :
    s'.missedEntry tokens maxReuseBlocks n b parentHash =
      s.missedEntry tokens maxReuseBlocks n b parentHash := by
  induction n generalizing b parentHash with
  | zero => rfl
  | succ n ih =>
    unfold missedEntry lookedUp
    rw [hsize, henabled, hids]
    simp only [hlive, ih]

section

variable (hhash : hash = computeBlockHash (blockTokens s.blockSize tokens b) parentHash)
include hhash

theorem missedEntry_hit (hcan : CanHit s tokens maxReuseBlocks b reuseOpen)
    (hlookup : s.blockHashToId.lookup hash = some block) (hpos : 0 < s.refCount block) :
    s.missedEntry tokens maxReuseBlocks (n + 1) b parentHash =
      s.missedEntry tokens maxReuseBlocks n (b + 1) hash := by
  have hlooked : s.lookedUp tokens maxReuseBlocks b true hash = some block :=
    lookedUp_eq_some.mpr ⟨{ hcan with reuseOpen := rfl }, hlookup⟩
  rw [missedEntry, ← hhash]
  simp only [hlooked, if_neg (Nat.pos_iff_ne_zero.mp hpos)]

theorem missedEntry_miss (hdead : ∀ found, CanHit s tokens maxReuseBlocks b reuseOpen →
      s.blockHashToId.lookup hash = some found → s.refCount found = 0) :
    (if reuseOpen then s.missedEntry tokens maxReuseBlocks (n + 1) b parentHash else none) =
      s.lookedUp tokens maxReuseBlocks b reuseOpen hash := by
  cases reuseOpen with
  | false => simp [lookedUp]
  | true =>
    rw [if_pos rfl, missedEntry, ← hhash]
    cases hlooked : s.lookedUp tokens maxReuseBlocks b true hash with
    | none => rfl
    | some block =>
      obtain ⟨hcan, hlookup⟩ := lookedUp_eq_some.mp hlooked
      exact if_pos (hdead block hcan hlookup)

end

theorem missedEntry_of_part
    (hpart : ¬ (s.prefixCachingEnabled = true ∧ (b + 1) * s.blockSize ≤ tokens.length)) :
    s.missedEntry tokens maxReuseBlocks n (b + 1) parentHash = none := by
  cases n with
  | zero => rfl
  | succ n =>
    have hlooked : s.lookedUp tokens maxReuseBlocks (b + 1) true
        (computeBlockHash (blockTokens s.blockSize tokens (b + 1)) parentHash) = none := by
      refine if_neg fun hcan => hpart ⟨hcan.2.1, ?_⟩
      by_contra hnow
      exact not_full_succ hnow hcan.2.2.1
    simp only [missedEntry, hlooked]

end

/-! ## What the call leaves of its hits -/

/-- While the call works on its table, every hit stays outside the cache and has gained one
reference for each of its slots in the table. -/
structure HitsKept (s : KVCacheManager) (seq : Int) (hits : List (Hash × Int))
    (t : KVCacheManager) : Prop where
  live : ∀ hit ∈ hits, 0 < s.refCount hit.2
  uncached : ∀ hit ∈ hits, hit.2 ∉ t.cachedBlocksMap
  refs : ∀ hit ∈ hits, t.refCount hit.2 = s.refCount hit.2 + (t.blockTable seq).count (some hit.2)

/-- The entry of this block goes before the call is undone: the block is free or may be reclaimed,
or the call holds its only reference. -/
def AtRisk (t : KVCacheManager) (seq other : Int) : Prop :=
  other ∈ t.pool.freeList ∨ (other ∈ t.cachedBlocksMap ∧ other ∉ t.pinnedBlocks) ∨
    some other ∈ t.blockTable seq ∧ t.refCount other = 1

/-- A hit is in the index, and no block filed under its hash is at risk, but for the one whose entry
the call is about to drop. -/
def HitStays (t : KVCacheManager) (seq : Int) (spared : Option Int) (hit : Hash × Int) : Prop :=
  t.blockHashToId.lookup hit.1 = some hit.2 ∧
    ∀ other, t.blockIdToHash.lookup other = some hit.1 → spared ≠ some other →
      ¬ t.AtRisk seq other

section

variable {t' : KVCacheManager} {other : Int} {spared : Option Int}

theorem atRisk_congr (hblocks : t'.pool.numBlocks = t.pool.numBlocks)
    (hrefs : t'.refCount other = t.refCount other)
    (hcached : other ∈ t'.cachedBlocksMap ↔ other ∈ t.cachedBlocksMap)
    (hpinned : t'.pinnedBlocks = t.pinnedBlocks)
    (htable : some other ∈ t'.blockTable seq ↔ some other ∈ t.blockTable seq) :
    t'.AtRisk seq other ↔ t.AtRisk seq other := by
  unfold refCount at hrefs
  rw [AtRisk, AtRisk, BlockPool.mem_freeList, BlockPool.mem_freeList, refCount, refCount, hblocks,
    hrefs, hcached, hpinned, htable]

theorem atRisk_of_index (h : IndexOnly t t') : t'.AtRisk seq other ↔ t.AtRisk seq other := by
  have hsame := SameOwners.of_index h
  have hpins := SamePins.of_index h
  rw [AtRisk, AtRisk, refCount, refCount, hsame.pool, hsame.cachedBlocksMap, hpins.pinned,
    hsame.blockTable]

theorem atRisk_dropRef (hne : other ≠ block) :
    (t.dropRefs [some block]).AtRisk seq other ↔ t.AtRisk seq other := by
  refine atRisk_congr (BlockPool.numBlocks_dropRefs _ _) ?_ Iff.rfl rfl Iff.rfl
  refine (BlockPool.refCount_dropRefs _ [some block] other).trans ?_
  rw [count_some_cons, count_nil, if_neg hne]
  rfl

theorem hitStays_congr (hids : t'.blockHashToId = t.blockHashToId)
    (hhashes : t'.blockIdToHash = t.blockIdToHash)
    (hrisk : ∀ other, t'.AtRisk seq other ↔ t.AtRisk seq other) :
    t'.HitStays seq spared hit ↔ t.HitStays seq spared hit := by
  simp only [HitStays, hids, hhashes, hrisk]

/-- The entries of a block at risk may be erased: if it is filed under the hash of the hit, the hit
did not stay and is gone now. -/
theorem hitStays_erase (hblock : t.AtRisk seq block)
    (hids : t'.blockHashToId = (t.eraseBlockHash block).blockHashToId)
    (hhashes : t'.blockIdToHash = (t.eraseBlockHash block).blockIdToHash)
    (hrisk : ∀ other, other ≠ block → (t'.AtRisk seq other ↔ t.AtRisk seq other)) :
    t'.HitStays seq none hit ↔ t.HitStays seq none hit := by
  unfold HitStays
  rw [hids, hhashes]
  by_cases hfiled : t.blockIdToHash.lookup block = some hit.1
  · refine iff_of_false (fun h => ?_) fun h => h.2 block hfiled nofun hblock
    exact (lookup_eraseBlockHash h.1).2 hfiled
  · have hlookup : (t.eraseBlockHash block).blockHashToId.lookup hit.1 =
        t.blockHashToId.lookup hit.1 := by
      unfold eraseBlockHash
      split
      · rfl
      next erased hsome =>
        exact (Table.lookup_erase_ite _ _ _).trans (if_neg fun heq =>
          hfiled (hsome.trans (congrArg some heq.symm)))
    rw [hlookup]
    refine and_congr_right fun _ => forall_congr' fun other => ?_
    by_cases hne : other = block
    · rw [hne, blockIdToHash_eraseBlockHash, if_pos rfl]
      exact iff_of_true nofun fun h => absurd h hfiled
    · rw [blockIdToHash_eraseBlockHash, if_neg hne, hrisk other hne]

theorem hitStays_reclaimCachedBlock (howned : Owned total t inflight) :
    t.reclaimCachedBlock.2.HitStays seq none hit ↔ t.HitStays seq none hit := by
  obtain ⟨lru, hperm, heq | ⟨block, hmem, hout, heq⟩⟩ := t.reclaimCachedBlock_cases
  · rw [heq]
    exact hitStays_congr rfl rfl fun _ => Iff.rfl
  · have hcached := (howned.mem_lru block).mp (hperm.mem_iff.mp hmem)
    have herase : ∀ u : KVCacheManager, u.blockIdToHash = t.blockIdToHash →
        u.blockHashToId = t.blockHashToId →
        (u.eraseBlockHash block).blockHashToId = (t.eraseBlockHash block).blockHashToId ∧
          (u.eraseBlockHash block).blockIdToHash = (t.eraseBlockHash block).blockIdToHash := by
      intro u hhashes hids
      unfold eraseBlockHash
      rw [hhashes]
      split
      · exact ⟨hids, hhashes⟩
      · exact ⟨congrArg (AList.erase _) hids, rfl⟩
    obtain ⟨hids, hhashes⟩ := herase
      (({ t with cachedBlocksLru := lru }.uncacheBlock block).addReclaimable (-1)) rfl rfl
    rw [heq]
    refine hitStays_erase (.inr (.inl ⟨hcached, hout⟩)) hids hhashes fun other hne => ?_
    have hindex := IndexOnly.eraseBlockHash
      (({ t with cachedBlocksLru := lru }.uncacheBlock block).addReclaimable (-1)) block
    exact (atRisk_dropRef hne).trans ((atRisk_of_index hindex).trans
      (atRisk_congr rfl rfl (Finset.mem_erase.trans (and_iff_right hne)) rfl Iff.rfl))

/-- The pass over the slots erases entries of blocks at risk only. -/
theorem hitStays_dropStale (refs : List BlockRef)
    (hslots : ∀ block, some block ∈ refs → some block ∈ t.blockTable seq) :
    (dropStale refs t).HitStays seq none hit ↔ t.HitStays seq none hit := by
  induction refs generalizing t with
  | nil => exact Iff.rfl
  | cons ref refs ih =>
    have hindex := IndexOnly.dropStaleHashIfLast t (BlockRef.id ref)
    have hrest := (ih (t := t.dropStaleHashIfLast (BlockRef.id ref))) fun block hmem => by
      rw [(SameOwners.of_index hindex).blockTable]
      exact hslots block (mem_cons_of_mem _ hmem)
    refine hrest.trans ?_
    unfold dropStaleHashIfLast
    split
    next hlast =>
      cases ref with
      | none => exact absurd hlast.1 (by decide)
      | some block =>
        exact hitStays_erase (.inr (.inr ⟨hslots block mem_cons_self, hlast.2⟩)) rfl rfl
          fun _ _ => atRisk_of_index (.eraseBlockHash t block)
    next => exact Iff.rfl

/-- What the pass leaves in the index was there, and it has no slot with its only reference. -/
theorem filed_dropStale (refs : List BlockRef)
    (h : (dropStale refs t).blockIdToHash.lookup other = some hash) :
    t.blockIdToHash.lookup other = some hash ∧ (some other ∈ refs → t.refCount other ≠ 1) := by
  induction refs generalizing t with
  | nil => exact ⟨h, fun hmem => by cases hmem⟩
  | cons ref refs ih =>
    obtain ⟨hfiled, hrest⟩ := ih h
    have hpool := (SameOwners.of_index (.dropStaleHashIfLast t (BlockRef.id ref))).pool
    rw [refCount, hpool] at hrest
    change (t.dropStaleHashIfLast (BlockRef.id ref)).blockIdToHash.lookup other = _ at hfiled
    unfold dropStaleHashIfLast at hfiled
    split at hfiled
    next =>
      obtain ⟨hne, hfiled⟩ := index_of_eraseBlockHash hfiled
      exact ⟨hfiled, fun hmem => hrest ((mem_cons.mp hmem).resolve_left fun heq => hne (by
        rw [← heq]; rfl))⟩
    next hmany =>
      refine ⟨hfiled, fun hmem hone => ?_⟩
      rcases mem_cons.mp hmem with rfl | hmem
      · exact hmany ⟨(BlockPool.lt_numBlocks_of_refCount_pos (hone ▸ Nat.one_pos)).1, hone⟩
      · exact hrest hmem hone

/-- When no block is left to take, giving up the table keeps the hits that stay. -/
theorem stays_rollback (hfree : t.pool.freeList = [])
    (hpinned : ∀ block ∈ t.cachedBlocksMap, block ∈ t.pinnedBlocks) :
    (t.rollbackPartialAllocation seq 0).blockHashToId.lookup hit.1 = some hit.2 ↔
      t.HitStays seq none hit := by
  rw [rollbackPartialAllocation_zero]
  change (dropStale (t.blockTable seq) t).blockHashToId.lookup hit.1 = some hit.2 ↔ _
  rw [← hitStays_dropStale (t.blockTable seq) fun _ hmem => hmem]
  refine ⟨fun hlookup => ⟨hlookup, fun other hfiled _ hrisk => ?_⟩, And.left⟩
  obtain ⟨-, hmany⟩ := filed_dropStale _ hfiled
  rcases (atRisk_of_index (.dropStale _ t)).mp hrisk with hmem | ⟨hcached, hout⟩ | ⟨hslot, hone⟩
  · rw [hfree] at hmem
    cases hmem
  · exact hout (hpinned other hcached)
  · exact hmany hslot hone

end

namespace HitsKept

variable {slack : Nat} {t' : KVCacheManager} {hits : List (Hash × Int)}

variable (h : HitsKept s seq hits t)
include h

theorem pos (hmem : hit ∈ hits) : 0 < t.refCount hit.2 := by
  rw [h.refs hit hmem]
  exact Nat.add_pos_left (h.live hit hmem) _

/-- A hit has another reference than those of the table. -/
theorem not_atRisk (hmem : hit ∈ hits) : ¬ t.AtRisk seq hit.2 := by
  have hpos := h.pos hmem
  rintro (hfree | ⟨hcached, -⟩ | ⟨hslot, hone⟩)
  · have hzero : t.refCount hit.2 = 0 := (BlockPool.mem_freeList.mp hfree).2.2
    omega
  · exact h.uncached hit hmem hcached
  · have hrefs := h.refs hit hmem
    have hlive := h.live hit hmem
    have hcount := count_pos_iff.mpr hslot
    omega

/-- A step that caches nothing and takes no reference without a slot. -/
theorem congr (hcached : t'.cachedBlocksMap ⊆ t.cachedBlocksMap)
    (hrefs : ∀ hit ∈ hits, t'.refCount hit.2 + (t.blockTable seq).count (some hit.2) =
      t.refCount hit.2 + (t'.blockTable seq).count (some hit.2)) : HitsKept s seq hits t' where
  live := h.live
  uncached hit hmem hin := h.uncached hit hmem (hcached hin)
  refs hit hmem := by
    have hbefore := h.refs hit hmem
    have hstep := hrefs hit hmem
    omega

theorem of_index (hindex : IndexOnly t t') : HitsKept s seq hits t' := by
  have hsame := SameOwners.of_index hindex
  refine h.congr (hsame.cachedBlocksMap ▸ Finset.Subset.refl _) fun hit _ => ?_
  rw [refCount, refCount, hsame.pool, hsame.blockTable]

/-- Reclaiming takes cached blocks, and no hit is cached. -/
theorem reclaimCachedBlock (howned : Owned total t inflight) :
    HitsKept s seq hits t.reclaimCachedBlock.2 := by
  rcases t.reclaimCachedBlock_spec with ⟨-, howners, -⟩ | ⟨block, hmem, -, -, hreclaims⟩
  · refine h.congr (howners.cachedBlocksMap ▸ Finset.Subset.refl _) fun hit _ => ?_
    rw [refCount, refCount, howners.pool, howners.blockTable]
  · have hcached := (howned.mem_lru block).mp hmem
    refine h.congr (hreclaims.pins.cached ▸ Finset.erase_subset _ _) fun hit hhit => ?_
    have hne : hit.2 ≠ block := fun heq => h.uncached hit hhit (heq ▸ hcached)
    rw [hreclaims.refs, if_neg hne, blockTable, blockTable, hreclaims.seqBlocks]
    rfl

/-- Taking a fresh block and putting it into the table: it had no reference, so it is no hit. -/
theorem take (howned : Owned total t inflight)
    (halloc : t.allocateBlockRefWithEviction = (ref, t')) :
    ∀ u, (ref = none ∧ u = t' ∨ ∃ block recorded, ref = some block ∧
        u = (t'.pushBlock seq (some block)).pushHash seq recorded) → HitsKept s seq hits u ∧
      ∀ hit, u.HitStays seq none hit ↔ t.HitStays seq none hit := by
  obtain ⟨v, ⟨hvOwned, hv, hstays⟩, hcase⟩ := allocateBlockRefWithEviction_rule
    (fun v => Owned total v inflight ∧ HitsKept s seq hits v ∧
      ∀ hit, v.HitStays seq none hit ↔ t.HitStays seq none hit)
    (fun v hv => ⟨hv.1.reclaimCachedBlock, hv.2.1.reclaimCachedBlock hv.1, fun hit =>
      (hitStays_reclaimCachedBlock hv.1).trans (hv.2.2 hit)⟩)
    ⟨howned, h, fun _ => Iff.rfl⟩ halloc
  rintro u (⟨rfl, rfl⟩ | ⟨block, recorded, rfl, rfl⟩)
  · obtain ⟨-, rfl⟩ | ⟨_, hsome, -⟩ := hcase
    · exact ⟨hv, hstays⟩
    · cases hsome
  · obtain ⟨hnone, -⟩ | ⟨_, hsome, hacquire⟩ := hcase
    · cases hnone
    cases hsome
    have hblocks := (hvOwned.acquireBlockRef hacquire).numBlocks.trans hvOwned.numBlocks.symm
    obtain ⟨pool, rfl, hfree, hnonneg, hcounts⟩ := acquireBlockRef_some hacquire
    have hone : pool.refCount block = 1 := (hcounts block).trans (if_pos rfl)
    have hslots := fun other => (count_pushBlock { v with pool } seq block other).1
    have hrisk : ∀ other, (({ v with pool }.pushBlock seq (some block)).pushHash seq
        recorded).AtRisk seq other ↔ v.AtRisk seq other := by
      intro other
      have hcount := hslots other
      split at hcount
      next heq =>
        -- before, the block is free; afterwards the table has its only reference
        subst heq
        have hlt := (BlockPool.lt_numBlocks_of_refCount_pos (hone ▸ Nat.one_pos)).2
        have hslot : some other ∈ ({ v with pool }.pushBlock seq (some other)).blockTable seq :=
          count_pos_iff.mp (by rw [hcount]; exact Nat.succ_pos _)
        exact iff_of_true (.inr (.inr ⟨hslot, hone⟩))
          (.inl (BlockPool.mem_freeList.mpr ⟨hnonneg, hblocks ▸ hlt, hfree⟩))
      next hne =>
        refine atRisk_congr (t := v) hblocks ((hcounts other).trans (if_neg hne)) Iff.rfl rfl ?_
        rw [← count_pos_iff, ← count_pos_iff]
        exact iff_of_eq (congrArg (0 < ·) hcount)
    have hsame : ∀ hit, (({ v with pool }.pushBlock seq (some block)).pushHash seq
        recorded).HitStays seq none hit ↔ v.HitStays seq none hit :=
      fun hit => hitStays_congr rfl rfl hrisk
    refine ⟨hv.congr (Finset.Subset.refl _) fun hit hmem => ?_, fun hit =>
      (hsame hit).trans (hstays hit)⟩
    have hne : hit.2 ≠ block := fun heq =>
      absurd (heq ▸ hfree) (Nat.pos_iff_ne_zero.mp (hv.pos hmem))
    have hcount := hslots hit.2
    rw [if_neg hne] at hcount
    exact congrArg₂ _ ((hcounts hit.2).trans (if_neg hne)) hcount.symm

/-- A hit that a sequence holds is shared: it gains a slot and a reference. -/
theorem reuseBlock (hmem : hit ∈ hits) (hash : Hash) :
    HitsKept s seq hits ((t.reuseBlock seq hit.2).pushHash seq hash) ∧ ∀ spared other,
      ((t.reuseBlock seq hit.2).pushHash seq hash).HitStays seq spared other ↔
        t.HitStays seq spared other := by
  have hspec := reuseBlock_spec seq (h.pos hmem)
  have hslots : ∀ other, ((t.reuseBlock seq hit.2).blockTable seq).count (some other) =
      (t.blockTable seq).count (some other) + if other = hit.2 then 1 else 0 := by
    intro other
    rw [← (count_pushBlock t seq hit.2 other).1, blockTable, hspec.seqBlocks, blockTable]
  have hrefs : ∀ other, (t.reuseBlock seq hit.2).refCount other =
      t.refCount other + if other = hit.2 then 1 else 0 := by
    intro other
    rw [hspec.refs]
    simp only [h.uncached hit hmem, not_false_eq_true, and_true]
  have hafter : HitsKept s seq hits ((t.reuseBlock seq hit.2).pushHash seq hash) := by
    refine h.congr (hspec.cached ▸ Finset.erase_subset _ _) fun other _ => ?_
    have hcount := hslots other.2
    have href := hrefs other.2
    change (t.reuseBlock seq hit.2).refCount other.2 + _ =
      _ + ((t.reuseBlock seq hit.2).blockTable seq).count (some other.2)
    omega
  refine ⟨hafter, fun spared found => hitStays_congr hspec.ids hspec.hashes fun other => ?_⟩
  by_cases heq : other = hit.2
  · rw [heq]
    exact iff_of_false (hafter.not_atRisk hmem) (h.not_atRisk hmem)
  · have href := hrefs other
    rw [if_neg heq] at href
    refine atRisk_congr hspec.numBlocks href ?_ hspec.pinned ?_
    · change other ∈ (t.reuseBlock seq hit.2).cachedBlocksMap ↔ _
      rw [hspec.cached, Finset.mem_erase]
      exact and_iff_right heq
    · have hcount := hslots other
      rw [if_neg heq] at hcount
      rw [← count_pos_iff, ← count_pos_iff]
      exact iff_of_eq (congrArg (0 < ·) hcount)

/-- A lookup that misses drops at most the entry of a block without references. -/
theorem misses {spared : Option Int} (hmem : hit ∈ hits) (hmiss : Misses t hash t')
    (hdrop : t'.blockIdToHash = spared.elim t.blockIdToHash t.blockIdToHash.erase) :
    t'.HitStays seq none hit ↔ t.HitStays seq spared hit := by
  have hlookup : t'.blockHashToId.lookup hit.1 = some hit.2 ↔
      t.blockHashToId.lookup hit.1 = some hit.2 := by
    cases hmiss with
    | absent => rfl
    | stale block hlookup hzero _ =>
      rw [Table.lookup_erase_ite]
      split
      next heq =>
        refine iff_of_false nofun fun hfiled => ?_
        have hpos := h.pos hmem
        rw [heq, hlookup] at hfiled
        rw [← Option.some.inj hfiled, hzero] at hpos
        exact lt_irrefl 0 hpos
      next => rfl
  have hfiled : ∀ other, t'.blockIdToHash.lookup other = some hit.1 ↔
      t.blockIdToHash.lookup other = some hit.1 ∧ spared ≠ some other := by
    intro other
    rw [hdrop]
    cases spared with
    | none => exact (and_iff_left nofun).symm
    | some block =>
      refine (iff_of_eq (congrArg (· = _) (Table.lookup_erase_ite _ _ _))).trans ?_
      split
      next heq => exact iff_of_false nofun fun hboth => hboth.2 (congrArg some heq.symm)
      next hne => exact (and_iff_left fun heq => hne (Option.some.inj heq).symm).symm
  unfold HitStays
  rw [hlookup]
  refine and_congr_right fun _ => forall_congr' fun other => ?_
  rw [hfiled, atRisk_of_index hmiss.index, and_imp]
  exact imp_congr_right fun _ => imp_congr_right fun _ => forall_prop_of_true nofun

/-- Giving up the table takes back the references of its slots and nothing else. -/
theorem rollbackPartialAllocation :
    HitsKept s seq hits (t.rollbackPartialAllocation seq 0) := by
  have hpass := h.of_index (.dropStale (t.blockTable seq) t)
  have hempty := (blockTable_dropTail t seq 0).trans take_zero
  have hcut : HitsKept s seq hits (t.dropTail seq 0) := by
    refine hpass.congr (Finset.Subset.refl _) fun hit hmem => ?_
    have hrefs := hpass.refs hit hmem
    rw [hempty, dropTail, refCount_resizeTable, drop_zero, drop_zero, count_nil]
    omega
  rw [rollbackPartialAllocation_zero]
  refine hcut.congr (Finset.Subset.refl _) fun hit hmem => ?_
  change (t.dropTail seq 0).refCount hit.2 + _ =
    _ + (((t.dropTail seq 0).eraseTable seq).blockTable seq).count _
  rw [(SameTables.eraseEmptyTable (List.isEmpty_iff.mpr hempty)).blockTable]

/-- The loop keeps the references of the hits, whether it ends or gives up, and if it gives up the
index keeps those that stay. -/
theorem prefixLoop (tokens : List Token) (maxReuseBlocks : Int) (n b reused : Nat)
    (parentHash : Hash) (reuseOpen : Bool) (hcounted : Counted slack total t inflight)
    (hreuse : ∀ block ∈ if reuseOpen then t.reusedBlocks tokens maxReuseBlocks n b parentHash
      else [], ∃ hit ∈ hits, hit.2 = block)
    {result : Int × KVCacheManager} (hresult : KVCacheManager.prefixLoop seq tokens maxReuseBlocks n
      b reused parentHash reuseOpen t = result) :
    HitsKept s seq hits result.2 ∧ (result.1 = -1 → ∀ hit ∈ hits,
      (result.2.blockHashToId.lookup hit.1 = some hit.2 ↔ t.HitStays seq (if reuseOpen then
        t.missedEntry tokens maxReuseBlocks n b parentHash else none) hit)) := by
  induction n generalizing t b reused parentHash reuseOpen with
  | zero =>
    subst hresult
    exact ⟨h, fun hfailed => absurd hfailed (by rw [KVCacheManager.prefixLoop]; omega)⟩
  | succ n ih =>
    have hround := prefixLoop_round seq tokens maxReuseBlocks n b reused parentHash reuseOpen t
    rw [hresult] at hround
    cases hround with
    | hit hash block hcan hhash hlookup hlive =>
      have hpos : 0 < t.refCount block := hlive.elim hcounted.owned.refCount_pos_of_cached id
      rw [if_pos hcan.reuseOpen, reusedBlocks_hit hhash hcan hlookup hpos] at hreuse
      obtain ⟨hit, hmem, rfl⟩ := hreuse block mem_cons_self
      obtain ⟨hshared, hstays⟩ := h.reuseBlock hmem hash
      have hspec := reuseBlock_spec seq hpos
      have hlater := ih hshared _ _ _ _ ⟨(hcounted.owned.reuseBlock seq hlive).congr
        (.pushHash _ seq hash), { hcounted.counted.reuseBlock seq hit.2 with }⟩
        (fun other hother => by
          rw [if_pos rfl, reusedBlocks_reuseBlock seq hash hpos] at hother
          exact hreuse other (mem_cons_of_mem _ hother)) rfl
      refine ⟨hlater.1, fun hfailed found hfound => (hlater.2 hfailed found hfound).trans ?_⟩
      have hentry : ((t.reuseBlock seq hit.2).pushHash seq hash).missedEntry tokens maxReuseBlocks n
          (b + 1) hash = t.missedEntry tokens maxReuseBlocks n (b + 1) hash :=
        missedEntry_congr hspec.blockSize hspec.enabled hspec.ids
          (refCount_reuseBlock_eq_zero seq hpos)
      rw [if_pos rfl, if_pos hcan.reuseOpen, missedEntry_hit hhash hcan hlookup hpos, hentry]
      exact hstays _ found
    | fresh hash nextHash recorded nextOpen u after block hhash hmiss hdead halloc _ _ hopen
        hdrop =>
      have hu := hcounted.congr (hcounted.owned.congr hmiss.sameOwners) hmiss.samePins
      obtain ⟨hpushed, hstays⟩ := (h.of_index hmiss.index).take hu.owned halloc _
        (.inr ⟨block, recorded, rfl, rfl⟩)
      have htaken := (hu.allocateBlockRefWithEviction halloc).pushBlock seq
      have hlater := ih hpushed _ _ _ _ (htaken.congr
        (htaken.owned.congr (.pushHash _ seq recorded)) ⟨rfl, rfl, rfl, rfl⟩)
        (fun other hother => by
          rw [reusedBlocks_fresh hmiss halloc hopen] at hother
          cases hother) rfl
      refine ⟨hlater.1, fun hfailed hit hmem => (hlater.2 hfailed hit hmem).trans ?_⟩
      have hnone : (if nextOpen then ((after.pushBlock seq (some block)).pushHash seq
          recorded).missedEntry tokens maxReuseBlocks n (b + 1) nextHash else none) = none := by
        split
        next hstill =>
          refine missedEntry_of_part fun hboth => (hopen hstill).2 ?_
          have hsame := hmiss.sameTables.trans (.allocateBlockRefWithEviction halloc)
          rw [← hsame.blockSize, ← hsame.prefixCachingEnabled]
          exact hboth
        next => rfl
      rw [hnone, hstays, h.misses hmem hmiss hdrop, missedEntry_miss hhash hdead]
    | exhausted hash u after hhash hmiss hdead halloc hdrop =>
      have hu := hcounted.congr (hcounted.owned.congr hmiss.sameOwners) hmiss.samePins
      obtain ⟨hafter, hstays⟩ := (h.of_index hmiss.index).take hu.owned halloc _ (.inl ⟨rfl, rfl⟩)
      obtain ⟨hfree, hpinned⟩ := hu.allocateBlockRefWithEviction_none halloc
      refine ⟨hafter.rollbackPartialAllocation, fun _ hit hmem => ?_⟩
      rw [stays_rollback hfree hpinned, hstays, h.misses hmem hmiss hdrop,
        missedEntry_miss hhash hdead]

end HitsKept

/-- Taking a block adds nothing to the cache. -/
theorem cached_allocateBlockRefWithEviction (halloc : s.allocateBlockRefWithEviction = (ref, t)) :
    t.cachedBlocksMap ⊆ s.cachedBlocksMap := by
  have hreclaim : ∀ u : KVCacheManager, u.cachedBlocksMap ⊆ s.cachedBlocksMap →
      u.reclaimCachedBlock.2.cachedBlocksMap ⊆ s.cachedBlocksMap := by
    intro u hu
    rcases u.reclaimCachedBlock_spec with ⟨-, howners, -⟩ | ⟨_, -, -, -, hreclaims⟩
    · rw [howners.cachedBlocksMap]
      exact hu
    · rw [hreclaims.pins.cached]
      exact (Finset.erase_subset _ _).trans hu
  obtain ⟨u, hu, ⟨-, rfl⟩ | ⟨_, -, hacquire⟩⟩ :=
    allocateBlockRefWithEviction_rule _ hreclaim (Finset.Subset.refl _) halloc
  · exact hu
  · obtain ⟨_, rfl, -⟩ := acquireBlockRef_some hacquire
    exact hu

/-- A block that is reused leaves the cache, and nothing puts it back. -/
theorem uncached_prefixLoop
    (seq : Int) (tokens : List Token) (maxReuseBlocks : Int) (n b reused : Nat) (parentHash : Hash)
    (reuseOpen : Bool) (howned : Owned total t inflight) {result : Int × KVCacheManager}
    (hresult : prefixLoop seq tokens maxReuseBlocks n b reused parentHash reuseOpen t = result) :
    result.2.cachedBlocksMap ⊆ t.cachedBlocksMap ∧ ∀ block ∈ if reuseOpen then
      t.reusedBlocks tokens maxReuseBlocks n b parentHash else [],
        block ∉ result.2.cachedBlocksMap := by
  induction n generalizing t b reused parentHash reuseOpen with
  | zero =>
    subst hresult
    exact ⟨Finset.Subset.refl _, fun block hmem => by split at hmem <;> cases hmem⟩
  | succ n ih =>
    have hround := prefixLoop_round seq tokens maxReuseBlocks n b reused parentHash reuseOpen t
    rw [hresult] at hround
    cases hround with
    | hit hash block hcan hhash hlookup hlive =>
      have hpos : 0 < t.refCount block := hlive.elim howned.refCount_pos_of_cached id
      obtain ⟨hsub, hrest⟩ := ih _ _ _ _ ((howned.reuseBlock seq hlive).congr
        (.pushHash _ seq hash)) rfl
      have hsub : _ ⊆ t.cachedBlocksMap.erase block := (reuseBlock_spec seq hpos).cached ▸ hsub
      refine ⟨hsub.trans (Finset.erase_subset _ _), ?_⟩
      rw [if_pos hcan.reuseOpen, reusedBlocks_hit hhash hcan hlookup hpos]
      rw [if_pos rfl, reusedBlocks_reuseBlock seq hash hpos] at hrest
      exact forall_mem_cons.mpr ⟨fun hmem => Finset.notMem_erase _ _ (hsub hmem), hrest⟩
    | fresh hash nextHash recorded nextOpen u after block hhash hmiss hdead halloc =>
      obtain ⟨hsub, -⟩ := ih _ _ _ _ ((((howned.congr hmiss.sameOwners).allocateBlockRefWithEviction
        halloc).pushBlock seq).congr (.pushHash _ seq recorded)) rfl
      have htaken := hmiss.samePins.cached ▸ cached_allocateBlockRefWithEviction halloc
      refine ⟨hsub.trans htaken, ?_⟩
      rw [reusedBlocks_miss hhash hdead]
      exact fun _ hmem => by cases hmem
    | exhausted hash u after hhash hmiss hdead halloc =>
      refine ⟨?_, ?_⟩
      · rw [(SamePins.rollbackPartialAllocation after seq).cached, ← hmiss.samePins.cached]
        exact cached_allocateBlockRefWithEviction halloc
      · rw [reusedBlocks_miss hhash hdead]
        exact fun _ hmem => by cases hmem

/-! ## The whole call -/

/-- Nothing a call hits is cached, and no other block filed under the hash of a hit is free or may
be reclaimed, unless it is the one whose entry the first miss drops. -/
def HitsSafe (s : KVCacheManager) (tokens : List Token) (maxReuseBlocks : Int) (salt : Hash) :
    Prop :=
  ∀ hit ∈ s.prefixHits tokens maxReuseBlocks salt, hit.2 ∉ s.cachedBlocksMap ∧
    ∀ other ∈ s.blockIdToHash.keys, s.blockIdToHash.lookup other = some hit.1 →
      s.missedEntry tokens maxReuseBlocks ((tokens.length + s.blockSize - 1) / s.blockSize) 0 salt
        ≠ some other →
      other ∉ s.pool.freeList ∧ (other ∈ s.cachedBlocksMap → other ∈ s.pinnedBlocks)

instance (s : KVCacheManager) (tokens : List Token) (maxReuseBlocks : Int) (salt : Hash) :
    Decidable (s.HitsSafe tokens maxReuseBlocks salt) :=
  inferInstanceAs (Decidable (∀ hit ∈ s.prefixHits tokens maxReuseBlocks salt, _ ∧ _))

/-- At the start of the call, with no slot taken. -/
theorem hitStays_entered (hfresh : s.blockTable seq = [])
    (hmem : hit ∈ s.prefixHits tokens maxReuseBlocks salt) (spared : Option Int) :
    (s.entered seq).HitStays seq spared hit ↔
      ∀ other ∈ s.blockIdToHash.keys, s.blockIdToHash.lookup other = some hit.1 →
        spared ≠ some other →
        other ∉ s.pool.freeList ∧ (other ∈ s.cachedBlocksMap → other ∈ s.pinnedBlocks) := by
  have hrisk : ∀ other, (s.entered seq).AtRisk seq other ↔
      ¬ (other ∉ s.pool.freeList ∧ (other ∈ s.cachedBlocksMap → other ∈ s.pinnedBlocks)) := by
    intro other
    rw [AtRisk, (s.entered_sameTables seq).blockTable, hfresh, not_and_or, not_not,
      Classical.not_imp]
    exact or_congr_right (or_iff_left fun hslot => by cases hslot.1)
  refine (and_iff_right (prefixHits_live hmem).1).trans (forall_congr' fun other => ?_)
  rw [hrisk, not_not]
  refine ⟨fun h _ => h, fun h hfiled => h (AList.mem_keys.mp ?_) hfiled⟩
  exact Table.mem_of_lookup hfiled

/-- What a failed loop leaves of its hits. -/
theorem failed_hits {slack : Nat} (hcounted : Counted slack total s [])
    (hfresh : s.blockTable seq = [])
    (hfailed : (s.startTable seq tokens maxReuseBlocks salt).1 = -1)
    (hnone : (s.startTable seq tokens maxReuseBlocks salt).2.blockTable seq = []) :
    (∀ hit ∈ s.prefixHits tokens maxReuseBlocks salt,
      (s.startTable seq tokens maxReuseBlocks salt).2.blockHashToId.lookup hit.1 = some hit.2 ∧
      (hit.2 ∈ (s.startTable seq tokens maxReuseBlocks salt).2.cachedBlocksMap ↔
        hit.2 ∈ s.cachedBlocksMap) ∧
      (s.startTable seq tokens maxReuseBlocks salt).2.refCount hit.2 = s.refCount hit.2) ↔
    s.HitsSafe tokens maxReuseBlocks salt := by
  have hsame := reusedBlocks_congr s (s.entered seq) rfl rfl rfl (fun _ => Iff.rfl) tokens
    maxReuseBlocks ((tokens.length + s.blockSize - 1) / s.blockSize) 0 salt
  have hentry : (s.entered seq).missedEntry tokens maxReuseBlocks
      ((tokens.length + s.blockSize - 1) / s.blockSize) 0 salt =
      s.missedEntry tokens maxReuseBlocks ((tokens.length + s.blockSize - 1) / s.blockSize) 0
        salt :=
    missedEntry_congr rfl rfl rfl fun _ => Iff.rfl
  by_cases huncached : ∀ hit ∈ s.prefixHits tokens maxReuseBlocks salt, hit.2 ∉ s.cachedBlocksMap
  · -- with no hit cached, the loop decides hit by hit which of them stay
    have hstart : HitsKept s seq (s.prefixHits tokens maxReuseBlocks salt) (s.entered seq) := by
      refine ⟨fun _ hmem => (prefixHits_live hmem).2, huncached, fun hit _ => ?_⟩
      rw [(s.entered_sameTables seq).blockTable, hfresh]
      rfl
    obtain ⟨hkept, hstays⟩ := hstart.prefixLoop tokens maxReuseBlocks _ 0 0 salt true
      (hcounted.congr (hcounted.owned.entered seq) ⟨rfl, rfl, rfl, rfl⟩) (fun block hblock => by
        rw [if_pos rfl, hsame] at hblock
        exact exists_prefixHit hblock) (rfl : _ = s.startTable seq tokens maxReuseBlocks salt)
    refine forall_congr' fun hit => imp_congr_right fun hmem => ?_
    have hrefs := hkept.refs hit hmem
    rw [hnone] at hrefs
    rw [hstays hfailed hit hmem, if_pos rfl, hentry, hitStays_entered hfresh hmem,
      and_iff_right (huncached hit hmem)]
    exact and_iff_left ⟨iff_of_false (hkept.uncached hit hmem) (huncached hit hmem), hrefs⟩
  · refine iff_of_false (fun hclean => huncached fun hit hmem hcached => ?_) fun hsafe =>
      huncached fun hit hmem => (hsafe hit hmem).1
    obtain ⟨⟨block, i⟩, hblock, rfl⟩ := mem_map.mp hmem
    have hgone := (uncached_prefixLoop seq tokens maxReuseBlocks _ 0 0 salt true
      (hcounted.owned.entered seq) (rfl : _ = s.startTable seq tokens maxReuseBlocks salt)).2 block
    rw [if_pos rfl, hsame] at hgone
    exact hgone (mem_of_getElem? (mem_zipIdx_iff_getElem?.mp hblock))
      ((hclean _ hmem).2.1.mpr hcached)

/-- After every run: a prefix allocation for a sequence without slots that fails takes the
sequence's table away and leaves every other one, and the free, the cached and the held blocks are
the pool. Its hits are in the index, cached or not as before and with the references they had, if
and only if they are safe. -/
theorem failed_prefix_allocation_clean (blockSize totalBlocks swaBlocks : Nat) (ops : List Op)
    (seq : Int) (tokens : List Token) (maxReuseBlocks : Int) (contentSalt : Hash)
    (hfresh : ((fresh blockSize totalBlocks swaBlocks).run ops).blockTable seq = [])
    (hfailed : (((fresh blockSize totalBlocks swaBlocks).run ops).allocateBlocksWithPrefix seq
      tokens maxReuseBlocks contentSalt).1 = -1) :
    let s := (fresh blockSize totalBlocks swaBlocks).run ops
    let after := (s.allocateBlocksWithPrefix seq tokens maxReuseBlocks contentSalt).2
    after.seqBlocks.lookup seq = none ∧
      (∀ other, other ≠ seq → after.seqBlocks.lookup other = s.seqBlocks.lookup other) ∧
      ((∀ hit ∈ s.prefixHits tokens maxReuseBlocks contentSalt,
        after.blockHashToId.lookup hit.1 = some hit.2 ∧
        (hit.2 ∈ after.cachedBlocksMap ↔ hit.2 ∈ s.cachedBlocksMap) ∧
        after.refCount hit.2 = s.refCount hit.2) ↔ s.HitsSafe tokens maxReuseBlocks contentSalt) ∧
      after.numFreeBlocks + after.cachedBlocksMap.card +
        (after.heldBlocks \ after.cachedBlocksMap).card = totalBlocks := by
  intro s after
  obtain ⟨slack, hcounted⟩ := counted_of_run blockSize totalBlocks swaBlocks ops
  have hafterOwned : Owned totalBlocks after [] :=
    hcounted.owned.allocateBlocksWithPrefix seq tokens maxReuseBlocks contentSalt
  have hne : tokens ≠ [] := fun hempty => by
    rw [hempty] at hfailed
    cases hfailed
  have hcall := allocateBlocksWithPrefix_start hne hfresh maxReuseBlocks contentSalt
  have hloop : (s.startTable seq tokens maxReuseBlocks contentSalt).1 = -1 := by
    rw [← hfailed, hcall]
  have hafter : after = (s.startTable seq tokens maxReuseBlocks contentSalt).2 := by
    change (s.allocateBlocksWithPrefix seq tokens maxReuseBlocks contentSalt).2 = _
    rw [hcall]
    dsimp only
    rw [hloop, if_pos (by decide)]
  have hgone := s.startTable_mem seq tokens maxReuseBlocks contentSalt
  have hnone : after.seqBlocks.lookup seq = none := AList.lookup_eq_none.mpr fun hmem => by
    have hnonneg := hgone.mp (hafter ▸ hmem)
    rw [hloop] at hnonneg
    cases hnonneg
  have hserves := Serves.allocateBlocksWithPrefix s seq tokens maxReuseBlocks contentSalt
  refine ⟨hnone, hserves.table, ?_, ?_⟩
  · rw [hafter] at hnone ⊢
    exact failed_hits hcounted hfresh hloop (by rw [blockTable, hnone]; rfl)
  · have hpool := free_add_held hafterOwned
    rw [← Finset.union_sdiff_self_eq_union, Finset.card_union_of_disjoint Finset.disjoint_sdiff]
      at hpool
    omega

/-- One hash is loaded twice, and the two blocks filed under it come to be held. -/
def heldTwice : List Op :=
  [.setPrefixCachingEnabled true,
    .loadPrefixCache [(computeBlockHash [1] 0, true), (computeBlockHash [1] 0, true)],
    .allocateBlocksWithPrefix 0 [1] (-1) 0, .evictCachedBlock,
    .allocateBlocksWithPrefix 1 [1] (-1) 0, .registerBlockHashes 1 [1] 0]

/-- A prompt shares one of the two and needs two blocks more from a pool with one left. -/
theorem failed_prefix_allocation_clean_shared :
    let s := (fresh 1 3 0).run heldTwice
    let after := (s.allocateBlocksWithPrefix 2 [1, 2, 3] (-1) 0).2
    s.prefixHits [1, 2, 3] (-1) 0 ≠ [] ∧ after.seqBlocks.lookup 2 = none ∧
      (∀ other, other ≠ 2 → after.seqBlocks.lookup other = s.seqBlocks.lookup other) ∧
      (∀ hit ∈ s.prefixHits [1, 2, 3] (-1) 0,
        after.blockHashToId.lookup hit.1 = some hit.2 ∧
        (hit.2 ∈ after.cachedBlocksMap ↔ hit.2 ∈ s.cachedBlocksMap) ∧
        after.refCount hit.2 = s.refCount hit.2) ∧
      after.numFreeBlocks + after.cachedBlocksMap.card +
        (after.heldBlocks \ after.cachedBlocksMap).card = 3 := by
  obtain ⟨hnone, hothers, hhits, hpool⟩ := failed_prefix_allocation_clean 1 3 0 heldTwice 2
    [1, 2, 3] (-1) 0 (by decide +kernel) (by decide +kernel)
  exact ⟨by decide +kernel, hnone, hothers, hhits.mpr (by decide +kernel), hpool⟩

/-- A prompt hits a cached block and runs out of blocks: the block is neither cached nor registered
afterwards. The entry of a held hit can go as well: a file with one hash twice leaves two blocks
filed under it, and reclaiming the one erases the entry. -/
theorem failed_hit_forgotten :
    (let s := (fresh 1 2 0).run [.setPrefixCachingEnabled true,
      .allocateBlocksWithPrefix 0 [1] (-1) 0, .registerBlockHashes 0 [1] 0, .freeSequence 0]
     let result := s.allocateBlocksWithPrefix 1 [1, 2, 3] (-1) 0
     result.1 = -1 ∧ s.prefixHits [1, 2, 3] (-1) 0 = [(computeBlockHash [1] 0, 0)] ∧
       0 ∈ s.cachedBlocksMap ∧ 0 ∉ result.2.cachedBlocksMap ∧
       result.2.blockHashToId.lookup (computeBlockHash [1] 0) = none) ∧
    (let hash := computeBlockHash [1] 0
     let s := (fresh 1 2 0).run [.setPrefixCachingEnabled true,
      .loadPrefixCache [(hash, true), (hash, true)], .allocateBlocksWithPrefix 0 [1] (-1) 0]
     let result := s.allocateBlocksWithPrefix 1 [1, 2, 3] (-1) 0
     result.1 = -1 ∧ (∀ hit ∈ s.prefixHits [1, 2, 3] (-1) 0, hit.2 ∉ s.cachedBlocksMap) ∧
       (s.blockHashToId.lookup hash).isSome ∧ result.2.blockHashToId.lookup hash = none) := by
  decide +kernel

end Quench.KVCacheManager

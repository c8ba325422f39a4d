import Mathlib.Data.Finset.Card
import Quench.Memory.PrefixIndexOps

/-!
# Pins and references

Pins are kept apart from references: `pinned_blocks_` says which blocks reclaiming must skip, but
nothing in it holds a block. `PinsHeld` is the invariant that makes a pin mean something: every
pinned block has a reference, and the count of reclaimable cached blocks is the number of unpinned
ones. Operations that can drop the last reference of a pinned block keep it under a condition,
stated with each of them.
-/

namespace Quench.KVCacheManager

open Lib List

variable {s : KVCacheManager}

/-! ## What the pins rest on -/

/-- The pins, the cached blocks and the count of reclaimable ones are unchanged. -/
structure SamePins (s s' : KVCacheManager) : Prop where
  pinned : s'.pinnedBlocks = s.pinnedBlocks
  pins : s'.pinRefcount = s.pinRefcount
  cached : s'.cachedBlocksMap = s.cachedBlocksMap
  reclaimable : s'.reclaimableCachedCount = s.reclaimableCachedCount

variable {t u : KVCacheManager} {block seq : Int}

namespace SamePins

theorem rfl' (s : KVCacheManager) : SamePins s s := ⟨rfl, rfl, rfl, rfl⟩

theorem trans (h : SamePins s t) (h' : SamePins t u) : SamePins s u :=
  ⟨h'.pinned.trans h.pinned, h'.pins.trans h.pins, h'.cached.trans h.cached,
    h'.reclaimable.trans h.reclaimable⟩

theorem of_records (h : RecordsOnly s t) : SamePins s t :=
  ⟨h.keeps (·.pinnedBlocks) fun _ _ => rfl, h.keeps (·.pinRefcount) fun _ _ => rfl,
    h.keeps (·.cachedBlocksMap) fun _ _ => rfl, h.keeps (·.reclaimableCachedCount) fun _ _ => rfl⟩

theorem of_index (h : IndexOnly s t) : SamePins s t := of_records h.records

end SamePins

theorem Misses.samePins {hash : Hash} (h : Misses s hash t) : SamePins s t := .of_index h.index

/-! ## The bookkeeping of pins -/

/-- Every counted pin is on a pinned block, and `reclaimable_cached_count_` is the number of cached
blocks that are not pinned, with what loads of a persisted cache have counted too much. -/
structure PinsCounted (slack : Nat) (s : KVCacheManager) : Prop where
  pinned : ∀ block ∈ s.pinRefcount, block ∈ s.pinnedBlocks
  reclaimable : s.reclaimableCachedCount =
    ((s.cachedBlocksMap \ s.pinnedBlocks).card : Int) + slack

namespace PinsCounted

variable {slack : Nat} {s' : KVCacheManager} (h : PinsCounted slack s)
include h

theorem congr (hsame : SamePins s s') : PinsCounted slack s' where
  pinned block hmem := by
    rw [hsame.pins] at hmem
    rw [hsame.pinned]
    exact h.pinned block hmem
  reclaimable := by rw [hsame.reclaimable, hsame.cached, hsame.pinned, h.reclaimable]

/-- A block enters the cache: it is reclaimable unless it is pinned. -/
theorem cacheBlock (hnew : block ∉ s.cachedBlocksMap) :
    PinsCounted slack (if block ∈ s.pinnedBlocks then s.cacheBlock block
      else (s.cacheBlock block).addReclaimable 1) := by
  split
  next hpinned =>
    refine ⟨h.pinned, ?_⟩
    change s.reclaimableCachedCount =
      ((insert block s.cachedBlocksMap \ s.pinnedBlocks).card : Int) + slack
    rw [Finset.insert_sdiff_of_mem _ hpinned, h.reclaimable]
  next hpinned =>
    refine ⟨h.pinned, ?_⟩
    change s.reclaimableCachedCount + 1 =
      ((insert block s.cachedBlocksMap \ s.pinnedBlocks).card : Int) + slack
    have hout : block ∉ s.cachedBlocksMap \ s.pinnedBlocks := fun hmem =>
      hnew (Finset.mem_sdiff.mp hmem).1
    rw [Finset.insert_sdiff_of_notMem _ hpinned, Finset.card_insert_of_notMem hout, h.reclaimable]
    push_cast
    omega

/-- A block leaves the cache: one reclaimable block fewer unless it is pinned. -/
theorem uncacheBlock (hmem : block ∈ s.cachedBlocksMap) :
    PinsCounted slack (if block ∈ s.pinnedBlocks then s.uncacheBlock block
      else (s.uncacheBlock block).addReclaimable (-1)) := by
  split
  next hpinned =>
    refine ⟨h.pinned, ?_⟩
    change s.reclaimableCachedCount =
      ((s.cachedBlocksMap.erase block \ s.pinnedBlocks).card : Int) + slack
    have hout : block ∉ s.cachedBlocksMap \ s.pinnedBlocks := fun hmem =>
      (Finset.mem_sdiff.mp hmem).2 hpinned
    rw [Finset.erase_sdiff_comm, Finset.erase_eq_of_notMem hout, h.reclaimable]
  next hpinned =>
    refine ⟨h.pinned, ?_⟩
    change s.reclaimableCachedCount + -1 =
      ((s.cachedBlocksMap.erase block \ s.pinnedBlocks).card : Int) + slack
    have hin : block ∈ s.cachedBlocksMap \ s.pinnedBlocks := Finset.mem_sdiff.mpr ⟨hmem, hpinned⟩
    have hcard := Finset.card_erase_add_one hin
    rw [Finset.erase_sdiff_comm, h.reclaimable]
    omega

theorem unpinBlock (block : Int) : PinsCounted slack (s.unpinBlock block) := by
  unfold KVCacheManager.unpinBlock
  split
  · exact h
  next pins hlookup =>
    have hkey : block ∈ s.pinRefcount := Table.mem_of_lookup hlookup
    have hpinned := h.pinned block hkey
    split
    · refine ⟨fun other hmem => ?_, h.reclaimable⟩
      rcases (AList.mem_insert s.pinRefcount).mp hmem with rfl | hmem
      · exact hpinned
      · exact h.pinned other hmem
    · have hkeys : ∀ other ∈ s.pinRefcount.erase block, other ∈ s.pinnedBlocks.erase block := by
        intro other hmem
        obtain ⟨hne, hmem⟩ := AList.mem_erase.mp hmem
        exact Finset.mem_erase.mpr ⟨hne, h.pinned other hmem⟩
      dsimp only
      split
      next hcached =>
        refine ⟨hkeys, ?_⟩
        change s.reclaimableCachedCount + 1 =
          ((s.cachedBlocksMap \ s.pinnedBlocks.erase block).card : Int) + slack
        have hout : block ∉ s.cachedBlocksMap \ s.pinnedBlocks := fun hmem =>
          (Finset.mem_sdiff.mp hmem).2 hpinned
        rw [Finset.sdiff_erase hcached, Finset.card_insert_of_notMem hout, h.reclaimable]
        push_cast
        omega
      next hcached =>
        refine ⟨hkeys, ?_⟩
        have hsame : s.cachedBlocksMap \ s.pinnedBlocks.erase block =
            s.cachedBlocksMap \ s.pinnedBlocks := by
          ext other
          by_cases heq : other = block
          · simp [heq, hcached]
          · simp [heq]
        rw [hsame, h.reclaimable]

theorem unpinPrefix (seq : Int) : PinsCounted slack (s.unpinPrefix seq) :=
  unpinPrefix_rule seq (fun _ block ht => ht.unpinBlock block) (fun _ _ _ ht => { ht with }) h

theorem pinBlock (block : Int) : PinsCounted slack (s.pinBlock block) := by
  have hinsert : ∀ (pins : Nat) {pinned : Finset Int}, block ∈ pinned → s.pinnedBlocks ⊆ pinned →
      ∀ other ∈ s.pinRefcount.insert block pins, other ∈ pinned := by
    intro pins pinned hblock hsub other hmem
    rcases (AList.mem_insert s.pinRefcount).mp hmem with rfl | hmem
    · exact hblock
    · exact hsub (h.pinned other hmem)
  unfold KVCacheManager.pinBlock
  dsimp only
  split
  next hnew =>
    have hout : block ∉ s.pinnedBlocks := by simpa using hnew.2
    have hkeys := hinsert ((s.pinRefcount.lookup block).getD 0 + 1)
      (Finset.mem_insert_self block s.pinnedBlocks) (Finset.subset_insert block s.pinnedBlocks)
    split
    next hcached =>
      refine ⟨hkeys, ?_⟩
      change s.reclaimableCachedCount + -1 =
        ((s.cachedBlocksMap \ insert block s.pinnedBlocks).card : Int) + slack
      have hin : block ∈ s.cachedBlocksMap \ s.pinnedBlocks := Finset.mem_sdiff.mpr ⟨hcached, hout⟩
      have hcard := Finset.card_erase_add_one hin
      rw [Finset.sdiff_insert, h.reclaimable]
      omega
    next hcached =>
      refine ⟨hkeys, ?_⟩
      have hnot : block ∉ s.cachedBlocksMap \ s.pinnedBlocks := fun hmem =>
        hcached (Finset.mem_sdiff.mp hmem).1
      rw [Finset.sdiff_insert, Finset.erase_eq_of_notMem hnot, h.reclaimable]
  next hold =>
    -- the block is pinned already: by the flag, or because it has a counted pin
    refine ⟨hinsert _ ?_ (Finset.Subset.refl _), h.reclaimable⟩
    by_contra hout
    have hpins : (s.pinRefcount.lookup block).getD 0 + 1 ≠ 1 := fun hone =>
      hold ⟨hone, by simpa using hout⟩
    cases hlookup : s.pinRefcount.lookup block with
    | none => exact hpins (by rw [hlookup]; rfl)
    | some pins => exact hout (h.pinned block (Table.mem_of_lookup hlookup))

theorem pinBlocks (seq : Int) (owned : List Int) : PinsCounted slack (s.pinBlocks seq owned) := by
  have hpinned : PinsCounted slack (owned.foldl KVCacheManager.pinBlock s) :=
    foldlRecOn owned _ h fun _ ht block _ => ht.pinBlock block
  unfold KVCacheManager.pinBlocks
  split
  · exact hpinned
  · exact { hpinned with }

theorem pinPrefix (seq numBlocks : Int) : PinsCounted slack (s.pinPrefix seq numBlocks) :=
  pinPrefix_rule seq numBlocks (fun _ seq ht => ht.unpinPrefix seq)
    (fun _ owned ht => ht.pinBlocks seq owned) h

end PinsCounted

/-! ## Which blocks a pin operation pins -/

section

variable (s : KVCacheManager)

theorem pinnedBlocks_unpinBlock (block : Int) :
    (s.unpinBlock block).pinnedBlocks ⊆ s.pinnedBlocks := by
  unfold unpinBlock
  split
  · exact Finset.Subset.refl _
  · split
    · exact Finset.Subset.refl _
    · dsimp only
      split <;> exact Finset.erase_subset block s.pinnedBlocks

theorem pinnedBlocks_unpinPrefix (seq : Int) :
    (s.unpinPrefix seq).pinnedBlocks ⊆ s.pinnedBlocks :=
  unpinPrefix_rule (P := (·.pinnedBlocks ⊆ s.pinnedBlocks)) seq
    (fun t block ht => (pinnedBlocks_unpinBlock t block).trans ht) (fun _ _ _ ht => ht)
    (Finset.Subset.refl _)

theorem pinnedBlocks_makePinRoom (toPin : Int) :
    (s.makePinRoom toPin).pinnedBlocks ⊆ s.pinnedBlocks :=
  makePinRoom_rule (P := (·.pinnedBlocks ⊆ s.pinnedBlocks)) toPin
    (fun t seq ht => (pinnedBlocks_unpinPrefix t seq).trans ht) (Finset.Subset.refl _)

theorem pinnedBlocks_pinBlock (block : Int) :
    (s.pinBlock block).pinnedBlocks ⊆ insert block s.pinnedBlocks := by
  unfold pinBlock
  dsimp only
  split
  · split <;> exact Finset.Subset.refl _
  · exact Finset.subset_insert block s.pinnedBlocks

end

theorem mem_pinnedBlocks_pinBlocks {owned : List Int}
    (hmem : block ∈ (s.pinBlocks seq owned).pinnedBlocks) :
    block ∈ s.pinnedBlocks ∨ block ∈ owned := by
  have hfold : block ∈ (owned.foldl pinBlock s).pinnedBlocks := by
    unfold pinBlocks at hmem
    split at hmem <;> exact hmem
  refine foldlRecOn (motive := fun t : KVCacheManager => block ∈ t.pinnedBlocks →
    block ∈ s.pinnedBlocks ∨ block ∈ owned) owned _ .inl (fun t ht first hfirst hmem => ?_) hfold
  rcases Finset.mem_insert.mp (pinnedBlocks_pinBlock t first hmem) with rfl | hold
  · exact .inr hfirst
  · exact ht hold

/-- `pin_prefix` adds only blocks in the first slots of the sequence. -/
theorem mem_pinnedBlocks_pinPrefix {numBlocks : Int}
    (hmem : block ∈ (s.pinPrefix seq numBlocks).pinnedBlocks) :
    block ∈ s.pinnedBlocks ∨ some block ∈ (s.blockTable seq).take numBlocks.toNat := by
  obtain ⟨heq, -⟩ | ⟨toPin, -, -, heq⟩ := s.pinPrefix_cases seq numBlocks <;> rw [heq] at hmem
  · exact .inl hmem
  · rcases mem_pinnedBlocks_pinBlocks hmem with hold | hnew
    · exact .inl (pinnedBlocks_unpinPrefix s seq (pinnedBlocks_makePinRoom _ _ hold))
    · obtain ⟨ref, href, heq⟩ := mem_filterMap.mp hnew
      cases (heq : ref = some block)
      -- the budget only shortens what is pinned
      refine .inr ((take_subset_take_left _ ?_) href)
      split <;> omega

/-! ## What reclaiming does -/

/-- The cache gave up this block and its reference. -/
structure Reclaims (s : KVCacheManager) (block : Int) (s' : KVCacheManager) : Prop where
  pins : SamePins ((s.uncacheBlock block).addReclaimable (-1)) s'
  seqBlocks : s'.seqBlocks = s.seqBlocks
  numBlocks : s'.pool.numBlocks = s.pool.numBlocks
  refs : ∀ other, s'.refCount other = s.refCount other - if other = block then 1 else 0
  lru : s'.cachedBlocksLru.length = s.cachedBlocksLru.length - 1

/-- Reclaiming finds nothing, or the cache gives up an unpinned block. -/
theorem reclaimCachedBlock_spec (s : KVCacheManager) :
    (s.reclaimCachedBlock.1 = -1 ∧ SameOwners s s.reclaimCachedBlock.2 ∧
      SamePins s s.reclaimCachedBlock.2) ∨
    ∃ block ∈ s.cachedBlocksLru, block ∉ s.pinnedBlocks ∧ s.reclaimCachedBlock.1 = block ∧
      Reclaims s block s.reclaimCachedBlock.2 := by
  obtain ⟨lru, hperm, heq | ⟨block, hmem, hout, heq⟩⟩ := s.reclaimCachedBlock_cases
  · rw [heq]
    exact .inl ⟨rfl, ⟨rfl, rfl, rfl, hperm⟩, rfl, rfl, rfl, rfl⟩
  · rw [heq]
    refine .inr ⟨block, hperm.mem_iff.mp hmem, hout, rfl, ?_⟩
    have herased := IndexOnly.eraseBlockHash
      ((({ s with cachedBlocksLru := lru }).uncacheBlock block).addReclaimable (-1)) block
    have hsame := SameOwners.of_index herased
    have hpins := SamePins.of_index herased
    refine ⟨⟨hpins.pinned, hpins.pins, hpins.cached, hpins.reclaimable⟩, hsame.seqBlocks, ?_,
      fun other => ?_, ?_⟩
    · exact (BlockPool.numBlocks_dropRefs _ _).trans (congrArg BlockPool.numBlocks hsame.pool)
    · change (BlockPool.dropRefs _ [some block]).refCount other = _
      rw [BlockPool.refCount_dropRefs, hsame.pool, count_some_cons, count_nil, Nat.zero_add]
      rfl
    · rw [← hperm.length_eq, ← length_erase_of_mem hmem]
      exact hsame.cachedBlocksLru.length_eq

/-- The owners of the references together with the bookkeeping of pins. -/
structure Counted (slack total : Nat) (s : KVCacheManager) (inflight : List BlockRef) : Prop where
  owned : Owned total s inflight
  counted : PinsCounted slack s

/-- A reclaimed block was cached and not pinned, and it is no longer counted. -/
theorem Counted.reclaimCachedBlock {slack total : Nat}
    {inflight : List BlockRef} (h : Counted slack total s inflight) :
    Counted slack total s.reclaimCachedBlock.2 inflight := by
  refine ⟨h.owned.reclaimCachedBlock, ?_⟩
  rcases s.reclaimCachedBlock_spec with ⟨-, -, hpins⟩ | ⟨block, hmem, hout, -, hreclaims⟩
  · exact h.counted.congr hpins
  · have hcounted := h.counted.uncacheBlock ((h.owned.mem_lru block).mp hmem)
    rw [if_neg hout] at hcounted
    exact hcounted.congr hreclaims.pins

/-! ## Pinned blocks have references -/

/-- The pinned blocks, their references and the tables are unchanged: what taking a block leaves
alone. -/
structure KeepsPinned (s s' : KVCacheManager) : Prop where
  pinned : s'.pinnedBlocks = s.pinnedBlocks
  seqBlocks : s'.seqBlocks = s.seqBlocks
  refs : ∀ block ∈ s.pinnedBlocks, s'.refCount block = s.refCount block

theorem KeepsPinned.trans (h : KeepsPinned s t) (h' : KeepsPinned t u) : KeepsPinned s u :=
  ⟨h'.pinned.trans h.pinned, h'.seqBlocks.trans h.seqBlocks, fun block hmem =>
    (h'.refs block (h.pinned ▸ hmem)).trans (h.refs block hmem)⟩

theorem KeepsPinned.blockTable {s' : KVCacheManager} (h : KeepsPinned s s') (seq : Int) :
    s'.blockTable seq = s.blockTable seq := by
  rw [KVCacheManager.blockTable, h.seqBlocks]
  rfl

/-- The invariant, with the handles that are in flight: pins are counted right and every pinned
block has a reference. -/
structure PinsHeld (total : Nat) (s : KVCacheManager) (inflight : List BlockRef) : Prop where
  owned : Owned total s inflight
  counted : PinsCounted 0 s
  live : ∀ block ∈ s.pinnedBlocks, 0 < s.refCount block

namespace PinsHeld

variable {total : Nat} {s' : KVCacheManager} {inflight inflight' : List BlockRef}

section

variable (h : PinsHeld total s inflight)
include h

theorem toCounted : Counted 0 total s inflight := ⟨h.owned, h.counted⟩

/-- A step that leaves the pins alone keeps the invariant if no pinned block loses its last
reference. -/
theorem of_samePins (howned : Owned total s' inflight')
    (hsame : SamePins s s') (hlive : ∀ block ∈ s.pinnedBlocks, 0 < s'.refCount block) :
    PinsHeld total s' inflight' :=
  ⟨howned, h.counted.congr hsame, fun block hmem => hlive block (hsame.pinned ▸ hmem)⟩

/-- A step that also leaves the pool alone keeps the invariant. -/
theorem reown (howned : Owned total s' inflight')
    (hsame : SamePins s s') (hpool : s'.pool = s.pool) : PinsHeld total s' inflight' :=
  h.of_samePins howned hsame fun block hmem => by
    rw [refCount, hpool]
    exact h.live block hmem

theorem congr (howners : SameOwners s s') (hsame : SamePins s s') : PinsHeld total s' inflight :=
  h.reown (h.owned.congr howners) hsame howners.pool

/-- A block on the free list is not pinned. -/
theorem not_pinned_of_free (hfree : s.refCount block = 0) :
    block ∉ s.pinnedBlocks := fun hmem =>
  absurd hfree (Nat.pos_iff_ne_zero.mp (h.live block hmem))

end

variable {refs : List BlockRef} {ref : BlockRef}

/-- Handles may be destroyed if every pinned block has more references than that. -/
theorem dropRefs (h : PinsHeld total s (refs ++ inflight))
    (hkeep : ∀ block ∈ s.pinnedBlocks, refs.count (some block) < s.refCount block) :
    PinsHeld total (s.dropRefs refs) inflight := by
  refine h.of_samePins h.owned.dropRefs ⟨rfl, rfl, rfl, rfl⟩ fun block hmem => ?_
  have hcount : (s.dropRefs refs).refCount block = s.refCount block - refs.count (some block) :=
    BlockPool.refCount_dropRefs s.pool refs block
  have := hkeep block hmem
  omega

/-- Handles of unpinned blocks may be destroyed. -/
theorem dropUnpinned (h : PinsHeld total s (refs ++ inflight))
    (hout : ∀ block, some block ∈ refs → block ∉ s.pinnedBlocks) :
    PinsHeld total (s.dropRefs refs) inflight := by
  refine h.dropRefs fun block hmem => ?_
  rw [count_eq_zero.mpr fun href => hout block href hmem]
  exact h.live block hmem

theorem setTable (h : PinsHeld total s inflight) {blocks : List BlockRef}
    (howned : Owned total (s.setTable seq blocks) inflight') :
    PinsHeld total (s.setTable seq blocks) inflight' :=
  h.reown howned ⟨rfl, rfl, rfl, rfl⟩ rfl

theorem pushBlock (h : PinsHeld total s (ref :: inflight)) (seq : Int) :
    PinsHeld total (s.pushBlock seq ref) inflight := h.setTable (h.owned.pushBlock seq)

section

variable (h : PinsHeld total s inflight)
include h

/-- Shrinking a table keeps the invariant if every pinned block has more references than the
handles that leave. -/
theorem resizeTable (seq : Int) (size : Nat)
    (hkeep : ∀ block ∈ s.pinnedBlocks,
      ((s.blockTable seq).drop size).count (some block) < s.refCount block) :
    PinsHeld total (s.resizeTable seq size) inflight := by
  have hmoved := h.setTable (h.owned.cutTable seq size)
  exact hmoved.dropRefs hkeep

/-! ### Taking a block -/

/-- Reclaiming takes an unpinned block out of the cache, so no pinned block loses a reference. -/
theorem reclaimCachedBlock :
    PinsHeld total s.reclaimCachedBlock.2 inflight ∧ KeepsPinned s s.reclaimCachedBlock.2 := by
  have hafter := h.toCounted.reclaimCachedBlock
  rcases s.reclaimCachedBlock_spec with ⟨-, howners, hpins⟩ | ⟨block, hmem, hout, -, hreclaims⟩
  · exact ⟨h.congr howners hpins, hpins.pinned, howners.seqBlocks, fun _ _ => by
      rw [refCount, howners.pool]; rfl⟩
  · have hrefs : ∀ pinned ∈ s.pinnedBlocks,
        s.reclaimCachedBlock.2.refCount pinned = s.refCount pinned := by
      intro pinned hpinned
      have hne : pinned ≠ block := fun heq => hout (heq ▸ hpinned)
      rw [hreclaims.refs, if_neg hne, Nat.sub_zero]
    refine ⟨⟨hafter.owned, hafter.counted, fun pinned hpinned => ?_⟩,
      hreclaims.pins.pinned, hreclaims.seqBlocks, hrefs⟩
    have hpinned : pinned ∈ s.pinnedBlocks := hreclaims.pins.pinned ▸ hpinned
    rw [hrefs pinned hpinned]
    exact h.live pinned hpinned

/-- A block taken from the free list is not pinned. -/
theorem acquireBlockRef (hacquire : s.acquireBlockRef = (ref, s')) :
    PinsHeld total s' (ref :: inflight) ∧ KeepsPinned s s' ∧
      ∀ block, ref = some block → block ∉ s.pinnedBlocks := by
  have howned := h.owned.acquireBlockRef hacquire
  cases ref with
  | none =>
    cases acquireBlockRef_none hacquire
    exact ⟨{ h with owned := howned }, ⟨rfl, rfl, fun _ _ => rfl⟩, fun _ heq => by cases heq⟩
  | some block =>
    obtain ⟨pool, rfl, hfree, -, hcounts⟩ := acquireBlockRef_some hacquire
    have hout := h.not_pinned_of_free hfree
    have hrefs : ∀ pinned ∈ s.pinnedBlocks, pool.refCount pinned = s.refCount pinned :=
      fun pinned hpinned => (hcounts pinned).trans
        (if_neg fun heq : pinned = block => hout (heq ▸ hpinned))
    refine ⟨h.of_samePins howned ⟨rfl, rfl, rfl, rfl⟩ fun pinned hpinned => ?_,
      ⟨rfl, rfl, hrefs⟩, fun _ heq => Option.some.inj heq ▸ hout⟩
    change 0 < pool.refCount pinned
    rw [hrefs pinned hpinned]
    exact h.live pinned hpinned

theorem allocateBlockRefWithEviction (halloc : s.allocateBlockRefWithEviction = (ref, s')) :
    PinsHeld total s' (ref :: inflight) ∧ KeepsPinned s s' ∧
      ∀ block, ref = some block → block ∉ s.pinnedBlocks := by
  obtain ⟨t, ⟨ht, hkept⟩, hcase⟩ := allocateBlockRefWithEviction_rule
    (fun t => PinsHeld total t inflight ∧ KeepsPinned s t)
    (fun t ht => ⟨ht.1.reclaimCachedBlock.1, ht.2.trans ht.1.reclaimCachedBlock.2⟩)
    ⟨h, rfl, rfl, fun _ _ => rfl⟩ halloc
  rcases hcase with ⟨rfl, rfl⟩ | ⟨block, rfl, hacquire⟩
  · exact ⟨{ ht with owned := ht.owned.none_cons }, hkept, fun _ heq => by cases heq⟩
  · obtain ⟨hafter, hkept', hout⟩ := ht.acquireBlockRef hacquire
    exact ⟨hafter, hkept.trans hkept', fun other heq => hkept.pinned ▸ hout other heq⟩

end

theorem of_none_cons (h : PinsHeld total s (none :: inflight)) : PinsHeld total s inflight :=
  { h with owned := h.owned.of_none_cons }

variable (h : PinsHeld total s inflight)
include h

theorem eraseEmptyTable
    (hempty : (s.blockTable seq).isEmpty = true) : PinsHeld total (s.eraseTable seq) inflight :=
  h.reown (h.owned.eraseEmptyTable hempty) ⟨rfl, rfl, rfl, rfl⟩ rfl

/-! ### Plain allocation -/

/-- Dropping slots whose blocks are not pinned. -/
theorem giveUp {size : Nat}
    (htail : ∀ block, some block ∈ (s.blockTable seq).drop size → block ∉ s.pinnedBlocks) :
    PinsHeld total (s.giveUp seq size) inflight := by
  have hresized := h.resizeTable seq size fun block hmem => by
    rw [count_eq_zero.mpr fun href => htail block href hmem]
    exact h.live block hmem
  unfold KVCacheManager.giveUp
  split
  next hempty => exact hresized.eraseEmptyTable hempty
  next => exact hresized

theorem trackLru (seq : Int) :
    PinsHeld total (s.trackLru seq) inflight := by
  refine h.congr (SameBlocks.trackLru s seq).toSameOwners ?_
  unfold KVCacheManager.trackLru
  split <;> exact ⟨rfl, rfl, rfl, rfl⟩

theorem allocateBlocks (seq numBlocks : Int) :
    PinsHeld total (s.allocateBlocks seq numBlocks).2 inflight := by
  -- only blocks taken by this call are dropped when it fails, and they are not pinned
  refine allocateBlocks_rule (I := fun _ t => PinsHeld total t inflight ∧ ∀ block,
      some block ∈ (t.blockTable seq).drop (s.blockTable seq).length → block ∉ t.pinnedBlocks)
    (P := fun out => PinsHeld total out.2 inflight) (fun _ => h)
    ⟨h.setTable (h.owned.touchTable seq), ?_⟩ ?_ (fun _ ht => ht.1.trackLru seq) ?_
  · rw [blockTable_setTable, drop_length]
    exact fun _ hmem => absurd hmem not_mem_nil
  · rintro n t u block ⟨ht, htail⟩ halloc
    obtain ⟨hu, hkept, hout⟩ := ht.allocateBlockRefWithEviction halloc
    refine ⟨hu.pushBlock seq, fun held hmem => ?_⟩
    rw [KVCacheManager.pushBlock, blockTable_setTable, hkept.blockTable, drop_append] at hmem
    change held ∉ u.pinnedBlocks
    rw [hkept.pinned]
    rcases mem_append.mp hmem with hold | hnew
    · exact htail held hold
    · exact hout held (mem_singleton.mp (mem_of_mem_drop hnew)).symm
  · rintro n t u ⟨ht, htail⟩ halloc
    obtain ⟨hu, hkept, -⟩ := ht.allocateBlockRefWithEviction halloc
    refine hu.of_none_cons.giveUp fun block hmem => ?_
    rw [hkept.blockTable] at hmem
    rw [hkept.pinned]
    exact htail block hmem

theorem appendBlock (seq : Int) :
    PinsHeld total (s.appendBlock seq).2 inflight :=
  appendBlock_rule (P := (PinsHeld total · inflight)) h
    (fun _ halloc => (h.allocateBlockRefWithEviction halloc).1.of_none_cons)
    fun _ _ _ halloc => (h.allocateBlockRefWithEviction halloc).1.pushBlock seq

end PinsHeld

end Quench.KVCacheManager

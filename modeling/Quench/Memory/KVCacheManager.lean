import Mathlib.Data.Finset.Basic
import Quench.Memory.SwaTables

/-!
# The KV cache manager

`KVCacheManager` of `memory/kv_cache_manager.cpp` over the id space of `KVCache`: sequence block
tables, the content-addressed prefix index, the cache of unreferenced blocks, prefix pins and the
StreamingLLM and speculative-decoding edits of a table.

How the containers are read: an `unordered_map` is a `Table`, an `unordered_set` a `Finset`, a
`std::list` a `List` with the front first. `lru_map_` holds the positions in `lru_order_`, so it is
membership in that list. An entry of `cached_blocks_map_` owns a reference to its own key, so the
map is the set of its keys. The residual FP16 ring and the device side are not modelled.
-/

namespace Quench

open Lib

/-- A token id, `int32_t` in the source. -/
abbrev Token := Int32

/-- A block hash, `size_t` in the source. -/
abbrev Hash := UInt64

/-- The state of the manager together with the block pool of the cache it owns. -/
structure KVCacheManager where
  blockSize : Nat
  pool : BlockPool
  seqBlocks : Table Int (List BlockRef)
  swa : SwaTables
  lruOrder : List Int
  prefixCachingEnabled : Bool
  blockHashToId : Table Hash Int
  blockIdToHash : Table Int Hash
  cachedBlocksLru : List Int
  cachedBlocksMap : Finset Int
  seqBlockHashes : Table Int (List Hash)
  pinnedBlocks : Finset Int
  pinnedSeqBlocks : Table Int (List Int)
  pinRefcount : Table Int Nat
  pinFifo : List Int
  pinBudgetBlocks : Int
  reclaimableCachedCount : Int

/-- `compute_block_hash`: FNV-1a over the tokens of one block, seeded by the hash of the block
before it. -/
def computeBlockHash (tokens : List Token) (parentHash : Hash) : Hash :=
  tokens.foldl (fun hash token => (hash ^^^ token.toUInt32.toUInt64) * 0x100000001b3)
    (parentHash ^^^ 0xcbf29ce484222325)

/-- The tokens of one block: `tokens.subspan(b * block_size, block_size)`. -/
def blockTokens (blockSize : Nat) (tokens : List Token) (b : Nat) : List Token :=
  (tokens.drop (b * blockSize)).take blockSize

namespace KVCacheManager

/-- A manager over a fresh cache. -/
def fresh (blockSize totalBlocks swaBlocks : Nat) : KVCacheManager where
  blockSize := blockSize
  pool := BlockPool.openSlots totalBlocks
  seqBlocks := ∅
  swa := SwaTables.fresh swaBlocks
  lruOrder := []
  prefixCachingEnabled := false
  blockHashToId := ∅
  blockIdToHash := ∅
  cachedBlocksLru := []
  cachedBlocksMap := ∅
  seqBlockHashes := ∅
  pinnedBlocks := ∅
  pinnedSeqBlocks := ∅
  pinRefcount := ∅
  pinFifo := []
  pinBudgetBlocks := 0
  reclaimableCachedCount := 0

/-! ## Tables and references -/

variable (s : KVCacheManager) (seq : Int)

/-- `block_table`: the slots of a sequence, empty when it is unknown. A hole is `none`. -/
def blockTable : List BlockRef := (s.seqBlocks.lookup seq).getD []

/-- The recorded hashes of a sequence, empty when there are none. -/
def blockHashes : List Hash :=
  (s.seqBlockHashes.lookup seq).getD []

variable (block : Int)

/-- `ref_count` of the underlying cache. -/
def refCount : Nat := s.pool.refCount block

/-- `num_free_blocks` of the underlying cache. -/
def numFreeBlocks : Nat := s.pool.freeCount

/-- `acquire_block_ref` of the underlying cache. -/
def acquireBlockRef : BlockRef × KVCacheManager :=
  (s.pool.acquire.1, { s with pool := s.pool.acquire.2 })

/-- `share_block` of the underlying cache. -/
def shareBlock : BlockRef × KVCacheManager :=
  ((s.pool.shareById block).1, { s with pool := (s.pool.shareById block).2 })

/-- Destroy handles that have left the state. -/
def dropRefs (refs : List BlockRef) : KVCacheManager :=
  { s with pool := s.pool.dropRefs refs }

/-- Replace a sequence's table, creating the entry if needed. -/
def setTable (blocks : List BlockRef) : KVCacheManager :=
  { s with seqBlocks := s.seqBlocks.insert seq blocks }

/-- `SeqBlocks::push` on a sequence's table. -/
def pushBlock (ref : BlockRef) : KVCacheManager :=
  s.setTable seq (s.blockTable seq ++ [ref])

/-- `SeqBlocks::resize` to a smaller size: the handles past it are destroyed. -/
def resizeTable (size : Nat) : KVCacheManager :=
  (s.setTable seq ((s.blockTable seq).take size)).dropRefs ((s.blockTable seq).drop size)

/-- Forget a sequence's table. The handles in it must already be gone. -/
def eraseTable : KVCacheManager :=
  { s with seqBlocks := s.seqBlocks.erase seq }

/-- Replace a sequence's recorded hashes. -/
def setHashes (hashes : List Hash) : KVCacheManager :=
  { s with seqBlockHashes := s.seqBlockHashes.insert seq hashes }

/-- Append one hash to a sequence's record. -/
def pushHash (hash : Hash) : KVCacheManager :=
  s.setHashes seq (s.blockHashes seq ++ [hash])

/-- Forget a sequence's recorded hashes. -/
def eraseHashes : KVCacheManager :=
  { s with seqBlockHashes := s.seqBlockHashes.erase seq }

/-- Hand a reference to the prefix cache: the block goes to the tail of the cached LRU. -/
def cacheBlock : KVCacheManager :=
  { s with
    cachedBlocksLru := s.cachedBlocksLru ++ [block]
    cachedBlocksMap := insert block s.cachedBlocksMap }

/-- Take a block out of the prefix cache, with the cache's reference to it. -/
def uncacheBlock : KVCacheManager :=
  { s with
    cachedBlocksLru := s.cachedBlocksLru.erase block
    cachedBlocksMap := s.cachedBlocksMap.erase block }

/-- Adjust the count of reclaimable cached blocks. -/
def addReclaimable (delta : Int) : KVCacheManager :=
  { s with reclaimableCachedCount := s.reclaimableCachedCount + delta }

/-- Track a sequence at the tail of the LRU order unless it is tracked already. -/
def trackLru : KVCacheManager :=
  if seq ∈ s.lruOrder then s else { s with lruOrder := s.lruOrder ++ [seq] }

/-! ## The prefix index -/

/-- Remove a block's entries from both directions of the prefix index, if it has any. -/
def eraseBlockHash : KVCacheManager :=
  match s.blockIdToHash.lookup block with
  | none => s
  | some hash =>
    { s with
      blockHashToId := s.blockHashToId.erase hash
      blockIdToHash := s.blockIdToHash.erase block }

/-- `drop_stale_hash_if_last`: erase a block's index entries when this is its last reference. -/
def dropStaleHashIfLast : KVCacheManager :=
  if 0 ≤ block ∧ s.refCount block = 1 then s.eraseBlockHash block else s

/-- Register a block under a hash, in both directions, unless the hash is taken. -/
def registerHash (hash : Hash) (block : Int) : KVCacheManager :=
  match s.blockHashToId.lookup hash with
  | some _ => s
  | none =>
    { s with
      blockHashToId := s.blockHashToId.insert hash block
      blockIdToHash := s.blockIdToHash.insert block hash }

/-! ## Allocation -/

/-- Rotate pinned blocks from the front of the cached LRU to its back, at most once around. -/
def rotatePinned (pinned : Finset Int) : Nat → List Int → List Int
  | 0, lru => lru
  | _ + 1, [] => []
  | n + 1, block :: lru =>
    if block ∈ pinned then rotatePinned pinned n (lru ++ [block]) else block :: lru

/-- `reclaim_cached_block`: drop the least recently used unpinned cached block from the index and
from the cache, and return its id, or `-1` when there is none. -/
def reclaimCachedBlock : Int × KVCacheManager :=
  if s.reclaimableCachedCount ≤ 0 then (-1, s)
  else
    let s := { s with
      cachedBlocksLru := rotatePinned s.pinnedBlocks s.cachedBlocksLru.length s.cachedBlocksLru }
    match s.cachedBlocksLru with
    | [] => (-1, s)
    | block :: _ =>
      if block ∈ s.pinnedBlocks then (-1, s)
      else
        let s := ((s.uncacheBlock block).addReclaimable (-1)).eraseBlockHash block
        (block, s.dropRefs [some block])

/-- `evict_cached_block`: whether a cached block was reclaimed. -/
def evictCachedBlock : Bool × KVCacheManager :=
  (decide (0 ≤ s.reclaimCachedBlock.1), s.reclaimCachedBlock.2)

/-- The reclaim loop of `allocate_block_ref_with_eviction`. Each round removes one block from the
cached LRU, so the length of that list bounds the rounds. -/
def reclaimLoop : Nat → KVCacheManager → BlockRef × KVCacheManager
  | 0, s => (none, s)
  | rounds + 1, s =>
    if s.cachedBlocksLru.isEmpty then (none, s)
    else if s.reclaimCachedBlock.1 < 0 then (none, s.reclaimCachedBlock.2)
    else
      match s.reclaimCachedBlock.2.acquireBlockRef with
      | (some block, s) => (some block, s)
      | (none, s) => reclaimLoop rounds s

/-- `allocate_block_ref_with_eviction`: a fresh block, reclaiming cached blocks if needed. -/
def allocateBlockRefWithEviction : BlockRef × KVCacheManager :=
  match s.acquireBlockRef with
  | (some block, s) => (some block, s)
  | (none, s) => reclaimLoop s.cachedBlocksLru.length s

/-- The block loop of `allocate_blocks`. A failure rolls the table back to its original size and
removes an entry left empty. -/
def allocateBlocksLoop (seq : Int) (originalSize : Nat) :
    Nat → KVCacheManager → Bool × KVCacheManager
  | 0, s => (true, s)
  | n + 1, s =>
    match s.allocateBlockRefWithEviction with
    | (some block, s) => allocateBlocksLoop seq originalSize n (s.pushBlock seq (some block))
    | (none, s) =>
      let s := s.resizeTable seq originalSize
      (false, if (s.blockTable seq).isEmpty then s.eraseTable seq else s)

/-- `allocate_blocks`: append this many fresh blocks to a sequence, or none. -/
def allocateBlocks (seq numBlocks : Int) : Bool × KVCacheManager :=
  if numBlocks ≤ 0 then (true, s)
  else
    let originalSize := (s.blockTable seq).length
    let s := s.setTable seq (s.blockTable seq)
    match allocateBlocksLoop seq originalSize numBlocks.toNat s with
    | (false, s) => (false, s)
    | (true, s) => (true, s.trackLru seq)

/-- `append_block`: one fresh block for a sequence that has a table; its id, or `-1`. -/
def appendBlock : Int × KVCacheManager :=
  match s.seqBlocks.lookup seq with
  | none => (-1, s)
  | some _ =>
    match s.allocateBlockRefWithEviction with
    | (none, s) => (-1, s)
    | (some block, s) => (block, s.pushBlock seq (some block))

/-! ## Freeing -/

/-- Whether `free_sequence` hands the sequence's reference to the prefix cache instead of dropping
it: the block is pinned, or this is its last reference and it is registered for reuse. -/
def keepsCached : Bool :=
  decide (block ∉ s.cachedBlocksMap) &&
    (decide (block ∈ s.pinnedBlocks) ||
      (s.prefixCachingEnabled && decide (s.refCount block = 1) &&
        (s.blockIdToHash.lookup block).isSome))

/-- The slot loop of `free_sequence`: the handles that drop with the table, and the state after
the other ones moved to the cache. A pinned block does not count as reclaimable. -/
def releaseSlots : List BlockRef → KVCacheManager → List BlockRef × KVCacheManager
  | [], s => ([], s)
  | none :: rest, s => (releaseSlots rest s).map (none :: ·) id
  | some block :: rest, s =>
    if s.keepsCached block then
      let s' := s.cacheBlock block
      releaseSlots rest (if block ∈ s.pinnedBlocks then s' else s'.addReclaimable 1)
    else (releaseSlots rest s).map (some block :: ·) id

/-- `free_sequence`: release every block of a sequence and forget it. -/
def freeSequence : KVCacheManager :=
  match s.seqBlocks.lookup seq with
  | none => s
  | some blocks =>
    let (dropped, s) := releaseSlots blocks s
    let s := (s.eraseTable seq).dropRefs dropped
    { s.eraseHashes seq with
      swa := s.swa.freeSequence seq
      lruOrder := s.lruOrder.erase seq }

/-- `touch`: move a sequence to the most recently used position. -/
def touch : KVCacheManager :=
  { s with lruOrder := s.lruOrder.erase seq ++ [seq] }

/-- `evict_lru`: free the least recently used sequence that owns no pins; its id, or `-1`. -/
def evictLru : Int × KVCacheManager :=
  match s.lruOrder.find? fun candidate => decide (candidate ∉ s.pinnedSeqBlocks) with
  | none => (-1, s)
  | some candidate => (candidate, s.freeSequence candidate)

/-- The slow path of `can_allocate`: add up the tables of the evictable sequences in LRU order
until the request fits. -/
def evictableCovers (s : KVCacheManager) (numBlocks : Int) : Int → List Int → Bool
  | _, [] => false
  | reclaimable, seq :: order =>
    if seq ∈ s.pinnedSeqBlocks then evictableCovers s numBlocks reclaimable order
    else
      let reclaimable := reclaimable + (s.blockTable seq).length
      decide (numBlocks ≤ reclaimable) || evictableCovers s numBlocks reclaimable order

/-- `can_allocate`: whether free, reclaimable and evictable blocks cover a request. -/
def canAllocate (numBlocks : Int) : Bool :=
  decide (numBlocks ≤ 0) || decide (numBlocks ≤ s.numFreeBlocks + s.reclaimableCachedCount) ||
    s.evictableCovers numBlocks (s.numFreeBlocks + s.reclaimableCachedCount) s.lruOrder

/-! ## Prefix reuse -/

/-- `rollback_partial_allocation`: drop the handles added after `originalSize`, invalidating the
index first, and erase the sequence's entries if nothing is left. -/
def rollbackPartialAllocation (originalSize : Nat) : KVCacheManager :=
  let added := (s.blockTable seq).drop originalSize
  let s := added.foldl (fun s ref => s.dropStaleHashIfLast (BlockRef.id ref)) s
  let s := s.resizeTable seq originalSize
  let hashes := s.blockHashes seq
  let s := s.setHashes seq
    (hashes.take originalSize ++ List.replicate (originalSize - hashes.length) 0)
  if (s.blockTable seq).isEmpty then (s.eraseTable seq).eraseHashes seq else s

/-- The lookup of `allocate_blocks_with_prefix`: the block registered under a hash while reuse is
open. An entry whose block is on the free list is dropped and reads as a miss. -/
def findReusable (reuseOpen : Bool) (hash : Hash) : Option Int × KVCacheManager :=
  match if reuseOpen then s.blockHashToId.lookup hash else none with
  | none => (none, s)
  | some block =>
    if s.refCount block = 0 ∧ block ∉ s.cachedBlocksMap then
      (none, { s with
        blockIdToHash := s.blockIdToHash.erase block
        blockHashToId := s.blockHashToId.erase hash })
    else (some block, s)

/-- Give a registered block to a sequence: the cache's reference moves if the block is cached,
otherwise a live holder's block is shared. -/
def reuseBlock (seq block : Int) : KVCacheManager :=
  if block ∈ s.cachedBlocksMap then
    let s' := (s.uncacheBlock block).pushBlock seq (some block)
    if block ∈ s.pinnedBlocks then s' else s'.addReclaimable (-1)
  else (s.shareBlock block).2.pushBlock seq (s.shareBlock block).1

/-- The block loop of `allocate_blocks_with_prefix` from block `b` on, with `n` blocks to go.
`parentHash` chains the hashes; reuse closes at the cap and at the first miss. -/
def prefixLoop (seq : Int) (tokens : List Token) (maxReuseBlocks : Int) :
    Nat → Nat → Nat → Hash → Bool → KVCacheManager → Int × KVCacheManager
  | 0, _, reused, _, _, s => (reused, s)
  | n + 1, b, reused, parentHash, reuseOpen, s =>
    let isFullBlock := decide ((b + 1) * s.blockSize ≤ tokens.length)
    let reuseOpen := reuseOpen && !(decide (0 ≤ maxReuseBlocks ∧ maxReuseBlocks ≤ b))
    let hash := computeBlockHash (blockTokens s.blockSize tokens b) parentHash
    if s.prefixCachingEnabled && isFullBlock then
      match s.findReusable reuseOpen hash with
      | (some block, s) =>
        prefixLoop seq tokens maxReuseBlocks n (b + 1) (reused + 1) hash reuseOpen
          ((s.reuseBlock seq block).pushHash seq hash)
      | (none, s) =>
        match s.allocateBlockRefWithEviction with
        | (none, s) => (-1, s.rollbackPartialAllocation seq 0)
        | (some block, s) =>
          prefixLoop seq tokens maxReuseBlocks n (b + 1) reused hash false
            ((s.pushBlock seq (some block)).pushHash seq hash)
    else
      match s.allocateBlockRefWithEviction with
      | (none, s) => (-1, s.rollbackPartialAllocation seq 0)
      | (some block, s) =>
        prefixLoop seq tokens maxReuseBlocks n (b + 1) reused
          (if isFullBlock then hash else parentHash) reuseOpen
          ((s.pushBlock seq (some block)).pushHash seq (if isFullBlock then hash else 0))

/-- `allocate_blocks_with_prefix`: blocks for a whole prompt, reusing registered ones for its
longest registered prefix. Returns the number of reused blocks, or `-1`. A sequence that already
has blocks gets the missing ones by plain allocation. -/
def allocateBlocksWithPrefix (tokens : List Token)
    (maxReuseBlocks : Int) (contentSalt : Hash) : Int × KVCacheManager :=
  if tokens.isEmpty then (0, s)
  else
    let totalBlocks := (tokens.length + s.blockSize - 1) / s.blockSize
    let s := s.setTable seq (s.blockTable seq)
    let existing := (s.blockTable seq).length
    if 0 < existing then
      if existing < totalBlocks then
        match s.allocateBlocks seq (totalBlocks - existing : Nat) with
        | (true, s) => (0, s)
        | (false, s) => (-1, s)
      else (0, s)
    else
      let s := s.setHashes seq (s.blockHashes seq)
      match prefixLoop seq tokens maxReuseBlocks totalBlocks 0 0 contentSalt true s with
      | (reused, s) => if reused < 0 then (reused, s) else (reused, s.trackLru seq)

/-- The probe loop of `longest_cached_prefix_blocks`: the number of leading registered blocks and
the chained hash of every full block. -/
def probeLoop (s : KVCacheManager) (tokens : List Token) :
    Nat → Nat → Nat → Bool → Hash → List Hash → Nat × List Hash
  | 0, _, cached, _, _, chain => (cached, chain)
  | n + 1, b, cached, chainIntact, parentHash, chain =>
    let hash := computeBlockHash (blockTokens s.blockSize tokens b) parentHash
    if chainIntact && (s.blockHashToId.lookup hash).isSome then
      probeLoop s tokens n (b + 1) (b + 1) true hash (chain ++ [hash])
    else probeLoop s tokens n (b + 1) cached false hash (chain ++ [hash])

/-- `longest_cached_prefix_blocks`: the read-only probe. -/
def longestCachedPrefixBlocks (tokens : List Token) (contentSalt : Hash) : Nat × List Hash :=
  s.probeLoop tokens (tokens.length / s.blockSize) 0 0 true contentSalt []

/-- The slot loop of `register_block_hashes` from slot `b` on: every full block gets its recorded
hash, or a chained one if none is recorded, and is registered under it. -/
def registerLoop (tokens : List Token) :
    List BlockRef → Nat → Hash → List Hash → KVCacheManager → List Hash × KVCacheManager
  | [], _, _, hashes, s => (hashes, s)
  | ref :: rest, b, parentHash, hashes, s =>
    if tokens.length < (b + 1) * s.blockSize then (hashes, s)
    else if hashes.getD b 0 ≠ 0 then
      registerLoop tokens rest (b + 1) (hashes.getD b 0) hashes
        (s.registerHash (hashes.getD b 0) (BlockRef.id ref))
    else
      let hash := computeBlockHash (blockTokens s.blockSize tokens b) parentHash
      registerLoop tokens rest (b + 1) hash
        (if b < hashes.length then hashes.set b hash else hashes ++ [hash])
        (s.registerHash hash (BlockRef.id ref))

/-- `register_block_hashes`: publish the full blocks of a sequence for reuse. -/
def registerBlockHashes (tokens : List Token) (contentSalt : Hash) : KVCacheManager :=
  if s.prefixCachingEnabled then
    match s.seqBlocks.lookup seq with
    | none => s
    | some blocks =>
      let (hashes, s) := registerLoop tokens blocks 0 contentSalt (s.blockHashes seq) s
      s.setHashes seq hashes
  else s

/-! ## Pinning -/

/-- Drop one pin of a block. With the last one the block is no longer pinned, and if it is cached
it is reclaimable again. -/
def unpinBlock : KVCacheManager :=
  match s.pinRefcount.lookup block with
  | none => s
  | some pins =>
    if 0 < pins - 1 then { s with pinRefcount := s.pinRefcount.insert block (pins - 1) }
    else
      let s := { s with
        pinRefcount := s.pinRefcount.erase block
        pinnedBlocks := s.pinnedBlocks.erase block }
      if block ∈ s.cachedBlocksMap then s.addReclaimable 1 else s

/-- `unpin_prefix`: drop the pins of one owner. -/
def unpinPrefix : KVCacheManager :=
  match s.pinnedSeqBlocks.lookup seq with
  | none => s
  | some owned =>
    let s := owned.foldl unpinBlock s
    { s with
      pinnedSeqBlocks := s.pinnedSeqBlocks.erase seq
      pinFifo := s.pinFifo.filter (· ≠ seq) }

/-- Add one pin to a block. A cached block that becomes pinned is no longer reclaimable. -/
def pinBlock : KVCacheManager :=
  let pins := (s.pinRefcount.lookup block).getD 0 + 1
  let alreadyPinned := decide (block ∈ s.pinnedBlocks)
  let s := { s with pinRefcount := s.pinRefcount.insert block pins }
  if pins = 1 ∧ ¬ alreadyPinned then
    let s := { s with pinnedBlocks := insert block s.pinnedBlocks }
    if block ∈ s.cachedBlocksMap then s.addReclaimable (-1) else s
  else s

/-- The budget loop of `pin_prefix`: unpin the oldest owners until the new pin fits. Each round
removes an owner from the queue, so its length bounds the rounds. -/
def evictPins (toPin : Int) : Nat → KVCacheManager → KVCacheManager
  | 0, s => s
  | rounds + 1, s =>
    if s.pinBudgetBlocks < s.pinRefcount.keys.length + toPin then
      match s.pinFifo with
      | [] => s
      | oldest :: _ => evictPins toPin rounds (s.unpinPrefix oldest)
    else s

/-- Under a pin budget, unpin the oldest owners until `toPin` more blocks fit. -/
def makePinRoom (toPin : Int) : KVCacheManager :=
  if 0 < s.pinBudgetBlocks then evictPins toPin s.pinFifo.length s else s

/-- Pin these blocks for an owner and queue it. An owner with nothing to pin is not recorded. -/
def pinBlocks (owned : List Int) : KVCacheManager :=
  let s := owned.foldl pinBlock s
  if owned.isEmpty then s
  else
    { s with
      pinnedSeqBlocks := s.pinnedSeqBlocks.insert seq owned
      pinFifo := s.pinFifo ++ [seq] }

/-- `pin_prefix`: pin the first blocks of a sequence, replacing the owner's previous pins. Holes
are skipped. -/
def pinPrefix (seq numBlocks : Int) : KVCacheManager :=
  match s.seqBlocks.lookup seq with
  | none => s
  | some blocks =>
    let toPin := min numBlocks blocks.length
    if toPin ≤ 0 then s
    else
      let s := if seq ∈ s.pinnedSeqBlocks then s.unpinPrefix seq else s
      let toPin := if 0 < s.pinBudgetBlocks then min toPin s.pinBudgetBlocks else toPin
      (s.makePinRoom toPin).pinBlocks seq ((blocks.take toPin.toNat).filterMap id)

/-! ## Edits of a live table -/

/-- Drop the reference in one slot, leaving a hole, after removing the block from the index. -/
def evictSlot (slot : Nat) : KVCacheManager :=
  match (s.blockTable seq)[slot]? with
  | some (some block) =>
    let s := s.eraseBlockHash block
    (s.setTable seq ((s.blockTable seq).set slot none)).dropRefs [some block]
  | _ => s

/-- The middle loop of `evict_middle_blocks` over `count` slots from `slot` on. -/
def evictSlots (seq : Int) : Nat → Nat → KVCacheManager → KVCacheManager
  | 0, _, s => s
  | count + 1, slot, s => evictSlots seq count (slot + 1) (s.evictSlot seq slot)

/-- Remove the block in a slot, if there is one, from the index. -/
def eraseRefHash : BlockRef → KVCacheManager
  | none => s
  | some block => s.eraseBlockHash block

/-- The last loop of `evict_middle_blocks`: the blocks past the sinks leave the index, and their
recorded hashes are cleared. -/
def clearHashesFrom (sinkEnd totalBlocks : Nat) : KVCacheManager :=
  match s.seqBlockHashes.lookup seq with
  | none => s
  | some hashes =>
    let stop := min totalBlocks hashes.length
    let cleared := ((s.blockTable seq).take stop).drop sinkEnd
    let s := cleared.foldl eraseRefHash s
    s.setHashes seq
      (hashes.take sinkEnd ++ List.replicate (stop - sinkEnd) 0 ++ hashes.drop (max stop sinkEnd))

/-- `evict_middle_blocks`: free the blocks between the attention sinks and the window, and pin the
sinks. Returns the number of blocks freed. This is the code's arithmetic as long as either number
of tokens plus `blockSize - 1` is an `int`. -/
def evictMiddleBlocks (seq nSinkTokens nWindowTokens : Int) : Int × KVCacheManager :=
  match s.seqBlocks.lookup seq with
  | none => (0, s)
  | some blocks =>
    if nSinkTokens ≤ 0 ∨ nWindowTokens ≤ 0 ∨ blocks.length = 0 then (0, s)
    else
      let sinkEnd := (nSinkTokens.toNat + s.blockSize - 1) / s.blockSize
      let windowCount := (nWindowTokens.toNat + s.blockSize - 1) / s.blockSize
      let windowStart := blocks.length - windowCount - 1
      if windowStart ≤ sinkEnd then (0, s)
      else
        let already := ((s.pinnedSeqBlocks.lookup seq).getD []).length
        let s := if already < sinkEnd then s.pinPrefix seq sinkEnd else s
        let middle := ((blocks.take windowStart).drop sinkEnd).filter Option.isSome
        let s := evictSlots seq (windowStart - sinkEnd) sinkEnd s
        (middle.length, s.clearHashesFrom seq sinkEnd blocks.length)

/-- The pop loop of `rollback`: drop this many blocks from the end of a table. -/
def popBlocks (seq : Int) : Nat → KVCacheManager → KVCacheManager
  | 0, s => s
  | n + 1, s =>
    match (s.blockTable seq).getLast? with
    | none => s
    | some ref =>
      let s := s.dropStaleHashIfLast (BlockRef.id ref)
      popBlocks seq n ((s.setTable seq (s.blockTable seq).dropLast).dropRefs [ref])

/-- `rollback`: keep the blocks that `newSeqLen` tokens need. This is the code's arithmetic as long
as `newSeqLen + blockSize - 1` is an `int`. -/
def rollback (seq newSeqLen : Int) : KVCacheManager :=
  match s.seqBlocks.lookup seq with
  | none => s
  | some blocks =>
    if blocks.isEmpty ∨ newSeqLen < 0 then s
    else
      let blocksNeeded := (newSeqLen.toNat + s.blockSize - 1) / s.blockSize
      let s := popBlocks seq (blocks.length - blocksNeeded) s
      let s := match s.seqBlockHashes.lookup seq with
        | none => s
        | some hashes => s.setHashes seq (hashes.take blocksNeeded)
      { s with swa := s.swa.rollback seq blocksNeeded }

/-! ## The persisted prefix cache -/

/-- The record loop of `load_prefix_cache`: a fresh block for every record whose hash is not
registered yet, until the pool is exhausted. A record is a hash and whether its upload succeeds. -/
def loadRecords : List (Hash × Bool) → KVCacheManager → List (Hash × Bool × Int) × KVCacheManager
  | [], s => ([], s)
  | (hash, copyOk) :: rest, s =>
    if (s.blockHashToId.lookup hash).isSome then loadRecords rest s
    else
      match s.acquireBlockRef with
      | (none, s) => ([], s)
      | (some block, s) => (loadRecords rest s).map ((hash, copyOk, block) :: ·) id

/-- Hand one loaded block to the prefix cache and register it. -/
def restoreEntry (hash : Hash) (block : Int) : KVCacheManager :=
  let s := { s with
    blockHashToId := s.blockHashToId.insert hash block
    blockIdToHash := s.blockIdToHash.insert block hash }
  (s.cacheBlock block).addReclaimable 1

/-- The last loop of `load_prefix_cache`: register the uploaded blocks. -/
def restoreEntries (entries : List (Hash × Bool × Int)) (s : KVCacheManager) : KVCacheManager :=
  entries.foldl (fun s entry => if entry.2.1 then s.restoreEntry entry.1 entry.2.2 else s) s

/-- The handles still in the entries when `load_prefix_cache` returns: those of failed uploads. -/
def failedRefs (entries : List (Hash × Bool × Int)) : List BlockRef :=
  (entries.filter fun entry => !entry.2.1).map fun entry => some entry.2.2

/-- `load_prefix_cache` on the records of a file whose header was accepted: the number of blocks
restored, or `-1` while prefix caching is off. -/
def loadPrefixCache (s : KVCacheManager) (records : List (Hash × Bool)) : Int × KVCacheManager :=
  if s.prefixCachingEnabled then
    let (entries, s) := loadRecords records s
    -- the entries are destroyed, front to back, only after the loop over them
    ((entries.filter fun entry => entry.2.1).length,
      (restoreEntries entries s).dropRefs (failedRefs entries))
  else (-1, s)

/-! ## Runs -/

/-- One call of a public operation that changes the manager's state. -/
inductive Op where
  | allocateBlocks (seq numBlocks : Int)
  | allocateBlocksWithPrefix (seq : Int) (tokens : List Token) (maxReuseBlocks : Int)
      (contentSalt : Hash)
  | appendBlock (seq : Int)
  | freeSequence (seq : Int)
  | registerBlockHashes (seq : Int) (tokens : List Token) (contentSalt : Hash)
  | pinPrefix (seq numBlocks : Int)
  | unpinPrefix (seq : Int)
  | rollback (seq newSeqLen : Int)
  | evictMiddleBlocks (seq nSinkTokens nWindowTokens : Int)
  | evictCachedBlock
  | evictLru
  | touch (seq : Int)
  | setPrefixCachingEnabled (enabled : Bool)
  | setPinBudgetBlocks (blocks : Int)
  | loadPrefixCache (records : List (Hash × Bool))
  | enableSwaSizing (windowTokens slackTokens : Int)
  | swaPrepare (seq fromTokens uptoTokens : Int)
  | swaTrim (seq committedTokens : Int)

/-- The state after one call. -/
def step : Op → KVCacheManager
  | .allocateBlocks seq numBlocks => (s.allocateBlocks seq numBlocks).2
  | .allocateBlocksWithPrefix seq tokens maxReuseBlocks contentSalt =>
    (s.allocateBlocksWithPrefix seq tokens maxReuseBlocks contentSalt).2
  | .appendBlock seq => (s.appendBlock seq).2
  | .freeSequence seq => s.freeSequence seq
  | .registerBlockHashes seq tokens contentSalt => s.registerBlockHashes seq tokens contentSalt
  | .pinPrefix seq numBlocks => s.pinPrefix seq numBlocks
  | .unpinPrefix seq => s.unpinPrefix seq
  | .rollback seq newSeqLen => s.rollback seq newSeqLen
  | .evictMiddleBlocks seq nSinkTokens nWindowTokens =>
    (s.evictMiddleBlocks seq nSinkTokens nWindowTokens).2
  | .evictCachedBlock => s.evictCachedBlock.2
  | .evictLru => s.evictLru.2
  | .touch seq => s.touch seq
  | .setPrefixCachingEnabled enabled => { s with prefixCachingEnabled := enabled }
  | .setPinBudgetBlocks blocks => { s with pinBudgetBlocks := blocks }
  | .loadPrefixCache records => (s.loadPrefixCache records).2
  | .enableSwaSizing windowTokens slackTokens =>
    { s with swa := s.swa.enableSwaSizing s.blockSize windowTokens slackTokens }
  | .swaPrepare seq fromTokens uptoTokens =>
    let tableLength := (s.seqBlocks.lookup seq).map List.length
    { s with swa := (s.swa.swaPrepare s.blockSize seq tableLength fromTokens uptoTokens).2 }
  | .swaTrim seq committedTokens =>
    { s with swa := s.swa.swaTrim s.blockSize seq committedTokens }

/-- The state after a sequence of calls. -/
def run (ops : List Op) : KVCacheManager := ops.foldl step s

variable {Inv : KVCacheManager → Prop}

/-- What holds at the start and survives every call holds after every run. -/
theorem run_invariant (hstep : ∀ s op, Inv s → Inv (s.step op)) {s : KVCacheManager} (hs : Inv s)
    (ops : List Op) : Inv (s.run ops) := by
  induction ops generalizing s with
  | nil => exact hs
  | cons op ops ih => exact ih (hstep s op hs)

/-- Every call of a run meets a condition in the state it is made in. -/
def SafeRun (Safe : KVCacheManager → Op → Prop) : KVCacheManager → List Op → Prop
  | _, [] => True
  | s, op :: ops => Safe s op ∧ SafeRun Safe (s.step op) ops

instance SafeRun.decidable (Safe : KVCacheManager → Op → Prop) [∀ s op, Decidable (Safe s op)] :
    (s : KVCacheManager) → (ops : List Op) → Decidable (SafeRun Safe s ops)
  | _, [] => inferInstanceAs (Decidable True)
  | s, op :: ops =>
    have := SafeRun.decidable Safe (s.step op) ops
    inferInstanceAs (Decidable (Safe s op ∧ SafeRun Safe (s.step op) ops))

/-- What survives every call that meets the condition holds after every run of such calls. -/
theorem safeRun_invariant {Safe : KVCacheManager → Op → Prop}
    (hstep : ∀ s op, Inv s → Safe s op → Inv (s.step op)) {s : KVCacheManager} (hs : Inv s)
    {ops : List Op} (hsafe : SafeRun Safe s ops) : Inv (s.run ops) := by
  induction ops generalizing s with
  | nil => exact hs
  | cons op ops ih => exact ih (hstep s op hs hsafe.1) hsafe.2

end KVCacheManager

end Quench

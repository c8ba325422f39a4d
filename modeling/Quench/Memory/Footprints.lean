import Quench.Lib.Footprint
import Quench.Memory.KVCacheManager

/-!
# What operations touch

Most steps of an operation touch few parts of the manager: the prefix index (`IndexOnly`), the pins
(`PinsOnly`), or the blocks outside the tables (`StoreOnly`). An operation on one sequence also
edits its table (`Slots`) and its recorded hashes (`Edits`), and no others. `Serves` is what a whole
call on one sequence leaves alone, `run_isolated` what a run does.
-/

namespace Quench.KVCacheManager

open Lib List

variable {seq : Int}

/-! ## Parts of the state -/

/-- The prefix index. -/
def indexPart : Footprint KVCacheManager where
  paste s t := { t with blockHashToId := s.blockHashToId, blockIdToHash := s.blockIdToHash }
  paste_self _ := rfl
  paste_paste _ _ _ := rfl

/-- The prefix index and the recorded hashes. -/
def recordPart : Footprint KVCacheManager where
  paste s t := indexPart.paste s { t with seqBlockHashes := s.seqBlockHashes }
  paste_self _ := rfl
  paste_paste _ _ _ := rfl

/-- The pins. -/
def pinPart : Footprint KVCacheManager where
  paste s t := { t with
    pinnedBlocks := s.pinnedBlocks
    pinnedSeqBlocks := s.pinnedSeqBlocks
    pinRefcount := s.pinRefcount
    pinFifo := s.pinFifo
    reclaimableCachedCount := s.reclaimableCachedCount }
  paste_self _ := rfl
  paste_paste _ _ _ := rfl

/-- The prefix cache. -/
def cachePart : Footprint KVCacheManager where
  paste s t := { t with
    cachedBlocksLru := s.cachedBlocksLru
    cachedBlocksMap := s.cachedBlocksMap
    reclaimableCachedCount := s.reclaimableCachedCount }
  paste_self _ := rfl
  paste_paste _ _ _ := rfl

/-- The block pool, the prefix cache and the prefix index. -/
def storePart : Footprint KVCacheManager where
  paste s t := { t with
    pool := s.pool
    blockHashToId := s.blockHashToId
    blockIdToHash := s.blockIdToHash
    cachedBlocksLru := s.cachedBlocksLru
    cachedBlocksMap := s.cachedBlocksMap
    reclaimableCachedCount := s.reclaimableCachedCount }
  paste_self _ := rfl
  paste_paste _ _ _ := rfl

/-- All of this with the tables. -/
def slotPart : Footprint KVCacheManager where
  paste s t := storePart.paste s { t with seqBlocks := s.seqBlocks }
  paste_self _ := rfl
  paste_paste _ _ _ := rfl

/-- All of this with the tables and their recorded hashes. -/
def workPart : Footprint KVCacheManager where
  paste s t := slotPart.paste s { t with seqBlockHashes := s.seqBlockHashes }
  paste_self _ := rfl
  paste_paste _ _ _ := rfl

/-- All of this with the LRU order and the sliding-window tables. -/
def callPart : Footprint KVCacheManager where
  paste s t := workPart.paste s { t with lruOrder := s.lruOrder, swa := s.swa }
  paste_self _ := rfl
  paste_paste _ _ _ := rfl

/-- Two states that differ at most in the prefix index. -/
def IndexOnly (s s' : KVCacheManager) : Prop := indexPart.Only s s'

/-- Two states that differ at most in the prefix index and the recorded hashes. -/
def RecordsOnly (s s' : KVCacheManager) : Prop := recordPart.Only s s'

/-- Two states that differ at most in the pins. -/
def PinsOnly (s s' : KVCacheManager) : Prop := pinPart.Only s s'

/-- Two states that differ at most in the prefix cache. -/
def CacheOnly (s s' : KVCacheManager) : Prop := cachePart.Only s s'

/-- Two states that differ at most in the pool, the prefix cache and the prefix index. -/
def StoreOnly (s s' : KVCacheManager) : Prop := storePart.Only s s'

variable {s t u : KVCacheManager}

namespace IndexOnly

section

variable (s : KVCacheManager)

theorem eraseBlockHash (block : Int) : IndexOnly s (s.eraseBlockHash block) := by
  unfold KVCacheManager.eraseBlockHash
  split <;> rfl

theorem eraseRefHash (ref : BlockRef) : IndexOnly s (s.eraseRefHash ref) := by
  cases ref with
  | none => rfl
  | some block => exact eraseBlockHash s block

theorem dropStaleHashIfLast (block : Int) : IndexOnly s (s.dropStaleHashIfLast block) := by
  unfold KVCacheManager.dropStaleHashIfLast
  split
  · exact eraseBlockHash s block
  · rfl

theorem registerHash (hash : Hash) (block : Int) : IndexOnly s (s.registerHash hash block) := by
  unfold KVCacheManager.registerHash
  split <;> rfl

end

theorem registerLoop (tokens : List Token) (blocks : List BlockRef) (b : Nat) (parentHash : Hash)
    (hashes : List Hash) (s : KVCacheManager) :
    IndexOnly s (registerLoop tokens blocks b parentHash hashes s).2 := by
  induction blocks generalizing b parentHash hashes s with
  | nil => rfl
  | cons ref rest ih =>
    unfold KVCacheManager.registerLoop
    split
    · rfl
    · split <;> exact (registerHash s _ _).trans (ih _ _ _ _)

theorem store (h : IndexOnly s t) : StoreOnly s t := h.mono fun _ _ => rfl

theorem records (h : IndexOnly s t) : RecordsOnly s t := h.mono fun _ _ => rfl

end IndexOnly

namespace RecordsOnly

theorem clearHashesFrom (s : KVCacheManager) (seq : Int) (sinkEnd totalBlocks : Nat) :
    RecordsOnly s (s.clearHashesFrom seq sinkEnd totalBlocks) := by
  unfold KVCacheManager.clearHashesFrom
  split
  · rfl
  · exact .trans (.foldl (fun s ref => (IndexOnly.eraseRefHash s ref).records) _ s) rfl

theorem registerBlockHashes (s : KVCacheManager) (seq : Int) (tokens : List Token)
    (contentSalt : Hash) : RecordsOnly s (s.registerBlockHashes seq tokens contentSalt) := by
  unfold KVCacheManager.registerBlockHashes
  split
  · split
    · rfl
    · exact (IndexOnly.registerLoop tokens _ 0 contentSalt _ s).records.trans rfl
  · rfl

end RecordsOnly

section

variable {P : KVCacheManager → Prop}

theorem unpinPrefix_rule (seq : Int) (hblock : ∀ t block, P t → P (t.unpinBlock block))
    (hqueue : ∀ t owners fifo, P t → P { t with pinnedSeqBlocks := owners, pinFifo := fifo })
    (h : P s) : P (s.unpinPrefix seq) := by
  unfold unpinPrefix
  split
  · exact h
  next owned _ =>
    exact hqueue _ _ _ (owned.foldlRecOn unpinBlock h fun t ht block _ => hblock t block ht)

theorem makePinRoom_rule (toPin : Int) (hunpin : ∀ t seq, P t → P (t.unpinPrefix seq)) (h : P s) :
    P (s.makePinRoom toPin) := by
  have hloop : ∀ rounds, P (evictPins toPin rounds s) := by
    intro rounds
    induction rounds generalizing s with
    | zero => exact h
    | succ rounds ih =>
      unfold evictPins
      split
      · split
        · exact h
        next oldest _ _ => exact ih (hunpin s oldest h)
      · exact h
  unfold makePinRoom
  split
  · exact hloop _
  · exact h

end

section

variable (s : KVCacheManager)

theorem PinsOnly.unpinBlock (block : Int) : PinsOnly s (s.unpinBlock block) := by
  unfold KVCacheManager.unpinBlock
  split
  · rfl
  · split
    · rfl
    · dsimp only
      split <;> rfl

theorem PinsOnly.unpinPrefix (seq : Int) : PinsOnly s (s.unpinPrefix seq) :=
  unpinPrefix_rule seq (fun t block ht => ht.trans (unpinBlock t block))
    (fun _ _ _ ht => ht.trans rfl) (.refl s)

theorem pinBudgetBlocks_unpinPrefix (seq : Int) :
    (s.unpinPrefix seq).pinBudgetBlocks = s.pinBudgetBlocks :=
  (PinsOnly.unpinPrefix s seq).keeps (·.pinBudgetBlocks) fun _ _ => rfl

/-- The blocks that `pin_prefix` pins. -/
def pinsFor (seq numBlocks : Int) : List Int :=
  let toPin := min numBlocks (s.blockTable seq).length
  let toPin := if 0 < s.pinBudgetBlocks then min toPin s.pinBudgetBlocks else toPin
  ((s.blockTable seq).take toPin.toNat).filterMap id

/-- `pin_prefix` replaces the owner's pins: they go, room is made, and the blocks are pinned. -/
theorem pinPrefix_cases (seq numBlocks : Int) :
    s.pinPrefix seq numBlocks = s ∧ s.pinsFor seq numBlocks = [] ∨
      ∃ toPin : Int, ((s.pinsFor seq numBlocks).length : Int) ≤ toPin ∧
        (0 < s.pinBudgetBlocks → toPin ≤ s.pinBudgetBlocks) ∧
        s.pinPrefix seq numBlocks =
          ((s.unpinPrefix seq).makePinRoom toPin).pinBlocks seq (s.pinsFor seq numBlocks) := by
  -- an owner without pins has none to drop
  have hdrop : (if seq ∈ s.pinnedSeqBlocks then s.unpinPrefix seq else s) = s.unpinPrefix seq := by
    split
    · rfl
    next hnone => rw [unpinPrefix, AList.lookup_eq_none.mpr hnone]
  unfold pinPrefix pinsFor
  rw [hdrop]
  cases hlookup : s.seqBlocks.lookup seq with
  | none => exact .inl ⟨rfl, by simp [blockTable, hlookup]⟩
  | some blocks =>
    simp only [blockTable, hlookup, Option.getD_some]
    split
    next hnone =>
      refine .inl ⟨rfl, ?_⟩
      have hzero : (if 0 < s.pinBudgetBlocks then min (min numBlocks blocks.length)
          s.pinBudgetBlocks else min numBlocks blocks.length).toNat = 0 := by
        split <;> omega
      rw [hzero]
      rfl
    next hsome =>
      rw [s.pinBudgetBlocks_unpinPrefix seq]
      refine .inr ⟨_, ?_, fun hpos => ?_, rfl⟩
      · refine (Int.ofNat_le.mpr ((length_filterMap_le _ _).trans
          (length_take_le _ _))).trans ?_
        split <;> omega
      · rw [if_pos hpos]
        exact min_le_right _ _

theorem pinPrefix_rule {P : KVCacheManager → Prop} {s : KVCacheManager} (seq numBlocks : Int)
    (hunpin : ∀ t seq, P t → P (t.unpinPrefix seq))
    (hpin : ∀ t owned, P t → P (t.pinBlocks seq owned)) (h : P s) :
    P (s.pinPrefix seq numBlocks) := by
  obtain ⟨heq, -⟩ | ⟨toPin, -, -, heq⟩ := s.pinPrefix_cases seq numBlocks <;> rw [heq]
  · exact h
  · exact hpin _ _ (makePinRoom_rule _ hunpin (hunpin s seq h))

theorem PinsOnly.pinBlock (block : Int) : PinsOnly s (s.pinBlock block) := by
  unfold KVCacheManager.pinBlock
  dsimp only
  split
  · split <;> rfl
  · rfl

theorem PinsOnly.pinBlocks (seq : Int) (owned : List Int) : PinsOnly s (s.pinBlocks seq owned) := by
  have hpinned : PinsOnly s (owned.foldl KVCacheManager.pinBlock s) := .foldl pinBlock owned s
  unfold KVCacheManager.pinBlocks
  split
  · exact hpinned
  · exact hpinned.trans rfl

theorem PinsOnly.pinPrefix (seq numBlocks : Int) : PinsOnly s (s.pinPrefix seq numBlocks) :=
  pinPrefix_rule seq numBlocks (fun t seq ht => ht.trans (unpinPrefix t seq))
    (fun t owned ht => ht.trans (pinBlocks t seq owned)) (.refl s)

end

/-! ## Rules for taking a block -/

/-- Rotating the cached LRU only reorders it. -/
theorem rotatePinned_perm (pinned : Finset Int) (n : Nat) (lru : List Int) :
    (rotatePinned pinned n lru).Perm lru := by
  induction n generalizing lru with
  | zero => exact .refl _
  | succ n ih =>
    cases lru with
    | nil => exact .refl _
    | cons block lru =>
      unfold rotatePinned
      split
      · exact (ih _).trans (perm_append_singleton block lru)
      · exact .refl _

/-- What a reclaim does: nothing but reorder the cached LRU, or give up one unpinned cached
block. -/
theorem reclaimCachedBlock_cases (s : KVCacheManager) :
    ∃ lru : List Int, lru.Perm s.cachedBlocksLru ∧
      let rotated := { s with cachedBlocksLru := lru }
      s.reclaimCachedBlock = (-1, rotated) ∨
      ∃ block ∈ lru, block ∉ s.pinnedBlocks ∧ s.reclaimCachedBlock =
        (block, (((rotated.uncacheBlock block).addReclaimable (-1)).eraseBlockHash block).dropRefs
          [some block]) := by
  unfold reclaimCachedBlock
  split
  · exact ⟨s.cachedBlocksLru, .refl _, .inl rfl⟩
  · refine ⟨_, rotatePinned_perm s.pinnedBlocks s.cachedBlocksLru.length s.cachedBlocksLru, ?_⟩
    dsimp only
    split
    · exact .inl rfl
    next block rest hlru =>
      split
      · exact .inl rfl
      next hpinned => exact .inr ⟨block, by simp [hlru], hpinned, rfl⟩

variable {s' : KVCacheManager} {block numBlocks maxReuseBlocks other : Int} {ref : BlockRef}
  {I : Nat → KVCacheManager → Prop} {tokens : List Token} {contentSalt : Hash} {n : Nat}
  {P : KVCacheManager → Prop}

/-- A failed acquire changes nothing. -/
theorem acquireBlockRef_none (h : s.acquireBlockRef = (none, s')) : s' = s := by
  obtain ⟨href, rfl⟩ := Prod.mk.inj h
  have hpool : s.pool.acquire = (none, s.pool.acquire.2) := Prod.ext href rfl
  rw [(BlockPool.acquire_of_none hpool).1]

/-- A block that is taken was free and has one reference. -/
theorem acquireBlockRef_some (h : s.acquireBlockRef = (some block, s')) :
    ∃ pool, s' = { s with pool } ∧ s.refCount block = 0 ∧ 0 ≤ block ∧
      ∀ other, pool.refCount other = if other = block then 1 else s.refCount other := by
  obtain ⟨href, rfl⟩ := Prod.mk.inj h
  exact ⟨_, rfl, BlockPool.refCount_acquire (Prod.ext href rfl)⟩

theorem reclaimLoop_rule (Inv : KVCacheManager → Prop)
    (hreclaim : ∀ s, Inv s → Inv s.reclaimCachedBlock.2) {rounds : Nat}
    (hs : Inv s) (h : reclaimLoop rounds s = (ref, s')) :
    ∃ t, Inv t ∧
      (ref = none ∧ s' = t ∨ ∃ block, ref = some block ∧ t.acquireBlockRef = (some block, s')) := by
  induction rounds generalizing s with
  | zero =>
    obtain ⟨rfl, rfl⟩ := Prod.mk.inj h
    exact ⟨s, hs, .inl ⟨rfl, rfl⟩⟩
  | succ rounds ih =>
    have hnext := hreclaim s hs
    unfold reclaimLoop at h
    split at h
    · obtain ⟨rfl, rfl⟩ := Prod.mk.inj h
      exact ⟨s, hs, .inl ⟨rfl, rfl⟩⟩
    · split at h
      · obtain ⟨rfl, rfl⟩ := Prod.mk.inj h
        exact ⟨_, hnext, .inl ⟨rfl, rfl⟩⟩
      · split at h
        next block after hacquire =>
          obtain ⟨rfl, rfl⟩ := Prod.mk.inj h
          exact ⟨_, hnext, .inr ⟨block, rfl, hacquire⟩⟩
        next after hacquire =>
          rw [acquireBlockRef_none hacquire] at h
          exact ih hnext h

/-- Whatever reclaiming preserves holds when `allocate_block_ref_with_eviction` takes the block
from the free list, or gives up. -/
theorem allocateBlockRefWithEviction_rule (Inv : KVCacheManager → Prop)
    (hreclaim : ∀ s, Inv s → Inv s.reclaimCachedBlock.2) (hs : Inv s)
    (h : s.allocateBlockRefWithEviction = (ref, s')) :
    ∃ t, Inv t ∧
      (ref = none ∧ s' = t ∨ ∃ block, ref = some block ∧ t.acquireBlockRef = (some block, s')) := by
  unfold allocateBlockRefWithEviction at h
  split at h
  next block after hacquire =>
    obtain ⟨rfl, rfl⟩ := Prod.mk.inj h
    exact ⟨s, hs, .inr ⟨block, rfl, hacquire⟩⟩
  next after hacquire =>
    rw [acquireBlockRef_none hacquire] at h
    exact reclaimLoop_rule Inv hreclaim hs h

/-! ## One round of a prefix allocation -/

/-- The lookup of a prefix allocation that misses leaves the state alone, or drops the entry of a
block without references. -/
inductive Misses (s : KVCacheManager) (hash : Hash) : KVCacheManager → Prop where
  | absent : Misses s hash s
  | stale (block : Int) : s.blockHashToId.lookup hash = some block → s.refCount block = 0 →
      block ∉ s.cachedBlocksMap →
      Misses s hash { s with
        blockIdToHash := s.blockIdToHash.erase block
        blockHashToId := s.blockHashToId.erase hash }

theorem findReusable_cases (s : KVCacheManager) (reuseOpen : Bool) (hash : Hash) :
    (∃ block, reuseOpen = true ∧ s.blockHashToId.lookup hash = some block ∧
      (block ∈ s.cachedBlocksMap ∨ 0 < s.refCount block) ∧
      s.findReusable reuseOpen hash = (some block, s)) ∨
    ∃ t, Misses s hash t ∧ s.findReusable reuseOpen hash = (none, t) ∧
      (∀ block, reuseOpen = true → s.blockHashToId.lookup hash = some block →
        s.refCount block = 0) ∧
      t.blockIdToHash = (if reuseOpen then s.blockHashToId.lookup hash else none).elim
        s.blockIdToHash s.blockIdToHash.erase := by
  unfold findReusable
  cases reuseOpen with
  | false => exact .inr ⟨s, .absent, rfl, (fun _ hopen => by cases hopen), rfl⟩
  | true =>
    rw [if_pos rfl]
    cases hlookup : s.blockHashToId.lookup hash with
    | none => exact .inr ⟨s, .absent, rfl, (fun _ _ hsome => by cases hsome), rfl⟩
    | some block =>
      dsimp only
      split
      next hstale =>
        exact .inr ⟨_, .stale block hlookup hstale.1 hstale.2, rfl,
          fun _ _ hsome => Option.some.inj hsome ▸ hstale.1, rfl⟩
      next hlive =>
        refine .inl ⟨block, rfl, rfl, ?_, rfl⟩
        by_cases hcached : block ∈ s.cachedBlocksMap
        · exact .inl hcached
        · exact .inr (Nat.pos_of_ne_zero fun hzero => hlive ⟨hzero, hcached⟩)

/-- Whether a round of a prefix allocation looks for a block to reuse: no round before it missed,
prefix caching is on, the block is full and below the cap. -/
structure CanHit (s : KVCacheManager) (tokens : List Token) (maxReuseBlocks : Int) (b : Nat)
    (reuseOpen : Bool) : Prop where
  reuseOpen : reuseOpen = true
  enabled : s.prefixCachingEnabled = true
  full : (b + 1) * s.blockSize ≤ tokens.length
  below_cap : ¬ (0 ≤ maxReuseBlocks ∧ maxReuseBlocks ≤ b)

/-- The entry that a round of a prefix allocation looks at. -/
def lookedUp (s : KVCacheManager) (tokens : List Token) (maxReuseBlocks : Int) (b : Nat)
    (reuseOpen : Bool) (hash : Hash) : Option Int :=
  if reuseOpen ∧ s.prefixCachingEnabled ∧ (b + 1) * s.blockSize ≤ tokens.length ∧
      ¬ (0 ≤ maxReuseBlocks ∧ maxReuseBlocks ≤ b) then s.blockHashToId.lookup hash
  else none

/-- One round of a prefix allocation, with its result: the block is reused, or a fresh one is taken
and nothing more is reused from a full block on, or there is none and the table is given up. -/
inductive PrefixRound (seq : Int) (tokens : List Token) (maxReuseBlocks : Int) (n b reused : Nat)
    (parentHash : Hash) (reuseOpen : Bool) (s : KVCacheManager) :
    Int × KVCacheManager → Prop where
  | hit (hash : Hash) (block : Int)
      (hcan : CanHit s tokens maxReuseBlocks b reuseOpen)
      (hhash : hash = computeBlockHash (blockTokens s.blockSize tokens b) parentHash)
      (hlookup : s.blockHashToId.lookup hash = some block)
      (hlive : block ∈ s.cachedBlocksMap ∨ 0 < s.refCount block) :
      PrefixRound seq tokens maxReuseBlocks n b reused parentHash reuseOpen s
        (prefixLoop seq tokens maxReuseBlocks n (b + 1) (reused + 1) hash true
          ((s.reuseBlock seq block).pushHash seq hash))
  | fresh (hash nextHash recorded : Hash) (nextOpen : Bool) (t after : KVCacheManager) (block : Int)
      (hhash : hash = computeBlockHash (blockTokens s.blockSize tokens b) parentHash)
      (hmiss : Misses s hash t)
      (hdead : ∀ found, CanHit s tokens maxReuseBlocks b reuseOpen →
        s.blockHashToId.lookup hash = some found → s.refCount found = 0)
      (halloc : t.allocateBlockRefWithEviction = (some block, after))
      (hnext : nextHash = if (b + 1) * s.blockSize ≤ tokens.length then hash else parentHash)
      (hrecorded : recorded = if (b + 1) * s.blockSize ≤ tokens.length then hash else 0)
      (hopen : nextOpen = true → reuseOpen = true ∧
        ¬ (s.prefixCachingEnabled = true ∧ (b + 1) * s.blockSize ≤ tokens.length))
      (hdrop : t.blockIdToHash = (s.lookedUp tokens maxReuseBlocks b reuseOpen hash).elim
        s.blockIdToHash s.blockIdToHash.erase) :
      PrefixRound seq tokens maxReuseBlocks n b reused parentHash reuseOpen s
        (prefixLoop seq tokens maxReuseBlocks n (b + 1) reused nextHash nextOpen
          ((after.pushBlock seq (some block)).pushHash seq recorded))
  | exhausted (hash : Hash) (t after : KVCacheManager)
      (hhash : hash = computeBlockHash (blockTokens s.blockSize tokens b) parentHash)
      (hmiss : Misses s hash t)
      (hdead : ∀ found, CanHit s tokens maxReuseBlocks b reuseOpen →
        s.blockHashToId.lookup hash = some found → s.refCount found = 0)
      (halloc : t.allocateBlockRefWithEviction = (none, after))
      (hdrop : t.blockIdToHash = (s.lookedUp tokens maxReuseBlocks b reuseOpen hash).elim
        s.blockIdToHash s.blockIdToHash.erase) :
      PrefixRound seq tokens maxReuseBlocks n b reused parentHash reuseOpen s
        (-1, after.rollbackPartialAllocation seq 0)

theorem prefixLoop_round (seq : Int) (tokens : List Token) (maxReuseBlocks : Int) (n b reused : Nat)
    (parentHash : Hash) (reuseOpen : Bool) (s : KVCacheManager) :
    PrefixRound seq tokens maxReuseBlocks n b reused parentHash reuseOpen s
      (prefixLoop seq tokens maxReuseBlocks (n + 1) b reused parentHash reuseOpen s) := by
  unfold prefixLoop
  dsimp only
  generalize hhash : computeBlockHash (blockTokens s.blockSize tokens b) parentHash = hash
  split
  next hreuse =>
    obtain ⟨henabled, hfull⟩ := Bool.and_eq_true_iff.mp hreuse
    have hfull := of_decide_eq_true hfull
    rcases findReusable_cases s
        (reuseOpen && !decide (0 ≤ maxReuseBlocks ∧ maxReuseBlocks ≤ ↑b)) hash with
      ⟨block, hopen, hlookup, hlive, heq⟩ | ⟨t, hmiss, heq, hdead, hdrop⟩
    · obtain ⟨hopen', hcap⟩ := Bool.and_eq_true_iff.mp hopen
      rw [heq]
      rw [hopen]
      refine .hit hash block ⟨hopen', henabled, hfull, ?_⟩ hhash.symm hlookup hlive
      simpa only [Bool.not_eq_eq_eq_not, Bool.not_true, decide_eq_false_iff_not] using hcap
    · rw [heq]
      dsimp only
      have hdead : ∀ found, CanHit s tokens maxReuseBlocks b reuseOpen →
          s.blockHashToId.lookup hash = some found → s.refCount found = 0 := fun found hcan =>
        hdead found (by rw [hcan.reuseOpen, decide_eq_false hcan.below_cap]; rfl)
      have hlooked : s.lookedUp tokens maxReuseBlocks b reuseOpen hash =
          if reuseOpen && !decide (0 ≤ maxReuseBlocks ∧ maxReuseBlocks ≤ ↑b) then
            s.blockHashToId.lookup hash else none := by
        simp only [lookedUp, henabled, hfull, true_and, Bool.and_eq_true, Bool.not_eq_true',
          decide_eq_false_iff_not]
      rw [← hlooked] at hdrop
      cases halloc : t.allocateBlockRefWithEviction with
      | mk ref after =>
        cases ref with
        | none => exact .exhausted hash t after hhash.symm hmiss hdead halloc hdrop
        | some block =>
          exact .fresh hash hash hash false t after block hhash.symm hmiss hdead halloc
            (if_pos hfull).symm (if_pos hfull).symm (fun hopen => by cases hopen) hdrop
  next hreuse =>
    have hoff : ¬ (s.prefixCachingEnabled = true ∧ (b + 1) * s.blockSize ≤ tokens.length) :=
      fun hboth => hreuse (by rw [hboth.1, Bool.true_and]; exact decide_eq_true hboth.2)
    have hdead : ∀ found, CanHit s tokens maxReuseBlocks b reuseOpen →
        s.blockHashToId.lookup hash = some found → s.refCount found = 0 := fun _ hcan =>
      absurd ⟨hcan.enabled, hcan.full⟩ hoff
    have hlooked : s.lookedUp tokens maxReuseBlocks b reuseOpen hash = none :=
      if_neg fun hcan => hoff ⟨hcan.2.1, hcan.2.2.1⟩
    have hdrop : s.blockIdToHash = (s.lookedUp tokens maxReuseBlocks b reuseOpen hash).elim
        s.blockIdToHash s.blockIdToHash.erase := by rw [hlooked]; rfl
    cases halloc : s.allocateBlockRefWithEviction with
    | mk ref after =>
      cases ref with
      | none => exact .exhausted hash s after hhash.symm .absent hdead halloc hdrop
      | some block =>
        exact .fresh hash _ _ _ s after block hhash.symm .absent hdead halloc
          (by simp only [decide_eq_true_eq]) (by simp only [decide_eq_true_eq])
          (fun hopen => ⟨(Bool.and_eq_true_iff.mp hopen).1, hoff⟩) hdrop

/-- What `evict_middle_blocks` does if there are blocks between the sinks and the window: it pins
the sinks if they are not, empties the slots in between and clears their hashes. -/
theorem evictMiddleBlocks_eq (s : KVCacheManager) (seq nSinkTokens nWindowTokens : Int)
    {sinkEnd windowStart : Nat}
    (hsinks : (nSinkTokens.toNat + s.blockSize - 1) / s.blockSize = sinkEnd)
    (hwindow : (s.blockTable seq).length - (nWindowTokens.toNat + s.blockSize - 1) / s.blockSize
      - 1 = windowStart) :
    s.evictMiddleBlocks seq nSinkTokens nWindowTokens =
      if 0 < nSinkTokens ∧ 0 < nWindowTokens ∧ sinkEnd < windowStart then
        ((((((s.blockTable seq).take windowStart).drop sinkEnd).filter Option.isSome).length : Int),
          (evictSlots seq (windowStart - sinkEnd) sinkEnd
            (if ((s.pinnedSeqBlocks.lookup seq).getD []).length < sinkEnd then
              s.pinPrefix seq sinkEnd
            else s)).clearHashesFrom seq sinkEnd (s.blockTable seq).length)
      else (0, s) := by
  unfold blockTable at hwindow ⊢
  unfold evictMiddleBlocks
  generalize (nWindowTokens.toNat + s.blockSize - 1) / s.blockSize = windowCount at hwindow ⊢
  cases hlookup : s.seqBlocks.lookup seq with
  | none =>
    rw [hlookup, Option.getD_none, length_nil] at hwindow
    rw [if_neg (by omega)]
  | some blocks =>
    rw [hlookup] at hwindow
    simp only [Option.getD_some, hsinks] at hwindow ⊢
    rw [hwindow]
    by_cases hmiddle : 0 < nSinkTokens ∧ 0 < nWindowTokens ∧ sinkEnd < windowStart
    · rw [if_neg (by omega), if_neg (by omega), if_pos hmiddle]
    · rw [if_neg hmiddle]
      split
      · rfl
      · rw [if_pos (by omega)]

/-- The blocks that tokens need hold them. -/
theorem le_ceil_mul (tokens : Nat) {blockSize : Nat} (hsize : 0 < blockSize) :
    tokens ≤ (tokens + blockSize - 1) / blockSize * blockSize := by
  have := (Nat.div_le_iff_le_mul_add_pred hsize).mp (le_refl ((tokens + blockSize - 1) / blockSize))
  rw [Nat.mul_comm]
  omega

/-! ## Rules for the calls that allocate -/

@[simp] theorem blockTable_setTable (s : KVCacheManager) (seq : Int) (blocks : List BlockRef) :
    (s.setTable seq blocks).blockTable seq = blocks := by
  simp [blockTable, setTable]

/-- What a plain allocation that fails leaves of a table. -/
def giveUp (s : KVCacheManager) (seq : Int) (size : Nat) : KVCacheManager :=
  if ((s.resizeTable seq size).blockTable seq).isEmpty then (s.resizeTable seq size).eraseTable seq
  else s.resizeTable seq size

/-- The rule for `allocate_blocks`, with an invariant of its loop that may count the blocks to
go. -/
theorem allocateBlocks_rule {P : Bool × KVCacheManager → Prop} (hnone : numBlocks ≤ 0 → P (true, s))
    (hstart : I numBlocks.toNat (s.setTable seq (s.blockTable seq)))
    (hpush : ∀ n t u block, I (n + 1) t → t.allocateBlockRefWithEviction = (some block, u) →
      I n (u.pushBlock seq (some block))) (hdone : ∀ t, I 0 t → P (true, t.trackLru seq))
    (hfail : ∀ n t u, I (n + 1) t → t.allocateBlockRefWithEviction = (none, u) →
      P (false, u.giveUp seq (s.blockTable seq).length)) : P (s.allocateBlocks seq numBlocks) := by
  unfold allocateBlocks
  split
  next hle => exact hnone hle
  next =>
    generalize (s.blockTable seq).length = size at hfail ⊢
    generalize s.setTable seq (s.blockTable seq) = t at hstart ⊢
    dsimp only
    generalize numBlocks.toNat = n at hstart ⊢
    induction n generalizing t with
    | zero => exact hdone t hstart
    | succ n ih =>
      unfold allocateBlocksLoop
      cases halloc : t.allocateBlockRefWithEviction with
      | mk ref u =>
        cases ref with
        | some block => exact ih _ (hpush n t u block hstart halloc)
        | none => exact hfail n t u hstart halloc

/-- The state in which `allocate_blocks_with_prefix` enters its loop: the sequence has entries in
both maps. -/
def entered (s : KVCacheManager) (seq : Int) : KVCacheManager :=
  (s.setTable seq (s.blockTable seq)).setHashes seq
    ((s.setTable seq (s.blockTable seq)).blockHashes seq)

/-- The loop of a prefix allocation that starts a table. -/
def startTable (s : KVCacheManager) (seq : Int) (tokens : List Token) (maxReuseBlocks : Int)
    (contentSalt : Hash) : Int × KVCacheManager :=
  prefixLoop seq tokens maxReuseBlocks ((tokens.length + s.blockSize - 1) / s.blockSize) 0 0
    contentSalt true (s.entered seq)

/-- For a sequence without slots and a prompt that is not empty, a prefix allocation starts a
table. -/
theorem allocateBlocksWithPrefix_start (hne : tokens ≠ [])
    (hfresh : s.blockTable seq = []) (maxReuseBlocks : Int) (contentSalt : Hash) :
    s.allocateBlocksWithPrefix seq tokens maxReuseBlocks contentSalt =
      let result := s.startTable seq tokens maxReuseBlocks contentSalt
      (result.1, if result.1 < 0 then result.2 else result.2.trackLru seq) := by
  unfold allocateBlocksWithPrefix
  rw [if_neg fun hempty => hne (List.isEmpty_iff.mp hempty)]
  dsimp only
  rw [blockTable_setTable, if_neg (by rw [hfresh]; exact lt_irrefl 0)]
  change (if (s.startTable seq tokens maxReuseBlocks contentSalt).1 < 0 then _ else _) = _
  split <;> rfl

/-- A prefix allocation does nothing for an empty prompt, adds the missing blocks to a table that
has some, or starts a table. -/
theorem allocateBlocksWithPrefix_cases {P : Int × KVCacheManager → Prop}
    (hnil : tokens = [] → P (0, s))
    (hgrow : s.blockTable seq ≠ [] → ∀ (n : Nat) (ok : Bool) (t : KVCacheManager),
      (s.setTable seq (s.blockTable seq)).allocateBlocks seq n = (ok, t) →
      P (if ok then 0 else -1, t))
    (hstart : tokens ≠ [] → s.blockTable seq = [] → ∀ (reused : Int) (t : KVCacheManager),
      s.startTable seq tokens maxReuseBlocks contentSalt = (reused, t) →
      P (reused, if reused < 0 then t else t.trackLru seq)) :
    P (s.allocateBlocksWithPrefix seq tokens maxReuseBlocks contentSalt) := by
  by_cases hfresh : tokens ≠ [] ∧ s.blockTable seq = []
  · rw [allocateBlocksWithPrefix_start hfresh.1 hfresh.2]
    exact hstart hfresh.1 hfresh.2 _ _ rfl
  unfold allocateBlocksWithPrefix
  split
  next hempty => exact hnil (List.isEmpty_iff.mp hempty)
  next htokens =>
    have hslots : s.blockTable seq ≠ [] := fun h =>
      hfresh ⟨fun hnil => htokens (List.isEmpty_iff.mpr hnil), h⟩
    dsimp only
    rw [blockTable_setTable, if_pos (length_pos_iff.mpr hslots)]
    split
    · split <;> next heq => exact hgrow hslots _ _ _ heq
    · exact hgrow hslots 0 true _ rfl

/-- What a prefix allocation keeps, if plain allocation, the start of a table and tracking do. -/
theorem allocateBlocksWithPrefix_keeps {Q : KVCacheManager → Prop} (h : Q s)
    (hgrow : ∀ n : Nat, Q ((s.setTable seq (s.blockTable seq)).allocateBlocks seq n).2)
    (hstart : Q (s.startTable seq tokens maxReuseBlocks contentSalt).2)
    (htrack : ∀ t, Q t → Q (t.trackLru seq)) :
    Q (s.allocateBlocksWithPrefix seq tokens maxReuseBlocks contentSalt).2 := by
  refine allocateBlocksWithPrefix_cases (P := fun out => Q out.2) (fun _ => h) ?_ ?_
  · intro _ n ok t heq
    exact congrArg Prod.snd heq ▸ hgrow n
  · intro _ _ reused t heq
    rw [heq] at hstart
    dsimp only
    split
    · exact hstart
    · exact htrack t hstart

/-- The rule for the loop of a prefix allocation, with an invariant that may count the rounds to
go. -/
theorem prefixLoop_rule {P : Int × KVCacheManager → Prop}
    (hhit : ∀ n t hash block, I (n + 1) t → block ∈ t.cachedBlocksMap ∨ 0 < t.refCount block →
      I n ((t.reuseBlock seq block).pushHash seq hash))
    (hfresh : ∀ n t u v hash block recorded, I (n + 1) t → Misses t hash u →
      u.allocateBlockRefWithEviction = (some block, v) →
      I n ((v.pushBlock seq (some block)).pushHash seq recorded))
    (hdone : ∀ t (reused : Nat), I 0 t → P (reused, t))
    (hfail : ∀ n t u v hash, I (n + 1) t → Misses t hash u →
      u.allocateBlockRefWithEviction = (none, v) → P (-1, v.rollbackPartialAllocation seq 0))
    {b reused : Nat} {parentHash : Hash} {reuseOpen : Bool} (hs : I n s) :
    P (prefixLoop seq tokens maxReuseBlocks n b reused parentHash reuseOpen s) := by
  induction n generalizing s b reused parentHash reuseOpen with
  | zero => exact hdone s reused hs
  | succ n ih =>
    have hround := prefixLoop_round seq tokens maxReuseBlocks n b reused parentHash reuseOpen s
    generalize prefixLoop _ _ _ (n + 1) _ _ _ _ _ = result at hround ⊢
    cases hround with
    | hit hash block _ _ _ hlive => exact ih (hhit n s hash block hs hlive)
    | fresh hash _ recorded _ t after block _ hmiss _ halloc =>
      exact ih (hfresh n s t after hash block recorded hs hmiss halloc)
    | exhausted hash t after _ hmiss _ halloc => exact hfail n s t after hash hs hmiss halloc

/-- The rule for the record loop of `load_prefix_cache`. -/
theorem loadRecords_rule {I : List (Hash × Bool × Int) → KVCacheManager → Prop}
    {records : List (Hash × Bool)} (hstart : I [] s)
    (htake : ∀ entries t u record block, record ∈ records →
      t.blockHashToId.lookup record.1 = none → t.acquireBlockRef = (some block, u) →
      I entries t → I (entries ++ [(record.1, record.2, block)]) u) :
    I (loadRecords records s).1 (loadRecords records s).2 := by
  suffices hloop : ∀ (rest : List (Hash × Bool)) entries t, rest ⊆ records → I entries t →
      I (entries ++ (loadRecords rest t).1) (loadRecords rest t).2 from
    hloop records [] s (List.Subset.refl _) hstart
  intro rest
  induction rest with
  | nil =>
    intro entries t _ ht
    rwa [loadRecords, append_nil]
  | cons record rest ih =>
    intro entries t hsub ht
    obtain ⟨hrecord, hsub⟩ := cons_subset.mp hsub
    unfold loadRecords
    split
    · exact ih entries t hsub ht
    next hnew =>
      split
      next after hacquire =>
        rwa [acquireBlockRef_none hacquire, append_nil]
      next block after hacquire =>
        have hnext := ih _ after hsub
          (htake entries t after record block hrecord (by simpa using hnew) hacquire ht)
        rwa [append_assoc] at hnext

/-! ## Steps outside the tables -/

theorem Misses.index {hash : Hash} (h : Misses s hash t) : IndexOnly s t := by
  cases h <;> rfl

/-- The slot loop of `free_sequence` only fills the cache. -/
theorem not_cached_of_keepsCached (h : s.keepsCached block = true) : block ∉ s.cachedBlocksMap := by
  simp only [keepsCached, Bool.and_eq_true, decide_eq_true_eq] at h
  exact h.1

theorem CacheOnly.releaseSlots (blocks : List BlockRef) (s : KVCacheManager) :
    CacheOnly s (releaseSlots blocks s).2 := by
  fun_induction KVCacheManager.releaseSlots blocks s
  case case1 => rfl
  case case2 _ _ ih => exact ih
  case case3 block _ s _ _ ih =>
    refine .trans ?_ ih
    split <;> rfl
  case case4 _ _ _ _ ih => exact ih

namespace StoreOnly

theorem reclaimCachedBlock (s : KVCacheManager) : StoreOnly s s.reclaimCachedBlock.2 := by
  obtain ⟨lru, -, heq | ⟨block, -, -, heq⟩⟩ := s.reclaimCachedBlock_cases
  · rw [heq]
    rfl
  · rw [heq]
    have hgiven : StoreOnly s ((({ s with cachedBlocksLru := lru }).uncacheBlock
      block).addReclaimable (-1)) := rfl
    exact (hgiven.trans (IndexOnly.eraseBlockHash _ block).store).trans rfl

theorem allocateBlockRefWithEviction (h : s.allocateBlockRefWithEviction = (ref, t)) :
    StoreOnly s t := by
  obtain ⟨t, hsame, ⟨-, rfl⟩ | ⟨block, -, hacquire⟩⟩ :=
    allocateBlockRefWithEviction_rule (StoreOnly s) (fun t h => h.trans (reclaimCachedBlock t))
      rfl h
  · exact hsame
  · obtain ⟨-, rfl⟩ := Prod.mk.inj hacquire
    exact hsame.trans rfl

theorem releaseSlots (blocks : List BlockRef) (s : KVCacheManager) :
    StoreOnly s (releaseSlots blocks s).2 :=
  (CacheOnly.releaseSlots blocks s).mono fun _ _ => rfl

theorem loadRecords (records : List (Hash × Bool)) (s : KVCacheManager) :
    StoreOnly s (loadRecords records s).2 :=
  loadRecords_rule (I := fun _ => StoreOnly s) rfl fun _ _ _ _ _ _ _ hacquire ht => by
    obtain ⟨pool, rfl, -⟩ := acquireBlockRef_some hacquire
    exact ht.trans rfl

theorem loadPrefixCache (records : List (Hash × Bool)) (s : KVCacheManager) :
    StoreOnly s (s.loadPrefixCache records).2 := by
  unfold KVCacheManager.loadPrefixCache
  split
  · refine (loadRecords records s).trans (.trans (.foldl (fun s entry => ?_) _ _) rfl)
    split <;> rfl
  · rfl

end StoreOnly

/-! ## Steps on one table -/

/-- Two states that differ at most in the store and in the table of one sequence. -/
structure Slots (seq : Int) (s s' : KVCacheManager) : Prop where
  rest : slotPart.Only s s'
  table : ∀ other, other ≠ seq → s'.seqBlocks.lookup other = s.seqBlocks.lookup other

/-- Two states that differ at most in the store and in the table and the recorded hashes of one
sequence. -/
structure Edits (seq : Int) (s s' : KVCacheManager) : Prop where
  rest : workPart.Only s s'
  table : ∀ other, other ≠ seq → s'.seqBlocks.lookup other = s.seqBlocks.lookup other
  hashes : ∀ other, other ≠ seq → s'.seqBlockHashes.lookup other = s.seqBlockHashes.lookup other

namespace Slots

theorem rfl' (s : KVCacheManager) : Slots seq s s := ⟨rfl, fun _ _ => rfl⟩

theorem trans (h : Slots seq s t) (h' : Slots seq t u) : Slots seq s u :=
  ⟨h.rest.trans h'.rest, fun other hne => (h'.table other hne).trans (h.table other hne)⟩

theorem of_store (h : StoreOnly s t) : Slots seq s t :=
  ⟨h.mono fun _ _ => rfl, fun other _ => h.keeps (·.seqBlocks.lookup other) fun _ _ => rfl⟩

theorem after (h' : Slots seq t u) (h : StoreOnly s t) : Slots seq s u := (of_store h).trans h'

theorem store (h : Slots seq s t) (h' : StoreOnly t u) : Slots seq s u := h.trans (of_store h')

theorem blockTable (h : Slots seq s t) (hne : other ≠ seq) :
    t.blockTable other = s.blockTable other :=
  congrArg (·.getD []) (h.table other hne)

theorem blockHashes (h : Slots seq s t) (other : Int) : t.blockHashes other = s.blockHashes other :=
  h.rest.keeps (·.blockHashes other) fun _ _ => rfl

section

variable (s : KVCacheManager) (seq : Int)

theorem setTable (blocks : List BlockRef) : Slots seq s (s.setTable seq blocks) :=
  ⟨rfl, fun _ hne => (Table.lookup_insert_ite ..).trans (if_neg hne)⟩

theorem eraseTable : Slots seq s (s.eraseTable seq) :=
  ⟨rfl, fun _ hne => (Table.lookup_erase_ite ..).trans (if_neg hne)⟩

theorem resizeTable (size : Nat) : Slots seq s (s.resizeTable seq size) :=
  (setTable s seq _).store rfl

theorem giveUp (size : Nat) : Slots seq s (s.giveUp seq size) := by
  unfold KVCacheManager.giveUp
  split
  · exact (resizeTable s seq size).trans (eraseTable _ seq)
  · exact resizeTable s seq size

end

theorem pushTaken (h : Slots seq s t) (halloc : t.allocateBlockRefWithEviction = (some block, u)) :
    Slots seq s (u.pushBlock seq (some block)) :=
  (h.store (.allocateBlockRefWithEviction halloc)).trans (setTable u seq _)

theorem reuseBlock (s : KVCacheManager) (seq block : Int) :
    Slots seq s (s.reuseBlock seq block) := by
  unfold KVCacheManager.reuseBlock
  split
  · have hmoved : Slots seq s ((s.uncacheBlock block).pushBlock seq (some block)) :=
      (setTable _ seq _).after rfl
    split
    · exact hmoved
    · exact hmoved.store rfl
  · exact (setTable (s.shareBlock block).2 seq _).after rfl

theorem evictSlot (seq : Int) (slot : Nat) (s : KVCacheManager) :
    Slots seq s (s.evictSlot seq slot) := by
  unfold KVCacheManager.evictSlot
  split
  next block _ =>
    exact ((setTable _ seq _).after (IndexOnly.eraseBlockHash s block).store).store rfl
  · exact rfl' s

theorem evictSlots (seq : Int) (count slot : Nat) (s : KVCacheManager) :
    Slots seq s (evictSlots seq count slot s) := by
  induction count generalizing s slot with
  | zero => exact rfl' s
  | succ count ih => exact (evictSlot seq slot s).trans (ih _ _)

theorem edits (h : Slots seq s t) : Edits seq s t :=
  ⟨h.rest.mono fun _ _ => rfl, h.table,
    fun other _ => h.rest.keeps (·.seqBlockHashes.lookup other) fun _ _ => rfl⟩

end Slots

/-! ## Rules for the calls that drop slots -/

/-- The stale-hash pass over some handles. -/
def dropStale (refs : List BlockRef) (s : KVCacheManager) : KVCacheManager :=
  refs.foldl (fun s ref => s.dropStaleHashIfLast (BlockRef.id ref)) s

/-- A table without its slots past a size, after the stale-hash pass over their handles. -/
def dropTail (s : KVCacheManager) (seq : Int) (size : Nat) : KVCacheManager :=
  (dropStale ((s.blockTable seq).drop size) s).resizeTable seq size

theorem IndexOnly.dropStale (refs : List BlockRef) (s : KVCacheManager) :
    IndexOnly s (dropStale refs s) :=
  .foldl (fun s _ => IndexOnly.dropStaleHashIfLast s _) refs s

section

variable (s : KVCacheManager) (seq : Int)

theorem Slots.dropTail (size : Nat) : Slots seq s (s.dropTail seq size) :=
  (Slots.resizeTable _ seq size).after (IndexOnly.dropStale _ s).store

theorem blockTable_resizeTable (size : Nat) :
    (s.resizeTable seq size).blockTable seq = (s.blockTable seq).take size :=
  blockTable_setTable s seq _

theorem blockTable_dropTail (size : Nat) :
    (s.dropTail seq size).blockTable seq = (s.blockTable seq).take size := by
  rw [dropTail, blockTable_resizeTable,
    (IndexOnly.dropStale _ s).keeps (·.blockTable seq) fun _ _ => rfl]

/-- Giving up a prefix allocation drops every slot and forgets the sequence. -/
theorem rollbackPartialAllocation_zero :
    s.rollbackPartialAllocation seq 0 =
      (((s.dropTail seq 0).setHashes seq []).eraseTable seq).eraseHashes seq := by
  have hempty : ((s.dropTail seq 0).blockTable seq).isEmpty = true := by
    rw [blockTable_dropTail, take_zero]
    rfl
  unfold rollbackPartialAllocation
  dsimp only
  rw [if_pos (by exact hempty), take_zero, Nat.zero_sub]
  rfl

end

/-- One round of the pop loop drops the last slot. -/
theorem popBlocks_succ (n : Nat) (hne : s.blockTable seq ≠ []) :
    popBlocks seq (n + 1) s = popBlocks seq n (s.dropTail seq ((s.blockTable seq).length - 1)) := by
  have htable : ∀ block, (s.dropStaleHashIfLast block).blockTable seq = s.blockTable seq :=
    fun block => (IndexOnly.dropStaleHashIfLast s block).keeps (·.blockTable seq) fun _ _ => rfl
  rw [popBlocks, getLast?_eq_some_getLast hne, dropTail, dropStale,
    drop_length_sub_one hne]
  simp only [foldl_cons, foldl_nil, resizeTable, htable, dropLast_eq_take,
    drop_length_sub_one hne]

/-- The rule for the pop loop, with an invariant that may count the rounds to go. -/
theorem popBlocks_rule (hpop : ∀ n t, t.blockTable seq ≠ [] → I (n + 1) t →
      I n (t.dropTail seq ((t.blockTable seq).length - 1)))
    (hdone : ∀ n t, I n t → P t) (h : I n s) : P (popBlocks seq n s) := by
  induction n generalizing s with
  | zero => exact hdone 0 s h
  | succ n ih =>
    by_cases hempty : s.blockTable seq = []
    · rw [popBlocks, hempty]
      exact hdone _ s h
    · rw [popBlocks_succ n hempty]
      exact ih (hpop n s hempty h)

theorem Slots.popBlocks (s : KVCacheManager) (seq : Int) (n : Nat) :
    Slots seq s (popBlocks seq n s) :=
  popBlocks_rule (I := fun _ => Slots seq s) (fun _ t _ h => h.trans (.dropTail t seq _))
    (fun _ _ h => h) (Slots.rfl' s)

/-- The pop loop keeps the first slots of its table. -/
theorem blockTable_popBlocks (seq : Int) (n : Nat) (s : KVCacheManager) :
    (popBlocks seq n s).blockTable seq =
      (s.blockTable seq).take ((s.blockTable seq).length - n) := by
  induction n generalizing s with
  | zero => exact take_length.symm
  | succ n ih =>
    by_cases hempty : s.blockTable seq = []
    · rw [popBlocks, hempty, take_nil]
      exact hempty
    · rw [popBlocks_succ n hempty, ih, blockTable_dropTail, take_take, length_take]
      congr 1
      omega

/-- The rule for `rollback`: it pops slots and cuts the recorded hashes. -/
theorem rollback_rule {newSeqLen : Int} (h : P s)
    (hpop : 0 ≤ newSeqLen → s.blockTable seq ≠ [] → P (popBlocks seq ((s.blockTable seq).length -
      (newSeqLen.toNat + s.blockSize - 1) / s.blockSize) s))
    (hcut : ∀ t size, (t.blockTable seq).length ≤ size → P t →
      P (t.setHashes seq ((t.blockHashes seq).take size)))
    (hswa : ∀ t swa, P t → P { t with swa }) : P (s.rollback seq newSeqLen) := by
  unfold rollback
  split
  · exact h
  next blocks hlookup =>
    obtain rfl : s.blockTable seq = blocks := congrArg (·.getD []) hlookup
    split
    · exact h
    next hargs =>
      obtain ⟨hne, hnonneg⟩ := not_or.mp hargs
      have hpopped := hpop (Int.not_lt.mp hnonneg) fun hnil => hne (List.isEmpty_iff.mpr hnil)
      dsimp only
      generalize (newSeqLen.toNat + s.blockSize - 1) / s.blockSize = blocksNeeded at hpopped ⊢
      refine hswa _ _ ?_
      split
      · exact hpopped
      next hashes hsome =>
        obtain rfl : blockHashes _ seq = hashes := congrArg (·.getD []) hsome
        refine hcut _ _ ?_ hpopped
        rw [blockTable_popBlocks, length_take]
        omega

/-- The rule for streaming eviction: it may pin the sinks, makes holes and clears hashes. -/
theorem evictMiddleBlocks_rule {nSinkTokens nWindowTokens : Int} (h : P s)
    (hpin : ∀ sinkEnd : Nat, P (s.pinPrefix seq sinkEnd))
    (hevict : ∀ t slot, P t → P (t.evictSlot seq slot))
    (hclear : ∀ t sinkEnd totalBlocks, P t → P (t.clearHashesFrom seq sinkEnd totalBlocks)) :
    P (s.evictMiddleBlocks seq nSinkTokens nWindowTokens).2 := by
  have hslots : ∀ count slot t, P t → P (evictSlots seq count slot t) := by
    intro count
    induction count with
    | zero => exact fun _ _ ht => ht
    | succ count ih => exact fun slot t ht => ih _ _ (hevict t slot ht)
  rw [s.evictMiddleBlocks_eq seq nSinkTokens nWindowTokens rfl rfl]
  split
  · refine hclear _ _ _ (hslots _ _ _ ?_)
    split
    · exact hpin _
    · exact h
  · exact h

/-- What freeing every sequence keeps, `evict_lru` keeps. -/
theorem evictLru_keeps (h : P s) (hfree : ∀ seq, P (s.freeSequence seq)) : P s.evictLru.2 := by
  unfold evictLru
  split
  · exact h
  · exact hfree _

/-- The rule for `append_block`. -/
theorem appendBlock_rule (h : P s) (hfail : ∀ t, s.allocateBlockRefWithEviction = (none, t) → P t)
    (hpush : ∀ block t, seq ∈ s.seqBlocks → s.allocateBlockRefWithEviction = (some block, t) →
      P (t.pushBlock seq (some block))) : P (s.appendBlock seq).2 := by
  unfold appendBlock
  split
  · exact h
  next hlookup =>
    split
    next after halloc => exact hfail after halloc
    next block after halloc =>
      exact hpush block after (Table.mem_of_lookup hlookup) halloc

theorem Slots.appendBlock (s : KVCacheManager) (seq : Int) : Slots seq s (s.appendBlock seq).2 :=
  appendBlock_rule (rfl' s) (fun _ halloc => of_store (.allocateBlockRefWithEviction halloc))
    fun _ _ _ halloc => (rfl' s).pushTaken halloc

namespace Edits

theorem trans (h : Edits seq s t) (h' : Edits seq t u) : Edits seq s u :=
  ⟨h.rest.trans h'.rest, fun other hne => (h'.table other hne).trans (h.table other hne),
    fun other hne => (h'.hashes other hne).trans (h.hashes other hne)⟩

theorem after (h' : Edits seq t u) (h : StoreOnly s t) : Edits seq s u :=
  (Slots.of_store h).edits.trans h'

variable (s : KVCacheManager) (seq : Int)

theorem setHashes (hashes : List Hash) : Edits seq s (s.setHashes seq hashes) :=
  ⟨rfl, fun _ _ => rfl, fun _ hne => (Table.lookup_insert_ite ..).trans (if_neg hne)⟩

theorem eraseHashes : Edits seq s (s.eraseHashes seq) :=
  ⟨rfl, fun _ _ => rfl, fun _ hne => (Table.lookup_erase_ite ..).trans (if_neg hne)⟩

theorem rollbackPartialAllocation : Edits seq s (s.rollbackPartialAllocation seq 0) := by
  rw [rollbackPartialAllocation_zero]
  have hcut := (Slots.dropTail s seq 0).edits.trans (setHashes _ seq [])
  exact (hcut.trans (Slots.eraseTable _ seq).edits).trans (eraseHashes _ seq)

theorem startTable (tokens : List Token) (maxReuseBlocks : Int) (contentSalt : Hash) :
    Edits seq s (s.startTable seq tokens maxReuseBlocks contentSalt).2 := by
  refine prefixLoop_rule (I := fun _ => Edits seq s) (P := fun out => Edits seq s out.2) ?_ ?_
    (fun _ _ h => h) ?_ ((Slots.setTable s seq (s.blockTable seq)).edits.trans (setHashes _ seq _))
  · intro n t hash block h _
    exact (h.trans (Slots.reuseBlock t seq block).edits).trans (setHashes _ seq _)
  · intro n t u v hash block recorded h hmiss halloc
    exact (h.trans ((Slots.of_store hmiss.index.store).pushTaken halloc).edits).trans
      (setHashes _ seq _)
  · intro n t u v hash h hmiss halloc
    exact h.trans ((rollbackPartialAllocation v seq).after
      (hmiss.index.store.trans (StoreOnly.allocateBlockRefWithEviction halloc)))

theorem clearHashesFrom (sinkEnd totalBlocks : Nat) :
    Edits seq s (s.clearHashesFrom seq sinkEnd totalBlocks) := by
  unfold KVCacheManager.clearHashesFrom
  split
  · exact (Slots.rfl' s).edits
  next hashes _ =>
    have hcleared : IndexOnly s ((((s.blockTable seq).take (min totalBlocks hashes.length)).drop
        sinkEnd).foldl KVCacheManager.eraseRefHash s) := .foldl IndexOnly.eraseRefHash _ s
    exact (setHashes _ seq _).after hcleared.store

theorem registerBlockHashes (tokens : List Token) (contentSalt : Hash) :
    Edits seq s (s.registerBlockHashes seq tokens contentSalt) := by
  unfold KVCacheManager.registerBlockHashes
  split
  · split
    · exact (Slots.rfl' s).edits
    · exact (setHashes _ seq _).after (IndexOnly.registerLoop tokens _ 0 contentSalt _ s).store
  · exact (Slots.rfl' s).edits

end Edits

/-! ## Calls on one sequence -/

/-- Two states that differ at most in what a call on one sequence works on: not in the pins, nor in
the tables and recorded hashes of other sequences. -/
structure Serves (seq : Int) (s s' : KVCacheManager) : Prop where
  rest : callPart.Only s s'
  table : ∀ other, other ≠ seq → s'.seqBlocks.lookup other = s.seqBlocks.lookup other
  hashes : ∀ other, other ≠ seq → s'.seqBlockHashes.lookup other = s.seqBlockHashes.lookup other

namespace Serves

theorem trans (h : Serves seq s t) (h' : Serves seq t u) : Serves seq s u :=
  ⟨h.rest.trans h'.rest, fun other hne => (h'.table other hne).trans (h.table other hne),
    fun other hne => (h'.hashes other hne).trans (h.hashes other hne)⟩

theorem blockTable (h : Serves seq s t) (hne : other ≠ seq) :
    t.blockTable other = s.blockTable other :=
  congrArg (·.getD []) (h.table other hne)

theorem blockHashes (h : Serves seq s t) (hne : other ≠ seq) :
    t.blockHashes other = s.blockHashes other :=
  congrArg (·.getD []) (h.hashes other hne)

theorem of_edits (h : Edits seq s t) : Serves seq s t :=
  ⟨h.rest.mono fun _ _ => rfl, h.table, h.hashes⟩

theorem of_slots (h : Slots seq s t) : Serves seq s t := of_edits h.edits

theorem rfl' (s : KVCacheManager) : Serves seq s s := ⟨rfl, fun _ _ => rfl, fun _ _ => rfl⟩

theorem trackLru (h : Serves seq s t) (tracked : Int) : Serves seq s (t.trackLru tracked) := by
  refine h.trans ?_
  unfold KVCacheManager.trackLru
  split <;> exact ⟨rfl, fun _ _ => rfl, fun _ _ => rfl⟩

theorem allocateBlocks (s : KVCacheManager) (seq numBlocks : Int) :
    Serves seq s (s.allocateBlocks seq numBlocks).2 :=
  allocateBlocks_rule (I := fun _ => Slots seq s) (P := fun out => Serves seq s out.2)
    (fun _ => rfl' s) (.setTable s seq _) (fun _ _ _ _ h halloc => h.pushTaken halloc)
    (fun _ h => (of_slots h).trackLru seq) fun _ _ u h halloc =>
      of_slots ((h.store (.allocateBlockRefWithEviction halloc)).trans (.giveUp u seq _))

theorem of_allocateBlocks {ok : Bool} (h : s.allocateBlocks seq numBlocks = (ok, t)) :
    Serves seq s t := by
  have hcall := allocateBlocks s seq numBlocks
  rwa [h] at hcall

variable (s : KVCacheManager)

theorem appendBlock (seq : Int) : Serves seq s (s.appendBlock seq).2 :=
  of_slots (.appendBlock s seq)

theorem allocateBlocksWithPrefix (seq : Int) (tokens : List Token) (maxReuseBlocks : Int)
    (contentSalt : Hash) :
    Serves seq s (s.allocateBlocksWithPrefix seq tokens maxReuseBlocks contentSalt).2 :=
  allocateBlocksWithPrefix_keeps (rfl' s)
    (fun n => (of_slots (.setTable s seq _)).trans (allocateBlocks _ seq n))
    (of_edits (.startTable s seq tokens maxReuseBlocks contentSalt)) fun _ h => h.trackLru seq

theorem freeSequence (seq : Int) : Serves seq s (s.freeSequence seq) := by
  unfold KVCacheManager.freeSequence
  split
  · exact rfl' s
  next blocks _ =>
    have hreleased := (Slots.eraseTable _ seq).after (.releaseSlots blocks s)
    dsimp only
    generalize (releaseSlots blocks s).2.eraseTable seq = t at hreleased ⊢
    have hforgotten := hreleased.edits.trans (.eraseHashes t seq)
    exact (of_edits hforgotten).trans ⟨rfl, fun _ _ => rfl, fun _ _ => rfl⟩

theorem rollback (seq newSeqLen : Int) : Serves seq s (s.rollback seq newSeqLen) :=
  rollback_rule (rfl' s) (fun _ _ => of_slots (.popBlocks s seq _))
    (fun t _ _ h => h.trans (of_edits (.setHashes t seq _)))
    fun _ _ h => h.trans ⟨rfl, fun _ _ => rfl, fun _ _ => rfl⟩

end Serves

/-! ## Isolation -/

/-- What is on record for a sequence: its table and its hashes. -/
def record (s : KVCacheManager) (seq : Int) : Option (List BlockRef) × Option (List Hash) :=
  (s.seqBlocks.lookup seq, s.seqBlockHashes.lookup seq)

/-- The sequence whose record a call works on. -/
def target (s : KVCacheManager) : Op → Option Int
  | .allocateBlocks seq _ | .allocateBlocksWithPrefix seq _ _ _ | .appendBlock seq
  | .freeSequence seq | .registerBlockHashes seq _ _ | .rollback seq _
  | .evictMiddleBlocks seq _ _ => some seq
  | .evictLru => some s.evictLru.1
  | _ => none

theorem Serves.record (h : Serves other s t) (hne : some other ≠ some seq) :
    t.record seq = s.record seq :=
  have hother : seq ≠ other := fun heq => hne (congrArg some heq.symm)
  Prod.ext (h.table seq hother) (h.hashes seq hother)

theorem PinsOnly.record (h : PinsOnly s t) : t.record seq = s.record seq :=
  h.keeps (·.record seq) fun _ _ => rfl

theorem StoreOnly.record (h : StoreOnly s t) : t.record seq = s.record seq :=
  h.keeps (·.record seq) fun _ _ => rfl

theorem record_step {op : Op} (hop : s.target op ≠ some seq) :
    (s.step op).record seq = s.record seq := by
  cases op with
  | allocateBlocks => exact (Serves.allocateBlocks ..).record hop
  | allocateBlocksWithPrefix => exact (Serves.allocateBlocksWithPrefix ..).record hop
  | appendBlock => exact (Serves.appendBlock ..).record hop
  | freeSequence => exact (Serves.freeSequence ..).record hop
  | registerBlockHashes => exact (Serves.of_edits (.registerBlockHashes ..)).record hop
  | rollback => exact (Serves.rollback ..).record hop
  | evictMiddleBlocks =>
    exact evictMiddleBlocks_rule (P := fun t => t.record seq = s.record seq) rfl
      (fun _ => (PinsOnly.pinPrefix ..).record)
      (fun _ _ ht => ((Serves.of_slots (.evictSlot ..)).record hop).trans ht)
      fun _ _ _ ht => ((Serves.of_edits (.clearHashesFrom ..)).record hop).trans ht
  | evictLru =>
    change s.evictLru.2.record seq = _
    unfold target evictLru at hop
    unfold evictLru
    split
    · rfl
    next candidate hfound =>
      rw [hfound] at hop
      exact (Serves.freeSequence s candidate).record hop
  | pinPrefix => exact (PinsOnly.pinPrefix ..).record
  | unpinPrefix => exact (PinsOnly.unpinPrefix ..).record
  | evictCachedBlock => exact (StoreOnly.reclaimCachedBlock s).record
  | loadPrefixCache => exact (StoreOnly.loadPrefixCache ..).record
  | touch | setPrefixCachingEnabled | setPinBudgetBlocks | enableSwaSizing | swaPrepare | swaTrim =>
    rfl

/-- Sequences do not disturb each other: a run without a call on a sequence, and that does not evict
it, leaves its table and its hashes as they are. -/
theorem run_isolated (s : KVCacheManager) (seq : Int) {ops : List Op}
    (h : SafeRun (fun s op => s.target op ≠ some seq) s ops) :
    (s.run ops).record seq = s.record seq :=
  @safeRun_invariant (fun t => t.record seq = s.record seq) _
    (fun _ _ ht hop => (record_step hop).trans ht) _ rfl _ h

/-- Another sequence takes the rest of the pool and is evicted. -/
theorem run_isolated_two :
    (((fresh 4 3 0).step (.allocateBlocks 1 2)).run [.allocateBlocks 2 1, .appendBlock 2, .touch 1,
      .evictLru, .loadPrefixCache [(7, true)]]).record 1 = (some [some 0, some 1], none) :=
  run_isolated _ 1 (by decide)

end Quench.KVCacheManager

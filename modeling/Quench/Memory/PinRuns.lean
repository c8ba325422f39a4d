import Quench.Memory.Available
import Quench.Memory.PrefixIndexReuse

/-!
# Pinned blocks over whole runs

A prefix allocation that fails after it took a pinned block out of the cache drops the last
reference of that block. `PinSafe` rules this out, and the two edits that do not look at the pins.
`run_keeps_pinned_blocks` is the result for every run of such calls, and `pinned_block_handed_out` a
run without the condition.
-/

namespace Quench.KVCacheManager

open List

variable {s : KVCacheManager} {tokens : List Token} {maxReuseBlocks block : Int} {n b : Nat}
  {parentHash hash : Hash} {reuseOpen : Bool}

open Lib

/-! ## The blocks a prompt reuses -/

/-- The blocks a prefix allocation reuses from block `b` on: those of the leading full blocks, under
the cap, whose chained hash names a block with references. -/
def reusedBlocks (s : KVCacheManager) (tokens : List Token) (maxReuseBlocks : Int) :
    Nat → Nat → Hash → List Int
  | 0, _, _ => []
  | n + 1, b, parentHash =>
    let hash := computeBlockHash (blockTokens s.blockSize tokens b) parentHash
    if s.prefixCachingEnabled ∧ (b + 1) * s.blockSize ≤ tokens.length ∧
        ¬ (0 ≤ maxReuseBlocks ∧ maxReuseBlocks ≤ b) then
      match s.blockHashToId.lookup hash with
      | none => []
      | some block =>
        if s.refCount block = 0 then []
        else block :: reusedBlocks s tokens maxReuseBlocks n (b + 1) hash
    else []

section

variable (hhash : hash = computeBlockHash (blockTokens s.blockSize tokens b) parentHash)
include hhash

/-- A round that finds a live block reuses it. -/
theorem reusedBlocks_hit (hcan : CanHit s tokens maxReuseBlocks b reuseOpen)
    (hlookup : s.blockHashToId.lookup hash = some block) (hpos : 0 < s.refCount block) :
    s.reusedBlocks tokens maxReuseBlocks (n + 1) b parentHash =
      block :: s.reusedBlocks tokens maxReuseBlocks n (b + 1) hash := by
  rw [reusedBlocks, ← hhash, if_pos ⟨hcan.enabled, hcan.full, hcan.below_cap⟩]
  simp only [hlookup, if_neg (Nat.pos_iff_ne_zero.mp hpos)]

/-- A round that finds none ends the reuse. -/
theorem reusedBlocks_miss (hdead : ∀
      found, CanHit s tokens maxReuseBlocks b reuseOpen → s.blockHashToId.lookup hash = some found →
      s.refCount found = 0) :
    (if reuseOpen then s.reusedBlocks tokens maxReuseBlocks (n + 1) b parentHash else []) = [] := by
  split
  next hopen =>
    rw [reusedBlocks, ← hhash]
    split
    next hcan =>
      split
      · rfl
      next found hlookup =>
        rw [if_pos (hdead found ⟨hopen, hcan.1, hcan.2.1, hcan.2.2⟩ hlookup)]
    next => rfl
  next => rfl

end

/-- Nothing is reused past a round that does not look for a block. -/
theorem reusedBlocks_of_part
    (hpart : ¬ (s.prefixCachingEnabled = true ∧ (b + 1) * s.blockSize ≤ tokens.length)) :
    s.reusedBlocks tokens maxReuseBlocks n (b + 1) parentHash = [] := by
  cases n with
  | zero => rfl
  | succ n =>
    rw [reusedBlocks, if_neg]
    rintro ⟨henabled, hfull, -⟩
    by_cases hnow : (b + 1) * s.blockSize ≤ tokens.length
    · exact hpart ⟨henabled, hnow⟩
    · exact not_full_succ hnow hfull

theorem reusedBlocks_congr (s s' : KVCacheManager) (hsize : s'.blockSize = s.blockSize)
    (henabled : s'.prefixCachingEnabled = s.prefixCachingEnabled)
    (hids : s'.blockHashToId = s.blockHashToId)
    (hlive : ∀ block, s'.refCount block = 0 ↔ s.refCount block = 0) (tokens : List Token)
    (maxReuseBlocks : Int) (n b : Nat) (parentHash : Hash) :
    s'.reusedBlocks tokens maxReuseBlocks n b parentHash =
      s.reusedBlocks tokens maxReuseBlocks n b parentHash := by
  induction n generalizing b parentHash with
  | zero => rfl
  | succ n ih =>
    unfold reusedBlocks
    rw [hsize, henabled, hids]
    dsimp only
    split
    · split
      · rfl
      next block _ => simp only [hlive, ih]
    · rfl

/-- Reuse leaves the same blocks without references. -/
theorem refCount_reuseBlock_eq_zero (seq : Int) (hlive : 0 < s.refCount block) (other : Int) :
    (s.reuseBlock seq block).refCount other = 0 ↔ s.refCount other = 0 := by
  have hrefs := (reuseBlock_spec seq hlive).refs other
  split at hrefs
  next heq => rw [heq.1] at hrefs ⊢; omega
  next => omega

/-- Reuse of a block changes nothing about what the later rounds reuse. -/
theorem reusedBlocks_reuseBlock (seq : Int) (hash : Hash) (hlive : 0 < s.refCount block)
    (tokens : List Token) (maxReuseBlocks : Int) (n b : Nat) (parentHash : Hash) :
    ((s.reuseBlock seq block).pushHash seq hash).reusedBlocks tokens maxReuseBlocks n b parentHash =
      s.reusedBlocks tokens maxReuseBlocks n b parentHash := by
  have hspec := reuseBlock_spec seq hlive
  exact reusedBlocks_congr s ((s.reuseBlock seq block).pushHash seq hash) hspec.blockSize
    hspec.enabled hspec.ids (refCount_reuseBlock_eq_zero seq hlive) tokens maxReuseBlocks n b
    parentHash

/-- Nothing is reused after a round that took a fresh block. -/
theorem reusedBlocks_fresh {t after : KVCacheManager} {seq : Int} {recorded : Hash}
    {nextOpen : Bool} (hmiss : Misses s hash t)
    (halloc : t.allocateBlockRefWithEviction = (some block, after)) (hopen : nextOpen = true →
      reuseOpen = true ∧ ¬ (s.prefixCachingEnabled = true ∧ (b + 1) * s.blockSize ≤ tokens.length))
    (maxReuseBlocks : Int) (n : Nat) (nextHash : Hash) :
    (if nextOpen then ((after.pushBlock seq (some block)).pushHash seq recorded).reusedBlocks tokens
      maxReuseBlocks n (b + 1) nextHash else []) = [] := by
  split
  next hstill =>
    refine reusedBlocks_of_part fun hboth => (hopen hstill).2 ?_
    have hsame := hmiss.sameTables.trans (.allocateBlockRefWithEviction halloc)
    rw [← hsame.blockSize, ← hsame.prefixCachingEnabled]
    exact hboth
  next => rfl

/-- A reused block was not available, so reuse takes nothing from the others. -/
theorem available_reuseBlock (seq : Int) (hlive : 0 < s.refCount block) (reserved : List Int) :
    (s.reuseBlock seq block).available reserved = s.available (block :: reserved) := by
  have hspec := reuseBlock_spec seq hlive
  refine available_congr hspec.numBlocks fun other => ?_
  rw [IsAvailable, IsAvailable, hspec.refs, hspec.cached, hspec.pinned, Finset.mem_erase]
  by_cases heq : other = block
  · subst heq
    simp only [ne_eq, not_true_eq_false, false_and, or_false, mem_cons, true_or, and_false]
    omega
  · simp [heq]

/-- A block that is reused leaves the cache, and the counter if it was not pinned. -/
theorem PinsCounted.reuseBlock {slack : Nat} (h : PinsCounted slack s) (seq block : Int) :
    PinsCounted slack (s.reuseBlock seq block) := by
  unfold KVCacheManager.reuseBlock
  split
  next hcached =>
    have hcounted := h.uncacheBlock hcached
    split at hcounted
    next hpinned => rw [if_pos hpinned]; exact { hcounted with }
    next hpinned => rw [if_neg hpinned]; exact { hcounted with }
  next => exact { h with }

namespace PinsHeld

variable {total : Nat} {s' : KVCacheManager} {inflight : List BlockRef}

theorem reuseBlock (seq : Int) (h : PinsHeld total s inflight) (hlive : 0 < s.refCount block) :
    PinsHeld total (s.reuseBlock seq block) inflight := by
  have hspec := reuseBlock_spec seq hlive
  refine ⟨h.owned.reuseBlock seq (.inr hlive), h.counted.reuseBlock seq block,
    fun pinned hmem => ?_⟩
  have := h.live pinned (hspec.pinned ▸ hmem)
  have := hspec.refs pinned
  omega

end PinsHeld

/-! ## Prefix allocation -/

/-- A sequence's table may be given up: every pinned block has a reference outside it, and a block
that is still to be reused has it in a slot, which reuse does not move. -/
def HeldElsewhere (s : KVCacheManager) (seq : Int) (reused : List Int) : Prop :=
  ∀ block ∈ s.pinnedBlocks, (s.blockTable seq).count (some block) < s.refCount block ∧
    (block ∈ reused → (s.blockTable seq).count (some block) < s.slotCount block)

/-- The slot a push adds, in the table and over all tables. -/
theorem count_pushBlock (s : KVCacheManager) (seq block other : Int) :
    ((s.pushBlock seq (some block)).blockTable seq).count (some other) =
        (s.blockTable seq).count (some other) + (if other = block then 1 else 0) ∧
      (s.pushBlock seq (some block)).slotCount other =
        s.slotCount other + if other = block then 1 else 0 := by
  have htable : ((s.pushBlock seq (some block)).blockTable seq).count (some other) =
      (s.blockTable seq).count (some other) + if other = block then 1 else 0 := by
    rw [pushBlock, blockTable_setTable, count_append, count_some_cons, count_nil,
      Nat.zero_add]
  refine ⟨htable, ?_⟩
  have hslots := slotCount_setTable s seq (s.blockTable seq ++ [some block]) other
  rw [pushBlock, blockTable_setTable] at htable
  rw [pushBlock]
  omega

/-- The calls that keep pinned blocks: a prefix allocation that starts a table reuses only pinned
blocks that are in a slot of some sequence, or is covered by the available blocks; a rollback and a
streaming eviction drop fewer references to a pinned block, or to a sink, than it has. -/
def PinSafe (s : KVCacheManager) : Op → Prop
  | .allocateBlocksWithPrefix seq tokens maxReuseBlocks contentSalt =>
    let needed := (tokens.length + s.blockSize - 1) / s.blockSize
    let reused := s.reusedBlocks tokens maxReuseBlocks needed 0 contentSalt
    s.blockTable seq ≠ [] ∨
      (∀ block ∈ reused, block ∈ s.pinnedBlocks → 0 < s.slotCount block) ∨
      needed ≤ reused.length + (s.available reused).card
  | .rollback seq newSeqLen =>
    ∀ block ∈ s.pinnedBlocks, (s.poppedSlots seq newSeqLen).count (some block) < s.refCount block
  | .evictMiddleBlocks seq nSinkTokens nWindowTokens =>
    (∀ block ∈ s.pinnedBlocks,
      (s.middleSlots seq nSinkTokens nWindowTokens).count (some block) < s.refCount block) ∧
    ∀ block ∈ s.sinkBlocks seq nSinkTokens,
      (s.middleSlots seq nSinkTokens nWindowTokens).count (some block) < s.refCount block
  | _ => True

namespace PinsHeld

variable {total : Nat} {s' : KVCacheManager} {inflight : List BlockRef}
variable {seq : Int} {reused : List Int}

/-- A fresh block is not pinned, so a push of it leaves the pinned blocks as they are. -/
theorem heldElsewhere_pushFresh (hkept : KeepsPinned s s') (hout : block ∉ s.pinnedBlocks)
    (h : HeldElsewhere s seq reused) : HeldElsewhere (s'.pushBlock seq (some block)) seq [] := by
  intro pinned hmem
  have hpinned : pinned ∈ s.pinnedBlocks := hkept.pinned ▸ hmem
  have hne : pinned ≠ block := fun heq => hout (heq ▸ hpinned)
  have hlt := (h pinned hpinned).1
  have hcount := (count_pushBlock s' seq block pinned).1
  rw [if_neg hne, hkept.blockTable] at hcount
  refine ⟨?_, fun hnil => by cases hnil⟩
  change _ < s'.refCount pinned
  rw [hkept.refs pinned hpinned]
  omega

/-- Reuse of the next block keeps a reference outside the table for every pinned block. -/
theorem heldElsewhere_reuseBlock (howned : PinsHeld total s inflight) (hlive : 0 < s.refCount block)
    (h : HeldElsewhere s seq (block :: reused)) :
    HeldElsewhere (s.reuseBlock seq block) seq reused := by
  have hspec := reuseBlock_spec seq hlive
  have hafter := (howned.reuseBlock seq hlive).owned
  intro pinned hmem
  obtain ⟨hcount, hslots⟩ := count_pushBlock s seq block pinned
  have htable : (s.reuseBlock seq block).blockTable seq =
      (s.pushBlock seq (some block)).blockTable seq := by
    rw [KVCacheManager.blockTable, hspec.seqBlocks]
    rfl
  have hslot : (s.reuseBlock seq block).slotCount pinned =
      (s.pushBlock seq (some block)).slotCount pinned := by
    rw [slotCount, hspec.seqBlocks]
    rfl
  obtain ⟨hrefs, hreused⟩ := h pinned (hspec.pinned ▸ hmem)
  have hsum := hafter.refs pinned
  have hcounts := hspec.refs pinned
  rw [htable, hslot, hcount, hslots]
  rw [hslot, hslots] at hsum
  by_cases heq : pinned = block
  · have := hreused (heq ▸ mem_cons_self)
    exact ⟨by omega, fun _ => by omega⟩
  · rw [if_neg heq] at ⊢
    exact ⟨by omega, fun hmem => hreused (mem_cons_of_mem _ hmem)⟩

theorem heldElsewhere_congr (howners : SameOwners s s') (hpins : SamePins s s')
    (h : HeldElsewhere s seq reused) : HeldElsewhere s' seq reused := by
  intro block hmem
  have hsame := h block (hpins.pinned ▸ hmem)
  rw [howners.blockTable, refCount, howners.pool, slotCount, howners.seqBlocks]
  exact hsame

theorem available_of_same {reserved : List Int} (howners : SameOwners s s')
    (hpins : SamePins s s') : s'.available reserved = s.available reserved :=
  available_congr (congrArg BlockPool.numBlocks howners.pool) fun block => by
    rw [IsAvailable, IsAvailable, refCount, howners.pool, hpins.cached, hpins.pinned]
    rfl

/-- The condition of a prefix allocation from block `b` on: the blocks it will reuse leave every
pinned block a reference outside the table, or what is available covers the other blocks. -/
def PrefixSafe (s : KVCacheManager) (seq : Int) (tokens : List Token) (maxReuseBlocks : Int)
    (n b : Nat) (parentHash : Hash) (reuseOpen : Bool) : Prop :=
  let reused := if reuseOpen then s.reusedBlocks tokens maxReuseBlocks n b parentHash else []
  HeldElsewhere s seq reused ∨ n ≤ reused.length + (s.available reused).card

theorem prefixLoop (seq : Int) (tokens : List Token) (maxReuseBlocks : Int) (n b reused : Nat)
    (parentHash : Hash) (reuseOpen : Bool) (h : PinsHeld total s inflight)
    (hsafe : PrefixSafe s seq tokens maxReuseBlocks n b parentHash reuseOpen) :
    PinsHeld total (prefixLoop seq tokens maxReuseBlocks n b reused parentHash reuseOpen s).2
      inflight := by
  induction n generalizing s b reused parentHash reuseOpen with
  | zero => exact h
  | succ n ih =>
    have hround := prefixLoop_round seq tokens maxReuseBlocks n b reused parentHash reuseOpen s
    generalize KVCacheManager.prefixLoop _ _ _ (n + 1) _ _ _ _ _ = result at hround ⊢
    cases hround with
    | hit hash block hcan hhash hlookup hlive =>
      have hpos : 0 < s.refCount block :=
        hlive.elim h.owned.refCount_pos_of_cached id
      have hnext := reusedBlocks_reuseBlock seq hash hpos tokens maxReuseBlocks n (b + 1) hash
      have hafter := h.reuseBlock seq hpos
      have howners := SameOwners.pushHash (s.reuseBlock seq block) seq hash
      refine ih _ _ _ _ (hafter.congr howners ⟨rfl, rfl, rfl, rfl⟩) ?_
      rw [PrefixSafe, if_pos hcan.reuseOpen, reusedBlocks_hit hhash hcan hlookup hpos] at hsafe
      rw [PrefixSafe, if_pos rfl, hnext, available_of_same howners ⟨rfl, rfl, rfl, rfl⟩,
        available_reuseBlock seq hpos]
      rcases hsafe with hheld | hcovered
      · exact .inl (heldElsewhere_congr howners ⟨rfl, rfl, rfl, rfl⟩
          (heldElsewhere_reuseBlock h hpos hheld))
      · rw [length_cons] at hcovered
        exact .inr (by omega)
    | fresh hash nextHash recorded nextOpen t after block hhash hmiss hdead halloc _ _ hopen =>
      rw [PrefixSafe, reusedBlocks_miss hhash hdead] at hsafe
      have ht := h.congr hmiss.sameOwners hmiss.samePins
      obtain ⟨hafter, hkept, hout⟩ := ht.allocateBlockRefWithEviction halloc
      have howners := SameOwners.pushHash (after.pushBlock seq (some block)) seq recorded
      refine ih _ _ _ _ ((hafter.pushBlock seq).congr howners ⟨rfl, rfl, rfl, rfl⟩) ?_
      rw [PrefixSafe, reusedBlocks_fresh hmiss halloc hopen,
        available_of_same howners ⟨rfl, rfl, rfl, rfl⟩]
      rcases hsafe with hheld | hcovered
      · exact .inl (heldElsewhere_congr howners ⟨rfl, rfl, rfl, rfl⟩
          (heldElsewhere_pushFresh hkept (hout block rfl)
            (heldElsewhere_congr hmiss.sameOwners hmiss.samePins hheld)))
      · rw [← available_of_same hmiss.sameOwners hmiss.samePins, length_nil,
          Nat.zero_add] at hcovered
        obtain ⟨_, _, heq, hcard⟩ :=
          ht.toCounted.allocateBlockRefWithEviction_available (by omega)
        rw [halloc] at heq
        cases heq
        right
        change n ≤ 0 + (after.available []).card
        omega
    | exhausted hash t after hhash hmiss hdead halloc =>
      rw [PrefixSafe, reusedBlocks_miss hhash hdead] at hsafe
      have ht := h.congr hmiss.sameOwners hmiss.samePins
      obtain ⟨hafter, hkept, -⟩ := ht.allocateBlockRefWithEviction halloc
      rcases hsafe with hheld | hcovered
      · refine hafter.of_none_cons.rollbackPartialAllocation seq fun pinned hmem => ?_
        rw [hkept.pinned] at hmem
        rw [hkept.blockTable, hkept.refs pinned hmem]
        exact (heldElsewhere_congr hmiss.sameOwners hmiss.samePins hheld pinned hmem).1
      · rw [← available_of_same hmiss.sameOwners hmiss.samePins, length_nil,
          Nat.zero_add] at hcovered
        obtain ⟨_, _, heq, -⟩ := ht.toCounted.allocateBlockRefWithEviction_available (by omega)
        rw [halloc] at heq
        cases heq

theorem allocateBlocksWithPrefix (seq : Int) (tokens : List Token) (maxReuseBlocks : Int)
    (contentSalt : Hash) (h : PinsHeld total s inflight)
    (hsafe : PinSafe s (.allocateBlocksWithPrefix seq tokens maxReuseBlocks contentSalt)) :
    PinsHeld total (s.allocateBlocksWithPrefix seq tokens maxReuseBlocks contentSalt).2
      inflight := by
  have htouched := h.setTable (h.owned.touchTable seq)
  refine allocateBlocksWithPrefix_cases (P := fun out => PinsHeld total out.2 inflight)
    (fun _ => h) ?_ ?_
  · intro _ n ok t heq
    have hmore := htouched.allocateBlocks seq n
    rwa [heq] at hmore
  intro _ hfresh reused t heq
  have hloop : PinsHeld total (s.startTable seq tokens maxReuseBlocks contentSalt).2 inflight := by
    have hentered : PinsHeld total (s.entered seq) inflight :=
      htouched.congr ⟨rfl, rfl, rfl, .refl _⟩ ⟨rfl, rfl, rfl, rfl⟩
    refine hentered.prefixLoop seq tokens maxReuseBlocks _ 0 0 contentSalt true ?_
    have hreused := reusedBlocks_congr s (s.entered seq) rfl rfl rfl (fun _ => Iff.rfl)
      tokens maxReuseBlocks ((tokens.length + s.blockSize - 1) / s.blockSize) 0 contentSalt
    change PrefixSafe (s.entered seq) seq tokens maxReuseBlocks _ 0 contentSalt true
    rw [PrefixSafe, if_pos rfl, hreused]
    rcases hsafe with hne | hheld | hcovered
    · exact absurd hfresh hne
    · refine .inl fun block hmem => ?_
      have hslots := slotCount_setTable s seq (s.blockTable seq) block
      have hcount : ((s.entered seq).blockTable seq).count (some block) = 0 := by
        rw [(s.entered_sameTables seq).blockTable, hfresh]
        rfl
      refine ⟨hcount.trans_lt (h.live block hmem), fun hin => hcount.trans_lt ?_⟩
      change 0 < (s.setTable seq (s.blockTable seq)).slotCount block
      have := hheld block hin hmem
      omega
    · exact .inr hcovered
  rw [heq] at hloop
  dsimp only
  split
  · exact hloop
  · exact hloop.trackLru seq

end PinsHeld

/-! ## Runs -/

instance PinSafe.decidable (s : KVCacheManager) : (op : Op) → Decidable (PinSafe s op)
  | .allocateBlocksWithPrefix _ _ _ _ => inferInstanceAs (Decidable (_ ∨ _ ∨ _))
  | .rollback _ _ => inferInstanceAs (Decidable (∀ block ∈ s.pinnedBlocks, _ < _))
  | .evictMiddleBlocks _ _ _ => inferInstanceAs (Decidable ((∀ block ∈ s.pinnedBlocks, _ < _) ∧
      ∀ block ∈ s.sinkBlocks _ _, _ < _))
  | .allocateBlocks _ _ | .appendBlock _ | .freeSequence _ | .registerBlockHashes _ _ _
  | .pinPrefix _ _ | .unpinPrefix _ | .evictCachedBlock | .evictLru | .touch _
  | .setPrefixCachingEnabled _ | .setPinBudgetBlocks _ | .loadPrefixCache _
  | .enableSwaSizing _ _ | .swaPrepare _ _ _ | .swaTrim _ _ => inferInstanceAs (Decidable True)

theorem fresh_pinsHeld (blockSize totalBlocks swaBlocks : Nat) :
    PinsHeld totalBlocks (fresh blockSize totalBlocks swaBlocks) [] where
  owned := fresh_owned blockSize totalBlocks swaBlocks
  counted := ⟨fun _ hmem => absurd hmem (AList.notMem_empty _), rfl⟩
  live _ hmem := absurd hmem (Finset.notMem_empty _)

/-- Every call that meets its condition leaves every pinned block a reference. -/
theorem step_pinsHeld {total : Nat} (s : KVCacheManager) (op : Op) (h : PinsHeld total s [])
    (hsafe : PinSafe s op) : PinsHeld total (s.step op) [] := by
  cases op with
  | allocateBlocks => exact h.allocateBlocks ..
  | allocateBlocksWithPrefix => exact h.allocateBlocksWithPrefix _ _ _ _ hsafe
  | appendBlock => exact h.appendBlock ..
  | freeSequence => exact h.freeSequence ..
  | registerBlockHashes =>
    exact h.congr (.of_records (.registerBlockHashes ..)) (.of_records (.registerBlockHashes ..))
  | pinPrefix => exact h.pinPrefix ..
  | unpinPrefix => exact h.unpinPrefix ..
  | rollback => exact h.rollback _ _ hsafe
  | evictMiddleBlocks =>
    exact h.evictMiddleBlocks _ _ _ fun block hmem => hmem.elim (hsafe.1 block) (hsafe.2 block)
  | evictCachedBlock => exact h.reclaimCachedBlock.1
  | evictLru => exact evictLru_keeps (P := (PinsHeld total · [])) h h.freeSequence
  | loadPrefixCache => exact h.loadPrefixCache ..
  | touch | setPrefixCachingEnabled | setPinBudgetBlocks | enableSwaSizing | swaPrepare | swaTrim =>
    exact h.congr ⟨rfl, rfl, rfl, .refl _⟩ ⟨rfl, rfl, rfl, rfl⟩

/-- In every run of safe calls, a pinned block has a reference, so it is not on the free list and
`acquire` does not hand it out. -/
theorem run_keeps_pinned_blocks (blockSize totalBlocks swaBlocks : Nat) (ops : List Op)
    (hsafe : SafeRun PinSafe (fresh blockSize totalBlocks swaBlocks) ops) :
    let s := (fresh blockSize totalBlocks swaBlocks).run ops
    ∀ block ∈ s.pinnedBlocks, 1 ≤ s.refCount block ∧ block ∉ s.pool.freeList ∧
      s.acquireBlockRef.1 ≠ some block := by
  intro s block hmem
  have h : PinsHeld totalBlocks s [] :=
    safeRun_invariant step_pinsHeld (fresh_pinsHeld blockSize totalBlocks swaBlocks) hsafe
  refine ⟨h.live block hmem, fun hfree => ?_, fun hacquire => ?_⟩
  · exact h.not_pinned_of_free (BlockPool.mem_freeList.mp hfree).2.2 hmem
  · exact (h.acquireBlockRef (Prod.ext hacquire rfl)).2.2 block rfl hmem

/-- A pinned and cached block is reused while the pool covers the prompt; then its sequence is
rolled back to it, and a second sequence is streamed past its sink. -/
theorem run_keeps_pinned_blocks_reuse :
    let ops : List Op := [.setPrefixCachingEnabled true,
      .allocateBlocksWithPrefix 0 [1, 2] (-1) 0, .registerBlockHashes 0 [1, 2] 0, .pinPrefix 0 1,
      .freeSequence 0, .allocateBlocksWithPrefix 1 [1, 3, 4] (-1) 0, .rollback 1 1,
      .allocateBlocks 2 5, .evictMiddleBlocks 2 1 1]
    let s := (fresh 1 8 0).run ops
    s.blockTable 1 = [some 0] ∧ s.pinnedBlocks = {0, 2} ∧
    ∀ block ∈ s.pinnedBlocks, 1 ≤ s.refCount block ∧ block ∉ s.pool.freeList ∧
      s.acquireBlockRef.1 ≠ some block :=
  ⟨by decide +kernel, by decide +kernel, run_keeps_pinned_blocks 1 8 0 _ (by decide +kernel)⟩

/-- A prefix allocation that fails after a hit on a pinned cached block frees that block, and the
next one hands it to another sequence. A rollback and a streaming eviction free pinned blocks as
well. -/
theorem pinned_block_handed_out :
    (let ops : List Op := [.setPrefixCachingEnabled true,
      .allocateBlocksWithPrefix 0 [1] (-1) 0, .registerBlockHashes 0 [1] 0, .pinPrefix 0 1,
      .freeSequence 0, .allocateBlocksWithPrefix 1 [1, 2, 3] (-1) 0]
     let s := (fresh 1 2 0).run ops
     s.pinnedBlocks = {0} ∧ s.refCount 0 = 0 ∧ 0 ∈ s.pool.freeList ∧
       some 0 ∈ (s.step (.allocateBlocks 2 2)).blockTable 2 ∧
       0 ∈ (s.step (.allocateBlocks 2 2)).pinnedBlocks) ∧
    (let s := (fresh 1 4 0).run [.allocateBlocks 0 2, .pinPrefix 0 2, .rollback 0 1]
     1 ∈ s.pinnedBlocks ∧ s.refCount 1 = 0) ∧
    (let s := (fresh 1 6 0).run [.allocateBlocks 0 5, .pinPrefix 0 3, .evictMiddleBlocks 0 1 1]
     2 ∈ s.pinnedBlocks ∧ s.refCount 2 = 0) := by
  decide +kernel

end Quench.KVCacheManager

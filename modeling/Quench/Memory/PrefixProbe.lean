import Quench.Memory.PinRuns
import Quench.Memory.PrefixIndexRuns

/-!
# The probe and the allocator

`longest_cached_prefix_blocks` walks the hash chain of a prompt without touching the cache, and
`allocate_blocks_with_prefix` walks it again to reuse blocks. The probe counts every leading block
whose hash is in the index; the allocator also wants the block behind the entry to have references.
`probe_agrees` says when they agree, and `stale_entry_counted` is a run in which they do not.
-/

namespace Quench.KVCacheManager

open List

variable {total : Nat} {s : KVCacheManager} {tokens : List Token} {salt : Hash}
  {maxReuseBlocks : Int}

open Lib

/-! ## What a successful prefix allocation returns and records -/

/-- The hash recorded for block `i` of a prompt: its chained hash, or `0` for a partial block. -/
def promptHash (blockSize : Nat) (salt : Hash) (tokens : List Token) (i : Nat) : Hash :=
  if (i + 1) * blockSize ≤ tokens.length then chainHash blockSize salt tokens (i + 1) else 0

theorem blockHashes_pushHash (s : KVCacheManager) (seq : Int) (hash : Hash) :
    (s.pushHash seq hash).blockHashes seq = s.blockHashes seq ++ [hash] := by
  rw [pushHash, blockHashes_setHashes_ite, if_pos rfl]

/-- A loop that does not fail has reused every block it could, and recorded one hash a block. -/
theorem prefixLoop_result {inflight : List BlockRef} (howned : Owned total s inflight) (seq : Int)
    (tokens : List Token) (maxReuseBlocks : Int) (salt : Hash) (n b reused : Nat)
    (parentHash : Hash) (reuseOpen : Bool)
    (hhashes : s.blockHashes seq = (List.range b).map (promptHash s.blockSize salt tokens))
    (hchain : b * s.blockSize ≤ tokens.length → parentHash = chainHash s.blockSize salt tokens b)
    (hdone : 0 ≤ (prefixLoop seq tokens maxReuseBlocks n b reused parentHash reuseOpen s).1) :
    (prefixLoop seq tokens maxReuseBlocks n b reused parentHash reuseOpen s).1 =
        (reused + (if reuseOpen then s.reusedBlocks tokens maxReuseBlocks n b parentHash
          else []).length : Nat) ∧
      (prefixLoop seq tokens maxReuseBlocks n b reused parentHash reuseOpen s).2.blockHashes seq =
        (List.range (b + n)).map (promptHash s.blockSize salt tokens) := by
  induction n generalizing s b reused parentHash reuseOpen with
  | zero =>
    refine ⟨?_, hhashes⟩
    rw [show (if reuseOpen then s.reusedBlocks tokens maxReuseBlocks 0 b parentHash else []) = []
      by split <;> rfl]
    rfl
  | succ n ih =>
    have hround := prefixLoop_round seq tokens maxReuseBlocks n b reused parentHash reuseOpen s
    generalize prefixLoop _ _ _ (n + 1) _ _ _ _ _ = result at hround hdone ⊢
    rw [show b + (n + 1) = b + 1 + n by omega]
    -- the hash of a full round is the next one of the prompt's chain
    have hnext : ∀ hash, hash = computeBlockHash (blockTokens s.blockSize tokens b) parentHash →
        (b + 1) * s.blockSize ≤ tokens.length →
        hash = chainHash s.blockSize salt tokens (b + 1) := fun hash hhash hfull => by
      rw [Nat.add_one_mul] at hfull
      rw [hhash, hchain (by omega)]
      rfl
    have hrecord : ∀ recorded, recorded = promptHash s.blockSize salt tokens b →
        s.blockHashes seq ++ [recorded] =
          (List.range (b + 1)).map (promptHash s.blockSize salt tokens) := fun recorded heq => by
      rw [hhashes, range_succ, map_append, heq]
      rfl
    cases hround with
    | hit hash block hcan hhash hlookup hlive =>
      have hpos : 0 < s.refCount block := hlive.elim howned.refCount_pos_of_cached id
      have hspec := reuseBlock_spec seq hpos
      have hchained := hnext hash hhash hcan.full
      have hsize : ((s.reuseBlock seq block).pushHash seq hash).blockSize = s.blockSize :=
        hspec.blockSize
      have hrecords : (s.reuseBlock seq block).blockHashes seq = s.blockHashes seq := by
        rw [blockHashes, hspec.records, blockHashes]
      obtain ⟨hcount, hafter⟩ := ih
        ((howned.reuseBlock seq hlive).congr (.pushHash _ seq hash)) (b + 1) (reused + 1) hash
        true (by
          rw [hsize, blockHashes_pushHash, hrecords]
          exact hrecord hash (by rw [promptHash, if_pos hcan.full, hchained]))
        (fun _ => by rw [hsize]; exact hchained) hdone
      rw [hsize] at hafter
      rw [if_pos rfl, reusedBlocks_reuseBlock seq hash hpos] at hcount
      refine ⟨hcount.trans ?_, hafter⟩
      rw [if_pos hcan.reuseOpen, reusedBlocks_hit hhash hcan hlookup hpos, length_cons]
      omega
    | fresh hash nextHash recorded nextOpen t after block hhash hmiss hdead halloc hparent
        hrecorded hopen =>
        have hsame := hmiss.sameTables.trans (.allocateBlockRefWithEviction halloc)
        have hafterOwned := ((howned.congr hmiss.sameOwners).allocateBlockRefWithEviction
          halloc).pushBlock seq
        have hsize : ((after.pushBlock seq (some block)).pushHash seq recorded).blockSize =
            s.blockSize := hsame.blockSize
        have hrecords : (after.pushBlock seq (some block)).blockHashes seq = s.blockHashes seq :=
          hsame.blockHashes seq
        have hchained : recorded = promptHash s.blockSize salt tokens b := by
          rw [hrecorded, promptHash]
          split
          next hfull => exact hnext hash hhash hfull
          next => rfl
        obtain ⟨hcount, hafter⟩ := ih (hafterOwned.congr (.pushHash _ seq recorded)) (b + 1)
          reused nextHash nextOpen
          (by rw [hsize, blockHashes_pushHash, hrecords]; exact hrecord recorded hchained)
          (fun hfull => by
            rw [hsize] at hfull ⊢
            rw [hparent, if_pos hfull]
            exact hnext hash hhash hfull) hdone
        rw [hsize] at hafter
        rw [reusedBlocks_fresh hmiss halloc hopen] at hcount
        refine ⟨hcount.trans ?_, hafter⟩
        rw [reusedBlocks_miss hhash hdead]
    | exhausted => cases hdone

/-! ## What the probe returns -/

section

variable (s : KVCacheManager) (tokens : List Token)

/-- After a miss the probe only collects hashes. -/
theorem probeLoop_broken (n b cached : Nat) (parentHash : Hash) (chain : List Hash) :
    (s.probeLoop tokens n b cached false parentHash chain).1 = cached := by
  induction n generalizing b parentHash chain with
  | zero => rfl
  | succ n ih =>
    unfold probeLoop
    dsimp only
    exact ih _ _ _

theorem le_probeLoop (n b : Nat) (parentHash : Hash) (chain : List Hash) :
    b ≤ (s.probeLoop tokens n b b true parentHash chain).1 := by
  induction n generalizing b parentHash chain with
  | zero => exact le_refl b
  | succ n ih =>
    unfold probeLoop
    dsimp only
    split
    · exact (Nat.le_succ b).trans (ih _ _ _)
    · rw [probeLoop_broken]

/-- The probe collects the chained hashes of the prompt. -/
theorem probeLoop_chain (salt : Hash) (n b cached : Nat) (chainIntact : Bool) :
    (s.probeLoop tokens n b cached chainIntact (chainHash s.blockSize salt tokens b)
      ((List.range b).map fun i => chainHash s.blockSize salt tokens (i + 1))).2 =
      (List.range (b + n)).map fun i => chainHash s.blockSize salt tokens (i + 1) := by
  induction n generalizing b cached chainIntact with
  | zero => rfl
  | succ n ih =>
    have hpush : ((List.range b).map fun i => chainHash s.blockSize salt tokens (i + 1)) ++
        [computeBlockHash (blockTokens s.blockSize tokens b)
          (chainHash s.blockSize salt tokens b)] =
        (List.range (b + 1)).map fun i => chainHash s.blockSize salt tokens (i + 1) := by
      rw [range_succ, map_append]
      rfl
    unfold probeLoop
    dsimp only
    rw [hpush, show b + (n + 1) = b + 1 + n by omega]
    split
    · exact ih (b + 1) (b + 1) true
    · exact ih (b + 1) cached false

end

/-- The number of blocks the allocator may reuse of those the probe counted. -/
def capped (maxReuseBlocks : Int) (cached : Nat) : Int :=
  if maxReuseBlocks < 0 then cached else min (cached : Int) maxReuseBlocks

/-- From a block of a prompt on, up to the cap and to the first chained hash without an entry, every
entry names a block with references. -/
def ChainLive (s : KVCacheManager) (tokens : List Token) (maxReuseBlocks : Int) (salt : Hash)
    (b : Nat) : Prop :=
  ∀ i, b ≤ i → i < tokens.length / s.blockSize → (0 ≤ maxReuseBlocks → (i : Int) < maxReuseBlocks) →
    (∀ j, b ≤ j → j ≤ i →
      (s.blockHashToId.lookup (chainHash s.blockSize salt tokens (j + 1))).isSome = true) →
    ∀ block, s.blockHashToId.lookup (chainHash s.blockSize salt tokens (i + 1)) = some block →
      0 < s.refCount block

/-- The chain of a prompt behind a block with references. -/
theorem chainLive_succ {b : Nat} {block : Int}
    (hlookup : s.blockHashToId.lookup (chainHash s.blockSize salt tokens (b + 1)) = some block)
    (hblock : 0 < s.refCount block) :
    s.ChainLive tokens maxReuseBlocks salt b ↔ s.ChainLive tokens maxReuseBlocks salt (b + 1) := by
  constructor
  · intro h i hi hfull hcap hentries
    refine h i (Nat.le_of_succ_le hi) hfull hcap fun j hj hji => ?_
    rcases Nat.eq_or_lt_of_le hj with rfl | hj
    · rw [hlookup]
      rfl
    · exact hentries j hj hji
  · intro h i hi hfull hcap hentries other hother
    rcases Nat.eq_or_lt_of_le hi with rfl | hi
    · rw [hlookup] at hother
      exact Option.some.inj hother ▸ hblock
    · exact h i hi hfull hcap (fun j hj => hentries j (Nat.le_of_succ_le hj)) other hother

/-- The blocks the allocator reuses are those the probe counts, up to the cap, if and only if the
chain is live. -/
theorem reusedBlocks_probe (hpos : 0 < s.blockSize)
    (henabled : s.prefixCachingEnabled = true) (maxReuseBlocks : Int) (m n b : Nat)
    (chain : List Hash) (hm : b + m = tokens.length / s.blockSize) (hn : m ≤ n)
    (hcap : 0 ≤ maxReuseBlocks → (b : Int) ≤ maxReuseBlocks) :
    ((b + (s.reusedBlocks tokens maxReuseBlocks n b
        (chainHash s.blockSize salt tokens b)).length : Nat) : Int) =
      capped maxReuseBlocks (s.probeLoop tokens m b b true (chainHash s.blockSize salt tokens b)
        chain).1 ↔ s.ChainLive tokens maxReuseBlocks salt b := by
  have hfull : (b + 1) * s.blockSize ≤ tokens.length ↔ b < tokens.length / s.blockSize :=
    (Nat.le_div_iff_mul_le hpos).symm
  induction m generalizing n b chain with
  | zero =>
    have hpart : s.reusedBlocks tokens maxReuseBlocks n b (chainHash s.blockSize salt tokens b) =
        [] := by
      cases n with
      | zero => rfl
      | succ n => rw [reusedBlocks, if_neg fun hcan => by have := hfull.mp hcan.2.1; omega]
    refine iff_of_true ?_ fun i hi hlt => by omega
    rw [hpart, probeLoop, capped]
    split
    · rfl
    · rw [length_nil, Nat.add_zero]
      omega
  | succ m ih =>
    obtain ⟨n, rfl⟩ : ∃ k, n = k + 1 := ⟨n - 1, by omega⟩
    have hlt : b < tokens.length / s.blockSize := by omega
    have hmore := s.le_probeLoop tokens (m + 1) b (chainHash s.blockSize salt tokens b) chain
    by_cases hstop : 0 ≤ maxReuseBlocks ∧ maxReuseBlocks ≤ b
    · refine iff_of_true ?_ fun i hi _ hless => by have := hless hstop.1; omega
      rw [reusedBlocks, if_neg fun hcan => hcan.2.2 hstop, capped, if_neg (by omega),
        length_nil]
      omega
    · rw [reusedBlocks, if_pos ⟨henabled, hfull.mpr hlt, hstop⟩, probeLoop, Bool.true_and]
      cases hlookup : s.blockHashToId.lookup (computeBlockHash
          (blockTokens s.blockSize tokens b) (chainHash s.blockSize salt tokens b)) with
      | none =>
        refine iff_of_true ?_ fun i hi _ _ hentries => ?_
        · rw [Option.isSome_none, if_neg Bool.false_ne_true, probeLoop_broken, capped]
          dsimp only [length_nil]
          split <;> omega
        · have hsome := hentries b le_rfl hi
          rw [chainHash, hlookup] at hsome
          cases hsome
      | some block =>
        dsimp only
        rcases Nat.eq_zero_or_pos (s.refCount block) with hzero | hblock
        · -- the probe goes on at a stale entry, the allocator does not
          have hcounted := s.le_probeLoop tokens m (b + 1) (computeBlockHash
            (blockTokens s.blockSize tokens b) (chainHash s.blockSize salt tokens b))
            (chain ++ [computeBlockHash (blockTokens s.blockSize tokens b)
              (chainHash s.blockSize salt tokens b)])
          refine iff_of_false ?_ fun hlive => ?_
          · rw [if_pos hzero, length_nil, Option.isSome_some, if_pos rfl, capped]
            split <;> omega
          · refine Nat.ne_of_gt (hlive b le_rfl hlt (fun _ => by omega) (fun j hj hjb => ?_) block
              hlookup) hzero
            rw [Nat.le_antisymm hjb hj, chainHash, hlookup]
            rfl
        · rw [if_neg (Nat.pos_iff_ne_zero.mp hblock), length_cons, chainLive_succ hlookup hblock]
          have hrest := ih n (b + 1) (chain ++ [computeBlockHash
            (blockTokens s.blockSize tokens b) (chainHash s.blockSize salt tokens b)])
            (by omega) (by omega) (fun hnonneg => by omega)
            (Nat.le_div_iff_mul_le hpos).symm
          refine Iff.trans ?_ hrest
          rw [chainHash, Nat.succ_add_eq_add_succ]
          rfl

theorem capped_zero (maxReuseBlocks : Int) : capped maxReuseBlocks 0 = 0 := by
  unfold capped
  split <;> omega

/-- With a block size, the table of a prompt has room for all its full blocks. -/
theorem div_le_blocksNeeded {blockSize : Nat} (hpos : 0 < blockSize) (len : Nat) :
    len / blockSize ≤ (len + blockSize - 1) / blockSize :=
  Nat.div_le_div_right (by omega)

/-- The hashes recorded for the full blocks are the chained ones. -/
theorem take_promptHash (blockSize : Nat) (salt : Hash) (tokens : List Token) :
    ((List.range ((tokens.length + blockSize - 1) / blockSize)).map
        (promptHash blockSize salt tokens)).take (tokens.length / blockSize) =
      (List.range (tokens.length / blockSize)).map fun i =>
        chainHash blockSize salt tokens (i + 1) := by
  rcases Nat.eq_zero_or_pos blockSize with rfl | hpos
  · rw [Nat.div_zero, Nat.div_zero]
    rfl
  · rw [← map_take, take_range, min_eq_left (div_le_blocksNeeded hpos _)]
    refine map_congr_left fun i hi => ?_
    exact if_pos ((Nat.le_div_iff_mul_le hpos).mp (mem_range.mp hi))

/-- One state: the allocator and the probe agree if and only if the chain is live. -/
theorem allocateBlocksWithPrefix_probe (howned : Owned total s []) (hfit : HashesFit s) {seq : Int}
    {contentSalt : Hash} (henabled : s.prefixCachingEnabled = true) (hfresh : s.blockTable seq = [])
    (hdone : 0 ≤ (s.allocateBlocksWithPrefix seq tokens maxReuseBlocks contentSalt).1) :
    ((s.allocateBlocksWithPrefix seq tokens maxReuseBlocks contentSalt).1 =
        capped maxReuseBlocks (s.longestCachedPrefixBlocks tokens contentSalt).1 ↔
      s.ChainLive tokens maxReuseBlocks contentSalt 0) ∧
      ((s.allocateBlocksWithPrefix seq tokens maxReuseBlocks contentSalt).2.blockHashes seq).take
        (tokens.length / s.blockSize) = (s.longestCachedPrefixBlocks tokens contentSalt).2 := by
  have hchain := s.probeLoop_chain tokens contentSalt (tokens.length / s.blockSize) 0 0 true
  rw [Nat.zero_add] at hchain
  rw [longestCachedPrefixBlocks]
  by_cases hempty : tokens = []
  · subst hempty
    rw [length_nil, Nat.zero_div]
    refine ⟨iff_of_true (capped_zero maxReuseBlocks).symm fun i _ hlt => ?_, rfl⟩
    rw [length_nil, Nat.zero_div] at hlt
    cases hlt
  rw [allocateBlocksWithPrefix_start hempty hfresh] at hdone ⊢
  dsimp only at hdone ⊢
  obtain ⟨hcount, hhashes⟩ := prefixLoop_result (howned.entered seq) seq tokens maxReuseBlocks
    contentSalt _ 0 0 contentSalt true
    (by rw [(s.entered_sameTables seq).blockHashes, hfit.start hfresh]; rfl) (fun _ => rfl) hdone
  rw [if_pos rfl, reusedBlocks_congr s (s.entered seq) rfl rfl rfl fun _ => Iff.rfl] at hcount
  rw [if_neg (Int.not_lt.mpr hdone), startTable, hcount]
  refine ⟨?_, ?_⟩
  · rcases Nat.eq_zero_or_pos s.blockSize with hzero | hpos
    · rw [hzero, Nat.div_zero, Nat.div_zero]
      refine iff_of_true (capped_zero maxReuseBlocks).symm fun i _ hlt => ?_
      rw [hzero, Nat.div_zero] at hlt
      cases hlt
    · exact reusedBlocks_probe hpos henabled maxReuseBlocks _ _ 0 [] (Nat.zero_add _)
        (div_le_blocksNeeded hpos tokens.length) id
  · refine Eq.trans ?_ hchain.symm
    rw [(SameTables.of_sameBlocks (SameBlocks.trackLru _ seq)).blockHashes, hhashes, Nat.zero_add]
    exact take_promptHash s.blockSize contentSalt tokens

/-- After every run: a prefix allocation that starts a table and does not fail reuses as many blocks
as the probe counts, up to the cap, and the hashes it records for the full blocks are those the
probe reports, if and only if the chain of the prompt is live. -/
theorem probe_agrees (blockSize totalBlocks swaBlocks : Nat) (ops : List Op) (seq : Int)
    (tokens : List Token) (maxReuseBlocks : Int) (contentSalt : Hash)
    (henabled : ((fresh blockSize totalBlocks swaBlocks).run ops).prefixCachingEnabled = true)
    (hfresh : ((fresh blockSize totalBlocks swaBlocks).run ops).blockTable seq = [])
    (hdone : 0 ≤ (((fresh blockSize totalBlocks swaBlocks).run ops).allocateBlocksWithPrefix seq
      tokens maxReuseBlocks contentSalt).1) :
    let s := (fresh blockSize totalBlocks swaBlocks).run ops
    let probe := s.longestCachedPrefixBlocks tokens contentSalt
    let result := s.allocateBlocksWithPrefix seq tokens maxReuseBlocks contentSalt
    result.1 = capped maxReuseBlocks probe.1 ∧
      (result.2.blockHashes seq).take (tokens.length / s.blockSize) = probe.2 ↔
        s.ChainLive tokens maxReuseBlocks contentSalt 0 := by
  have hfit : HashesFit ((fresh blockSize totalBlocks swaBlocks).run ops) :=
    run_invariant (fun _ op h => h.step op) (fun _ => le_refl 0) ops
  obtain ⟨hcount, hhashes⟩ := allocateBlocksWithPrefix_probe
    (owned_of_run blockSize totalBlocks swaBlocks ops) hfit henabled hfresh hdone
  exact (and_iff_left hhashes).trans hcount

/-- Three registered blocks; a prompt goes on after two of them, with a cap of one. -/
theorem probe_agrees_capped :
    let s := (fresh 1 8 0).run [.setPrefixCachingEnabled true,
      .allocateBlocksWithPrefix 0 [1, 2, 3] (-1) 0, .registerBlockHashes 0 [1, 2, 3] 0,
      .freeSequence 0]
    (s.longestCachedPrefixBlocks [1, 2, 4] 0).1 = 2 ∧
      (s.allocateBlocksWithPrefix 1 [1, 2, 4] 1 0).1 = 1 ∧ s.ChainLive [1, 2, 4] 1 0 0 :=
  ⟨by decide +kernel, by decide +kernel, (probe_agrees 1 8 0 _ 1 [1, 2, 4] 1 0 (by decide +kernel)
    (by decide +kernel) (by decide +kernel)).mp (by decide +kernel)⟩

/-- The probe counts an entry that the allocator drops: one for a hole, which publishing a streamed
sequence leaves behind, and one for a block that was freed while prefix caching was off. -/
theorem stale_entry_counted :
    (let s := (fresh 1 8 0).run [.setPrefixCachingEnabled true,
      .allocateBlocksWithPrefix 0 [1, 2, 3, 4, 5] (-1) 0, .evictMiddleBlocks 0 1 1,
      .registerBlockHashes 0 [1, 2, 3, 4, 5] 0]
     (s.longestCachedPrefixBlocks [1, 2, 3] 0).1 = 3 ∧
       (s.allocateBlocksWithPrefix 1 [1, 2, 3] (-1) 0).1 = 1) ∧
    (let s := (fresh 1 8 0).run [.setPrefixCachingEnabled true,
      .allocateBlocksWithPrefix 0 [1] (-1) 0, .registerBlockHashes 0 [1] 0,
      .setPrefixCachingEnabled false, .freeSequence 0, .setPrefixCachingEnabled true]
     (s.longestCachedPrefixBlocks [1] 0).1 = 1 ∧
       (s.allocateBlocksWithPrefix 1 [1] (-1) 0).1 = 0) := by
  decide +kernel

end Quench.KVCacheManager

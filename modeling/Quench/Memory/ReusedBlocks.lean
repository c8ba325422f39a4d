import Quench.Memory.Sessions

/-!
# The blocks a prefix allocation reuses

`Reusing` describes a table while `allocate_blocks_with_prefix` fills it: the first slots hold
blocks that the index named, before the call, under the chained hashes of the prompt; the slots
after them hold blocks of the sequence's own; and every full block has its chained hash recorded.
`allocateBlocksWithPrefix_outcome` says what the whole call can do.
-/

namespace Quench

open Lib KVCacheManager List

variable {salt : Hash} {s : KVCacheManager} {tokens : List Token}

/-- A table that a prefix allocation has filled up to slot `b`, reusing its first blocks. -/
structure Reusing (total : Nat) (start : KVCacheManager) (seq : Int) (tokens : List Token)
    (maxReuseBlocks : Int) (salt : Hash) (b reused : Nat) (s : KVCacheManager) : Prop where
  owned : Owned total s []
  shrinks : Shrinks start s
  others : ∀ other, other ≠ seq → s.blockTable other = start.blockTable other ∧
    s.blockHashes other = start.blockHashes other
  length : (s.blockTable seq).length = b
  slots : ∀ i < b, ∃ block, HasSlot s seq i block ∧
    (i < reused → Files start (chainHash start.blockSize salt tokens (i + 1)) block) ∧
    (reused ≤ i → Exclusive s block)
  hashes : s.blockHashes seq = (List.range b).map fun i =>
    if (i + 1) * start.blockSize ≤ tokens.length then chainHash start.blockSize salt tokens (i + 1)
    else 0
  reused_le : reused ≤ b
  reused_full : reused * start.blockSize ≤ tokens.length
  below_cap : 0 ≤ maxReuseBlocks → (reused : Int) ≤ maxReuseBlocks

/-- What the call leaves: a filled table, or none. -/
inductive PrefixOutcome (total : Nat) (start : KVCacheManager) (seq : Int) (tokens : List Token)
    (maxReuseBlocks : Int) (salt : Hash) (b : Nat) : Int × KVCacheManager → Prop where
  | filled (reused : Nat) (s : KVCacheManager)
      (hreusing : Reusing total start seq tokens maxReuseBlocks salt b reused s) :
      PrefixOutcome total start seq tokens maxReuseBlocks salt b (reused, s)
  | gaveUp (s : KVCacheManager) (hshrinks : Shrinks start s) (htable : s.blockTable seq = [])
      (hhashes : s.blockHashes seq = [])
      (hothers : ∀ other, other ≠ seq → s.blockTable other = start.blockTable other ∧
        s.blockHashes other = start.blockHashes other) :
      PrefixOutcome total start seq tokens maxReuseBlocks salt b (-1, s)

/-- The chained hashes of a prompt's full blocks are different. -/
def ChainInjective (blockSize : Nat) (salt : Hash) (tokens : List Token) : Prop :=
  ∀ i j, (i + 1) * blockSize ≤ tokens.length → (j + 1) * blockSize ≤ tokens.length →
    chainHash blockSize salt tokens (i + 1) = chainHash blockSize salt tokens (j + 1) → i = j

/-- The blocks of a prompt that a prefix allocation of this many rounds may reuse have different
hashes. -/
def ReusesDiffer (s : KVCacheManager) (salt : Hash) (tokens : List Token) (rounds : Nat) : Prop :=
  ∀ i j, i < j → j < rounds →
    (∀ k ≤ j, (k + 1) * s.blockSize ≤ tokens.length ∧
      (s.blockHashToId.lookup (chainHash s.blockSize salt tokens (k + 1))).isSome) →
    chainHash s.blockSize salt tokens (i + 1) ≠ chainHash s.blockSize salt tokens (j + 1)

theorem ChainInjective.reusesDiffer (h : ChainInjective s.blockSize salt tokens) (rounds : Nat) :
    ReusesDiffer s salt tokens rounds := fun i j hlt _ hfound heq =>
  absurd (h i j (hfound i (le_of_lt hlt)).1 (hfound j (le_refl j)).1 heq) (ne_of_lt hlt)

namespace Reusing

variable {total : Nat} {start s' : KVCacheManager} {seq : Int} {maxReuseBlocks : Int}
  {b reused : Nat}
variable {block : Int} {hash : Hash}
  (h : Reusing total start seq tokens maxReuseBlocks salt b reused s)
include h

/-- A step that keeps the tables. -/
theorem congr (howned : Owned total s' []) (hshrinks : Shrinks s s') (hsame : SameTables s s') :
    Reusing total start seq tokens maxReuseBlocks salt b reused s' where
  owned := howned
  shrinks := h.shrinks.trans hshrinks
  others other hne := by
    rw [hsame.blockTable, hsame.blockHashes]
    exact h.others other hne
  length := by rw [hsame.blockTable, h.length]
  slots i hi := by
    obtain ⟨block, hslot, hfiled, hown⟩ := h.slots i hi
    exact ⟨block, hsame.hasSlot.mpr hslot, hfiled, fun hge => hshrinks.exclusive block (hown hge)⟩
  hashes := by rw [hsame.blockHashes, h.hashes]
  reused_le := h.reused_le
  reused_full := h.reused_full
  below_cap := h.below_cap

variable {i : Nat}

/-- What is known about the block in a slot. -/
theorem slot (hslot : HasSlot s seq i block) :
    (i < reused → Files start (chainHash start.blockSize salt tokens (i + 1)) block) ∧
      (reused ≤ i → Exclusive s block) := by
  have hlt := (List.getElem?_eq_some_iff.mp hslot).1
  obtain ⟨held, hheld, hspec⟩ := h.slots i (h.length ▸ hlt)
  rw [HasSlot, hslot] at hheld
  obtain rfl : block = held := Option.some.inj (Option.some.inj hheld)
  exact hspec

/-- Reused blocks are full blocks of the prompt. -/
theorem full (hi : i < reused) : (i + 1) * start.blockSize ≤ tokens.length :=
  (Nat.mul_le_mul_right _ hi).trans h.reused_full

/-- No block is in two slots. -/
theorem slot_unique (hfiled : Filed start) {rounds : Nat}
    (hdiffer : ReusesDiffer start salt tokens rounds) (hrounds : b ≤ rounds) {j : Nat}
    (hi : HasSlot s seq i block) (hj : HasSlot s seq j block) : i = j := by
  have hle := h.reused_le
  -- two reused slots have different hashes, and the index has one for the block
  have hreused : ∀ i j, HasSlot s seq i block → HasSlot s seq j block → j < reused → ¬ i < j := by
    intro i j hi hj hlt hij
    have hname := hfiled.named _ block ((h.slot hi).1 (hij.trans hlt))
    rw [hfiled.named _ block ((h.slot hj).1 hlt)] at hname
    refine hdiffer i j hij (by omega) (fun k hk => ⟨h.full (by omega), ?_⟩)
      (Option.some.inj hname).symm
    obtain ⟨held, hheld, hfiles, -⟩ := h.slots k (by omega)
    rw [(hfiles (by omega)).1]
    rfl
  rcases lt_or_ge i reused with hireused | hiown
  · rcases lt_or_ge j reused with hjreused | hjown
    · exact le_antisymm (Nat.not_lt.mp (hreused j i hj hi hireused))
        (Nat.not_lt.mp (hreused i j hi hj hjreused))
    · exact (((h.slot hj).2 hjown).unique h.owned hj hi).2
  · exact (((h.slot hi).2 hiown).unique h.owned hi hj).2.symm

/-- One more slot: a block that the index names for it while all slots so far were reused, or a
block of the sequence's own. -/
theorem push {reused' : Nat} (howned : Owned total s' []) (hshrinks : Shrinks s s')
    (htable : s'.blockTable seq = s.blockTable seq ++ [some block])
    (hhashes : s'.blockHashes seq = s.blockHashes seq ++ [hash]) (hothers : ∀ other, other ≠ seq →
      s'.blockTable other = s.blockTable other ∧ s'.blockHashes other = s.blockHashes other) (hhash
      : hash = if (b + 1) * start.blockSize ≤ tokens.length then chainHash start.blockSize salt
      tokens (b + 1) else 0) (hcase : reused' = reused + 1 ∧ reused = b ∧ (b + 1) * start.blockSize
      ≤ tokens.length ∧ (0 ≤ maxReuseBlocks → (b : Int) < maxReuseBlocks) ∧ Files start (chainHash
      start.blockSize salt tokens (b + 1)) block ∨ reused' = reused ∧ Exclusive s' block) :
    Reusing total start seq tokens maxReuseBlocks salt (b + 1) reused' s' where
  owned := howned
  shrinks := h.shrinks.trans hshrinks
  others other hne := by
    rw [(hothers other hne).1, (hothers other hne).2]
    exact h.others other hne
  length := by rw [htable, length_append, h.length, length_singleton]
  slots i hi := by
    have hle := h.reused_le
    rcases lt_or_ge i b with hlt | hge
    · obtain ⟨held, hslot, hfiled, hown⟩ := h.slots i hlt
      refine ⟨held, ?_, fun hshared => hfiled ?_, fun hge => hshrinks.exclusive held (hown ?_)⟩
      · rw [HasSlot, htable, getElem?_append_left (by rw [h.length]; exact hlt)]
        exact hslot
      · rcases hcase with ⟨-, heq, -⟩ | ⟨heq, -⟩ <;> omega
      · rcases hcase with ⟨heq, -⟩ | ⟨heq, -⟩ <;> omega
    · obtain rfl : i = b := by omega
      refine ⟨block, ?_, fun hshared => ?_, fun hge => ?_⟩
      · rw [HasSlot, htable, ← h.length, getElem?_concat_length]
      · rcases hcase with ⟨-, -, -, -, hfiled⟩ | ⟨heq, -⟩
        · exact hfiled
        · omega
      · rcases hcase with ⟨heq, hb, -⟩ | ⟨-, hown⟩
        · omega
        · exact hown
  hashes := by rw [hhashes, h.hashes, range_succ, map_append, hhash]; rfl
  reused_le := by
    have hle := h.reused_le
    rcases hcase with ⟨heq, -⟩ | ⟨heq, -⟩ <;> omega
  reused_full := by
    rcases hcase with ⟨heq, hb, hfull, -⟩ | ⟨heq, -⟩
    · rw [heq, hb]
      exact hfull
    · rw [heq]
      exact h.reused_full
  below_cap hcap := by
    have hle := h.below_cap hcap
    rcases hcase with ⟨heq, hb, -, hlt, -⟩ | ⟨heq, -⟩
    · omega
    · omega

omit h in
/-- A round that reuses the block the index names for the next full block. -/
theorem reuse (h : Reusing total start seq tokens maxReuseBlocks salt b b s)
    (hfull : (b + 1) * start.blockSize ≤ tokens.length)
    (hhash : hash = chainHash start.blockSize salt tokens (b + 1))
    (hcap : 0 ≤ maxReuseBlocks → (b : Int) < maxReuseBlocks)
    (hlookup : s.blockHashToId.lookup hash = some block)
    (hlive : block ∈ s.cachedBlocksMap ∨ 0 < s.refCount block) :
    Reusing total start seq tokens maxReuseBlocks salt (b + 1) (b + 1)
      ((s.reuseBlock seq block).pushHash seq hash) := by
  have hpos : 0 < s.refCount block := hlive.elim h.owned.refCount_pos_of_cached id
  have hfiles : Files s hash block := ⟨hlookup, (BlockPool.lt_numBlocks_of_refCount_pos hpos).1⟩
  have hshared := Shrinks.reuseBlock h.shrinks.filed seq hfiles
  have hspec := reuseBlock_spec seq hpos
  have hrecords : ∀ other, (s.reuseBlock seq block).blockHashes other = s.blockHashes other :=
    fun other => by rw [blockHashes, hspec.records, blockHashes]
  have htables : ∀ other, (s.reuseBlock seq block).blockTable other =
      (s.pushBlock seq (some block)).blockTable other := fun other => by
    rw [blockTable, hspec.seqBlocks, blockTable]
  refine h.push { h.owned.reuseBlock seq hlive with }
    (hshared.trans (.of_same hshared.filed rfl rfl rfl rfl rfl)) ?_ ?_ ?_
    (hhash.trans (if_pos hfull).symm)
    (.inl ⟨rfl, rfl, hfull, hcap, h.shrinks.sub _ _ (hhash ▸ hfiles)⟩)
  · exact (htables seq).trans (blockTable_setTable s seq _)
  · rw [pushHash, blockHashes_setHashes_ite, if_pos rfl, hrecords]
  · intro other hne
    refine ⟨(htables other).trans ?_, ?_⟩
    · rw [pushBlock, blockTable_setTable_ite, if_neg hne]
    · rw [pushHash, blockHashes_setHashes_ite, if_neg hne, hrecords]

/-- A round that takes a fresh block. -/
theorem take {t after : KVCacheManager} {recorded : Hash} (hmiss : Misses s hash t)
    (halloc : t.allocateBlockRefWithEviction = (some block, after)) (hrecorded : recorded = if (b +
      1) * start.blockSize ≤ tokens.length then chainHash start.blockSize salt tokens (b + 1) else
      0) : Reusing total start seq tokens maxReuseBlocks salt (b + 1) reused
      ((after.pushBlock seq (some block)).pushHash seq recorded) := by
  have hmissed := Shrinks.misses h.shrinks.filed hmiss
  obtain ⟨htaken, hfresh⟩ := Shrinks.allocateBlockRefWithEviction hmissed.filed halloc
  have hsame := hmiss.sameTables.trans (.allocateBlockRefWithEviction halloc)
  have hpushed : Shrinks after ((after.pushBlock seq (some block)).pushHash seq recorded) :=
    .of_same htaken.filed rfl rfl rfl rfl rfl
  have howned := ((h.owned.congr hmiss.sameOwners).allocateBlockRefWithEviction
    halloc).pushBlock seq
  refine h.push { howned with } ((hmissed.trans htaken).trans hpushed) ?_ ?_ ?_ hrecorded
    (.inr ⟨rfl, hpushed.exclusive block (hfresh block rfl).2⟩)
  · change (after.pushBlock seq (some block)).blockTable seq = _
    rw [pushBlock, blockTable_setTable, hsame.blockTable]
  · rw [pushHash, blockHashes_setHashes_ite, if_pos rfl]
    change after.blockHashes seq ++ [recorded] = _
    rw [hsame.blockHashes]
  · intro other hne
    refine ⟨?_, ?_⟩
    · change (after.pushBlock seq (some block)).blockTable other = _
      rw [pushBlock, blockTable_setTable_ite, if_neg hne, hsame.blockTable]
    · rw [pushHash, blockHashes_setHashes_ite, if_neg hne]
      exact hsame.blockHashes other

/-- The rest of the loop. Reuse is open only while every slot so far was reused, or once the prompt
has no full block left. -/
theorem prefixLoop (hfiled : Filed start) (n : Nat)
    (hdiffer : ReusesDiffer start salt tokens (b + n)) (parentHash : Hash) (reuseOpen : Bool)
      (hchain : b * start.blockSize ≤ tokens.length → parentHash = chainHash start.blockSize salt
      tokens b) (hreuse : reuseOpen = true → start.prefixCachingEnabled = true → reused = b ∨
      tokens.length < b * start.blockSize) :
    PrefixOutcome total start seq tokens maxReuseBlocks salt (b + n)
      (prefixLoop seq tokens maxReuseBlocks n b reused parentHash reuseOpen s) := by
  induction n generalizing s b reused parentHash reuseOpen with
  | zero => exact .filled reused s h
  | succ n ih =>
    have hsize := h.shrinks.blockSize
    have hround := prefixLoop_round seq tokens maxReuseBlocks n b reused parentHash reuseOpen s
    generalize KVCacheManager.prefixLoop _ _ _ (n + 1) _ _ _ _ _ = result at hround ⊢
    rw [show b + (n + 1) = b + 1 + n by omega] at hdiffer ⊢
    -- the hash of a full round is the next one of the prompt's chain
    have hnext : ∀ hash, hash = computeBlockHash (blockTokens s.blockSize tokens b) parentHash →
        (b + 1) * start.blockSize ≤ tokens.length →
        hash = chainHash start.blockSize salt tokens (b + 1) := fun hash hhash hfull => by
      rw [Nat.add_one_mul] at hfull
      rw [hhash, hsize, hchain (by omega)]
      rfl
    cases hround with
    | hit hash block hcan hhash hlookup hlive =>
      have hfull := hcan.full
      rw [hsize] at hfull
      have hlong : ¬ tokens.length < b * start.blockSize := by
        rw [Nat.add_one_mul] at hfull
        omega
      have henabled := h.shrinks.enabled ▸ hcan.enabled
      obtain rfl := (hreuse hcan.reuseOpen henabled).resolve_right hlong
      have hcap := hcan.below_cap
      have hchained := hnext hash hhash hfull
      exact ih (h.reuse hfull hchained (fun hnonneg => by omega) hlookup hlive) hdiffer hash true
        (fun _ => hchained) fun _ _ => .inl rfl
    | fresh hash nextHash recorded nextOpen t after block hhash hmiss _ halloc hparent hrecorded
        hopen =>
        rw [hsize] at hparent hrecorded
        have hchained : recorded = if (b + 1) * start.blockSize ≤ tokens.length then
            chainHash start.blockSize salt tokens (b + 1) else 0 := by
          rw [hrecorded]
          split
          next hfull => exact hnext hash hhash hfull
          next => rfl
        refine ih (h.take hmiss halloc hchained) hdiffer nextHash nextOpen (fun hfull => ?_)
          fun hstill henabled => ?_
        · rw [hparent, if_pos hfull]
          exact hnext hash hhash hfull
        · obtain ⟨-, hnot⟩ := hopen hstill
          rw [h.shrinks.enabled, hsize] at hnot
          exact .inr (Nat.lt_of_not_le fun hfull => hnot ⟨henabled, hfull⟩)
    | exhausted hash t after _ hmiss _ halloc =>
      have hmissed := Shrinks.misses h.shrinks.filed hmiss
      obtain ⟨htaken, -⟩ := Shrinks.allocateBlockRefWithEviction hmissed.filed halloc
      have hsame := hmiss.sameTables.trans (.allocateBlockRefWithEviction halloc)
      have hfailed := h.congr ((h.owned.congr hmiss.sameOwners).allocateBlockRefWithEviction
        halloc).of_none_cons (hmissed.trans htaken) hsame
      obtain ⟨htable, hhashes⟩ := rollbackPartialAllocation_empty after seq
      have hothers := Serves.of_edits (.rollbackPartialAllocation after seq)
      refine .gaveUp _ (hfailed.shrinks.trans (.rollbackPartialAllocation
        hfailed.shrinks.filed seq fun block => count_le_one_iff.mpr fun i j hi hj =>
          hfailed.slot_unique hfiled hdiffer (by omega) hi hj)) htable hhashes fun other hne => ?_
      rw [hothers.blockTable hne, hothers.blockHashes hne]
      exact hfailed.others other hne

end Reusing

/-- What the whole call can do: nothing for an empty prompt; add blocks to a table that is there; or
fill a new table. -/
inductive PrefixCall (total : Nat) (s : KVCacheManager) (seq : Int) (tokens : List Token)
    (maxReuseBlocks : Int) (salt : Hash) : Int × KVCacheManager → Prop where
  | nothing (hnil : tokens = []) : PrefixCall total s seq tokens maxReuseBlocks salt (0, s)
  | grown (result : Int) (s' : KVCacheManager) (hne : s.blockTable seq ≠ [])
      (hresult : result = 0 ∨ result = -1)
      (hext : Extends seq (s.blockTable seq).length s s') :
      PrefixCall total s seq tokens maxReuseBlocks salt (result, s')
  | loop (result : Int × KVCacheManager) (hne : tokens ≠ []) (hempty : s.blockTable seq = [])
      (houtcome : PrefixOutcome total s seq tokens maxReuseBlocks salt
        ((tokens.length + s.blockSize - 1) / s.blockSize) result) :
      PrefixCall total s seq tokens maxReuseBlocks salt result

theorem allocateBlocksWithPrefix_outcome {total : Nat} (seq : Int)
    (maxReuseBlocks : Int) (howned : Owned total s []) (hfiled : Filed s) (hfit : HashesFit s)
    (hdiffer : ReusesDiffer s salt tokens ((tokens.length + s.blockSize - 1) / s.blockSize)) :
    PrefixCall total s seq tokens maxReuseBlocks salt
      (s.allocateBlocksWithPrefix seq tokens maxReuseBlocks salt) := by
  refine allocateBlocksWithPrefix_cases .nothing ?_ ?_
  · intro hsome n ok t heq
    have hentry : Shrinks s (s.setTable seq (s.blockTable seq)) :=
      .of_same hfiled rfl rfl rfl rfl rfl
    have hplain := Extends.allocateBlocks hentry.filed seq n
    rw [heq, blockTable_setTable] at hplain
    exact .grown _ _ hsome (by cases ok <;> simp)
      ((Extends.keeps hentry (.touchTable s seq)).trans hplain)
  · intro hne hfresh reused t heq
    have hsame := s.entered_sameTables seq
    have hloop : Reusing total s seq tokens maxReuseBlocks salt 0 0 (s.entered seq) :=
      { owned := howned.entered seq
        shrinks := .of_same hfiled rfl rfl rfl rfl rfl
        others := fun other _ => ⟨hsame.blockTable other, hsame.blockHashes other⟩
        length := by rw [hsame.blockTable, hfresh]; rfl
        slots := fun i hi => absurd hi (Nat.not_lt_zero i)
        hashes := by rw [hsame.blockHashes, hfit.start hfresh]; rfl
        reused_le := le_refl 0
        reused_full := by rw [Nat.zero_mul]; exact Nat.zero_le _
        below_cap := fun hcap => hcap }
    have houtcome := hloop.prefixLoop hfiled ((tokens.length + s.blockSize - 1) / s.blockSize)
      (by rwa [Nat.zero_add]) salt true (fun _ => rfl) fun _ _ => .inl rfl
    rw [Nat.zero_add, ← startTable, heq] at houtcome
    refine .loop _ hne hfresh ?_
    cases houtcome with
    | filled reused _ hreusing =>
      have hsame := SameBlocks.trackLru t seq
      exact .filled reused _ (hreusing.congr (hreusing.owned.congr hsame.toSameOwners)
        (.of_sameBlocks hreusing.shrinks.filed hsame) (.of_sameBlocks hsame))
    | gaveUp _ hshrinks htable hhashes hothers =>
      exact .gaveUp t hshrinks htable hhashes hothers

end Quench

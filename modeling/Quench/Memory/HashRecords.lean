import Quench.Memory.PrefixIndexReuse

/-!
# Recorded hashes and tables

No operation leaves a sequence with more recorded hashes than slots (`HashesFit`). A table that
grows therefore never meets a hash recorded for a slot it used to have.
-/

namespace Quench.KVCacheManager

open Lib List SameTables

variable {s : KVCacheManager} {size : Nat}

/-! ## Hash records fit their tables -/

variable {seq : Int}

/-- One sequence's table and hashes changed and still fit; the others are as they were. -/
theorem HashesFit.of_serves {s' : KVCacheManager} (h : HashesFit s) (hserves : Serves seq s s')
    (hseq : (s'.blockHashes seq).length ≤ (s'.blockTable seq).length) : HashesFit s' := by
  intro other
  by_cases heq : other = seq
  · exact heq ▸ hseq
  · rw [hserves.blockTable heq, hserves.blockHashes heq]
    exact h other

section

variable (s : KVCacheManager)

theorem length_pushBlock (seq : Int) (ref : BlockRef) :
    ((s.pushBlock seq ref).blockTable seq).length = (s.blockTable seq).length + 1 := by
  rw [pushBlock, blockTable_setTable, length_append, length_singleton]

theorem length_reuseBlock (seq block : Int) :
    ((s.reuseBlock seq block).blockTable seq).length = (s.blockTable seq).length + 1 := by
  unfold reuseBlock
  split
  · split <;> exact length_pushBlock (s.uncacheBlock block) seq (some block)
  · exact length_pushBlock (s.shareBlock block).2 seq (s.shareBlock block).1

/-- Giving up a prefix allocation forgets the table and the hashes. -/
theorem rollbackPartialAllocation_empty (seq : Int) :
    (s.rollbackPartialAllocation seq 0).blockTable seq = [] ∧
      (s.rollbackPartialAllocation seq 0).blockHashes seq = [] := by
  rw [rollbackPartialAllocation_zero, blockHashes_eraseHashes_ite, if_pos rfl]
  refine ⟨?_, rfl⟩
  change (eraseTable _ seq).blockTable seq = _
  rw [blockTable_eraseTable_ite, if_pos rfl]

theorem length_resizeTable {s : KVCacheManager} (hsize : size ≤ (s.blockTable seq).length) :
    ((s.resizeTable seq size).blockTable seq).length = size := by
  rw [show (s.resizeTable seq size).blockTable seq = _ from blockTable_setTable s seq _,
    length_take, min_eq_left hsize]

theorem length_giveUp {s : KVCacheManager} (hsize : size ≤ (s.blockTable seq).length) :
    ((s.giveUp seq size).blockTable seq).length = size := by
  unfold giveUp
  split
  next hempty => rw [(eraseEmptyTable hempty).blockTable, length_resizeTable hsize]
  next => exact length_resizeTable hsize

/-- Plain allocation records no hash, and it adds all the slots asked for or none. -/
theorem allocateBlocks_lengths (seq numBlocks : Int) : let out := s.allocateBlocks seq numBlocks
    (∀ other, out.2.blockHashes other = s.blockHashes other) ∧
      (out.2.blockTable seq).length =
        (s.blockTable seq).length + if out.1 then numBlocks.toNat else 0 := by
  refine allocateBlocks_rule (I := fun n t => Slots seq s t ∧ ∃ taken, taken + n = numBlocks.toNat ∧
      (t.blockTable seq).length = (s.blockTable seq).length + taken)
    (P := fun out => (∀ other, out.2.blockHashes other = s.blockHashes other) ∧
      (out.2.blockTable seq).length = (s.blockTable seq).length + if out.1 then numBlocks.toNat
        else 0) ?_ ⟨.setTable s seq _, 0, Nat.zero_add _, by rw [blockTable_setTable]; rfl⟩ ?_ ?_ ?_
  · intro hnone
    exact ⟨fun _ => rfl, by rw [if_pos rfl, Int.toNat_of_nonpos hnone]; rfl⟩
  · rintro n t u block ⟨hslots, taken, hcount, hlength⟩ halloc
    refine ⟨hslots.pushTaken halloc, taken + 1, by omega, ?_⟩
    rw [length_pushBlock, (SameTables.allocateBlockRefWithEviction halloc).blockTable, hlength]
    rfl
  · rintro t ⟨hslots, taken, rfl, hlength⟩
    have hsame := SameTables.of_sameBlocks (SameBlocks.trackLru t seq)
    refine ⟨fun other => (hsame.blockHashes other).trans (hslots.blockHashes other), ?_⟩
    rw [hsame.blockTable, hlength]
    rfl
  · rintro n t u ⟨hslots, taken, -, hlength⟩ halloc
    have hsame := SameTables.allocateBlockRefWithEviction halloc
    refine ⟨(hslots.trans ((Slots.giveUp u seq _).after
      (.allocateBlockRefWithEviction halloc))).blockHashes, length_giveUp ?_⟩
    rw [hsame.blockTable, hlength]
    exact Nat.le_add_right _ taken

end

/-- A prefix allocation that starts a table gives it the slots of the prompt if it succeeds, and
records one hash for every slot. -/
theorem startTable_lengths (tokens : List Token) (maxReuseBlocks : Int)
    (contentSalt : Hash) (hfresh : s.blockTable seq = []) :
    let out := s.startTable seq tokens maxReuseBlocks contentSalt
    (0 ≤ out.1 → (out.2.blockTable seq).length =
        (tokens.length + s.blockSize - 1) / s.blockSize) ∧
      (s.blockHashes seq = [] →
        (out.2.blockHashes seq).length = (out.2.blockTable seq).length) := by
  -- a round adds one slot and one hash
  have hpush : ∀ (t u : KVCacheManager) (hash : Hash), u.blockHashes seq = t.blockHashes seq →
      (u.blockTable seq).length = (t.blockTable seq).length + 1 →
      (t.blockHashes seq).length = (t.blockTable seq).length →
      ((u.pushHash seq hash).blockHashes seq).length = (u.blockTable seq).length := by
    intro t u hash hhashes htable hlength
    change ((u.setHashes seq _).blockHashes seq).length = _
    rw [blockHashes_setHashes_ite, if_pos rfl, length_append, hhashes, hlength, htable]
    rfl
  have hsame := s.entered_sameTables seq
  refine prefixLoop_rule
    (I := fun n t => (t.blockTable seq).length + n = (tokens.length + s.blockSize - 1) /
      s.blockSize ∧ (s.blockHashes seq = [] →
        (t.blockHashes seq).length = (t.blockTable seq).length))
    (P := fun out => (0 ≤ out.1 → (out.2.blockTable seq).length =
        (tokens.length + s.blockSize - 1) / s.blockSize) ∧ (s.blockHashes seq = [] →
        (out.2.blockHashes seq).length = (out.2.blockTable seq).length))
    ?_ ?_ (fun _ _ h => ⟨fun _ => h.1, h.2⟩) ?_ ⟨?_, fun hnil => ?_⟩
  · rintro n t hash block ⟨hlength, hlevel⟩ -
    have hslots := length_reuseBlock t seq block
    refine ⟨by change ((t.reuseBlock seq block).blockTable seq).length + n = _; omega,
      fun hnil => ?_⟩
    exact hpush t _ hash ((Slots.reuseBlock t seq block).blockHashes seq) hslots (hlevel hnil)
  · rintro n t u v hash block recorded ⟨hlength, hlevel⟩ hmiss halloc
    have hsame := hmiss.sameTables.trans (.allocateBlockRefWithEviction halloc)
    have hslots := length_pushBlock v seq (some block)
    rw [hsame.blockTable] at hslots
    refine ⟨by change ((v.pushBlock seq (some block)).blockTable seq).length + n = _; omega,
      fun hnil => ?_⟩
    exact hpush t _ recorded (hsame.blockHashes seq) hslots (hlevel hnil)
  · intro n t u v hash _ _ _
    refine ⟨fun hok => absurd hok (show ¬ (0 : Int) ≤ -1 by decide), fun _ => ?_⟩
    rw [(rollbackPartialAllocation_empty v seq).1, (rollbackPartialAllocation_empty v seq).2]
    rfl
  · rw [hsame.blockTable, hfresh, length_nil, Nat.zero_add]
  · rw [hsame.blockTable, hsame.blockHashes, hfresh, hnil]
    rfl

namespace HashesFit

variable {s s' : KVCacheManager} (h : HashesFit s)
include h

theorem allocateBlocks (seq numBlocks : Int) : HashesFit (s.allocateBlocks seq numBlocks).2 := by
  obtain ⟨hhashes, hlength⟩ := s.allocateBlocks_lengths seq numBlocks
  refine h.of_serves (.allocateBlocks s seq numBlocks) ?_
  rw [hhashes, hlength]
  exact Nat.le_add_right_of_le (h seq)

theorem appendBlock (seq : Int) : HashesFit (s.appendBlock seq).2 := by
  refine appendBlock_rule h
    (fun _ halloc => (SameTables.allocateBlockRefWithEviction halloc).hashesFit h)
    fun block t _ halloc => ?_
  have ht := (SameTables.allocateBlockRefWithEviction halloc).hashesFit h
  refine ht.of_serves (.of_slots (.setTable t seq _)) ?_
  rw [length_pushBlock]
  exact Nat.le_add_right_of_le (ht seq)

theorem freeSequence (seq : Int) : HashesFit (s.freeSequence seq) := by
  refine h.of_serves (.freeSequence s seq) ?_
  rcases (freeSequence_empty s seq).2 with hnil | heq
  · rw [hnil]
    exact Nat.zero_le _
  · rw [heq]
    exact h seq

/-- A sequence without slots has no recorded hash, so hashes and slots start level. -/
theorem start (hfresh : s.blockTable seq = []) : s.blockHashes seq = [] := by
  have hlength := h seq
  rw [hfresh] at hlength
  exact eq_nil_of_length_eq_zero (Nat.le_zero.mp hlength)

/-- Rolling back to a length keeps the first slots and the first hashes of its sequence. -/
theorem tables_rollback (seq : Int) {newSeqLen : Int} (hnonneg : 0 ≤ newSeqLen) :
    let blocksNeeded := (newSeqLen.toNat + s.blockSize - 1) / s.blockSize
    (s.rollback seq newSeqLen).blockTable seq = (s.blockTable seq).take blocksNeeded ∧
      (s.rollback seq newSeqLen).blockHashes seq = (s.blockHashes seq).take blocksNeeded := by
  intro blocksNeeded
  have hidle : s.blockTable seq = [] → s.blockTable seq = (s.blockTable seq).take blocksNeeded ∧
      s.blockHashes seq = (s.blockHashes seq).take blocksNeeded := fun hempty => by
    rw [hempty, h.start hempty, take_nil, take_nil]
    exact ⟨rfl, rfl⟩
  unfold KVCacheManager.rollback
  split
  next hlookup => exact hidle (by rw [blockTable, hlookup]; rfl)
  next blocks hlookup =>
    have hblocks := blockTable_of_lookup hlookup
    split
    next hcase =>
      refine hidle ?_
      rcases hcase with hempty | hneg
      · rw [hblocks, List.isEmpty_iff.mp hempty]
      · omega
    next =>
      dsimp only
      have hhashes := (Slots.popBlocks s seq (blocks.length - blocksNeeded)).blockHashes
      have hkept : (popBlocks seq (blocks.length - blocksNeeded) s).blockTable seq =
          (s.blockTable seq).take blocksNeeded := by
        rw [blockTable_popBlocks, hblocks]
        rcases le_total blocks.length blocksNeeded with hle | hle
        · rw [take_of_length_le (by omega), take_of_length_le hle]
        · rw [Nat.sub_sub_self hle]
      split
      next hnone =>
        have hnil : s.blockHashes seq = [] := by
          rw [← hhashes seq, blockHashes, hnone]
          rfl
        refine ⟨hkept, (hhashes seq).trans ?_⟩
        rw [hnil, take_nil]
      next hashes hsome =>
        have hrecord : s.blockHashes seq = hashes :=
          (hhashes seq).symm.trans (congrArg (·.getD []) hsome)
        refine ⟨hkept, ?_⟩
        change (KVCacheManager.setHashes _ seq _).blockHashes seq = _
        rw [blockHashes_setHashes_ite, if_pos rfl, hrecord]

theorem rollback (seq newSeqLen : Int) : HashesFit (s.rollback seq newSeqLen) := by
  refine h.of_serves (.rollback s seq newSeqLen) ?_
  rcases Int.lt_or_le newSeqLen 0 with hneg | hnonneg
  · unfold KVCacheManager.rollback
    split
    · exact h seq
    · rw [if_pos (.inr hneg)]
      exact h seq
  · obtain ⟨htable, hhashes⟩ := tables_rollback h seq hnonneg
    have hlength := h seq
    rw [htable, hhashes, length_take, length_take]
    omega

theorem registerBlockHashes (seq : Int) (tokens : List Token) (contentSalt : Hash) :
    HashesFit (s.registerBlockHashes seq tokens contentSalt) := by
  refine h.of_serves (.of_edits (.registerBlockHashes s seq tokens contentSalt)) ?_
  refine registerBlockHashes_rule (P := fun t =>
    (t.blockHashes seq).length ≤ (t.blockTable seq).length)
    (I := fun _ _ hashes _ => hashes.length ≤ (s.blockTable seq).length) (h seq) (h seq) ?_ ?_
  · intro b ref _ hash hashes _ hget _ _ _ _ hlength
    have hlt := (List.getElem?_eq_some_iff.mp hget).1
    unfold recordAt
    split
    · rwa [length_set]
    · rw [length_append, length_singleton]
      omega
  · intro _ _ hashes t honly hlength
    rwa [blockHashes_setHashes_ite, if_pos rfl, ← (SameTables.of_index honly).blockTable] at *

theorem clearHashesFrom (seq : Int) (sinkEnd totalBlocks : Nat) :
    HashesFit (s.clearHashesFrom seq sinkEnd totalBlocks) := by
  refine h.of_serves (.of_edits (.clearHashesFrom s seq sinkEnd totalBlocks)) ?_
  have htables := (RecordsOnly.clearHashesFrom s seq sinkEnd totalBlocks).keeps
    (·.blockTable seq) fun _ _ => rfl
  have hlength := h seq
  rw [htables]
  unfold KVCacheManager.clearHashesFrom
  split
  · exact hlength
  next hashes hlookup =>
    have hrecord := blockHashes_of_lookup hlookup
    rw [hrecord] at hlength
    rw [blockHashes_setHashes_ite, if_pos rfl]
    simp only [length_append, length_take, length_replicate, length_drop]
    omega

theorem evictMiddleBlocks (seq nSinkTokens nWindowTokens : Int) :
    HashesFit (s.evictMiddleBlocks seq nSinkTokens nWindowTokens).2 := by
  refine evictMiddleBlocks_rule h
    (fun _ => (of_sameBlocks (SameBlocks.pinPrefix s seq _)).hashesFit h)
    (fun t slot ht => ?_) fun _ sinkEnd n ht => ht.clearHashesFrom seq sinkEnd n
  have hslots := Slots.evictSlot seq slot t
  refine ht.of_serves (.of_slots hslots) ?_
  rw [hslots.blockHashes, blockTable_evictSlot, length_set]
  exact ht seq

theorem allocateBlocksWithPrefix (seq : Int) (tokens : List Token) (maxReuseBlocks : Int)
    (contentSalt : Hash) :
    HashesFit (s.allocateBlocksWithPrefix seq tokens maxReuseBlocks contentSalt).2 := by
  refine allocateBlocksWithPrefix_cases (P := fun out => HashesFit out.2) (fun _ => h) ?_ ?_
  · intro _ n ok t heq
    have hplain := ((touchTable s seq).hashesFit h).allocateBlocks seq n
    rwa [heq] at hplain
  · intro _ hfresh reused t heq
    have hedits := Edits.startTable s seq tokens maxReuseBlocks contentSalt
    obtain ⟨-, hlevel⟩ := startTable_lengths tokens maxReuseBlocks contentSalt hfresh
    rw [heq] at hedits hlevel
    have ht : HashesFit t := h.of_serves (.of_edits hedits) (le_of_eq (hlevel (h.start hfresh)))
    dsimp only
    split
    · exact ht
    · exact (of_sameBlocks (SameBlocks.trackLru _ seq)).hashesFit ht

end HashesFit

/-! ## Whole steps -/

/-- No operation records more hashes than there are slots. -/
theorem HashesFit.step (h : HashesFit s) (op : Op) : HashesFit (s.step op) := by
  cases op with
  | allocateBlocks => exact h.allocateBlocks _ _
  | allocateBlocksWithPrefix => exact h.allocateBlocksWithPrefix _ _ _ _
  | appendBlock => exact h.appendBlock _
  | freeSequence => exact h.freeSequence _
  | registerBlockHashes => exact h.registerBlockHashes _ _ _
  | pinPrefix => exact (of_sameBlocks (SameBlocks.pinPrefix ..)).hashesFit h
  | unpinPrefix => exact (of_sameBlocks (SameBlocks.of_pins (.unpinPrefix ..))).hashesFit h
  | rollback => exact h.rollback _ _
  | evictMiddleBlocks => exact h.evictMiddleBlocks _ _ _
  | evictCachedBlock => exact (of_store (.reclaimCachedBlock s)).hashesFit h
  | evictLru => exact evictLru_keeps h h.freeSequence
  | loadPrefixCache => exact (of_store (.loadPrefixCache ..)).hashesFit h
  | touch | setPrefixCachingEnabled | setPinBudgetBlocks | enableSwaSizing | swaPrepare | swaTrim =>
    exact h

/-- So over every run from a fresh manager. -/
theorem run_hashesFit (blockSize totalBlocks swaBlocks : Nat) (ops : List Op) :
    HashesFit ((fresh blockSize totalBlocks swaBlocks).run ops) :=
  run_invariant (fun _ op h => h.step op) (fun _ => le_rfl) ops

end Quench.KVCacheManager

import Quench.Memory.Ownership

/-!
# The prefix-hash index

`block_hash_to_id_` and `block_id_to_hash_` should be inverse to each other and name only blocks
with a reference. Two facts about the tables carry this. All recorded hashes of one block agree,
with each other and with the index. A slot without a recorded hash, and with no hole before it,
holds a block that no one else refers to and that is not in the index, so `register_block_hashes`
may file it under a new hash.

The index breaks when the hole of a streamed sequence is published (`published_hole_in_index`).
`run_keeps_index` names the calls that keep it.
-/

namespace Quench.KVCacheManager

open Lib

variable {block other seq : Int} {t : KVCacheManager} {i : Nat}

/-! ## Slots -/

variable (s : KVCacheManager)

/-- Slot `i` of a sequence's table holds this block. -/
def HasSlot (seq : Int) (i : Nat) (block : Int) : Prop :=
  (s.blockTable seq)[i]? = some (some block)

/-- The hash recorded for slot `i`, `0` if there is none. -/
def recordedHash (seq : Int) (i : Nat) : Hash := (s.blockHashes seq).getD i 0

/-- There is no hole before slot `i`. -/
def Unbroken (seq : Int) (i : Nat) : Prop :=
  ∀ j < i, (s.blockTable seq)[j]? ≠ some none

section

variable (seq other : Int)

theorem blockTable_setTable_ite (blocks : List BlockRef) :
    (s.setTable seq blocks).blockTable other =
      if other = seq then blocks else s.blockTable other := by
  simp only [blockTable, setTable, Table.lookup_insert_ite]
  split <;> rfl

theorem blockTable_eraseTable_ite :
    (s.eraseTable seq).blockTable other = if other = seq then [] else s.blockTable other := by
  simp only [blockTable, eraseTable, Table.lookup_erase_ite]
  split <;> rfl

theorem blockHashes_setHashes_ite (hashes : List Hash) :
    (s.setHashes seq hashes).blockHashes other =
      if other = seq then hashes else s.blockHashes other := by
  simp only [blockHashes, setHashes, Table.lookup_insert_ite]
  split <;> rfl

theorem blockHashes_eraseHashes_ite :
    (s.eraseHashes seq).blockHashes other = if other = seq then [] else s.blockHashes other := by
  simp only [blockHashes, eraseHashes, Table.lookup_erase_ite]
  split <;> rfl

end

section Counting

variable {total : Nat} {s : KVCacheManager} {inflight : List BlockRef} {j : Nat}

theorem HasSlot.count_pos (h : HasSlot s seq i block) : 0 < (s.blockTable seq).count (some block) :=
  List.count_pos_iff.mpr (List.mem_of_getElem? h)

theorem HasSlot.slotCount_pos (h : HasSlot s seq i block) : 0 < s.slotCount block :=
  lt_of_lt_of_le h.count_pos (s.count_blockTable_le_slotCount seq block)

/-- The slots of a table that was cut. -/
theorem HasSlot.of_take {n : Nat}
    (htable : t.blockTable seq = (s.blockTable seq).take n) (h : HasSlot t seq i block) :
    i < n ∧ HasSlot s seq i block := by
  rw [HasSlot, htable, List.getElem?_take] at h
  split at h
  next hlt => exact ⟨hlt, h⟩
  next => cases h

/-- A block in a slot has a reference. -/
theorem Owned.refCount_pos_of_slot (h : Owned total s inflight) (hslot : HasSlot s seq i block) :
    0 < s.refCount block := by
  have hrefs := h.refs block
  have hpos := hslot.slotCount_pos
  omega

/-- A block with a single reference is in at most one slot. -/
theorem HasSlot.unique (hslot : HasSlot s seq i block) (hslot' : HasSlot s other j block)
    (hone : s.slotCount block ≤ 1) : other = seq ∧ j = i := by
  have hseq : other = seq := by
    by_contra hne
    have hpos := hslot.count_pos
    have hpos' := hslot'.count_pos
    unfold blockTable at hpos hpos'
    cases hlookup : s.seqBlocks.lookup seq with
    | none => simp [hlookup] at hpos
    | some blocks =>
      cases hlookup' : s.seqBlocks.lookup other with
      | none => simp [hlookup'] at hpos'
      | some blocks' =>
        have hsum := Table.add_le_total (fun refs : List BlockRef => refs.count (some block))
          hne hlookup hlookup'
        simp only [hlookup, hlookup', Option.getD_some] at hpos hpos'
        unfold slotCount at hone
        omega
  subst hseq
  refine ⟨rfl, ?_⟩
  have hcount := s.count_blockTable_le_slotCount other block
  exact count_le_one_iff.mp (by omega) j i hslot' hslot

/-- A block with a single reference that is in flight is in no slot. -/
theorem Owned.not_slot_of_inflight (h : Owned total s (some block :: inflight))
    (hone : s.refCount block = 1) : ¬ HasSlot s seq i block := by
  intro hslot
  have hrefs := h.refs block
  have hpos := hslot.slotCount_pos
  rw [count_some_cons, if_pos rfl] at hrefs
  omega

end Counting

/-! ## The invariant -/

/-- The index is one-to-one and live, and the tables agree with it. -/
structure Indexed (total : Nat) (s : KVCacheManager) (inflight : List BlockRef) : Prop where
  owned : Owned total s inflight
  enabled : s.prefixCachingEnabled = true
  inverse : ∀ hash block,
    s.blockHashToId.lookup hash = some block ↔ s.blockIdToHash.lookup block = some hash
  live : ∀ block hash, s.blockIdToHash.lookup block = some hash → 0 < s.refCount block
  hash_ne_zero : ∀ block hash, s.blockIdToHash.lookup block = some hash → hash ≠ 0
  table_nodup : ∀ seq i j block, HasSlot s seq i block → HasSlot s seq j block → i = j
  slot_hash : ∀ seq i block hash, HasSlot s seq i block → recordedHash s seq i ≠ 0 →
    s.blockIdToHash.lookup block = some hash → recordedHash s seq i = hash
  slots_agree : ∀ seq i seq' j block, HasSlot s seq i block → HasSlot s seq' j block →
    recordedHash s seq i ≠ 0 → recordedHash s seq' j ≠ 0 →
    recordedHash s seq i = recordedHash s seq' j
  bare : ∀ seq i block, HasSlot s seq i block → recordedHash s seq i = 0 → Unbroken s seq i →
    s.refCount block = 1 ∧ s.blockIdToHash.lookup block = none

/-- No sequence has more recorded hashes than slots. -/
def HashesFit : Prop :=
  ∀ seq, (s.blockHashes seq).length ≤ (s.blockTable seq).length

/-! ## Steps that leave the tables alone -/

/-- Two states with the same tables, recorded hashes, block size and switch. -/
structure SameTables (s s' : KVCacheManager) : Prop where
  blockTable : ∀ seq, s'.blockTable seq = s.blockTable seq
  blockHashes : ∀ seq, s'.blockHashes seq = s.blockHashes seq
  blockSize : s'.blockSize = s.blockSize
  prefixCachingEnabled : s'.prefixCachingEnabled = s.prefixCachingEnabled

namespace SameTables

variable {s s' s'' : KVCacheManager}

theorem rfl' (s : KVCacheManager) : SameTables s s := ⟨fun _ => rfl, fun _ => rfl, rfl, rfl⟩

section

variable (h : SameTables s s')
include h

theorem trans (h' : SameTables s' s'') : SameTables s s'' :=
  ⟨fun seq => (h'.blockTable seq).trans (h.blockTable seq),
    fun seq => (h'.blockHashes seq).trans (h.blockHashes seq),
    h'.blockSize.trans h.blockSize, h'.prefixCachingEnabled.trans h.prefixCachingEnabled⟩

omit h in
/-- A step that writes neither map of tables. -/
theorem of_maps (hblocks : s'.seqBlocks = s.seqBlocks)
    (hhashes : s'.seqBlockHashes = s.seqBlockHashes) (hsize : s'.blockSize = s.blockSize)
    (henabled : s'.prefixCachingEnabled = s.prefixCachingEnabled) : SameTables s s' :=
  ⟨fun _ => by simp only [KVCacheManager.blockTable, hblocks],
    fun _ => by simp only [KVCacheManager.blockHashes, hhashes], hsize, henabled⟩

theorem hasSlot : HasSlot s' seq i block ↔ HasSlot s seq i block := by
  simp only [HasSlot, h.blockTable]

theorem recordedHash (seq : Int) (i : Nat) : s'.recordedHash seq i = s.recordedHash seq i := by
  simp only [KVCacheManager.recordedHash, h.blockHashes]

theorem unbroken : Unbroken s' seq i ↔ Unbroken s seq i := by
  simp only [Unbroken, h.blockTable]

theorem hashesFit (hfit : HashesFit s) : HashesFit s' := fun seq => by
  rw [h.blockHashes, h.blockTable]
  exact hfit seq

end

/-- Creating the entry of a sequence. -/
theorem touchTable (s : KVCacheManager) (seq : Int) :
    SameTables s (s.setTable seq (s.blockTable seq)) where
  blockTable other := by
    rw [blockTable_setTable_ite]
    split
    next heq => rw [heq]
    next => rfl
  blockHashes _ := rfl
  blockSize := rfl
  prefixCachingEnabled := rfl

/-- Forgetting the entry of a sequence without blocks. -/
theorem eraseEmptyTable (hempty : (s.blockTable seq).isEmpty = true) :
    SameTables s (s.eraseTable seq) where
  blockTable other := by
    rw [blockTable_eraseTable_ite]
    split
    next heq => rw [heq, List.isEmpty_iff.mp hempty]
    next => rfl
  blockHashes _ := rfl
  blockSize := rfl
  prefixCachingEnabled := rfl

/-- Creating the hash record of a sequence. -/
theorem touchHashes (s : KVCacheManager) (seq : Int) :
    SameTables s (s.setHashes seq (s.blockHashes seq)) where
  blockTable _ := rfl
  blockHashes other := by
    rw [blockHashes_setHashes_ite]
    split
    next heq => rw [heq]
    next => rfl
  blockSize := rfl
  prefixCachingEnabled := rfl

theorem of_sameBlocks (h : SameBlocks s s') : SameTables s s' :=
  of_maps h.seqBlocks h.seqBlockHashes h.blockSize h.prefixCachingEnabled

theorem of_store (h : StoreOnly s s') : SameTables s s' :=
  of_maps (h.keeps (·.seqBlocks) fun _ _ => rfl) (h.keeps (·.seqBlockHashes) fun _ _ => rfl)
    (h.keeps (·.blockSize) fun _ _ => rfl) (h.keeps (·.prefixCachingEnabled) fun _ _ => rfl)

theorem of_index (h : IndexOnly s s') : SameTables s s' := of_store h.store

theorem allocateBlockRefWithEviction {ref : BlockRef}
    (h : s.allocateBlockRefWithEviction = (ref, s')) : SameTables s s' :=
  of_store (.allocateBlockRefWithEviction h)

end SameTables

theorem entered_sameTables (seq : Int) : SameTables s (s.entered seq) :=
  (SameTables.touchTable s seq).trans (.touchHashes (s.setTable seq (s.blockTable seq)) seq)

variable {hash : Hash}

theorem Misses.sameTables {s : KVCacheManager} (h : Misses s hash t) :
    SameTables s t := .of_index h.index

/-- Erasing a block's index entry removes it in the one direction. -/
theorem blockIdToHash_eraseBlockHash (block other : Int) :
    (s.eraseBlockHash block).blockIdToHash.lookup other =
      if other = block then none else s.blockIdToHash.lookup other := by
  unfold eraseBlockHash
  split
  next hnone =>
    split
    next heq => rw [heq, hnone]
    next => rfl
  next hash hsome => exact Table.lookup_erase_ite _ _ _

/-- Erasing a block's index entry adds none. -/
theorem index_of_eraseBlockHash {s : KVCacheManager}
    (h : (s.eraseBlockHash block).blockIdToHash.lookup other = some hash) :
    other ≠ block ∧ s.blockIdToHash.lookup other = some hash := by
  rw [blockIdToHash_eraseBlockHash] at h
  split at h
  · cases h
  next hne => exact ⟨hne, h⟩

/-- In the other direction it adds none either, and the block's own hash is gone. -/
theorem lookup_eraseBlockHash {s : KVCacheManager}
    (h : (s.eraseBlockHash block).blockHashToId.lookup hash = some other) :
    s.blockHashToId.lookup hash = some other ∧ s.blockIdToHash.lookup block ≠ some hash := by
  unfold eraseBlockHash at h
  split at h
  next hnone => exact ⟨h, by rw [hnone]; exact Option.some_ne_none hash |>.symm⟩
  next erased hsome =>
    rw [Table.lookup_erase_ite] at h
    split at h
    · cases h
    next hne => exact ⟨h, fun heq => hne (Option.some.inj (heq.symm.trans hsome))⟩

/-- Erasing a block's index entry keeps the two directions inverse. -/
theorem inverse_eraseBlockHash {s : KVCacheManager} (block : Int) (h : ∀ hash block,
      s.blockHashToId.lookup hash = some block ↔ s.blockIdToHash.lookup block = some hash)
    (hash : Hash) (other : Int) : (s.eraseBlockHash block).blockHashToId.lookup hash = some other ↔
      (s.eraseBlockHash block).blockIdToHash.lookup other = some hash := by
  unfold eraseBlockHash
  split
  · exact h hash other
  next erased hsome =>
    have herased := (h erased block).mpr hsome
    simp only [Table.lookup_erase_ite]
    by_cases hhash : hash = erased
    · subst hhash
      by_cases hother : other = block
      · simp [hother]
      · rw [if_pos rfl, if_neg hother, ← h, herased]
        simp [Ne.symm hother]
    · rw [if_neg hhash]
      by_cases hother : other = block
      · rw [if_pos hother, hother, h, hsome]
        simp [Ne.symm hhash]
      · rw [if_neg hother, h]

/-- A block whose one reference is a new handle and that no hash names. -/
def FreshBlock (block : Int) : Prop :=
  s.refCount block = 1 ∧ s.blockIdToHash.lookup block = none

end Quench.KVCacheManager

import Quench.Memory.HashRecords
import Quench.Memory.PinOps

/-!
# What a rollback leaves in the index

`rollback` drops the blocks past the new length, with their index entries, and cuts the recorded
hashes. When the new length ends inside a block, that block stays, and with it its recorded hash and
its entry, so that a prompt with the old tokens can still reuse it (`boundary_hash_survives`).

`rollback_forgets` says what is kept, what goes, and what is published afterwards.
-/

namespace Quench.KVCacheManager

open List BlockRef

variable {s : KVCacheManager} {block : Int} {hash : Hash}

open Lib

/-! ## Dropping a block with its entries -/

/-- A block that only one sequence refers to: its entry under this hash is found from the block, its
references are its slots, and the entry goes with the last one. -/
structure OnlyIn (seq block : Int) (hash : Hash) (s : KVCacheManager) : Prop where
  filed : s.blockHashToId.lookup hash = some block → s.blockIdToHash.lookup block = some hash
  refs : s.refCount block = (s.blockTable seq).count (some block)
  gone : s.refCount block = 0 → s.blockHashToId.lookup hash ≠ some block

variable {other : Int}

theorem lookup_dropStaleHashIfLast
    (h : (s.dropStaleHashIfLast block).blockHashToId.lookup hash = some other) :
    s.blockHashToId.lookup hash = some other := by
  unfold dropStaleHashIfLast at h
  split at h
  · exact (lookup_eraseBlockHash h).1
  · exact h

namespace OnlyIn

variable {seq : Int}

/-- The stale-hash check before a handle is dropped. -/
theorem dropStaleHashIfLast (h : OnlyIn seq block hash s) (other : Int) :
    OnlyIn seq block hash (s.dropStaleHashIfLast other) ∧
      (other = block → s.refCount block = 1 →
        (s.dropStaleHashIfLast other).blockHashToId.lookup hash ≠ some block) := by
  have hsame := SameOwners.of_index (.dropStaleHashIfLast s other)
  have hrefs : (s.dropStaleHashIfLast other).refCount block =
      ((s.dropStaleHashIfLast other).blockTable seq).count (some block) := by
    rw [refCount, hsame.pool, hsame.blockTable]
    exact h.refs
  have herased : other = block → s.refCount block = 1 →
      (s.dropStaleHashIfLast other).blockHashToId.lookup hash ≠ some block := by
    rintro rfl hone hlookup
    have hpos : 0 < s.pool.refCount other := Nat.lt_of_lt_of_eq Nat.one_pos hone.symm
    have hnonneg := (BlockPool.lt_numBlocks_of_refCount_pos hpos).1
    rw [KVCacheManager.dropStaleHashIfLast, if_pos ⟨hnonneg, hone⟩] at hlookup
    obtain ⟨hbefore, hother⟩ := lookup_eraseBlockHash hlookup
    exact hother (h.filed hbefore)
  refine ⟨⟨fun hlookup => ?_, hrefs, fun hzero hlookup => ?_⟩, herased⟩
  · have hbefore := h.filed (lookup_dropStaleHashIfLast hlookup)
    by_cases hlast : other = block ∧ s.refCount block = 1
    · exact absurd hlookup (herased hlast.1 hlast.2)
    · unfold KVCacheManager.dropStaleHashIfLast
      split
      next hcond =>
        have hne : block ≠ other := fun heq => hlast ⟨heq.symm, heq ▸ hcond.2⟩
        rw [blockIdToHash_eraseBlockHash, if_neg hne]
        exact hbefore
      next => exact hbefore
  · rw [refCount, hsame.pool] at hzero
    exact h.gone hzero (lookup_dropStaleHashIfLast hlookup)

/-- One round of the pop loop. -/
theorem dropTail (h : OnlyIn seq block hash s) (hne : s.blockTable seq ≠ []) :
    OnlyIn seq block hash (s.dropTail seq ((s.blockTable seq).length - 1)) := by
  have hlast := drop_length_sub_one hne
  have hsplit := congrArg (List.count (some block))
    (take_append_drop ((s.blockTable seq).length - 1) (s.blockTable seq))
  generalize (s.blockTable seq).getLast hne = ref at hlast
  obtain ⟨hchecked, herased⟩ := h.dropStaleHashIfLast (id ref)
  have hsame := SameOwners.of_index (.dropStaleHashIfLast s (id ref))
  rw [KVCacheManager.dropTail, hlast]
  change OnlyIn seq block hash ((s.dropStaleHashIfLast (id ref)).resizeTable seq _)
  have hcount := refCount_resizeTable (s.dropStaleHashIfLast (id ref)) seq
    ((s.blockTable seq).length - 1) block
  have hrefs := hchecked.refs
  rw [count_append, hlast] at hsplit
  rw [hsame.blockTable] at hrefs
  rw [hsame.blockTable, hlast] at hcount
  refine ⟨hchecked.filed, ?_, fun hzero hlookup => ?_⟩
  · rw [blockTable_resizeTable, hcount, hsame.blockTable]
    omega
  · rcases Nat.eq_zero_or_pos ((s.dropStaleHashIfLast (id ref)).refCount block) with
      hnone | hpos
    · exact hchecked.gone hnone hlookup
    · -- this was the last reference, so the check erased the entry
      have hone : [ref].count (some block) ≤ 1 := count_le_length
      have hhead : ref = some block :=
        mem_singleton.mp (count_pos_iff.mp (by omega)) |>.symm
      have hpool : (s.dropStaleHashIfLast (id ref)).refCount block = s.refCount block :=
        congrArg (·.refCount block) hsame.pool
      exact herased (by rw [hhead, id_some]) (by omega) hlookup

end OnlyIn

/-! ## Appending and publishing -/

/-- The block size and the recorded hashes are unchanged. -/
structure SameHashes (s s' : KVCacheManager) : Prop where
  blockSize : s'.blockSize = s.blockSize
  hashes : ∀ seq, s'.blockHashes seq = s.blockHashes seq

variable {seq : Int}

/-- The calls that give a sequence more blocks. -/
def Appends (seq : Int) : Op → Prop
  | .allocateBlocks other _ | .appendBlock other => other = seq
  | _ => False

theorem SameHashes.run (s : KVCacheManager) {ops : List Op} (hops : ∀ op ∈ ops, Appends seq op) :
    SameHashes s (s.run ops) := by
  refine foldlRecOn ops step ⟨rfl, fun _ => rfl⟩ fun t ht op hop => ?_
  have hop := hops op hop
  have hstep : SameHashes t (t.step op) := by
    cases op with
    | allocateBlocks other numBlocks =>
      exact ⟨(Serves.allocateBlocks t other numBlocks).rest.keeps (·.blockSize) fun _ _ => rfl,
        (t.allocateBlocks_lengths other numBlocks).1⟩
    | appendBlock other =>
      have hslots := Slots.appendBlock t other
      exact ⟨hslots.rest.keeps (·.blockSize) fun _ _ => rfl, hslots.blockHashes⟩
    | _ => exact hop.elim
  exact ⟨hstep.blockSize.trans ht.blockSize, fun seq => (hstep.hashes seq).trans (ht.hashes seq)⟩

/-! ## Rolling back -/

theorem OnlyIn.rollback (h : OnlyIn seq block hash s) (newSeqLen : Int) :
    OnlyIn seq block hash (s.rollback seq newSeqLen) :=
  rollback_rule h (fun _ _ => popBlocks_rule (I := fun _ => OnlyIn seq block hash)
    (fun _ _ hne ht => ht.dropTail hne) (fun _ _ ht => ht) h)
    (fun _ _ _ ht => { ht with }) fun _ _ ht => { ht with }

/-- Only one sequence refers to the block. -/
def Alone (s : KVCacheManager) (seq block : Int) : Prop :=
  s.refCount block = (s.blockTable seq).count (some block)

instance (s : KVCacheManager) (seq block : Int) : Decidable (s.Alone seq block) :=
  inferInstanceAs (Decidable (_ = _))

/-- What a publication files for a full slot, when `record` are the hashes the slots have
afterwards: the slot's hash, which is the recorded one or else computed from the published
tokens. -/
structure FiledSlot (s : KVCacheManager) (seq : Int) (tokens : List Token) (contentSalt : Hash)
    (record : Nat → Hash) (hash : Hash) (block : Int) (i : Nat) (ref : BlockRef) : Prop where
  slot : (s.blockTable seq)[i]? = some ref
  id : BlockRef.id ref = block
  full : (i + 1) * s.blockSize ≤ tokens.length
  recorded : hash = record i
  computed : hash = if recordedHash s seq i ≠ 0 then recordedHash s seq i
    else computeBlockHash (blockTokens s.blockSize tokens i)
      (if i = 0 then contentSalt else record (i - 1))

/-- An entry of the index after a publication was there before, or is for a full slot. -/
theorem registerBlockHashes_entries {tokens : List Token} {contentSalt : Hash}
    (h : (s.registerBlockHashes seq tokens contentSalt).blockHashToId.lookup hash = some block) :
    s.blockHashToId.lookup hash = some block ∨ ∃ i ref, FiledSlot s seq tokens contentSalt
      (recordedHash (s.registerBlockHashes seq tokens contentSalt) seq) hash block i ref := by
  revert h
  refine registerBlockHashes_rule (P := fun t => t.blockHashToId.lookup hash = some block →
      s.blockHashToId.lookup hash = some block ∨
        ∃ i ref, FiledSlot s seq tokens contentSalt (recordedHash t seq) hash block i ref)
    (I := fun b parentHash hashes t => parentHash = (if b = 0 then contentSalt else
        hashes.getD (b - 1) 0) ∧ (∀ j, b ≤ j → hashes.getD j 0 = recordedHash s seq j) ∧
      (t.blockHashToId.lookup hash = some block → s.blockHashToId.lookup hash = some block ∨
        ∃ i ref, i < b ∧ FiledSlot s seq tokens contentSalt (hashes.getD · 0) hash block i ref))
    .inl ⟨rfl, fun _ _ => rfl, .inl⟩ ?_ ?_
  · rintro b ref parentHash next hashes t hslot hfull hb - hnext ⟨rfl, hrest, hentries⟩
    have hgetD := fun j => getD_recordAt hashes b j next hb
    have hself : (recordAt hashes b next).getD b 0 = next := (hgetD b).trans (if_pos rfl)
    have hearlier : ∀ j < b, (recordAt hashes b next).getD j 0 = hashes.getD j 0 := fun j hj =>
      (hgetD j).trans (if_neg hj.ne)
    refine ⟨hself.symm, fun j hj => ?_, fun hlookup => ?_⟩
    · rw [hgetD, if_neg (by omega), hrest j (by omega)]
    · have hold : t.blockHashToId.lookup hash = some block ∨ next = hash ∧ ref.id = block := by
        unfold registerHash at hlookup
        split at hlookup
        · exact .inl hlookup
        · rw [Table.lookup_insert_ite] at hlookup
          split at hlookup
          next heq => exact .inr ⟨heq.symm, Option.some.inj hlookup⟩
          next => exact .inl hlookup
      rcases hold with hold | ⟨rfl, hid⟩
      · rcases hentries hold with hold | ⟨i, held, hi, hfiled⟩
        · exact .inl hold
        · refine .inr ⟨i, held, Nat.lt_succ_of_lt hi,
            { hfiled with recorded := ?_, computed := ?_ }⟩
          · rw [hearlier i hi]
            exact hfiled.recorded
          · rw [hearlier (i - 1) (by omega)]
            exact hfiled.computed
      · refine .inr ⟨b, ref, Nat.lt_succ_self b, hslot, hid, hfull, hself.symm,
          hnext.symm.trans ?_⟩
        rw [nextHash, hrest b (le_refl b)]
        split
        · rfl
        · split
          · rfl
          · rw [hearlier (b - 1) (by omega)]
  · rintro b - hashes t honly ⟨-, -, hentries⟩ hlookup
    have hrecorded : recordedHash (t.setHashes seq hashes) seq = (hashes.getD · 0) := by
      funext j
      rw [recordedHash, blockHashes_setHashes_ite, if_pos rfl]
    rw [hrecorded]
    exact (hentries hlookup).imp_right fun hslot => by
      obtain ⟨i, ref, -, hfiled⟩ := hslot
      exact ⟨i, ref, hfiled⟩

end Quench.KVCacheManager

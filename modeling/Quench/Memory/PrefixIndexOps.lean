import Quench.Memory.IndexEntries

/-!
# Operations that keep the prefix-hash index

Plain allocation, freeing, rollback and streaming eviction against the invariant of
`Quench.Memory.PrefixIndex`. They only take entries out of the index, so they keep it as they are:
each drops a block's entry before, or together with, the block's last reference. `of_slots` derives
the invariant from what becomes of the entries (`Shrinks`, `Unfiles`) and of each slot.
-/

namespace Quench.KVCacheManager

open Lib List

/-! ## The two directions -/

/-- No entry of the index has come, and its two directions are inverse. -/
structure Unfiles (s s' : KVCacheManager) : Prop where
  entries : ∀ hash block, s'.blockHashToId.lookup hash = some block →
    s.blockHashToId.lookup hash = some block
  inverse : ∀ hash block,
    s'.blockHashToId.lookup hash = some block ↔ s'.blockIdToHash.lookup block = some hash

namespace Unfiles

variable {s t u : KVCacheManager} (h : Unfiles s t)
include h

theorem of_maps (hids : u.blockHashToId = t.blockHashToId)
    (hhashes : u.blockIdToHash = t.blockIdToHash) : Unfiles s u :=
  ⟨by simpa only [hids] using h.entries, by simpa only [hids, hhashes] using h.inverse⟩

theorem eraseBlockHash (block : Int) : Unfiles s (t.eraseBlockHash block) :=
  ⟨fun hash other hentry => h.entries hash other (lookup_eraseBlockHash hentry).1,
    inverse_eraseBlockHash block h.inverse⟩

theorem reclaimCachedBlock : Unfiles s t.reclaimCachedBlock.2 := by
  obtain ⟨lru, -, heq | ⟨block, -, -, heq⟩⟩ := t.reclaimCachedBlock_cases
  · rw [heq]
    exact { h with }
  · rw [heq]
    have hgiven : Unfiles s
        ((({ t with cachedBlocksLru := lru }).uncacheBlock block).addReclaimable (-1)) :=
      { h with }
    exact { hgiven.eraseBlockHash block with }

theorem allocateBlockRefWithEviction {ref : BlockRef}
    (halloc : t.allocateBlockRefWithEviction = (ref, u)) : Unfiles s u := by
  obtain ⟨v, hv, ⟨-, rfl⟩ | ⟨block, -, hacquire⟩⟩ :=
    allocateBlockRefWithEviction_rule (Unfiles s) (fun _ h => h.reclaimCachedBlock) h halloc
  · exact hv
  · obtain ⟨-, rfl⟩ := Prod.mk.inj hacquire
    exact { hv with }

variable (seq : Int)

theorem trackLru : Unfiles s (t.trackLru seq) := by
  unfold KVCacheManager.trackLru
  split <;> exact { h with }

theorem allocateBlocks (seq numBlocks : Int) : Unfiles s (t.allocateBlocks seq numBlocks).2 := by
  refine allocateBlocks_rule (I := fun _ => Unfiles s) (P := fun out => Unfiles s out.2)
    (fun _ => h) { h with }
    (fun _ _ _ _ h halloc => { h.allocateBlockRefWithEviction halloc with })
    (fun _ h => h.trackLru seq) fun _ _ u h halloc => ?_
  have hu := h.allocateBlockRefWithEviction halloc
  unfold giveUp
  split <;> exact { hu with }

theorem dropTail (size : Nat) : Unfiles s (t.dropTail seq size) := by
  have hpass : Unfiles s (dropStale ((t.blockTable seq).drop size) t) := by
    refine List.foldlRecOn _ _ h fun u hu ref _ => ?_
    unfold dropStaleHashIfLast
    split
    · exact hu.eraseBlockHash _
    · exact hu
  exact { hpass with }

theorem evictSlot (slot : Nat) : Unfiles s (t.evictSlot seq slot) := by
  unfold KVCacheManager.evictSlot
  split
  next block _ => exact { h.eraseBlockHash block with }
  next => exact h

theorem clearHashesFrom (sinkEnd totalBlocks : Nat) :
    Unfiles s (t.clearHashesFrom seq sinkEnd totalBlocks) := by
  unfold KVCacheManager.clearHashesFrom
  split
  · exact h
  · refine of_maps (List.foldlRecOn _ eraseRefHash h fun u hu ref _ => ?_) rfl rfl
    cases ref with
    | none => exact hu
    | some block => exact hu.eraseBlockHash block

/-- A stale entry goes in both directions. -/
theorem misses {hash : Hash} (hmiss : Misses t hash u) : Unfiles s u := by
  cases hmiss with
  | absent => exact h
  | stale block hlookup _ _ =>
    have herased := h.eraseBlockHash block
    rwa [KVCacheManager.eraseBlockHash, (h.inverse hash block).mp hlookup] at herased

theorem startTable (tokens : List Token) (maxReuseBlocks : Int) (contentSalt : Hash) :
    Unfiles s (t.startTable seq tokens maxReuseBlocks contentSalt).2 := by
  refine prefixLoop_rule (I := fun _ => Unfiles s) (P := fun out => Unfiles s out.2)
    (fun _ t _ block ht _ => ?_) (fun _ _ _ _ _ _ _ ht hmiss halloc =>
      { (ht.misses hmiss).allocateBlockRefWithEviction halloc with })
    (fun _ _ ht => ht) (fun _ _ _ v _ ht hmiss halloc => ?_) { h with }
  · unfold reuseBlock
    split
    · split <;> exact { ht with }
    · exact { ht with }
  · have hv := ((ht.misses hmiss).allocateBlockRefWithEviction halloc).dropTail seq 0
    rw [rollbackPartialAllocation_zero]
    exact { hv with }

end Unfiles

/-! ## Slots -/

/-- A slot that was there before, and had every hole before it then: it keeps its recorded hash, or
loses it behind a hole. -/
structure OldSlot (s s' : KVCacheManager) (seq : Int) (i : Nat) (block : Int) : Prop where
  held : HasSlot s seq i block
  hash : s'.recordedHash seq i ≠ 0 → s'.recordedHash seq i = s.recordedHash seq i
  bare : s'.recordedHash seq i = 0 → Unbroken s' seq i →
    s.recordedHash seq i = 0 ∧ Unbroken s seq i

variable {block : Int}

/-- A table that is as before up to a slot has the old slot there. -/
theorem OldSlot.of_get {s s' : KVCacheManager} {seq : Int} {i : Nat}
    (hget : ∀ j ≤ i, (s'.blockTable seq)[j]? = (s.blockTable seq)[j]?)
    (hhash : s'.recordedHash seq i = s.recordedHash seq i) (hslot : HasSlot s' seq i block) :
    OldSlot s s' seq i block where
  held := (hget i (le_refl i)).symm.trans hslot
  hash _ := hhash
  bare hzero hunbroken := ⟨hhash.symm.trans hzero, fun j hj => by
    rw [← hget j (le_of_lt hj)]
    exact hunbroken j hj⟩

namespace Indexed

variable {total : Nat} {s s' : KVCacheManager} {inflight inflight' : List BlockRef}

section

variable (h : Indexed total s inflight)
include h

theorem filed : Filed s where
  named hash block hfiles := (h.inverse hash block).mp hfiles.1
  live hash block hfiles := h.live block hash ((h.inverse hash block).mp hfiles.1)

theorem unfiles : Unfiles s s := ⟨fun _ _ h => h, h.inverse⟩

/-- No block is twice in a table. -/
theorem count_le_one (seq block : Int) : (s.blockTable seq).count (some block) ≤ 1 :=
  count_le_one_iff.mpr fun i j hi hj => h.table_nodup seq i j block hi hj

end

section

variable (h : Indexed total s inflight) (howned : Owned total s' inflight')
  (hshrinks : Shrinks s s') (hunfiles : Unfiles s s')
include h howned hshrinks hunfiles

/-- A slot is the old one, holds an exclusive block, or holds a block of the index under its hash:
then the invariant holds. -/
theorem of_slots (hslot : ∀ seq i block, HasSlot s' seq i block → ¬ Exclusive s' block → OldSlot s
      s' seq i block ∨ s.blockIdToHash.lookup block = some (s'.recordedHash seq i)) (hnodup : ∀ seq
      i j block, HasSlot s' seq i block → HasSlot s' seq j block → ¬ Exclusive s' block → i = j) :
    Indexed total s' inflight' := by
  have hname : ∀ {block hash}, s'.blockIdToHash.lookup block = some hash →
      s.blockIdToHash.lookup block = some hash := fun hlookup =>
    (h.inverse _ _).mp (hunfiles.entries _ _ ((hunfiles.inverse _ _).mpr hlookup))
  have hfiles : ∀ {block hash}, s'.blockIdToHash.lookup block = some hash → Files s' hash block :=
    fun hlookup => ⟨(hunfiles.inverse _ _).mpr hlookup,
      (BlockPool.lt_numBlocks_of_refCount_pos (h.live _ _ (hname hlookup))).1⟩
  refine ⟨howned, hshrinks.enabled.trans h.enabled, hunfiles.inverse,
    fun block hash hlookup => hshrinks.filed.live hash block (hfiles hlookup),
    fun block hash hlookup => h.hash_ne_zero block hash (hname hlookup), ?_, ?_, ?_, ?_⟩
  · intro seq i j block hi hj
    by_cases hexcl : Exclusive s' block
    · exact (hexcl.unique howned hj hi).2
    · exact hnodup seq i j block hi hj hexcl
  · intro seq i block hash hi hne hlookup
    rcases hslot seq i block hi fun hexcl => hexcl.2 hash (hfiles hlookup) with hold | hnamed
    · have heq := hold.hash hne
      rw [heq] at hne ⊢
      exact h.slot_hash seq i block hash hold.held hne (hname hlookup)
    · exact Option.some.inj (hnamed.symm.trans (hname hlookup))
  · intro seq i seq' j block hi hj hine hjne
    by_cases hexcl : Exclusive s' block
    · obtain ⟨rfl, rfl⟩ := hexcl.unique howned hj hi
      rfl
    rcases hslot seq i block hi hexcl with hiold | hinamed
    · have hieq := hiold.hash hine
      rw [hieq] at hine ⊢
      rcases hslot seq' j block hj hexcl with hjold | hjnamed
      · have hjeq := hjold.hash hjne
        rw [hjeq] at hjne ⊢
        exact h.slots_agree seq i seq' j block hiold.held hjold.held hine hjne
      · exact h.slot_hash seq i block _ hiold.held hine hjnamed
    · rcases hslot seq' j block hj hexcl with hjold | hjnamed
      · have hjeq := hjold.hash hjne
        rw [hjeq] at hjne ⊢
        exact (h.slot_hash seq' j block _ hjold.held hjne hinamed).symm
      · exact Option.some.inj (hinamed.symm.trans hjnamed)
  · intro seq i block hi hzero hunbroken
    have hpos := howned.refCount_pos_of_slot hi
    suffices hexcl : Exclusive s' block by
      refine ⟨le_antisymm hexcl.1 hpos, Option.eq_none_iff_forall_ne_some.mpr ?_⟩
      exact fun hash hlookup => hexcl.2 hash (hfiles hlookup)
    by_contra hexcl
    rcases hslot seq i block hi hexcl with hold | hnamed
    · -- the block was exclusive before the step
      obtain ⟨hbare, hbefore⟩ := hold.bare hzero hunbroken
      obtain ⟨hone, hnone⟩ := h.bare seq i block hold.held hbare hbefore
      refine hexcl (hshrinks.exclusive block ⟨le_of_eq hone, fun hash hentry => ?_⟩)
      rw [h.filed.named hash block hentry] at hnone
      cases hnone
    · exact h.hash_ne_zero block _ hnamed hzero

/-- A step that brings no slot but of exclusive blocks. -/
theorem of_shrinks (hslot : ∀ seq i block, HasSlot s' seq i block → ¬ Exclusive s' block → OldSlot s
      s' seq i block) : Indexed total s' inflight' :=
  h.of_slots howned hshrinks hunfiles
    (fun seq i block hi hexcl => .inl (hslot seq i block hi hexcl))
    fun seq i j block hi hj hexcl => h.table_nodup seq i j block (hslot seq i block hi hexcl).held
      (hslot seq j block hj hexcl).held

theorem of_sameTables (hsame : SameTables s s') : Indexed total s' inflight' :=
  h.of_shrinks howned hshrinks hunfiles fun seq i _ hi _ =>
    .of_get (fun _ _ => by rw [hsame.blockTable]) (hsame.recordedHash seq i) hi

end

/-- A step that only moves references between owners keeps the invariant. -/
theorem reown (h : Indexed total s inflight) (howned : Owned total s' inflight')
    (hsame : SameTables s s') (hpool : s'.pool = s.pool) (hids : s'.blockHashToId = s.blockHashToId)
    (hhashes : s'.blockIdToHash = s.blockIdToHash) : Indexed total s' inflight' :=
  h.of_sameTables howned
    (.of_same h.filed hsame.blockSize hsame.prefixCachingEnabled hids hhashes hpool)
    (h.unfiles.of_maps hids hhashes) hsame

theorem congr (h : Indexed total s inflight) (hsame : SameBlocks s s') :
    Indexed total s' inflight :=
  h.reown (h.owned.congr hsame.toSameOwners) (.of_sameBlocks hsame) hsame.pool hsame.blockHashToId
    hsame.blockIdToHash

/-! ## References -/

/-- Handles may be destroyed if every block in the index keeps another reference. -/
theorem dropRefs {refs : List BlockRef} (h : Indexed total s (refs ++ inflight))
    (hkeep : ∀ hash block, Files s hash block → refs.count (some block) < s.refCount block) :
    Indexed total (s.dropRefs refs) inflight :=
  h.of_sameTables h.owned.dropRefs (.dropRefs h.filed hkeep) { h.unfiles with }
    (.of_maps rfl rfl rfl rfl)

theorem reclaimCachedBlock (h : Indexed total s inflight) :
    Indexed total s.reclaimCachedBlock.2 inflight :=
  h.of_sameTables h.owned.reclaimCachedBlock (.reclaimCachedBlock h.filed)
    h.unfiles.reclaimCachedBlock (.of_store (.reclaimCachedBlock s))

/-- A block taken from the free list is fresh: it was in no slot and in no index entry. -/
theorem acquireBlockRef (h : Indexed total s inflight)
    (hacquire : s.acquireBlockRef = (some block, s')) :
    Indexed total s' (some block :: inflight) ∧ FreshBlock s' block := by
  obtain ⟨hshrinks, hfresh⟩ := Shrinks.acquireBlockRef h.filed hacquire
  obtain ⟨hone, hexcl⟩ := hfresh block rfl
  have howned := h.owned.acquireBlockRef hacquire
  obtain ⟨pool, rfl, -, hnonneg, -⟩ := acquireBlockRef_some hacquire
  refine ⟨h.of_sameTables howned hshrinks { h.unfiles with } (.of_maps rfl rfl rfl rfl),
    hone, Option.eq_none_iff_forall_ne_some.mpr fun hash hlookup => ?_⟩
  exact hexcl.2 hash ⟨(h.inverse hash block).mpr hlookup, hnonneg⟩

/-! ## Plain allocation -/

variable {size : Nat}

/-- A table may grow by exclusive blocks. -/
theorem of_extends {seq : Int} (h : Indexed total s inflight) (howned : Owned total s' inflight')
    (hext : Extends seq size s s') (hunfiles : Unfiles s s') : Indexed total s' inflight' := by
  refine h.of_shrinks howned hext.shrinks hunfiles fun other i block hslot hexcl => ?_
  have hhash : s'.recordedHash other i = s.recordedHash other i := by
    rw [recordedHash, hext.hashes, recordedHash]
  by_cases heq : other = seq
  · subst heq
    obtain ⟨hlt, hold⟩ := (hext.slots i block hslot).resolve_right fun hown => hexcl hown.2
    refine ⟨hold, fun _ => hhash, fun hzero hunbroken => ⟨hhash.symm.trans hzero, fun j hj => ?_⟩⟩
    -- a hole of the old table is one of the grown table
    intro hhole
    have hlong : j < (s'.blockTable other).length := by
      have := hext.length
      omega
    refine hunbroken j hj ((getElem?_eq_getElem hlong).trans (congrArg some ?_))
    cases hget : (s'.blockTable other)[j] with
    | none => rfl
    | some held =>
      rcases hext.slots j held ((getElem?_eq_getElem hlong).trans (congrArg some hget)) with
        ⟨-, hfull⟩ | ⟨hge, -⟩
      · rw [HasSlot, hhole] at hfull
        cases hfull
      · omega
  · exact .of_get (fun _ _ => by rw [hext.others other heq]) hhash hslot

theorem allocateBlocks (seq numBlocks : Int) (h : Indexed total s inflight) :
    Indexed total (s.allocateBlocks seq numBlocks).2 inflight :=
  h.of_extends (h.owned.allocateBlocks seq numBlocks) (.allocateBlocks h.filed seq numBlocks)
    (h.unfiles.allocateBlocks seq numBlocks)

section

variable (seq : Int)

section

variable (h : Indexed total s inflight)
include h

theorem appendBlock : Indexed total (s.appendBlock seq).2 inflight :=
  h.of_extends (h.owned.appendBlock seq) (.appendBlock h.filed seq)
    (appendBlock_rule h.unfiles (fun _ halloc => h.unfiles.allocateBlockRefWithEviction halloc)
      fun _ _ _ halloc => { h.unfiles.allocateBlockRefWithEviction halloc with })

/-! ## Rolling back and freeing -/

/-- Handles past the new size may be destroyed once stale hashes are dropped. -/
theorem dropTail (seq : Int) (size : Nat) : Indexed total (s.dropTail seq size) inflight := by
  have hnodup : ∀ block, ((s.blockTable seq).drop size).count (some block) ≤ 1 := fun block =>
    ((drop_sublist size (s.blockTable seq)).count_le (some block)).trans
      (h.count_le_one seq block)
  have hslots := Slots.dropTail s seq size
  refine h.of_shrinks (h.owned.dropTail seq size) (.dropTail h.filed seq size hnodup)
    (h.unfiles.dropTail seq size) fun other i block hslot _ => ?_
  refine .of_get (fun j hj => ?_) (by rw [recordedHash, hslots.blockHashes, recordedHash]) hslot
  by_cases heq : other = seq
  · subst heq
    have hlt := (List.getElem?_eq_some_iff.mp hslot).1
    rw [blockTable_dropTail, length_take] at hlt
    rw [blockTable_dropTail, getElem?_take, if_pos (by omega)]
  · rw [hslots.blockTable heq]

/-- Hashes past the table's end may be forgotten. -/
theorem trimHashes {seq : Int} (hlength : (s.blockTable seq).length ≤ size) :
    Indexed total (s.setHashes seq ((s.blockHashes seq).take size)) inflight := by
  refine h.of_shrinks { h.owned with }
    (.of_same h.filed rfl rfl rfl rfl rfl) { h.unfiles with } fun other i block hi _ => ?_
  have hrecorded : (s.setHashes seq ((s.blockHashes seq).take size)).recordedHash other i =
      s.recordedHash other i := by
    simp only [recordedHash, blockHashes_setHashes_ite]
    split
    next heq =>
      subst heq
      have hlt : i < size := by
        have := (List.getElem?_eq_some_iff.mp hi).1
        exact lt_of_lt_of_le this hlength
      rw [getD_eq_getElem?_getD, getElem?_take, if_pos hlt, getD_eq_getElem?_getD]
    next => rfl
  exact .of_get (fun _ _ => rfl) hrecorded hi

omit h in
theorem rollback (seq newSeqLen : Int) (h : Indexed total s inflight) :
    Indexed total (s.rollback seq newSeqLen) inflight := by
  have hpopped : ∀ n, Indexed total (popBlocks seq n s) inflight := fun n =>
    popBlocks_rule (I := fun _ t => Indexed total t inflight) (P := (Indexed total · inflight))
      (fun _ _ _ h => h.dropTail seq _) (fun _ _ h => h) h
  exact rollback_rule (P := (Indexed total · inflight)) h (fun _ _ => hpopped _)
    (fun _ _ hshort h => h.trimHashes hshort)
    fun _ _ h => h.congr ⟨⟨rfl, rfl, rfl, .refl _⟩, rfl, rfl, rfl, rfl, rfl⟩

theorem freeSequence : Indexed total (s.freeSequence seq) inflight := by
  have hserves := Serves.freeSequence s seq
  have hmaps : Unfiles s (s.freeSequence seq) := by
    unfold KVCacheManager.freeSequence
    split
    · exact h.unfiles
    next blocks _ =>
      have hcache := CacheOnly.releaseSlots blocks s
      exact h.unfiles.of_maps (hcache.keeps (·.blockHashToId) fun _ _ => rfl)
        (hcache.keeps (·.blockIdToHash) fun _ _ => rfl)
  refine h.of_shrinks (h.owned.freeSequence seq)
    (.freeSequence h.filed seq h.owned (.inl h.enabled) (h.count_le_one seq)) hmaps
    fun other i block hslot _ => ?_
  have hne : other ≠ seq := fun heq => by
    rw [HasSlot, heq, blockTable, (freeSequence_empty s seq).1] at hslot
    cases hslot
  exact .of_get (fun _ _ => by rw [hserves.blockTable hne])
    (by rw [recordedHash, hserves.blockHashes hne, recordedHash]) hslot

end

/-! ## Streaming eviction -/

theorem evictSlot (slot : Nat) (h : Indexed total s inflight) :
    Indexed total (s.evictSlot seq slot) inflight := by
  have hslots := Slots.evictSlot seq slot s
  have hhash : ∀ other i, (s.evictSlot seq slot).recordedHash other i = s.recordedHash other i :=
    fun other i => by rw [recordedHash, hslots.blockHashes, recordedHash]
  refine h.of_shrinks (h.owned.evictSlot seq slot) (.evictSlot h.filed seq slot)
    (h.unfiles.evictSlot seq slot) fun other i block hslot _ => ?_
  by_cases heq : other = seq
  · subst heq
    refine ⟨(Loses.evictSlot other slot s).slots other i block hslot, fun _ => hhash other i,
      fun hzero hunbroken =>
        ⟨(hhash other i).symm.trans hzero, fun j hj hhole => hunbroken j hj ?_⟩⟩
    rw [blockTable_evictSlot, getElem?_set]
    split
    next hthis => rw [if_pos (hthis ▸ (List.getElem?_eq_some_iff.mp hhole).1)]
    next => exact hhole
  · exact .of_get (fun _ _ => by rw [hslots.blockTable heq]) (hhash other i) hslot

theorem evictSlots (count slot : Nat) (h : Indexed total s inflight) :
    Indexed total (evictSlots seq count slot s) inflight := by
  induction count generalizing s slot with
  | zero => exact h
  | succ count ih => exact ih (slot + 1) (h.evictSlot seq slot)

/-- The middle loop keeps the table's length and every slot before it. -/
theorem tables_evictSlots (count slot : Nat) (s : KVCacheManager) :
    ((KVCacheManager.evictSlots seq count slot s).blockTable seq).length =
        (s.blockTable seq).length ∧
      ∀ i < slot, ((KVCacheManager.evictSlots seq count slot s).blockTable seq)[i]? =
        (s.blockTable seq)[i]? := by
  induction count generalizing s slot with
  | zero => exact ⟨rfl, fun _ _ => rfl⟩
  | succ count ih =>
    obtain ⟨hlength, hbefore⟩ := ih (slot + 1) (s.evictSlot seq slot)
    rw [blockTable_evictSlot] at hlength hbefore
    refine ⟨hlength.trans length_set, fun i hi => (hbefore i (by omega)).trans ?_⟩
    rw [getElem?_set_ne (by omega)]

/-- The middle loop leaves a hole at its first slot. -/
theorem hole_evictSlots (count slot : Nat) (s : KVCacheManager)
    (hlt : slot < (s.blockTable seq).length) :
    ((KVCacheManager.evictSlots seq (count + 1) slot s).blockTable seq)[slot]? = some none := by
  rw [KVCacheManager.evictSlots,
    (tables_evictSlots seq count (slot + 1) (s.evictSlot seq slot)).2 slot (by omega),
    blockTable_evictSlot, getElem?_set_self hlt]

theorem clearHashesFrom (sinkEnd totalBlocks : Nat) (h : Indexed total s inflight)
    (hhole : (s.blockTable seq)[sinkEnd]? = some none) :
    Indexed total (s.clearHashesFrom seq sinkEnd totalBlocks) inflight := by
  have hsame := SameOwners.of_records (.clearHashesFrom s seq sinkEnd totalBlocks)
  refine h.of_shrinks (h.owned.clearHashesFrom seq sinkEnd totalBlocks)
    (.clearHashesFrom h.filed seq sinkEnd totalBlocks)
    (h.unfiles.clearHashesFrom seq sinkEnd totalBlocks) fun other i block hslot _ => ?_
  have hold : HasSlot s other i block := by rwa [HasSlot, hsame.blockTable] at hslot
  rcases recordedHash_clearHashesFrom seq sinkEnd totalBlocks s other i with heq | ⟨rfl, hge, hzero⟩
  · exact .of_get (fun _ _ => by rw [hsame.blockTable]) heq hslot
  · refine ⟨hold, fun hne => absurd hzero hne, fun _ hunbroken => ?_⟩
    -- the slot is past the hole the middle loop left, or is that hole
    rcases lt_or_eq_of_le hge with hlt | heq
    · have hnot := hunbroken sinkEnd hlt
      rw [hsame.blockTable] at hnot
      exact absurd hhole hnot
    · rw [HasSlot, ← heq, hhole] at hold
      cases hold

end

theorem evictMiddleBlocks (seq nSinkTokens nWindowTokens : Int) (h : Indexed total s inflight) :
    Indexed total (s.evictMiddleBlocks seq nSinkTokens nWindowTokens).2 inflight := by
  generalize hsinks : (nSinkTokens.toNat + s.blockSize - 1) / s.blockSize = sinkEnd
  rw [s.evictMiddleBlocks_eq seq nSinkTokens nWindowTokens hsinks rfl]
  split
  next hmiddle =>
    generalize hpinned : (if _ < sinkEnd then s.pinPrefix seq sinkEnd else s) = t
    have hsame : SameBlocks s t := by
      rw [← hpinned]
      split
      · exact SameBlocks.pinPrefix s seq sinkEnd
      · exact SameBlocks.rfl' s
    obtain ⟨count, hcount⟩ := Nat.exists_eq_add_of_lt hmiddle.2.2
    refine clearHashesFrom seq sinkEnd _ (evictSlots seq _ sinkEnd (h.congr hsame)) ?_
    rw [hcount, show sinkEnd + count + 1 - sinkEnd = count + 1 by omega]
    refine hole_evictSlots seq count sinkEnd _ ?_
    rw [hsame.toSameOwners.blockTable]
    exact hmiddle.2.2.trans_le ((Nat.sub_le _ _).trans (Nat.sub_le _ _))
  next => exact h

end Indexed

end Quench.KVCacheManager

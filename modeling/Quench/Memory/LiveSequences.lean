import Quench.Memory.LoadedBlocks

/-!
# Live sequences

A sequence is live while it has a table. `lru_order_` is meant to hold exactly the live sequences,
each once, as `evict_lru` frees the first of them that owns no pins (`evictLru_frees`).

`lru_order_live` shows this for every run in which a sequence is touched only while it is live and
blocks are not allocated to a live sequence without any. Otherwise an id without a table can stay in
the order (`touch_orphans`).
-/

namespace Quench

open Lib List

namespace KVCacheManager

/-- `lru_order_` holds the sequences that have a table, each once. -/
structure Live (s : KVCacheManager) : Prop where
  nodup : s.lruOrder.Nodup
  mem : ∀ seq, seq ∈ s.lruOrder ↔ seq ∈ s.seqBlocks

/-! ## Frames -/

/-- Two states with the same pins and the same owners of them, in the same order. -/
structure SameOwnedPins (s s' : KVCacheManager) : Prop where
  pinned : s'.pinnedBlocks = s.pinnedBlocks
  pins : s'.pinRefcount = s.pinRefcount
  owners : s'.pinnedSeqBlocks = s.pinnedSeqBlocks
  fifo : s'.pinFifo = s.pinFifo

variable {seq : Int} {s t u : KVCacheManager}

/-- Only operations on the pins change them. -/
theorem SameOwnedPins.of_call (h : callPart.Only s t) : SameOwnedPins s t where
  pinned := h.keeps (·.pinnedBlocks) fun _ _ => rfl
  pins := h.keeps (·.pinRefcount) fun _ _ => rfl
  owners := h.keeps (·.pinnedSeqBlocks) fun _ _ => rfl
  fifo := h.keeps (·.pinFifo) fun _ _ => rfl

theorem Edits.order (h : Edits seq s t) : t.lruOrder = s.lruOrder :=
  h.rest.keeps (·.lruOrder) fun _ _ => rfl

theorem Edits.others (h : Edits seq s t) {other : Int} (hne : other ≠ seq) :
    other ∈ t.seqBlocks ↔ other ∈ s.seqBlocks := by
  rw [← AList.lookup_isSome, ← AList.lookup_isSome, h.table other hne]

theorem mem_setTable (s : KVCacheManager) (seq : Int) (blocks : List BlockRef) :
    seq ∈ (s.setTable seq blocks).seqBlocks := by
  simp [setTable]

theorem not_mem_eraseTable (s : KVCacheManager) (seq : Int) :
    seq ∉ (s.eraseTable seq).seqBlocks := by
  simp [eraseTable]

theorem mem_of_slots (h : s.blockTable seq ≠ []) : seq ∈ s.seqBlocks := by
  by_contra hnew
  rw [blockTable, AList.lookup_eq_none.mpr hnew] at h
  exact h rfl

/-! ## Allocation -/

/-- Giving up a plain allocation takes the table away if it was empty. -/
theorem mem_giveUp {size : Nat} (hsize : size ≤ (s.blockTable seq).length) :
    seq ∈ (s.giveUp seq size).seqBlocks ↔ 0 < size := by
  have hlength := length_resizeTable hsize
  unfold giveUp
  split
  next hempty =>
    rw [List.isEmpty_iff.mp hempty] at hlength
    exact iff_of_false (not_mem_eraseTable _ seq) (Nat.not_lt.mpr (Nat.le_of_eq hlength.symm))
  next hfull =>
    refine iff_of_true (mem_setTable s seq _) (Nat.pos_of_ne_zero fun hzero => hfull ?_)
    exact List.isEmpty_iff.mpr (eq_nil_of_length_eq_zero (hlength.trans hzero))

/-- Giving up a prefix allocation takes the table away. -/
theorem not_mem_rollbackPartialAllocation (s : KVCacheManager) (seq : Int) :
    seq ∉ (s.rollbackPartialAllocation seq 0).seqBlocks := by
  rw [rollbackPartialAllocation_zero]
  exact not_mem_eraseTable _ seq

theorem mem_reuseBlock (s : KVCacheManager) (seq block : Int) :
    seq ∈ (s.reuseBlock seq block).seqBlocks := by
  unfold reuseBlock
  split
  · split <;> exact mem_setTable _ seq _
  · exact mem_setTable _ seq _

/-- A prefix allocation that starts a table takes it away if it fails. -/
theorem startTable_mem (s : KVCacheManager) (seq : Int) (tokens : List Token)
    (maxReuseBlocks : Int) (contentSalt : Hash) :
    seq ∈ (s.startTable seq tokens maxReuseBlocks contentSalt).2.seqBlocks ↔
      0 ≤ (s.startTable seq tokens maxReuseBlocks contentSalt).1 := by
  refine prefixLoop_rule (I := fun _ t => seq ∈ t.seqBlocks)
    (P := fun out => seq ∈ out.2.seqBlocks ↔ 0 ≤ out.1) ?_ ?_ ?_ ?_ (mem_setTable s seq _)
  · intro n t hash block _ _
    exact mem_reuseBlock t seq block
  · intro n t u v hash block recorded _ _ _
    exact mem_setTable v seq _
  · intro t reused h
    exact iff_of_true h (Int.natCast_nonneg reused)
  · intro n t u v hash _ _ _
    exact iff_of_false (not_mem_rollbackPartialAllocation v seq) (show ¬ (0 : Int) ≤ -1 by decide)

/-! ## Every operation -/

namespace Live

variable (h : Live s)
include h

theorem of_edits (hedits : Edits seq s t) (hseq : seq ∈ t.seqBlocks ↔ seq ∈ s.seqBlocks) :
    Live t where
  nodup := hedits.order ▸ h.nodup
  mem other := by
    rw [hedits.order, h.mem]
    by_cases hother : other = seq
    · rw [hother, hseq]
    · exact (hedits.others hother).symm

omit h in
/-- A step that touches neither the order nor the tables. -/
theorem of_only {p : Footprint KVCacheManager} (h : Live s) (hsame : p.Only s t)
    (hparts : ∀ s t, (p.paste s t).lruOrder = t.lruOrder ∧ (p.paste s t).seqBlocks = t.seqBlocks) :
    Live t := by
  have horder := hsame.keeps (·.lruOrder) fun s t => (hparts s t).1
  have htables := hsame.keeps (·.seqBlocks) fun s t => (hparts s t).2
  exact ⟨horder ▸ h.nodup, fun other => by rw [horder, htables, h.mem]⟩

/-- A sequence that has a table is tracked. -/
theorem track (hedits : Edits seq s t) (hseq : seq ∈ t.seqBlocks) : Live (t.trackLru seq) := by
  unfold trackLru
  rw [hedits.order]
  split
  next hmem => exact h.of_edits hedits ⟨fun _ => (h.mem seq).mp hmem, fun _ => hseq⟩
  next hnot =>
    refine ⟨nodup_append'.mpr ⟨h.nodup, nodup_singleton seq, disjoint_singleton.mpr hnot⟩,
      fun other => ?_⟩
    rw [mem_append, mem_singleton, h.mem]
    by_cases hother : other = seq
    · simp [hother, hseq]
    · simp [hother, hedits.others hother]

/-- Allocation to a sequence that is new, or has blocks already. -/
theorem allocateBlocks (numBlocks : Int) (hseq : seq ∈ s.seqBlocks → s.blockTable seq ≠ []) :
    Live (s.allocateBlocks seq numBlocks).2 := by
  refine allocateBlocks_rule (I := fun _ t => Slots seq s t ∧ seq ∈ t.seqBlocks ∧
      (s.blockTable seq).length ≤ (t.blockTable seq).length) (P := fun out => Live out.2)
    (fun _ => h) ⟨.setTable s seq _, mem_setTable s seq _, ?_⟩ ?_
    (fun _ ht => h.track ht.1.edits ht.2.1) ?_
  · rw [blockTable_setTable]
  · rintro n t u block ⟨hslots, _, hlength⟩ halloc
    refine ⟨hslots.pushTaken halloc, mem_setTable u seq _, ?_⟩
    have hsame := (StoreOnly.allocateBlockRefWithEviction halloc).keeps (·.blockTable seq)
      fun _ _ => rfl
    rw [KVCacheManager.pushBlock, blockTable_setTable, length_append, hsame]
    omega
  · rintro n t u ⟨hslots, _, hlength⟩ halloc
    have hstore := StoreOnly.allocateBlockRefWithEviction halloc
    rw [← hstore.keeps (·.blockTable seq) fun _ _ => rfl] at hlength
    refine h.of_edits ((hslots.store hstore).trans (.giveUp u seq _)).edits ?_
    rw [mem_giveUp hlength, length_pos_iff]
    exact ⟨mem_of_slots, hseq⟩

theorem allocateBlocksWithPrefix (tokens : List Token) (maxReuseBlocks : Int) (contentSalt : Hash)
    (hseq : seq ∈ s.seqBlocks → s.blockTable seq ≠ []) :
    Live (s.allocateBlocksWithPrefix seq tokens maxReuseBlocks contentSalt).2 := by
  refine allocateBlocksWithPrefix_cases (P := fun out => Live out.2) (fun _ => h) ?_ ?_
  · intro hslots n ok t heq
    have hopened : Live (s.setTable seq (s.blockTable seq)) :=
      h.of_edits (Slots.setTable s seq _).edits
        ⟨fun _ => mem_of_slots hslots, fun _ => mem_setTable s seq _⟩
    have hplain := hopened.allocateBlocks n fun _ => by rwa [blockTable_setTable]
    rwa [heq] at hplain
  · intro _ hfresh reused t heq
    have hedits := Edits.startTable s seq tokens maxReuseBlocks contentSalt
    have hmem := s.startTable_mem seq tokens maxReuseBlocks contentSalt
    rw [heq] at hedits hmem
    dsimp only at hedits hmem ⊢
    split
    next hfailed =>
      exact h.of_edits hedits ⟨fun hin => absurd (hmem.mp hin) (Int.not_le.mpr hfailed),
        fun hold => absurd hfresh (hseq hold)⟩
    next hdone => exact h.track hedits (hmem.mpr (Int.not_lt.mp hdone))

theorem appendBlock (seq : Int) : Live (s.appendBlock seq).2 :=
  appendBlock_rule h
    (fun _ halloc =>
      h.of_only (StoreOnly.allocateBlockRefWithEviction halloc) fun _ _ => ⟨rfl, rfl⟩)
    fun _ t hmem halloc => h.of_edits ((Slots.rfl' s).pushTaken halloc).edits
      ⟨fun _ => hmem, fun _ => mem_setTable t seq _⟩

/-- A freed sequence leaves the order with its table. -/
theorem freeSequence (seq : Int) : Live (s.freeSequence seq) := by
  unfold KVCacheManager.freeSequence
  split
  · exact h
  next blocks _ =>
    have hreleased : Live (releaseSlots blocks s).2 :=
      h.of_only (StoreOnly.releaseSlots blocks s) fun _ _ => ⟨rfl, rfl⟩
    refine ⟨hreleased.nodup.erase seq, fun other => ?_⟩
    change other ∈ (releaseSlots blocks s).2.lruOrder.erase seq ↔
      other ∈ (releaseSlots blocks s).2.seqBlocks.erase seq
    rw [hreleased.nodup.mem_erase_iff, hreleased.mem, AList.mem_erase]

theorem touch (hseq : seq ∈ s.seqBlocks) : Live (s.touch seq) where
  nodup := nodup_append'.mpr ⟨h.nodup.erase seq, nodup_singleton seq,
    disjoint_singleton.mpr h.nodup.not_mem_erase⟩
  mem other := by
    change other ∈ s.lruOrder.erase seq ++ [seq] ↔ other ∈ s.seqBlocks
    rw [mem_append, mem_singleton, h.nodup.mem_erase_iff, h.mem]
    by_cases hother : other = seq
    · simp [hother, hseq]
    · simp [hother]

theorem rollback (seq newSeqLen : Int) : Live (s.rollback seq newSeqLen) := by
  have hpopped : ∀ n, Live (popBlocks seq n s) := fun n =>
    popBlocks_rule (I := fun _ => Live) (fun _ t hne ht =>
      ht.of_edits (Slots.dropTail t seq _).edits
        ⟨fun _ => mem_of_slots hne, fun _ => mem_setTable _ seq _⟩) (fun _ _ ht => ht) h
  exact rollback_rule h (fun _ _ => hpopped _) (fun _ _ _ ht => { ht with })
    fun _ _ ht => { ht with }

theorem evictMiddleBlocks (seq nSinkTokens nWindowTokens : Int) :
    Live (s.evictMiddleBlocks seq nSinkTokens nWindowTokens).2 := by
  refine evictMiddleBlocks_rule h
    (fun sinkEnd => h.of_only (PinsOnly.pinPrefix s seq sinkEnd) fun _ _ => ⟨rfl, rfl⟩)
    (fun t slot ht => ?_) fun t sinkEnd n ht => ht.of_only
      (RecordsOnly.clearHashesFrom t seq sinkEnd n) fun _ _ => ⟨rfl, rfl⟩
  refine ht.of_edits (Slots.evictSlot seq slot t).edits ?_
  unfold evictSlot
  split
  next hslot =>
    have hne : t.blockTable seq ≠ [] := fun hnil => by rw [hnil] at hslot; cases hslot
    exact ⟨fun _ => mem_of_slots hne, fun _ => mem_setTable _ seq _⟩
  next => rfl

end Live

/-! ## Runs -/

/-- A sequence is touched only while it is live, and a live sequence that gets blocks has some. -/
def KeepsLive (s : KVCacheManager) : Op → Prop
  | .touch seq => seq ∈ s.seqBlocks
  | .allocateBlocks seq _ => seq ∈ s.seqBlocks → s.blockTable seq ≠ []
  | .allocateBlocksWithPrefix seq _ _ _ => seq ∈ s.seqBlocks → s.blockTable seq ≠ []
  | _ => True

instance KeepsLive.decidable (s : KVCacheManager) : (op : Op) → Decidable (KeepsLive s op)
  | .touch seq => inferInstanceAs (Decidable (seq ∈ s.seqBlocks))
  | .allocateBlocks seq _ =>
    inferInstanceAs (Decidable (seq ∈ s.seqBlocks → s.blockTable seq ≠ []))
  | .allocateBlocksWithPrefix seq _ _ _ =>
    inferInstanceAs (Decidable (seq ∈ s.seqBlocks → s.blockTable seq ≠ []))
  | .appendBlock _ | .freeSequence _ | .registerBlockHashes _ _ _ | .pinPrefix _ _
  | .unpinPrefix _ | .rollback _ _ | .evictMiddleBlocks _ _ _ | .evictCachedBlock | .evictLru
  | .setPrefixCachingEnabled _ | .setPinBudgetBlocks _ | .loadPrefixCache _
  | .enableSwaSizing _ _ | .swaPrepare _ _ _ | .swaTrim _ _ => inferInstanceAs (Decidable True)

theorem Live.step (h : Live s) (op : Op) (hop : KeepsLive s op) : Live (s.step op) := by
  cases op with
  | allocateBlocks => exact h.allocateBlocks _ hop
  | allocateBlocksWithPrefix => exact h.allocateBlocksWithPrefix _ _ _ hop
  | appendBlock => exact h.appendBlock ..
  | freeSequence => exact h.freeSequence ..
  | registerBlockHashes =>
    exact h.of_only (RecordsOnly.registerBlockHashes ..) fun _ _ => ⟨rfl, rfl⟩
  | pinPrefix => exact h.of_only (PinsOnly.pinPrefix ..) fun _ _ => ⟨rfl, rfl⟩
  | unpinPrefix => exact h.of_only (PinsOnly.unpinPrefix ..) fun _ _ => ⟨rfl, rfl⟩
  | rollback => exact h.rollback ..
  | evictMiddleBlocks => exact h.evictMiddleBlocks ..
  | evictCachedBlock => exact h.of_only (StoreOnly.reclaimCachedBlock s) fun _ _ => ⟨rfl, rfl⟩
  | evictLru => exact evictLru_keeps h h.freeSequence
  | touch => exact h.touch hop
  | loadPrefixCache => exact h.of_only (StoreOnly.loadPrefixCache ..) fun _ _ => ⟨rfl, rfl⟩
  | setPrefixCachingEnabled | setPinBudgetBlocks | enableSwaSizing | swaPrepare | swaTrim =>
    exact ⟨h.nodup, h.mem⟩

/-- `evict_lru` frees a live sequence that owns no pins, or does nothing. -/
inductive Evicts (s : KVCacheManager) : Int × KVCacheManager → Prop where
  | nothing : (∀ seq ∈ s.lruOrder, seq ∈ s.pinnedSeqBlocks) → Evicts s (-1, s)
  | frees (seq : Int) : seq ∈ s.seqBlocks → seq ∉ s.pinnedSeqBlocks →
      seq ∉ (s.freeSequence seq).seqBlocks → seq ∉ (s.freeSequence seq).lruOrder →
      Evicts s (seq, s.freeSequence seq)

theorem Live.evictLru_frees (h : Live s) : Evicts s s.evictLru := by
  unfold KVCacheManager.evictLru
  split
  next hnone =>
    refine .nothing fun seq hmem => ?_
    have hpinned := find?_eq_none.mp hnone seq hmem
    simpa using hpinned
  next seq hsome =>
    have hmem := mem_of_find?_eq_some hsome
    have hpinned : seq ∉ s.pinnedSeqBlocks := by simpa using find?_some hsome
    have hafter := h.freeSequence seq
    have hgone := AList.lookup_eq_none.mp (freeSequence_empty s seq).1
    exact .frees seq ((h.mem seq).mp hmem) hpinned hgone fun hin => hgone ((hafter.mem seq).mp hin)

/-- In every run that touches live sequences only and gives blocks only to new sequences or ones
with blocks, `lru_order_` holds the live sequences, each once, and `evict_lru` frees one of them or
does nothing. -/
theorem lru_order_live (blockSize totalBlocks swaBlocks : Nat) {ops : List Op}
    (h : SafeRun KeepsLive (fresh blockSize totalBlocks swaBlocks) ops) :
    Live ((fresh blockSize totalBlocks swaBlocks).run ops) ∧
      Evicts ((fresh blockSize totalBlocks swaBlocks).run ops)
        ((fresh blockSize totalBlocks swaBlocks).run ops).evictLru := by
  have hfresh : Live (fresh blockSize totalBlocks swaBlocks) :=
    ⟨nodup_nil, fun seq => by simp [fresh]⟩
  have hlive := safeRun_invariant (fun s op hs hop => hs.step op hop) hfresh h
  exact ⟨hlive, hlive.evictLru_frees⟩

/-- Two sequences, one of them rolled back, touched and freed. -/
theorem lru_order_live_two :
    Live ((fresh 4 8 0).run [.allocateBlocks 1 2, .allocateBlocks 2 1, .rollback 1 3, .touch 1,
        .freeSequence 2]) ∧
      Evicts ((fresh 4 8 0).run [.allocateBlocks 1 2, .allocateBlocks 2 1, .rollback 1 3, .touch 1,
          .freeSequence 2])
        ((fresh 4 8 0).run [.allocateBlocks 1 2, .allocateBlocks 2 1, .rollback 1 3, .touch 1,
          .freeSequence 2]).evictLru :=
  lru_order_live 4 8 0 (by decide)

/-- A touch after the free leaves an id without a table in the order, and `evict_lru` returns it
without removing it. So does an allocation that fails after a rollback to nothing. -/
theorem touch_orphans :
    ((fresh 4 8 0).run [.allocateBlocks 1 1, .freeSequence 1, .touch 1]).lruOrder = [1] ∧
      1 ∉ ((fresh 4 8 0).run [.allocateBlocks 1 1, .freeSequence 1, .touch 1]).seqBlocks ∧
      ((fresh 4 8 0).run [.allocateBlocks 1 1, .freeSequence 1, .touch 1]).evictLru.1 = 1 ∧
      ((fresh 4 8 0).run [.allocateBlocks 1 1, .freeSequence 1, .touch 1,
        .evictLru]).lruOrder = [1] ∧
      ((fresh 4 1 0).run [.allocateBlocks 1 1, .rollback 1 0, .allocateBlocks 1 2]).lruOrder = [1] ∧
      1 ∉ ((fresh 4 1 0).run
        [.allocateBlocks 1 1, .rollback 1 0, .allocateBlocks 1 2]).seqBlocks := by
  decide

end KVCacheManager

end Quench

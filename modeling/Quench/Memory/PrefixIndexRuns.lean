import Quench.Memory.ReusedBlocks

/-!
# The prefix-hash index over whole runs

Prefix allocation as a whole, loading a persisted cache, and the step theorem. The results are
`run_keeps_index`, for runs whose calls all meet `IndexSafe`, and `published_hole_in_index`, a run
in which a publication meets a hole.
-/

namespace Quench.KVCacheManager

open Lib List

theorem Unfiles.allocateBlocksWithPrefix {s t : KVCacheManager} (h : Unfiles s t) (seq : Int)
    (tokens : List Token) (maxReuseBlocks : Int) (contentSalt : Hash) :
    Unfiles s (t.allocateBlocksWithPrefix seq tokens maxReuseBlocks contentSalt).2 := by
  have hentry : Unfiles s (t.setTable seq (t.blockTable seq)) := { h with }
  exact allocateBlocksWithPrefix_keeps h (fun n => hentry.allocateBlocks seq n)
    (h.startTable seq tokens maxReuseBlocks contentSalt) fun t ht => ht.trackLru seq

/-- As long as the index has the chained hashes of a prompt, they are its leading hits. -/
theorem leadingHits_get {ids : Table Hash Int} {blockSize : Nat} {tokens : List Token} {salt : Hash}
    {j : Nat} (hfound : ∀ k ≤ j, (k + 1) * blockSize ≤ tokens.length ∧
      (ids.lookup (chainHash blockSize salt tokens (k + 1))).isSome) {n b : Nat} (hb : b ≤ j)
    (hn : j < b + n) :
    (leadingHits ids blockSize tokens n b (chainHash blockSize salt tokens b))[j - b]? =
      some (chainHash blockSize salt tokens (j + 1)) := by
  induction n generalizing b with
  | zero => omega
  | succ n ih =>
    rw [leadingHits, if_pos (by exact hfound b hb)]
    rcases eq_or_lt_of_le hb with rfl | hlt
    · rw [Nat.sub_self]
      rfl
    · rw [show j - b = j - (b + 1) + 1 by omega, getElem?_cons_succ]
      exact ih hlt (by omega)

namespace Indexed

variable {total : Nat} {s : KVCacheManager} {inflight : List BlockRef}

theorem allocateBlocksWithPrefix (seq : Int) (tokens : List Token) (maxReuseBlocks : Int)
    (contentSalt : Hash) (h : Indexed total s []) (hfit : HashesFit s)
    (hsafe : IndexSafe s (.allocateBlocksWithPrefix seq tokens maxReuseBlocks contentSalt)) :
    Indexed total (s.allocateBlocksWithPrefix seq tokens maxReuseBlocks contentSalt).2 [] := by
  have hdiffer : ReusesDiffer s contentSalt tokens
      ((tokens.length + s.blockSize - 1) / s.blockSize) := by
    intro i j hlt hj hfound heq
    have hget : ∀ k ≤ j, (leadingHits s.blockHashToId s.blockSize tokens
        ((tokens.length + s.blockSize - 1) / s.blockSize) 0 contentSalt)[k]? =
        some (chainHash s.blockSize contentSalt tokens (k + 1)) := fun k hk =>
      leadingHits_get (fun l hl => hfound l (hl.trans hk)) (Nat.zero_le k) (by omega)
    have hlast := hget j (le_refl j)
    exact nodup_iff_getElem?_ne_getElem?.mp hsafe i j hlt (List.getElem?_eq_some_iff.mp hlast).1
      ((hget i (le_of_lt hlt)).trans (heq ▸ hlast.symm))
  have hcall := allocateBlocksWithPrefix_outcome seq maxReuseBlocks h.owned h.filed hfit hdiffer
  have howned := h.owned.allocateBlocksWithPrefix seq tokens maxReuseBlocks contentSalt
  have hunfiles := h.unfiles.allocateBlocksWithPrefix seq tokens maxReuseBlocks contentSalt
  generalize s.allocateBlocksWithPrefix seq tokens maxReuseBlocks contentSalt = out at *
  cases hcall with
  | nothing _ => exact h
  | grown _ _ _ _ hext => exact h.of_extends howned hext hunfiles
  | loop _ _ _ houtcome =>
    cases houtcome with
    | filled reused t hreusing =>
      refine h.of_slots howned hreusing.shrinks hunfiles (fun other i block hslot hexcl => ?_)
        fun other i j block hi hj _ => ?_
      · by_cases heq : other = seq
        · subst heq
          obtain ⟨hshared, hown⟩ := hreusing.slot hslot
          have hlt : i < reused := Nat.not_le.mp fun hge => hexcl (hown hge)
          have hrange := lt_of_lt_of_le hlt hreusing.reused_le
          refine .inr ((h.filed.named _ block (hshared hlt)).trans (congrArg some ?_))
          rw [recordedHash, hreusing.hashes, getD_eq_getElem?_getD, getElem?_map,
            getElem?_range hrange, Option.map_some, Option.getD_some,
            if_pos (hreusing.full hlt)]
        · obtain ⟨htable, hhashes⟩ := hreusing.others other heq
          exact .inl (.of_get (fun _ _ => by rw [htable])
            (by rw [recordedHash, hhashes, recordedHash]) hslot)
      · by_cases heq : other = seq
        · subst heq
          exact hreusing.slot_unique h.filed hdiffer (le_rfl) hi hj
        · rw [HasSlot, (hreusing.others other heq).1] at hi hj
          exact h.table_nodup other i j block hi hj
    | gaveUp t hshrinks htable _ hothers =>
      refine h.of_shrinks howned hshrinks hunfiles fun other i block hslot _ => ?_
      have hne : other ≠ seq := fun heq => by
        rw [HasSlot, heq, htable] at hslot
        cases hslot
      obtain ⟨htable, hhashes⟩ := hothers other hne
      exact .of_get (fun _ _ => by rw [htable]) (by rw [recordedHash, hhashes, recordedHash]) hslot

/-! ## Loading -/

variable (records : List (Hash × Bool))

/-- Reading records takes fresh blocks for hashes that are not in the index. -/
theorem loadRecords (h : Indexed total s inflight) :
    Indexed total (loadRecords records s).2
        (((loadRecords records s).1.map fun entry => some entry.2.2) ++ inflight) ∧
      ((loadRecords records s).2.blockHashToId = s.blockHashToId ∧
        (loadRecords records s).2.blockIdToHash = s.blockIdToHash) ∧
      ∀ entry ∈ (loadRecords records s).1, s.blockIdToHash.lookup entry.2.2 = none ∧
        s.blockHashToId.lookup entry.1 = none := by
  refine loadRecords_rule (I := fun entries t =>
      Indexed total t ((entries.map fun entry => some entry.2.2) ++ inflight) ∧
      (t.blockHashToId = s.blockHashToId ∧ t.blockIdToHash = s.blockIdToHash) ∧
      ∀ entry ∈ entries, s.blockIdToHash.lookup entry.2.2 = none ∧
        s.blockHashToId.lookup entry.1 = none)
    ⟨h, ⟨rfl, rfl⟩, fun _ hmem => by cases hmem⟩ ?_
  rintro entries t u record block _ hnew hacquire ⟨ht, hmaps, hentries⟩
  obtain ⟨hu, hfresh⟩ := ht.acquireBlockRef hacquire
  obtain ⟨pool, rfl, -⟩ := acquireBlockRef_some hacquire
  refine ⟨?_, hmaps, forall_mem_append.mpr ⟨hentries, forall_mem_singleton.mpr
    ⟨hmaps.2 ▸ hfresh.2, hmaps.1 ▸ hnew⟩⟩⟩
  rw [map_append, append_assoc]
  exact { hu with owned := hu.owned.perm perm_middle.symm }

theorem loadRecords_sublist (s : KVCacheManager) :
    ((KVCacheManager.loadRecords records s).1.map Prod.fst).Sublist (records.map Prod.fst) := by
  induction records generalizing s with
  | nil => exact .slnil
  | cons record rest ih =>
    unfold KVCacheManager.loadRecords
    split
    · exact (ih s).cons _
    · split
      · exact nil_sublist _
      · exact (ih _).cons_cons _

variable {block : Int}

/-- Restoring entries leaves the other blocks out of the index. -/
theorem restoreEntries_other (entries : List (Hash × Bool × Int)) (s : KVCacheManager)
    (hnone : s.blockIdToHash.lookup block = none)
    (hother : ∀ entry ∈ entries, entry.2.1 = true → entry.2.2 ≠ block) :
    (KVCacheManager.restoreEntries entries s).blockIdToHash.lookup block = none := by
  induction entries generalizing s with
  | nil => exact hnone
  | cons entry rest ih =>
    obtain ⟨hash, copyOk, restored⟩ := entry
    have hrest := fun entry hmem => hother entry (mem_cons_of_mem _ hmem)
    cases copyOk with
    | false => exact ih s hnone hrest
    | true =>
      refine ih _ ?_ hrest
      have hne : block ≠ restored := Ne.symm (hother _ mem_cons_self rfl)
      change (s.blockIdToHash.insert restored hash).lookup block = none
      rw [Table.lookup_insert_ite, if_neg hne, hnone]

/-- Two entries of a load never hold the same block. -/
theorem ne_of_inflight {entries : List (Hash × Bool × Int)}
    (h : Owned total s (some block :: (entries.map fun entry => some entry.2.2) ++ inflight))
    (hone : s.refCount block = 1) : ∀ entry ∈ entries, entry.2.2 ≠ block := by
  intro entry hmem heq
  have hrefs := h.refs block
  have hpos : 0 < ((entries.map fun entry => (some entry.2.2 : BlockRef)).count (some block)) :=
    count_pos_iff.mpr (mem_map.mpr ⟨entry, hmem, congrArg some heq⟩)
  rw [cons_append, count_some_cons, if_pos rfl, count_append] at hrefs
  omega

theorem restoreEntries (entries : List (Hash × Bool × Int))
    (h : Indexed total s ((entries.map fun entry => some entry.2.2) ++ inflight))
    (hfresh : ∀ entry ∈ entries, FreshBlock s entry.2.2 ∧
      s.blockHashToId.lookup entry.1 = none ∧ entry.1 ≠ 0) (hnodup : (entries.map Prod.fst).Nodup) :
    Indexed total (restoreEntries entries s) (failedRefs entries ++ inflight) ∧
      ∀ block, some block ∈ failedRefs entries →
        (KVCacheManager.restoreEntries entries s).blockIdToHash.lookup block = none := by
  induction entries generalizing s inflight with
  | nil => exact ⟨h, fun _ hmem => by cases hmem⟩
  | cons entry rest ih =>
    obtain ⟨hash, copyOk, block⟩ := entry
    obtain ⟨⟨hone, hnone⟩, hfree, hne⟩ := hfresh _ mem_cons_self
    obtain ⟨hnotin, hnodupRest⟩ := nodup_cons.mp hnodup
    have hdistinct := ne_of_inflight h.owned hone
    have hfreshRest := fun entry hmem => hfresh entry (mem_cons_of_mem _ hmem)
    cases copyOk with
    | true =>
      have hnoslot : ∀ seq i, ¬ HasSlot s seq i block := fun _ _ =>
        h.owned.not_slot_of_inflight hone
      have hfiled : Indexed total (s.restoreEntry hash block)
          ((rest.map fun entry => some entry.2.2) ++ inflight) :=
        h.file (h.owned.restoreEntry hash hone) (.of_maps rfl rfl rfl rfl) rfl rfl rfl hfree
          hnone hne (hone ▸ Nat.one_pos) (fun seq i hslot => absurd hslot (hnoslot seq i))
          (fun seq i hslot => absurd hslot (hnoslot seq i))
      refine ih hfiled (fun entry hmem => ?_) hnodupRest
      obtain ⟨⟨honeRest, hnoneRest⟩, hfreeRest, hneRest⟩ := hfreshRest entry hmem
      refine ⟨⟨honeRest, ?_⟩, ?_, hneRest⟩
      · change (s.blockIdToHash.insert block hash).lookup entry.2.2 = none
        rw [Table.lookup_insert_ite, if_neg (hdistinct entry hmem), hnoneRest]
      · change (s.blockHashToId.insert hash block).lookup entry.1 = none
        have hhash : entry.1 ≠ hash := fun heq =>
          hnotin (mem_map.mpr ⟨entry, hmem, heq⟩)
        rw [Table.lookup_insert_ite, if_neg hhash, hfreeRest]
    | false =>
      have haside : Indexed total s
          ((rest.map fun entry => some entry.2.2) ++ some block :: inflight) :=
        { h with owned := h.owned.perm perm_middle.symm }
      obtain ⟨hrest, hout⟩ := ih haside hfreshRest hnodupRest
      refine ⟨{ hrest with owned := hrest.owned.perm perm_middle },
        fun failed hmem => ?_⟩
      rcases mem_cons.mp hmem with heq | hmem
      · cases heq
        exact restoreEntries_other rest s hnone fun entry hmem _ => hdistinct entry hmem
      · exact hout failed hmem

theorem loadPrefixCache (h : Indexed total s inflight)
    (hsafe : IndexSafe s (.loadPrefixCache records)) :
    Indexed total (s.loadPrefixCache records).2 inflight := by
  unfold KVCacheManager.loadPrefixCache
  split
  · obtain ⟨hloaded, ⟨hids, hhashes⟩, hentries⟩ := h.loadRecords records
    have hsub := loadRecords_sublist records s
    have hones := Owned.refCount_loadRecords records s
    obtain ⟨hrestored, hout⟩ := hloaded.restoreEntries _ (fun entry hmem => by
      obtain ⟨hnone, hfree⟩ := hentries entry hmem
      refine ⟨⟨hones entry hmem, by rw [hhashes, hnone]⟩, by rw [hids, hfree], ?_⟩
      obtain ⟨record, hrecord, heq⟩ := mem_map.mp
        (hsub.subset (mem_map.mpr ⟨entry, hmem, rfl⟩))
      exact heq ▸ hsafe.2 record hrecord) (hsub.nodup hsafe.1)
    refine hrestored.dropRefs fun hash block hfiles => ?_
    have hzero : (failedRefs (KVCacheManager.loadRecords records s).1).count (some block) = 0 :=
      count_eq_zero.mpr fun hmem => by
        have hnamed := hrestored.filed.named hash block hfiles
        rw [hout block hmem] at hnamed
        cases hnamed
    rw [hzero]
    exact hrestored.filed.live hash block hfiles
  · exact h

end Indexed

/-! ## Runs -/

instance IndexSafe.decidable (s : KVCacheManager) : (op : Op) → Decidable (IndexSafe s op)
  | .allocateBlocksWithPrefix _ _ _ _ => inferInstanceAs (Decidable (List.Nodup _))
  | .registerBlockHashes _ _ _ => inferInstanceAs (Decidable (∀ slot ∈ publishedSlots _ _ _ _ _ _,
      slot.1 ≠ none ∧ slot.2 ≠ 0))
  | .setPrefixCachingEnabled enabled => inferInstanceAs (Decidable (enabled = true))
  | .loadPrefixCache records => inferInstanceAs (Decidable ((records.map Prod.fst).Nodup ∧
      ∀ record ∈ records, record.1 ≠ 0))
  | .allocateBlocks _ _ | .appendBlock _ | .freeSequence _ | .pinPrefix _ _ | .unpinPrefix _
  | .rollback _ _ | .evictMiddleBlocks _ _ _ | .evictCachedBlock | .evictLru | .touch _
  | .setPinBudgetBlocks _ | .enableSwaSizing _ _ | .swaPrepare _ _ _ | .swaTrim _ _ =>
    inferInstanceAs (Decidable True)

/-- A new manager with prefix caching switched on. -/
def freshCaching (blockSize totalBlocks swaBlocks : Nat) : KVCacheManager :=
  (fresh blockSize totalBlocks swaBlocks).step (.setPrefixCachingEnabled true)

theorem freshCaching_indexed (blockSize totalBlocks swaBlocks : Nat) :
    Indexed totalBlocks (freshCaching blockSize totalBlocks swaBlocks) [] ∧
      HashesFit (freshCaching blockSize totalBlocks swaBlocks) := by
  have hnoslot : ∀ seq i block,
      ¬ HasSlot (freshCaching blockSize totalBlocks swaBlocks) seq i block := by
    intro seq i block hslot
    simp [HasSlot, freshCaching, step, fresh, blockTable] at hslot
  have hempty : ∀ block hash, (freshCaching blockSize totalBlocks swaBlocks).blockIdToHash.lookup
      block ≠ some hash := by
    intro block hash
    simp [freshCaching, step, fresh]
  refine ⟨⟨step_owned _ _ (fresh_owned blockSize totalBlocks swaBlocks), rfl, ?_,
    fun block hash hlookup => absurd hlookup (hempty block hash),
    fun block hash hlookup => absurd hlookup (hempty block hash),
    fun seq i _ block hi => absurd hi (hnoslot seq i block),
    fun seq i block _ hi => absurd hi (hnoslot seq i block),
    fun seq i _ _ block hi => absurd hi (hnoslot seq i block),
    fun seq i block hi => absurd hi (hnoslot seq i block)⟩, ?_⟩
  · intro hash block
    simp [freshCaching, step, fresh]
  · intro seq
    simp [freshCaching, step, fresh, blockHashes]

/-- Every call that meets its condition keeps the index. -/
theorem step_indexed {total : Nat} (s : KVCacheManager) (op : Op)
    (h : Indexed total s [] ∧ HashesFit s) (hsafe : IndexSafe s op) :
    Indexed total (s.step op) [] ∧ HashesFit (s.step op) := by
  obtain ⟨hindexed, hfit⟩ := h
  refine ⟨?_, hfit.step op⟩
  cases op with
  | allocateBlocks => exact hindexed.allocateBlocks ..
  | allocateBlocksWithPrefix => exact hindexed.allocateBlocksWithPrefix _ _ _ _ hfit hsafe
  | appendBlock => exact hindexed.appendBlock ..
  | freeSequence => exact hindexed.freeSequence ..
  | registerBlockHashes => exact hindexed.registerBlockHashes _ _ hsafe
  | pinPrefix => exact hindexed.congr (SameBlocks.pinPrefix ..)
  | unpinPrefix => exact hindexed.congr (SameBlocks.of_pins (.unpinPrefix ..))
  | rollback => exact hindexed.rollback ..
  | evictMiddleBlocks => exact hindexed.evictMiddleBlocks ..
  | evictCachedBlock => exact hindexed.reclaimCachedBlock
  | evictLru => exact evictLru_keeps (P := (Indexed total · [])) hindexed hindexed.freeSequence
  | setPrefixCachingEnabled enabled =>
    cases (hsafe : enabled = true)
    exact hindexed.congr ⟨⟨rfl, rfl, rfl, .refl _⟩, rfl, hindexed.enabled.symm, rfl, rfl, rfl⟩
  | loadPrefixCache => exact hindexed.loadPrefixCache _ hsafe
  | touch | setPinBudgetBlocks | enableSwaSizing | swaPrepare | swaTrim =>
    exact hindexed.congr ⟨⟨rfl, rfl, rfl, .refl _⟩, rfl, rfl, rfl, rfl, rfl⟩

/-- In every run of safe calls, the two directions of the index are inverse and every block in it
is a block of the pool with a reference. -/
theorem run_keeps_index (blockSize totalBlocks swaBlocks : Nat) (ops : List Op)
    (hsafe : SafeRun IndexSafe (freshCaching blockSize totalBlocks swaBlocks) ops) :
    let s := (freshCaching blockSize totalBlocks swaBlocks).run ops
    ∀ hash block,
      (s.blockHashToId.lookup hash = some block ↔ s.blockIdToHash.lookup block = some hash) ∧
      (s.blockHashToId.lookup hash = some block →
        0 ≤ block ∧ block < totalBlocks ∧ 1 ≤ s.refCount block) := by
  intro s hash block
  have h : Indexed totalBlocks s [] :=
    (safeRun_invariant step_indexed (freshCaching_indexed blockSize totalBlocks swaBlocks) hsafe).1
  refine ⟨h.inverse hash block, fun hlookup => ?_⟩
  have hpos := h.live block hash ((h.inverse hash block).mp hlookup)
  obtain ⟨hlow, hhigh⟩ := BlockPool.lt_numBlocks_of_refCount_pos hpos
  rw [h.owned.numBlocks] at hhigh
  exact ⟨hlow, hhigh, hpos⟩

/-- A prompt is allocated, published and freed; a second sequence reuses it and is published too. -/
theorem run_keeps_index_reuse :
    let ops : List Op := [.allocateBlocksWithPrefix 0 [1, 2, 3] (-1) 0,
      .registerBlockHashes 0 [1, 2, 3] 0, .freeSequence 0,
      .allocateBlocksWithPrefix 1 [1, 2, 4] (-1) 0, .registerBlockHashes 1 [1, 2, 4] 0]
    let s := (freshCaching 1 8 0).run ops
    s.blockTable 1 = [some 0, some 1, some 3] ∧
    ∀ hash block,
      (s.blockHashToId.lookup hash = some block ↔ s.blockIdToHash.lookup block = some hash) ∧
      (s.blockHashToId.lookup hash = some block →
        0 ≤ block ∧ block < (8 : Nat) ∧ 1 ≤ s.refCount block) :=
  ⟨by decide +kernel, run_keeps_index 1 8 0 _ (by decide +kernel)⟩

/-- Publishing a streamed sequence files `-1` in the index, under two hashes. -/
theorem published_hole_in_index :
    let s := (freshCaching 1 8 0).run [.allocateBlocksWithPrefix 0 [1, 2, 3, 4, 5] (-1) 0,
      .evictMiddleBlocks 0 1 1, .registerBlockHashes 0 [1, 2, 3, 4, 5] 0]
    let first := computeBlockHash [2] (computeBlockHash [1] 0)
    s.blockHashToId.lookup first = some (-1) ∧
      s.blockHashToId.lookup (computeBlockHash [3] first) = some (-1) ∧
      s.blockIdToHash.lookup (-1) ≠ some first := by
  decide +kernel

end Quench.KVCacheManager

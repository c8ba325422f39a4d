import Quench.Memory.PublishedBlocks

/-!
# Loading a persisted cache

`load_prefix_cache` takes blocks from the free list, fills them from the file and files them under
the hashes the file gives. The index stays faithful if the file does (`Faithful.load`), and no
sequence notices (`SessionOk.load`).
-/

namespace Quench

open Lib KVCacheManager List

variable {s : KVCacheManager}

/-- The record loop takes free blocks, and only for records of the file. -/
theorem loadRecords_spec (h : Filed s) (records : List (Hash × Bool)) :
    Shrinks s (loadRecords records s).2 ∧
      ∀ entry ∈ (loadRecords records s).1,
        s.refCount entry.2.2 = 0 ∧ Exclusive (loadRecords records s).2 entry.2.2 ∧
        (entry.1, entry.2.1) ∈ records := by
  -- the loop only takes references, so a block it finds free was free before
  suffices hloop : (Shrinks s (loadRecords records s).2 ∧
      ∀ block, s.refCount block ≤ (loadRecords records s).2.refCount block) ∧
      ∀ entry ∈ (loadRecords records s).1, s.refCount entry.2.2 = 0 ∧
        Exclusive (loadRecords records s).2 entry.2.2 ∧ (entry.1, entry.2.1) ∈ records from
    ⟨hloop.1.1, hloop.2⟩
  refine loadRecords_rule (I := fun entries t =>
      (Shrinks s t ∧ ∀ block, s.refCount block ≤ t.refCount block) ∧ ∀ entry ∈ entries,
        s.refCount entry.2.2 = 0 ∧ Exclusive t entry.2.2 ∧ (entry.1, entry.2.1) ∈ records)
    ⟨⟨.rfl' h, fun _ => le_rfl⟩, fun _ hmem => by cases hmem⟩ ?_
  rintro entries t u record block hrecord _ hacquire ⟨⟨ht, hle⟩, hentries⟩
  obtain ⟨htaken, hfresh⟩ := Shrinks.acquireBlockRef ht.filed hacquire
  obtain ⟨pool, rfl, hfree, -, hcount⟩ := acquireBlockRef_some hacquire
  refine ⟨⟨ht.trans htaken, fun other => (hle other).trans ?_⟩, forall_mem_append.mpr
    ⟨fun entry hmem => ?_, forall_mem_singleton.mpr
      ⟨Nat.le_zero.mp (hfree ▸ hle block), (hfresh block rfl).2, hrecord⟩⟩⟩
  · refine le_of_le_of_eq ?_ (hcount other).symm
    split
    next heq => rw [heq, hfree]; exact Nat.zero_le 1
    next => exact le_rfl
  · obtain ⟨hzero, hown, hmem⟩ := hentries entry hmem
    exact ⟨hzero, htaken.exclusive _ hown, hmem⟩

variable {total : Nat} {block : Int} {records : List (Hash × Bool)} {entry : Hash × Bool × Int}
  {w : World}

/-- The blocks of a load are different. -/
theorem loadRecords_nodup (h : Owned total s []) (records : List (Hash × Bool)) :
    ((loadRecords records s).1.map fun entry => entry.2.2).Nodup := by
  refine nodup_iff_count_le_one.mpr fun block => ?_
  have hrefs := (h.loadRecords records).refs block
  have hcount : (((loadRecords records s).1.map fun entry => some entry.2.2) : List BlockRef).count
      (some block) = ((loadRecords records s).1.map fun entry => entry.2.2).count block := by
    rw [← count_map_of_injective _ some (Option.some_injective Int), map_map]
    rfl
  rw [append_nil, hcount] at hrefs
  by_cases hmem : block ∈ (loadRecords records s).1.map fun entry => entry.2.2
  · obtain ⟨entry, hentry, rfl⟩ := mem_map.mp hmem
    have := Owned.refCount_loadRecords records s entry hentry
    omega
  · rw [count_eq_zero.mpr hmem]
    exact Nat.zero_le 1

variable {InPlay : Hash → List Token → Prop} {kv : Contents}

namespace Faithful

variable {s : KVCacheManager}

/-- Filing an uploaded block that was not in the index. -/
theorem restoreEntry (h : Faithful InPlay s kv) {hash : Hash}
    (hout : ∀ found, ¬ Files s found block) (hlive : 0 < s.refCount block)
    (hnames : Names InPlay s.blockSize kv hash block) :
    Faithful InPlay (s.restoreEntry hash block) kv ∧
      ∀ other, other ≠ block → Exclusive s other → Exclusive (s.restoreEntry hash block) other := by
  have hcases : ∀ found other, Files (s.restoreEntry hash block) found other →
      found = hash ∧ other = block ∨ Files s found other := by
    rintro found other ⟨hlookup, hnonneg⟩
    change (s.blockHashToId.insert hash block).lookup found = some other at hlookup
    rw [Table.lookup_insert_ite] at hlookup
    split at hlookup
    next heq => exact .inl ⟨heq, (Option.some.inj hlookup).symm⟩
    next => exact .inr ⟨hlookup, hnonneg⟩
  refine ⟨⟨⟨fun found other hfiles => ?_, fun found other hfiles => ?_⟩,
    fun found other hfiles => ?_⟩, fun other hne hexcl => ⟨hexcl.1, fun found hfiles => ?_⟩⟩
  · change (s.blockIdToHash.insert block hash).lookup other = some found
    rw [Table.lookup_insert_ite]
    rcases hcases found other hfiles with ⟨rfl, rfl⟩ | hold
    · rw [if_pos rfl]
    · have hne : other ≠ block := fun heq => hout found (heq ▸ hold)
      rw [if_neg hne]
      exact h.filed.named found other hold
  · rcases hcases found other hfiles with ⟨-, rfl⟩ | hold
    · exact hlive
    · exact h.filed.live found other hold
  · rcases hcases found other hfiles with ⟨rfl, rfl⟩ | hold
    · exact hnames
    · exact h.named found other hold
  · rcases hcases found other hfiles with ⟨-, heq⟩ | hold
    · exact hne heq
    · exact hexcl.2 found hold

theorem restoreEntries (entries : List (Hash × Bool × Int)) (h : Faithful InPlay s kv)
    (hnodup : (entries.map fun entry => entry.2.2).Nodup)
    (hown : ∀ entry ∈ entries, Exclusive s entry.2.2 ∧ 0 < s.refCount entry.2.2)
    (hnames : ∀ entry ∈ entries, entry.2.1 = true → Names InPlay s.blockSize kv entry.1 entry.2.2) :
    Faithful InPlay (restoreEntries entries s) kv ∧
      ∀ other, (∀ entry ∈ entries, entry.2.1 = true → entry.2.2 ≠ other) → Exclusive s other →
        Exclusive (KVCacheManager.restoreEntries entries s) other := by
  induction entries generalizing s with
  | nil => exact ⟨h, fun _ _ hexcl => hexcl⟩
  | cons entry rest ih =>
    obtain ⟨hash, copyOk, block⟩ := entry
    obtain ⟨hfirst, hrestNodup⟩ := nodup_cons.mp hnodup
    have hownRest := fun entry hmem => hown entry (mem_cons_of_mem _ hmem)
    have hnamesRest := fun entry hmem => hnames entry (mem_cons_of_mem _ hmem)
    cases copyOk with
    | false =>
      obtain ⟨hdone, hkept⟩ := ih h hrestNodup hownRest hnamesRest
      exact ⟨hdone, fun other hother =>
        hkept other fun entry hmem => hother entry (mem_cons_of_mem _ hmem)⟩
    | true =>
      obtain ⟨hexcl, hlive⟩ := hown _ mem_cons_self
      obtain ⟨hfiled, hothers⟩ :=
        h.restoreEntry hexcl.2 hlive (hnames _ mem_cons_self rfl)
      obtain ⟨hdone, hkept⟩ := ih hfiled hrestNodup (fun entry hmem => by
        have hne : entry.2.2 ≠ block := fun heq =>
          hfirst (heq ▸ mem_map.mpr ⟨entry, hmem, rfl⟩)
        exact ⟨hothers _ hne (hownRest entry hmem).1, (hownRest entry hmem).2⟩) hnamesRest
      exact ⟨hdone, fun other hother hown => hkept other
        (fun entry hmem => hother entry (mem_cons_of_mem _ hmem))
        (hothers other (Ne.symm (hother _ mem_cons_self rfl)) hown)⟩

end Faithful

/-! ## The whole load -/

/-- An uploaded block holds what its hash stands for. -/
theorem names_uploaded {blockSize : Nat} {file : Hash → Written}
    (hfile : World.FileOk InPlay blockSize records file) (hrecord : (entry.1, entry.2.1) ∈ records)
    (hok : entry.2.1 = true) (hkv : kv entry.2.2 = World.uploaded blockSize file entry) :
    Names InPlay blockSize kv entry.1 entry.2.2 := by
  obtain ⟨hplay, hpos, ⟨blocks, hblocks⟩, hhash⟩ := hfile _ hrecord
  cases blocks with
  | zero =>
    omega
  | succ k =>
    rw [Nat.mul_comm] at hblocks
    refine ⟨_, _, k, hplay, hblocks, hhash, fun offset hoffset => ?_⟩
    have hstart : (k + 1) * blockSize - blockSize = k * blockSize := by
      rw [Nat.add_one_mul, Nat.add_sub_cancel]
    rw [hkv, World.uploaded, if_pos hok]
    rw [hblocks, hstart]

section Upload

variable (kv : Contents) (blockSize : Nat) (file : Hash → Written)
  {entries : List (Hash × Bool × Int)}

/-- Blocks that no entry has keep their contents. -/
theorem upload_of_ne (hne : ∀ entry ∈ entries, entry.2.2 ≠ block) :
    World.upload kv blockSize file entries block = kv block := by
  have hnone : entries.find? (fun entry => decide (entry.2.2 = block)) = none :=
    find?_eq_none.mpr fun entry hmem => by simpa using hne entry hmem
  funext offset
  rw [World.upload, hnone]

/-- The block of an entry gets what the file has for it. -/
theorem upload_of_mem (hnodup : (entries.map fun entry => entry.2.2).Nodup)
    (hmem : entry ∈ entries) :
    World.upload kv blockSize file entries entry.2.2 = World.uploaded blockSize file entry := by
  funext offset
  rw [World.upload]
  cases hfind : entries.find? (fun other => decide (other.2.2 = entry.2.2)) with
  | none =>
    have := find?_eq_none.mp hfind entry hmem
    simp at this
  | some found =>
    have hblock : found.2.2 = entry.2.2 := by simpa using find?_some hfind
    rw [inj_on_of_nodup_map hnodup (mem_of_find?_eq_some hfind) hmem hblock]

end Upload

/-- What a load of a faithful file does to blocks that were in use. -/
structure Loaded (InPlay : Hash → List Token → Prop) (w w' : World) : Prop where
  faithful : Faithful InPlay w'.manager w'.kv
  tables : SameTables w.manager w'.manager
  kv : ∀ block, 0 < w.manager.refCount block → w'.kv block = w.kv block
  exclusive : ∀ block, 0 < w.manager.refCount block → Exclusive w.manager block →
    Exclusive w'.manager block

theorem Loaded.load {file : Hash → Written} (h : Faithful InPlay w.manager w.kv)
    (howned : Owned total w.manager [])
    (hfile : World.FileOk InPlay w.manager.blockSize records file) :
    Loaded InPlay w (w.load records file) := by
  have htables := SameTables.of_store (.loadPrefixCache records w.manager)
  unfold World.load
  by_cases henabled : w.manager.prefixCachingEnabled = true
  · have hstate : (w.manager.loadPrefixCache records).2 =
        (restoreEntries (loadRecords records w.manager).1
          (loadRecords records w.manager).2).dropRefs
            (failedRefs (loadRecords records w.manager).1) := by
      rw [KVCacheManager.loadPrefixCache, if_pos henabled]
    rw [if_pos henabled]
    rw [hstate] at htables ⊢
    obtain ⟨hshrinks, hentries⟩ := loadRecords_spec h.filed records
    have hnodup := loadRecords_nodup howned records
    have hones := Owned.refCount_loadRecords records w.manager
    revert htables hshrinks hentries hnodup hones
    generalize (loadRecords records w.manager).1 = entries
    generalize (loadRecords records w.manager).2 = t
    intro htables hshrinks hentries hnodup hones
    -- blocks in use are none of the blocks the load takes
    have hapart : ∀ block, 0 < w.manager.refCount block → ∀ entry ∈ entries,
        entry.2.2 ≠ block := by
      rintro _ hused entry hmem rfl
      have := (hentries entry hmem).1
      omega
    have hkv := fun block hused =>
      upload_of_ne w.kv w.manager.blockSize file (hapart block hused)
    have hcarried : Faithful InPlay t (World.upload w.kv w.manager.blockSize file entries) := by
      refine ⟨hshrinks.filed, fun hash block hfiles => ?_⟩
      have hold := hshrinks.sub hash block hfiles
      rw [hshrinks.blockSize]
      exact (h.named hash block hold).of_kv (hkv block (h.filed.live hash block hold))
    obtain ⟨hrestored, hothers⟩ := hcarried.restoreEntries entries hnodup
      (fun entry hmem => ⟨(hentries entry hmem).2.1, by rw [hones entry hmem]; exact Nat.one_pos⟩)
      fun entry hmem hok => by
        rw [hshrinks.blockSize]
        exact names_uploaded hfile (hentries entry hmem).2.2 hok (upload_of_mem _ _ _ hnodup hmem)
    -- a failed upload's block is in no entry of the index when its handle goes
    have hdropped : Shrinks (restoreEntries entries t)
        ((restoreEntries entries t).dropRefs (failedRefs entries)) := by
      refine .dropRefs hrestored.filed fun hash block hfiles => ?_
      rw [count_eq_zero.mpr fun hmem => ?_]
      · exact hrestored.filed.live hash block hfiles
      · obtain ⟨failed, hfailed, heq⟩ := mem_map.mp hmem
        obtain ⟨hmem, hfalse⟩ := mem_filter.mp hfailed
        have hblock : failed.2.2 = block := Option.some.inj heq
        refine (hothers block (fun entry hentry hok hsame => ?_)
          (hblock ▸ (hentries failed hmem).2.1)).2 hash hfiles
        have hentry := inj_on_of_nodup_map hnodup hentry hmem (hsame.trans hblock.symm)
        rw [hentry] at hok
        simp [hok] at hfalse
    exact ⟨hrestored.shrink hdropped, htables, hkv, fun block hused hexcl =>
      hdropped.exclusive block (hothers block (fun entry hmem _ => hapart block hused entry hmem)
        (hshrinks.exclusive block hexcl))⟩
  · rw [if_neg henabled]
    rw [KVCacheManager.loadPrefixCache, if_neg henabled] at htables ⊢
    exact ⟨h, htables, fun _ _ => rfl, fun _ _ hexcl => hexcl⟩

/-- A load goes unnoticed by every sequence. -/
theorem SessionOk.load {w' : World} {seq : Int} {σ : Session} (h : SessionOk w.manager w.kv seq σ)
    (howned : Owned total w.manager []) (hloaded : Loaded InPlay w w') :
    SessionOk w'.manager w'.kv seq σ := by
  have hkept : SessionOk w.manager w'.kv seq σ := h.of_kv fun i block hslot =>
    hloaded.kv block (howned.refCount_pos_of_slot hslot)
  exact hkept.transfer hloaded.tables.blockSize (by rw [hloaded.tables.blockTable])
    (fun i block hslot => hloaded.tables.hasSlot.mp hslot)
    (fun i _ => hloaded.tables.recordedHash seq i)
    fun i block hslot => hloaded.exclusive block (howned.refCount_pos_of_slot hslot)

end Quench

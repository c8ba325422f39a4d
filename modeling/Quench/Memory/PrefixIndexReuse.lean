import Quench.Memory.PrefixIndexOps

/-!
# Publication against the prefix-hash index

`register_block_hashes` adds to the index. It keeps the invariant of `Quench.Memory.PrefixIndex`
under the condition of `IndexSafe`: it meets no hole and computes no zero hash. Of a prefix
allocation `IndexSafe` asks that the blocks one prompt reuses have different hashes.
-/

namespace Quench.KVCacheManager

open Lib List

/-! ## What the conditions speak about -/

/-- The chained hashes of the leading blocks of a prompt that are in the index: the blocks a prefix
allocation with no cap reuses. -/
def leadingHits (ids : Table Hash Int) (blockSize : Nat) (tokens : List Token) :
    Nat → Nat → Hash → List Hash
  | 0, _, _ => []
  | n + 1, b, parentHash =>
    let hash := computeBlockHash (blockTokens blockSize tokens b) parentHash
    if (b + 1) * blockSize ≤ tokens.length ∧ (ids.lookup hash).isSome then
      hash :: leadingHits ids blockSize tokens n (b + 1) hash
    else []

variable {b : Nat} {hashes : List Hash}

/-- A block past a partial one is partial. -/
theorem not_full_succ {blockSize len : Nat} (h : ¬ (b + 1) * blockSize ≤ len) :
    ¬ (b + 1 + 1) * blockSize ≤ len := fun hnext =>
  h ((Nat.mul_le_mul_right blockSize (Nat.le_succ (b + 1))).trans hnext)

/-- The hash a publication uses for slot `b`: the recorded one, or the next one of the chain. -/
def nextHash (blockSize : Nat) (tokens : List Token) (recorded : List Hash) (b : Nat)
    (parentHash : Hash) : Hash :=
  if recorded.getD b 0 ≠ 0 then recorded.getD b 0
  else computeBlockHash (blockTokens blockSize tokens b) parentHash

/-- The slots a publication visits, each with the hash it is filed under. -/
def publishedSlots (blockSize : Nat) (tokens : List Token) (recorded : List Hash) :
    List BlockRef → Nat → Hash → List (BlockRef × Hash)
  | [], _, _ => []
  | ref :: rest, b, parentHash =>
    if tokens.length < (b + 1) * blockSize then []
    else
      let hash := nextHash blockSize tokens recorded b parentHash
      (ref, hash) :: publishedSlots blockSize tokens recorded rest (b + 1) hash

/-- The calls that keep the index: prefix caching stays on; the blocks a prompt reuses have
different hashes; a publication meets no hole and no zero hash; a loaded file has no zero hash and
no hash twice. -/
def IndexSafe (s : KVCacheManager) : Op → Prop
  | .allocateBlocksWithPrefix _ tokens _ contentSalt =>
    (leadingHits s.blockHashToId s.blockSize tokens
      ((tokens.length + s.blockSize - 1) / s.blockSize) 0 contentSalt).Nodup
  | .registerBlockHashes seq tokens contentSalt =>
    ∀ slot ∈ publishedSlots s.blockSize tokens (s.blockHashes seq) (s.blockTable seq) 0
      contentSalt, slot.1 ≠ none ∧ slot.2 ≠ 0
  | .setPrefixCachingEnabled enabled => enabled = true
  | .loadPrefixCache records =>
    (records.map Prod.fst).Nodup ∧ ∀ record ∈ records, record.1 ≠ 0
  | _ => True

/-! ## The publication loop -/

/-- Publishing and recording a sequence's hashes commute. -/
theorem registerHash_setHashes (s : KVCacheManager) (seq : Int) (hashes : List Hash) (hash : Hash)
    (block : Int) :
    (s.setHashes seq hashes).registerHash hash block =
      (s.registerHash hash block).setHashes seq hashes := by
  have hids : (s.setHashes seq hashes).blockHashToId = s.blockHashToId := rfl
  unfold registerHash
  rw [hids]
  cases s.blockHashToId.lookup hash <;> rfl

/-- The hash list after slot `b` got its hash. -/
def recordAt (hashes : List Hash) (b : Nat) (hash : Hash) : List Hash :=
  if b < hashes.length then hashes.set b hash else hashes ++ [hash]

theorem getD_recordAt (hashes : List Hash) (b j : Nat) (hash : Hash) (hb : b ≤ hashes.length) :
    (recordAt hashes b hash).getD j 0 = if j = b then hash else hashes.getD j 0 := by
  unfold recordAt
  simp only [getD_eq_getElem?_getD]
  split
  next hlt =>
    by_cases hj : j = b
    · rw [hj, getElem?_set_self hlt, if_pos rfl]
      rfl
    · rw [getElem?_set_ne (Ne.symm hj), if_neg hj]
  next hge =>
    have hlength : hashes.length = b := by omega
    subst hlength
    rw [getElem?_append]
    by_cases hj : j = hashes.length
    · simp [hj]
    · split
      · rfl
      · rw [getElem?_eq_none (by simp; omega), getElem?_eq_none (by omega)]

theorem lt_length_of_getD_ne_zero (h : hashes.getD b 0 ≠ 0) : b < hashes.length := by
  by_contra hge
  rw [getD_eq_getElem?_getD, getElem?_eq_none (by omega)] at h
  exact h rfl

/-- Recording the hash that is recorded already changes nothing. -/
theorem recordAt_getD (h : hashes.getD b 0 ≠ 0) : recordAt hashes b (hashes.getD b 0) = hashes := by
  have hlt := lt_length_of_getD_ne_zero h
  rw [recordAt, if_pos hlt, getD_eq_getElem?_getD, getElem?_eq_getElem hlt,
    Option.getD_some, set_getElem_self]

theorem lt_length_recordAt (hashes : List Hash) (b : Nat) (hash : Hash) (hb : b ≤ hashes.length) :
    b < (recordAt hashes b hash).length := by
  unfold recordAt
  split
  · rwa [length_set]
  · rw [length_append]
    exact Nat.lt_succ_of_le hb

/-- Both branches of the publication loop take the next hash, record it and file the block. -/
theorem registerLoop_cons (tokens : List Token) (ref : BlockRef) (rest : List BlockRef) (b : Nat)
    (parentHash : Hash) (hashes : List Hash) (s : KVCacheManager)
    (hfull : ¬ tokens.length < (b + 1) * s.blockSize) :
    let hash := nextHash s.blockSize tokens hashes b parentHash
    registerLoop tokens (ref :: rest) b parentHash hashes s =
      registerLoop tokens rest (b + 1) hash (recordAt hashes b hash)
        (s.registerHash hash (BlockRef.id ref)) := by
  unfold nextHash
  dsimp only
  rw [registerLoop, if_neg hfull]
  split
  next hrecorded => rw [recordAt_getD hrecorded]
  next => rfl

/-- The rule for `register_block_hashes`, with an invariant for the publication loop at slot `b`:
the hash of the slot before, the hash list, and the state, which has changed in the index only. -/
theorem registerBlockHashes_rule {I : Nat → Hash → List Hash → KVCacheManager → Prop}
    {P : KVCacheManager → Prop} {s : KVCacheManager} {seq : Int} {tokens : List Token}
    {contentSalt : Hash} (hskip : P s) (hstart : I 0 contentSalt (s.blockHashes seq) s)
    (hslot : ∀ b ref parentHash hash hashes t, (s.blockTable seq)[b]? = some ref →
      (b + 1) * s.blockSize ≤ tokens.length → b ≤ hashes.length → IndexOnly s t →
      nextHash s.blockSize tokens hashes b parentHash = hash → I b parentHash hashes t →
      I (b + 1) hash (recordAt hashes b hash) (t.registerHash hash (BlockRef.id ref)))
    (hdone : ∀ b parentHash hashes t, IndexOnly s t → I b parentHash hashes t →
      P (t.setHashes seq hashes)) : P (s.registerBlockHashes seq tokens contentSalt) := by
  unfold registerBlockHashes
  split
  · split
    · exact hskip
    next blocks hlookup =>
      have htable := blockTable_of_lookup hlookup
      have hloop : ∀ rest b parentHash hashes t, rest = blocks.drop b → b ≤ hashes.length →
          IndexOnly s t → I b parentHash hashes t →
          P ((registerLoop tokens rest b parentHash hashes t).2.setHashes seq
            (registerLoop tokens rest b parentHash hashes t).1) := by
        intro rest
        induction rest with
        | nil =>
          intro b parentHash hashes t _ _ honly ht
          exact hdone b parentHash hashes t honly ht
        | cons ref rest ih =>
          intro b parentHash hashes t hrest hb honly ht
          have hsize := (SameTables.of_index honly).blockSize
          by_cases hpart : tokens.length < (b + 1) * t.blockSize
          · rw [registerLoop, if_pos hpart]
            exact hdone b parentHash hashes t honly ht
          · have hget : (s.blockTable seq)[b]? = some ref := by
              have hfirst := congrArg (·[0]?) hrest
              simpa [htable] using hfirst.symm
            rw [registerLoop_cons tokens ref rest b parentHash hashes t hpart, hsize]
            rw [hsize] at hpart
            refine ih (b + 1) _ _ _ ?_ (lt_length_recordAt hashes b _ hb)
              (honly.trans (IndexOnly.registerHash t _ _))
              (hslot b ref parentHash _ hashes t hget (not_lt.mp hpart) hb honly rfl ht)
            rw [← drop_drop, ← hrest, drop_one, tail_cons]
      exact hloop blocks 0 contentSalt _ s rfl (Nat.zero_le _) (.rfl' _ s) hstart
  · exact hskip

namespace Indexed

variable {total : Nat} {s s' : KVCacheManager} {inflight inflight' : List BlockRef}
  {seq block : Int} {hash : Hash}

/-! ## Filing a block -/

/-- A block outside the index may be filed under a free hash if its recorded hashes are that one
and none of its slots is without a hash. -/
theorem file (h : Indexed total s inflight) (howned : Owned total s' inflight')
    (hsame : SameTables s s') (hpool : s'.pool = s.pool)
    (hids : s'.blockHashToId = s.blockHashToId.insert hash block)
    (hhashes : s'.blockIdToHash = s.blockIdToHash.insert block hash)
    (hfree : s.blockHashToId.lookup hash = none) (hnone : s.blockIdToHash.lookup block = none)
    (hne : hash ≠ 0) (hpos : 0 < s.refCount block)
    (hslots : ∀ seq i, HasSlot s seq i block → s.recordedHash seq i ≠ 0 →
      s.recordedHash seq i = hash)
    (hbare : ∀ seq i, HasSlot s seq i block → s.recordedHash seq i = 0 → ¬ Unbroken s seq i) :
    Indexed total s' inflight' := by
  have hindex : ∀ held found, s'.blockIdToHash.lookup held = some found →
      held = block ∧ found = hash ∨ held ≠ block ∧ s.blockIdToHash.lookup held = some found := by
    intro held found hlookup
    rw [hhashes, Table.lookup_insert_ite] at hlookup
    split at hlookup
    next heq => exact .inl ⟨heq, (Option.some.inj hlookup).symm⟩
    next hother => exact .inr ⟨hother, hlookup⟩
  have hcount : ∀ held, s'.refCount held = s.refCount held := fun held =>
    congrArg (·.refCount held) hpool
  refine ⟨howned, hsame.prefixCachingEnabled.trans h.enabled, ?_, ?_, ?_, ?_, ?_, ?_, ?_⟩
  · intro found held
    rw [hids, hhashes, Table.lookup_insert_ite, Table.lookup_insert_ite]
    by_cases hfound : found = hash
    · by_cases hheld : held = block
      · simp [hfound, hheld]
      · rw [if_pos hfound, if_neg hheld, ← h.inverse, hfound, hfree]
        simp [Ne.symm hheld]
    · rw [if_neg hfound, h.inverse]
      by_cases hheld : held = block
      · rw [if_pos hheld, hheld, hnone]
        simp [Ne.symm hfound]
      · rw [if_neg hheld]
  · intro held found hlookup
    rw [hcount]
    rcases hindex held found hlookup with ⟨rfl, -⟩ | ⟨-, hold⟩
    · exact hpos
    · exact h.live held found hold
  · intro held found hlookup
    rcases hindex held found hlookup with ⟨-, rfl⟩ | ⟨-, hold⟩
    · exact hne
    · exact h.hash_ne_zero held found hold
  · intro other i j held hi hj
    exact h.table_nodup other i j held (hsame.hasSlot.mp hi) (hsame.hasSlot.mp hj)
  · intro other i held found hi hrecorded hlookup
    rw [hsame.recordedHash] at hrecorded ⊢
    rcases hindex held found hlookup with ⟨rfl, rfl⟩ | ⟨-, hold⟩
    · exact hslots other i (hsame.hasSlot.mp hi) hrecorded
    · exact h.slot_hash other i held found (hsame.hasSlot.mp hi) hrecorded hold
  · intro other i other' j held hi hj hine hjne
    rw [hsame.recordedHash] at hine hjne ⊢
    rw [hsame.recordedHash]
    exact h.slots_agree other i other' j held (hsame.hasSlot.mp hi) (hsame.hasSlot.mp hj) hine hjne
  · intro other i held hi hzero hunbroken
    rw [hsame.recordedHash] at hzero
    have hold := hsame.hasSlot.mp hi
    have hheld : held ≠ block := fun heq =>
      hbare other i (heq ▸ hold) hzero (hsame.unbroken.mp hunbroken)
    obtain ⟨hone, hout⟩ := h.bare other i held hold hzero (hsame.unbroken.mp hunbroken)
    rw [hcount, hhashes, Table.lookup_insert_ite, if_neg hheld]
    exact ⟨hone, hout⟩

variable {i : Nat}

/-- Publishing a slot under its recorded hash. -/
theorem registerHash (h : Indexed total s inflight) (hslot : HasSlot s seq i block)
    (hrecorded : s.recordedHash seq i = hash) (hne : hash ≠ 0) :
    Indexed total (s.registerHash hash block) inflight := by
  have howners := SameOwners.of_index (.registerHash s hash block)
  unfold KVCacheManager.registerHash at howners ⊢
  split at howners
  next => exact h
  next hfree =>
    have hnone : s.blockIdToHash.lookup block = none := by
      cases hlookup : s.blockIdToHash.lookup block with
      | none => rfl
      | some found =>
        -- the index would have the block under its recorded hash, which is free
        have heq := h.slot_hash seq i block found hslot (hrecorded ▸ hne) hlookup
        rw [hrecorded] at heq
        rw [← heq, ← h.inverse, hfree] at hlookup
        cases hlookup
    refine h.file (h.owned.congr howners) (.of_maps rfl rfl rfl rfl) rfl rfl rfl hfree hnone hne
      (h.owned.refCount_pos_of_slot hslot) ?_ ?_
    · intro other j hj hjne
      rw [← hrecorded]
      exact h.slots_agree other j seq i block hj hslot hjne (hrecorded ▸ hne)
    · intro other j hj hzero hunbroken
      have hone := (h.bare other j block hj hzero hunbroken).1
      have hrefs := h.owned.refs block
      obtain ⟨rfl, rfl⟩ := hj.unique hslot (by omega)
      exact hne (hrecorded.symm.trans hzero)

/-- Recording a hash for a slot that has none and no hole before it. -/
theorem recordHash (h : Indexed total s inflight) (hslot : HasSlot s seq i block)
    (hzero : s.recordedHash seq i = 0) (hunbroken : Unbroken s seq i) (hne : hash ≠ 0)
    (hhashes : ∀ j, hashes.getD j 0 = if j = i then hash else s.recordedHash seq j) :
    Indexed total (s.setHashes seq hashes) inflight := by
  obtain ⟨hone, hnone⟩ := h.bare seq i block hslot hzero hunbroken
  have hrefs := h.owned.refs block
  have honly : ∀ other j, HasSlot s other j block → other = seq ∧ j = i := fun other j hj =>
    hslot.unique hj (by omega)
  have hrecorded : ∀ other j, (s.setHashes seq hashes).recordedHash other j =
      if other = seq ∧ j = i then hash else s.recordedHash other j := by
    intro other j
    simp only [recordedHash, blockHashes_setHashes_ite]
    by_cases hseq : other = seq
    · subst hseq
      simpa [recordedHash] using hhashes j
    · simp [hseq]
  refine ⟨{ h.owned with }, h.enabled, h.inverse, h.live,
    h.hash_ne_zero, h.table_nodup, ?_, ?_, ?_⟩
  · intro other j held found hj hjne hlookup
    rw [hrecorded] at hjne ⊢
    split at hjne
    next hthis =>
      have hheld : held = block := by
        rw [hthis.1, hthis.2] at hj
        exact Option.some.inj (Option.some.inj (hj.symm.trans hslot))
      rw [hheld, show (s.setHashes seq hashes).blockIdToHash = s.blockIdToHash from rfl, hnone]
        at hlookup
      cases hlookup
    next hother =>
      rw [if_neg hother]
      exact h.slot_hash other j held found hj hjne hlookup
  · intro other j other' j' held hj hj' hjne hjne'
    rw [hrecorded] at hjne hjne' ⊢
    rw [hrecorded]
    by_cases hheld : held = block
    · subst hheld
      rw [if_pos (honly other j hj), if_pos (honly other' j' hj')]
    · have hnot : ∀ other j, HasSlot s other j held → ¬ (other = seq ∧ j = i) := by
        rintro place k hk ⟨hplace, hindex⟩
        rw [hplace, hindex] at hk
        exact hheld (Option.some.inj (Option.some.inj (hk.symm.trans hslot)))
      rw [if_neg (hnot other j hj)] at hjne ⊢
      rw [if_neg (hnot other' j' hj')] at hjne' ⊢
      exact h.slots_agree other j other' j' held hj hj' hjne hjne'
  · intro other j held hj hjzero hjunbroken
    rw [hrecorded] at hjzero
    split at hjzero
    · exact absurd hjzero hne
    · exact h.bare other j held hj hjzero hjunbroken

/-! ## Publication -/

/-- One round of the publication loop on a live slot with no hole before it. -/
theorem publishSlot (h : Indexed total (s.setHashes seq hashes) inflight)
    (hslot : HasSlot s seq b block) (hb : b ≤ hashes.length) (hunbroken : Unbroken s seq b)
    (hhash : hashes.getD b 0 ≠ 0 → hash = hashes.getD b 0) (hne : hash ≠ 0) :
    Indexed total ((s.registerHash hash block).setHashes seq (recordAt hashes b hash))
      inflight := by
  have hhere : ∀ j, (s.setHashes seq hashes).recordedHash seq j = hashes.getD j 0 := fun j => by
    simp only [recordedHash, blockHashes_setHashes_ite, if_pos]
  have hrecorded : Indexed total (s.setHashes seq (recordAt hashes b hash)) inflight := by
    by_cases hzero : hashes.getD b 0 = 0
    · have hnow := h.recordHash hslot ((hhere b).trans hzero) hunbroken hne fun j => by
        rw [getD_recordAt hashes b j hash hb, hhere]
      rwa [KVCacheManager.setHashes, KVCacheManager.setHashes, AList.insert_insert] at hnow
    · rwa [hhash hzero, recordAt_getD hzero]
  rw [← registerHash_setHashes]
  refine hrecorded.registerHash hslot ?_ hne
  simp only [recordedHash, blockHashes_setHashes_ite, if_pos]
  rw [getD_recordAt hashes b b hash hb, if_pos rfl]

theorem registerBlockHashes (tokens : List Token) (contentSalt : Hash)
    (h : Indexed total s inflight)
    (hsafe : IndexSafe s (.registerBlockHashes seq tokens contentSalt)) :
    Indexed total (s.registerBlockHashes seq tokens contentSalt) inflight := by
  -- the slots before the next one were visited, so none is a hole; the rest is as before
  refine registerBlockHashes_rule (P := fun t => Indexed total t inflight)
    (I := fun b parentHash hashes t => Indexed total (t.setHashes seq hashes) inflight ∧
      Unbroken s seq b ∧ (∀ j, b ≤ j → hashes.getD j 0 = (s.blockHashes seq).getD j 0) ∧
      ∀ slot ∈ publishedSlots s.blockSize tokens (s.blockHashes seq) ((s.blockTable seq).drop b) b
        parentHash, slot.1 ≠ none ∧ slot.2 ≠ 0) h ?_ ?_ fun _ _ _ _ _ ht => ht.1
  · exact ⟨h.reown { h.owned with } (.touchHashes s seq) rfl rfl rfl,
      fun j hj => absurd hj (Nat.not_lt_zero j), fun _ _ => rfl, hsafe⟩
  · rintro b ref parentHash hash hashes t hget hfull hb honly hhash ⟨ht, hunbroken, hrest, hslots⟩
    have hsame := SameTables.of_index honly
    have hnext : nextHash s.blockSize tokens (s.blockHashes seq) b parentHash = hash := by
      rw [← hhash, nextHash, nextHash, hrest b (le_refl b)]
    rw [drop_eq_getElem?_toList_append, hget, Option.toList_some, singleton_append, publishedSlots,
      if_neg (not_lt.mpr hfull), hnext] at hslots
    obtain ⟨⟨href, hne⟩, hmore⟩ := forall_mem_cons.mp hslots
    obtain ⟨block, rfl⟩ := Option.ne_none_iff_exists'.mp href
    refine ⟨ht.publishSlot (hsame.hasSlot.mpr hget) hb (hsame.unbroken.mpr hunbroken)
      (fun hrecorded => by rw [← hhash, nextHash, if_pos hrecorded]) hne, fun j hj => ?_,
      fun j hj => ?_, hmore⟩
    · rcases lt_or_eq_of_le (Nat.le_of_lt_succ hj) with hlt | rfl
      · exact hunbroken j hlt
      · rw [hget]
        simp
    · rw [getD_recordAt hashes b j hash hb, if_neg (by omega)]
      exact hrest j (by omega)

end Indexed

end Quench.KVCacheManager

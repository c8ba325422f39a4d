import Quench.Memory.ReusedBlocks

/-!
# What the index stands for

`Faithful` says that every block in the index holds the KV of the tokens its hash stands for. Losing
entries keeps it. `Publishes` is what `register_block_hashes` does to a sequence whose blocks hold
the published tokens: the index gains only such blocks, and only they stop being exclusive.
-/

namespace Quench

open Lib KVCacheManager List KVCacheManager

/-- A hash stands for the tokens whose last block this block holds. -/
def Names (InPlay : Hash → List Token → Prop) (blockSize : Nat) (kv : Contents) (hash : Hash)
    (block : Int) : Prop :=
  ∃ salt tokens k, InPlay salt tokens ∧ tokens.length = (k + 1) * blockSize ∧
    hash = fullHash blockSize salt tokens ∧ Holds kv blockSize block salt tokens k

/-- Every block in the index holds what its hash stands for. -/
structure Faithful (InPlay : Hash → List Token → Prop) (s : KVCacheManager) (kv : Contents) :
    Prop where
  filed : Filed s
  named : ∀ hash block, Files s hash block → Names InPlay s.blockSize kv hash block

variable {InPlay : Hash → List Token → Prop} {kv : Contents}
variable {blockSize i : Nat} {block : Int} {salt : Hash} {tokens : List Token} {hash : Hash}
  {b reused : Nat} {start : KVCacheManager} {maxReuseBlocks : Int}

/-- Only the contents of the block itself matter. -/
theorem Names.of_kv {kv' : Contents} (h : Names InPlay blockSize kv hash block)
    (hkv : kv' block = kv block) : Names InPlay blockSize kv' hash block := by
  obtain ⟨salt, tokens, k, hplay, hlength, hhash, hholds⟩ := h
  refine ⟨salt, tokens, k, hplay, hlength, hhash, fun offset hoffset => ?_⟩
  rw [hkv]
  exact hholds offset hoffset

section

variable (hpos : 0 < blockSize)
include hpos

section

variable (hfull : (i + 1) * blockSize ≤ tokens.length)
include hfull

/-- What a full block of a prompt holds, read back as a name. -/
theorem Names.of_holds (hplay : InPlay salt (tokens.take ((i + 1) * blockSize)))
    (hholds : Holds kv blockSize block salt tokens i) :
    Names InPlay blockSize kv (chainHash blockSize salt tokens (i + 1)) block := by
  refine ⟨salt, tokens.take ((i + 1) * blockSize), i, hplay, ?_,
    (fullHash_take hpos salt hfull).symm, hholds.congr ?_⟩
  · rw [length_take, min_eq_left hfull]
  · rw [take_take, min_self]

/-- A block holds one thing, so it has one name. -/
theorem Names.eq_of_holds (h : Names InPlay blockSize kv hash block)
    (hholds : Holds kv blockSize block salt tokens i) :
    hash = chainHash blockSize salt tokens (i + 1) := by
  obtain ⟨salt', tokens', k, -, hlength, rfl, hholds'⟩ := h
  -- the last offset shows the whole token sequence
  have hlast := hholds' (blockSize - 1) (by omega)
  rw [hholds (blockSize - 1) (by omega)] at hlast
  have hend : ∀ j, j * blockSize + (blockSize - 1) + 1 = (j + 1) * blockSize := fun j => by
    rw [Nat.add_one_mul]
    omega
  rw [hend, hend] at hlast
  obtain ⟨hsalt, htokens⟩ := Prod.mk.inj (Option.some.inj hlast)
  rw [take_of_length_le (le_of_eq hlength)] at htokens
  rw [← hsalt, ← htokens, fullHash_take hpos salt hfull]

/-- Collision-freeness reads a name back to the prompt it was looked up for. -/
theorem Names.holds (hfree : CollisionFree blockSize InPlay)
    (hplay : InPlay salt (tokens.take ((i + 1) * blockSize)))
    (h : Names InPlay blockSize kv (chainHash blockSize salt tokens (i + 1)) block) :
    Holds kv blockSize block salt tokens i := by
  obtain ⟨salt', tokens', k, hplay', hlength, hhash, hholds⟩ := h
  rw [← fullHash_take hpos salt hfull] at hhash
  obtain ⟨rfl, rfl⟩ := hfree _ _ _ _ hplay hplay' hhash
  rw [length_take, min_eq_left hfull] at hlength
  obtain rfl : i = k := by
    have := Nat.eq_of_mul_eq_mul_right hpos hlength
    omega
  exact hholds.congr (by rw [take_take, min_self])

end

/-- The chained hashes of a prompt in play are different. -/
theorem CollisionFree.injective (hfree : CollisionFree blockSize InPlay)
    (hplay : World.AllInPlay InPlay blockSize salt tokens) :
    ChainInjective blockSize salt tokens := by
  intro i j hi hj heq
  have hin : ∀ k, (k + 1) * blockSize ≤ tokens.length →
      InPlay salt (tokens.take ((k + 1) * blockSize)) := fun k hk =>
    hplay k ((Nat.le_div_iff_mul_le hpos).mpr hk)
  rw [← fullHash_take hpos salt hi, ← fullHash_take hpos salt hj] at heq
  have hlengths := congrArg List.length (hfree _ _ _ _ (hin i hi) (hin j hj) heq).2
  rw [length_take, length_take, min_eq_left hi, min_eq_left hj] at hlengths
  have := Nat.eq_of_mul_eq_mul_right hpos hlengths
  omega

end

namespace Faithful

variable {total : Nat} {s s' : KVCacheManager}

theorem shrink (h : Faithful InPlay s kv) (hshrinks : Shrinks s s') : Faithful InPlay s' kv where
  filed := hshrinks.filed
  named hash block hfiles := by
    rw [hshrinks.blockSize]
    exact h.named hash block (hshrinks.sub hash block hfiles)

/-- Filing a slot under the hash of what it holds. A hole gets an entry that names no block. -/
theorem registerHash (h : Faithful InPlay s kv) (howned : Owned total s []) (hpos : 0 < s.blockSize)
    {seq : Int} {ref : BlockRef} (hslot : (s.blockTable seq)[i]? = some ref)
    (hfull : (i + 1) * s.blockSize ≤ tokens.length)
    (hplay : InPlay salt (tokens.take ((i + 1) * s.blockSize)))
    (hholds : ∀ block, ref = some block → Holds kv s.blockSize block salt tokens i) :
    let s' := s.registerHash (chainHash s.blockSize salt tokens (i + 1)) (BlockRef.id ref)
    Faithful InPlay s' kv ∧ ∀ block, ref ≠ some block → Exclusive s block → Exclusive s' block := by
  unfold KVCacheManager.registerHash
  split
  · exact ⟨h, fun _ _ hexcl => hexcl⟩
  next hnone =>
    generalize hhash : chainHash s.blockSize salt tokens (i + 1) = hash at hnone ⊢
    have hcases : ∀ found block, Files { s with
        blockHashToId := s.blockHashToId.insert hash (BlockRef.id ref)
        blockIdToHash := s.blockIdToHash.insert (BlockRef.id ref) hash } found block →
        found = hash ∧ ref = some block ∨ found ≠ hash ∧ Files s found block := by
      rintro found block ⟨hlookup, hnonneg⟩
      rw [Table.lookup_insert_ite] at hlookup
      split at hlookup
      next heq =>
        refine .inl ⟨heq, ?_⟩
        cases ref with
        | none =>
          have hminus : -1 = block := Option.some.inj hlookup
          omega
        | some held => exact congrArg some (Option.some.inj hlookup)
      next hne => exact .inr ⟨hne, hlookup, hnonneg⟩
    refine ⟨⟨⟨fun found block hfiles => ?_, fun found block hfiles => ?_⟩,
      fun found block hfiles => ?_⟩, fun block hne hexcl => ⟨hexcl.1, fun found hfiles => ?_⟩⟩
    · rw [Table.lookup_insert_ite]
      rcases hcases found block hfiles with ⟨rfl, rfl⟩ | ⟨hne, hold⟩
      · rw [BlockRef.id_some, if_pos rfl]
      · -- a block that was named already holds what it is named for, so the name is this one
        have hother : block ≠ BlockRef.id ref := by
          rintro rfl
          cases ref with
          | none => exact absurd hold.2 (by decide)
          | some held =>
            refine hne ?_
            rw [← hhash]
            exact (h.named found held hold).eq_of_holds hpos hfull (hholds held rfl)
        rw [if_neg hother]
        exact h.filed.named found block hold
    · rcases hcases found block hfiles with ⟨-, rfl⟩ | ⟨-, hold⟩
      · exact howned.refCount_pos_of_slot hslot
      · exact h.filed.live found block hold
    · rcases hcases found block hfiles with ⟨rfl, rfl⟩ | ⟨-, hold⟩
      · rw [← hhash]
        exact .of_holds hpos hfull hplay (hholds block rfl)
      · exact h.named found block hold
    · rcases hcases found block hfiles with ⟨-, heq⟩ | ⟨-, hold⟩
      · exact hne heq
      · exact hexcl.2 found hold

end Faithful

/-! ## Publishing a sequence -/

/-- What publishing these tokens of a sequence does, when its full slots hold them under a salt. -/
structure Publishes (InPlay : Hash → List Token → Prop) (kv : Contents) (seq : Int) (salt : Hash)
    (tokens : List Token) (s s' : KVCacheManager) : Prop where
  faithful : Faithful InPlay s' kv
  blockSize : s'.blockSize = s.blockSize
  enabled : s'.prefixCachingEnabled = s.prefixCachingEnabled
  blockTable : ∀ other, s'.blockTable other = s.blockTable other
  exclusive : ∀ block, (∀ i, (i + 1) * s.blockSize ≤ tokens.length → ¬ HasSlot s seq i block) →
    Exclusive s block → Exclusive s' block
  hashes : ∀ i, recordedHash s' seq i = recordedHash s seq i ∨
    (i + 1) * s.blockSize ≤ tokens.length ∧
      recordedHash s' seq i = chainHash s.blockSize salt tokens (i + 1)
  others : ∀ other, other ≠ seq → s'.blockHashes other = s.blockHashes other

namespace Publishes

variable {total : Nat} {s : KVCacheManager} {seq : Int}

theorem rfl' (h : Faithful InPlay s kv) : Publishes InPlay kv seq salt tokens s s :=
  ⟨h, rfl, rfl, fun _ => rfl, fun _ _ hexcl => hexcl, fun _ => .inl rfl, fun _ _ => rfl⟩

/-- The hash of the next slot is the next one of the chain: the recorded one is, and a computed one
continues the chain. -/
theorem nextHash_eq {parentHash : Hash} {hashes : List Hash}
    (hrecorded : hashes.getD b 0 ≠ 0 → hashes.getD b 0 = chainHash blockSize salt tokens (b + 1))
    (hparent : hashes.getD b 0 = 0 → parentHash = chainHash blockSize salt tokens b) :
    nextHash blockSize tokens hashes b parentHash = chainHash blockSize salt tokens (b + 1) := by
  unfold nextHash
  split
  next hne => exact hrecorded hne
  next hzero =>
    rw [hparent (not_not.mp hzero)]
    rfl

theorem registerBlockHashes (h : Faithful InPlay s kv) (howned : Owned total s [])
    (hpos : 0 < s.blockSize) (hplay : World.AllInPlay InPlay s.blockSize salt tokens)
    (hholds : ∀ i block, HasSlot s seq i block → (i + 1) * s.blockSize ≤ tokens.length →
      Holds kv s.blockSize block salt tokens i)
    (hrecorded : ∀ i, (i + 1) * s.blockSize ≤ tokens.length → recordedHash s seq i ≠ 0 →
      recordedHash s seq i = chainHash s.blockSize salt tokens (i + 1)) (contentSalt : Hash)
    (hsalt : salt = contentSalt ∨ recordedHash s seq 0 ≠ 0 ∨ tokens.length < s.blockSize) :
    Publishes InPlay kv seq salt tokens s (s.registerBlockHashes seq tokens contentSalt) := by
  refine registerBlockHashes_rule (P := Publishes InPlay kv seq salt tokens s)
    (I := fun b parentHash hashes t => Faithful InPlay t kv ∧
      (∀ block, (∀ i, (i + 1) * s.blockSize ≤ tokens.length → ¬ HasSlot s seq i block) →
        Exclusive s block → Exclusive t block) ∧
      (∀ i, hashes.getD i 0 = recordedHash s seq i ∨ (i + 1) * s.blockSize ≤ tokens.length ∧
        hashes.getD i 0 = chainHash s.blockSize salt tokens (i + 1)) ∧
      ((b + 1) * s.blockSize ≤ tokens.length → hashes.getD b 0 = 0 →
        parentHash = chainHash s.blockSize salt tokens b))
    (rfl' h) ⟨h, fun _ _ hexcl => hexcl, fun _ => .inl rfl, fun hfull hzero => ?_⟩ ?_ ?_
  · rcases hsalt with heq | hne | hshort
    · exact heq.symm
    · exact absurd hzero hne
    · omega
  · rintro b ref parentHash hash hashes t hslot hfull hb honly rfl ⟨hfaith, hexcl, hhashes, hparent⟩
    have hframe := SameTables.of_index honly
    have hnext : nextHash s.blockSize tokens hashes b parentHash =
        chainHash s.blockSize salt tokens (b + 1) := by
      refine nextHash_eq (fun hne => ?_) (hparent hfull)
      rcases hhashes b with heq | hchain
      · rw [heq] at hne ⊢
        exact hrecorded b hfull hne
      · exact hchain.2
    have hin := hplay b ((Nat.le_div_iff_mul_le hpos).mpr hfull)
    rw [hnext]
    rw [← hframe.blockSize] at hpos hfull hin hholds hexcl hhashes ⊢
    obtain ⟨hfiled, hkept⟩ := hfaith.registerHash (howned.congr (.of_index honly)) hpos
      ((hframe.blockTable seq).symm ▸ hslot) hfull hin
      fun block heq => hholds b block (hslot.trans (congrArg some heq)) hfull
    refine ⟨hfiled, fun block hout hown => hkept block ?_ (hexcl block hout hown), fun i => ?_,
      fun _ _ => rfl⟩
    · rintro rfl
      exact hout b hfull hslot
    · rw [getD_recordAt hashes b i _ hb]
      split
      next heq => exact .inr ⟨heq ▸ hfull, by rw [heq]⟩
      next => exact hhashes i
  · rintro b - hashes t honly ⟨hfaith, hexcl, hhashes, -⟩
    have hframe := SameTables.of_index honly
    refine ⟨⟨⟨hfaith.filed.named, hfaith.filed.live⟩, hfaith.named⟩, hframe.blockSize,
      hframe.prefixCachingEnabled, hframe.blockTable, hexcl, fun i => ?_, fun other hne => ?_⟩
    · rw [recordedHash, blockHashes_setHashes_ite, if_pos rfl]
      exact hhashes i
    · rw [blockHashes_setHashes_ite, if_neg hne]
      exact hframe.blockHashes other

end Publishes

/-! ## Sessions after a publication or a prefix allocation -/

namespace SessionOk

variable {total : Nat} {s s' : KVCacheManager} {seq : Int} {σ : Session}

theorem publish (h : SessionOk s kv seq σ) (howned : Owned total s []) (hpos : 0 < s.blockSize)
    (hpublishes : Publishes InPlay kv seq σ.salt tokens s s') (hforwarded : tokens <+: σ.context) :
    SessionOk s' kv seq (σ.publish (tokens.length / s.blockSize)) := by
  have hsize := hpublishes.blockSize
  have hslot : ∀ i block, HasSlot s' seq i block → HasSlot s seq i block := fun i block hi => by
    rwa [HasSlot, hpublishes.blockTable] at hi
  have hlength := hforwarded.length_le
  have hcount : tokens.length / s.blockSize * s.blockSize ≤ tokens.length := Nat.div_mul_le_self ..
  refine ⟨?_, ?_, fun i hi => ?_, h.prompt, fun i block hi => ?_, fun i block hi hge => ?_,
    fun i hne => ?_⟩
  · rw [hpublishes.blockTable]
    refine Nat.max_le.mpr ⟨h.frozen_le, Nat.div_le_of_le_mul ?_⟩
    rw [Nat.mul_comm]
    exact hlength.trans h.covered
  · rw [hpublishes.blockTable, hsize]
    exact h.covered
  · rw [hsize]
    rcases lt_max_iff.mp hi with hfrozen | hnew
    · exact h.begun i hfrozen
    · have hfull := Nat.mul_le_mul_right s.blockSize hnew
      rw [Nat.succ_mul] at hfull
      change _ < σ.context.length
      omega
  · rw [hsize]
    exact h.written i block (hslot i block hi)
  · have hown := h.own i block (hslot i block hi) ((le_max_left _ _).trans hge)
    refine hpublishes.exclusive block (fun j hj hslot' => ?_) hown
    have hji := (hown.unique howned (hslot i block hi) hslot').2
    have hbelow := (Nat.le_div_iff_mul_le hpos).mpr hj
    have := (le_max_right σ.frozen (tokens.length / s.blockSize)).trans hge
    omega
  · rw [hsize]
    rcases hpublishes.hashes i with heq | ⟨hfull, heq⟩
    · rw [heq]
      rcases h.hashes i (heq ▸ hne) with hprompt | ⟨hfrozen, hcontext⟩
      · exact .inl hprompt
      · exact .inr ⟨lt_of_lt_of_le hfrozen (le_max_left _ _), hcontext⟩
    · refine .inr ⟨lt_of_lt_of_le ((Nat.le_div_iff_mul_le hpos).mpr hfull)
        (le_max_right _ _), fun _ => ?_⟩
      rw [heq]
      refine chainHash_congr σ.salt ?_
      change _ = σ.context.take ((i + 1) * s.blockSize)
      rw [prefix_iff_eq_take.mp hforwarded, take_take, min_eq_left hfull]

/-- Publishing one sequence leaves the sessions of the others alone. -/
theorem publish_other {other : Int} (h : SessionOk s kv other σ) (howned : Owned total s [])
    (hne : other ≠ seq) (hpublishes : Publishes InPlay kv seq salt tokens s s') :
    SessionOk s' kv other σ :=
  h.transfer hpublishes.blockSize (by rw [hpublishes.blockTable])
    (fun i block hslot => by rwa [HasSlot, hpublishes.blockTable] at hslot)
    (fun i _ => by rw [recordedHash, hpublishes.others other hne, recordedHash])
    fun i block hslot hown => hpublishes.exclusive block
      (fun j _ hslot' => hne (hown.unique howned hslot hslot').1.symm) hown

end SessionOk

section

variable {total : Nat} {s : KVCacheManager} {seq : Int}
  (h : Reusing total start seq tokens maxReuseBlocks salt b reused s)
  (hfaithful : Faithful InPlay start kv) (hpos : 0 < start.blockSize)
  (hfree : CollisionFree start.blockSize InPlay)
  (hplay : World.AllInPlay InPlay start.blockSize salt tokens)
include h hfaithful hpos hfree hplay

/-- What a reused slot holds. -/
theorem Reusing.holds (hslot : HasSlot s seq i block) (hi : i < reused) :
    Holds kv start.blockSize block salt tokens i :=
  (hfaithful.named _ _ ((h.slot hslot).1 hi)).holds hpos (h.full hi) hfree
    (hplay i ((Nat.le_div_iff_mul_le hpos).mpr (h.full hi)))

/-- The session that a prefix allocation starts. -/
theorem Reusing.sessionOk :
    SessionOk s kv seq ⟨salt, tokens, tokens.take (reused * start.blockSize), reused⟩ := by
  have hsize := h.shrinks.blockSize
  have hlength : (tokens.take (reused * start.blockSize)).length = reused * start.blockSize := by
    rw [length_take, min_eq_left h.reused_full]
  refine ⟨?_, ?_, fun i hi => ?_, fun n _ hn => ?_, fun i block hslot offset hoffset hlt => ?_,
    fun i block hslot => (h.slot hslot).2, fun i hne => ?_⟩
  · rw [h.length]
    exact h.reused_le
  · rw [h.length, hsize]
    exact hlength.trans_le (Nat.mul_le_mul_right _ h.reused_le)
  · rw [hsize]
    exact (Nat.mul_lt_mul_of_pos_right hi hpos).trans_eq hlength.symm
  · rw [hlength] at hn
    rw [take_take, min_eq_left hn]
  · rw [hsize] at hoffset hlt ⊢
    rw [hlength] at hlt
    have hi : i < reused :=
      Nat.lt_of_mul_lt_mul_right (lt_of_le_of_lt (Nat.le_add_right _ _) hlt)
    rw [take_take, min_eq_left (by omega)]
    exact h.holds hfaithful hpos hfree hplay hslot hi offset hoffset
  · rw [hsize]
    rw [recordedHash, h.hashes, getD_eq_getElem?_getD, getElem?_map] at hne ⊢
    rcases lt_or_ge i b with hlt | hge
    · rw [getElem?_range hlt, Option.map_some, Option.getD_some] at hne ⊢
      split at hne
      next hfull =>
        rw [if_pos hfull]
        exact .inl ⟨hfull, rfl⟩
      next => exact absurd rfl hne
    · rw [getElem?_eq_none (by rw [length_range]; exact hge)] at hne
      exact absurd rfl hne

end

end Quench

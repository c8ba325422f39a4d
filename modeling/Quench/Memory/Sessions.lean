import Quench.Memory.BlockContents

/-!
# Sessions and the blocks they write

`SessionOk` relates a request to its table: what it has forwarded is in its blocks, the blocks past
its shared ones belong to it alone, and its recorded hashes are hashes of its own tokens. The module
shows what keeps this: forwarding a token, losing slots or index entries, growing the table, and
rolling back.
-/

namespace Quench

open Lib KVCacheManager List

/-- A recorded hash is the hash of a block of the prompt, or of what a shared block holds. -/
def Session.Recorded (σ : Session) (blockSize i : Nat) (hash : Hash) : Prop :=
  ((i + 1) * blockSize ≤ σ.prompt.length ∧ hash = chainHash blockSize σ.salt σ.prompt (i + 1)) ∨
  (i < σ.frozen ∧ ((i + 1) * blockSize ≤ σ.context.length →
    hash = chainHash blockSize σ.salt σ.context (i + 1)))

/-- The table, the contents and the recorded hashes of a sequence fit its session. -/
structure SessionOk (s : KVCacheManager) (kv : Contents) (seq : Int) (σ : Session) : Prop where
  frozen_le : σ.frozen ≤ (s.blockTable seq).length
  covered : σ.context.length ≤ (s.blockTable seq).length * s.blockSize
  begun : ∀ i < σ.frozen, i * s.blockSize < σ.context.length
  prompt : ∀ n ≤ σ.prompt.length, n ≤ σ.context.length → σ.prompt.take n = σ.context.take n
  written : ∀ i block, HasSlot s seq i block → ∀ offset < s.blockSize,
    i * s.blockSize + offset < σ.context.length →
      kv block offset = some (σ.salt, σ.context.take (i * s.blockSize + offset + 1))
  own : ∀ i block, HasSlot s seq i block → σ.frozen ≤ i → Exclusive s block
  hashes : ∀ i, recordedHash s seq i ≠ 0 → σ.Recorded s.blockSize i (recordedHash s seq i)

namespace SessionOk

variable {total : Nat} {s s' : KVCacheManager} {kv kv' : Contents} {seq : Int} {σ : Session}
variable {block : Int} {pos : Nat}

/-- A sequence without slots fits any session that has nothing yet. -/
theorem empty (htable : s.blockTable seq = []) (hhashes : s.blockHashes seq = [])
    (hcontext : σ.context = []) (hfrozen : σ.frozen = 0) : SessionOk s kv seq σ where
  frozen_le := by rw [hfrozen]; exact Nat.zero_le _
  covered := by rw [hcontext]; exact Nat.zero_le _
  begun i hi := by omega
  prompt n _ hn := by
    rw [hcontext] at hn
    rw [Nat.le_zero.mp hn, take_zero, take_zero]
  written i block hslot := by simp [HasSlot, htable] at hslot
  own i block hslot := by simp [HasSlot, htable] at hslot
  hashes i hne := by simp [recordedHash, hhashes] at hne

variable (h : SessionOk s kv seq σ)
include h

variable {i : Nat} {token : Token}

/-- Where the context is long enough, a recorded hash is the hash of the context. -/
theorem hash_eq (hne : recordedHash s seq i ≠ 0)
    (hfull : (i + 1) * s.blockSize ≤ σ.context.length) :
    recordedHash s seq i = chainHash s.blockSize σ.salt σ.context (i + 1) := by
  rcases h.hashes i hne with ⟨hprompt, heq⟩ | ⟨-, heq⟩
  · rw [heq]
    exact chainHash_congr σ.salt (h.prompt _ hprompt hfull)
  · exact heq hfull

/-- A full slot of the context holds its tokens. -/
theorem holds (hslot : HasSlot s seq i block) (hfull : (i + 1) * s.blockSize ≤ σ.context.length) :
    Holds kv s.blockSize block σ.salt σ.context i := by
  intro offset hoffset
  refine h.written i block hslot offset hoffset ?_
  rw [Nat.add_one_mul] at hfull
  omega

/-- No block is in two slots of a table: shared blocks hold different positions, and the others
have one reference. -/
theorem nodup (howned : Owned total s []) (hpos : 0 < s.blockSize) (block : Int) :
    (s.blockTable seq).count (some block) ≤ 1 := by
  refine count_le_one_iff.mpr fun i j hi hj => ?_
  rcases lt_or_ge i σ.frozen with hifrozen | hiown
  · rcases lt_or_ge j σ.frozen with hjfrozen | hjown
    · have hbegun := h.begun i hifrozen
      have hbegun' := h.begun j hjfrozen
      have hfirst := h.written i block hi 0 hpos hbegun
      have hfirst' := h.written j block hj 0 hpos hbegun'
      rw [hfirst] at hfirst'
      have hlengths := congrArg List.length (congrArg Prod.snd (Option.some.inj hfirst'))
      simp only [length_take] at hlengths
      exact Nat.eq_of_mul_eq_mul_right hpos (by omega)
    · exact ((h.own j block hj hjown).unique howned hj hi).2
  · exact ((h.own i block hi hiown).unique howned hi hj).2.symm

/-! ## Steps that leave the session alone -/

/-- Slots and recorded hashes may be lost, as long as the sequence's own blocks stay its own. -/
theorem transfer (hsize : s'.blockSize = s.blockSize)
    (hlength : (s'.blockTable seq).length = (s.blockTable seq).length)
    (hslots : ∀ i block, HasSlot s' seq i block → HasSlot s seq i block)
    (hhashes : ∀ i, recordedHash s' seq i ≠ 0 → recordedHash s' seq i = recordedHash s seq i)
    (hown : ∀ i block, HasSlot s seq i block → Exclusive s block → Exclusive s' block) :
    SessionOk s' kv seq σ := by
  refine ⟨?_, ?_, ?_, h.prompt, fun i block hslot => ?_, fun i block hslot hge => ?_,
    fun i hne => ?_⟩
  · rw [hlength]
    exact h.frozen_le
  · rw [hlength, hsize]
    exact h.covered
  · rw [hsize]
    exact h.begun
  · rw [hsize]
    exact h.written i block (hslots i block hslot)
  · have hold := hslots i block hslot
    exact hown i block hold (h.own i block hold hge)
  · have heq := hhashes i hne
    rw [hsize, heq]
    exact h.hashes i (heq ▸ hne)

theorem lose (hshrinks : Shrinks s s') (hloses : Loses s s') : SessionOk s' kv seq σ :=
  h.transfer hshrinks.blockSize (hloses.length seq) (hloses.slots seq) (hloses.hashes seq)
    fun _ block _ => hshrinks.exclusive block

/-- A sequence whose table and hashes stay. -/
theorem congr (hshrinks : Shrinks s s') (htable : s'.blockTable seq = s.blockTable seq)
    (hhashes : s'.blockHashes seq = s.blockHashes seq) : SessionOk s' kv seq σ :=
  h.transfer hshrinks.blockSize (by rw [htable])
    (fun i block hslot => by rwa [HasSlot, htable] at hslot)
    (fun i _ => by rw [recordedHash, hhashes, recordedHash])
    fun _ block _ => hshrinks.exclusive block

/-- Only the contents of the sequence's own slots matter. -/
theorem of_kv (hkv : ∀ i block, HasSlot s seq i block → kv' block = kv block) :
    SessionOk s kv' seq σ :=
  ⟨h.frozen_le, h.covered, h.begun, h.prompt, fun i block hslot => by
    rw [hkv i block hslot]
    exact h.written i block hslot, h.own, h.hashes⟩

/-- Blocks of its own may be added to a sequence. -/
theorem grow (hext : Extends seq (s.blockTable seq).length s s') : SessionOk s' kv seq σ := by
  have hsize := hext.shrinks.blockSize
  refine ⟨h.frozen_le.trans hext.length, ?_, ?_, h.prompt, fun i block hslot => ?_,
    fun i block hslot hge => ?_, fun i hne => ?_⟩
  · rw [hsize]
    exact h.covered.trans (Nat.mul_le_mul_right _ hext.length)
  · rw [hsize]
    exact h.begun
  · rw [hsize]
    rcases hext.slots i block hslot with ⟨-, hold⟩ | ⟨hnew, -⟩
    · exact h.written i block hold
    · intro offset hoffset hlt
      have := h.covered
      have := Nat.mul_le_mul_right s.blockSize hnew
      omega
  · rcases hext.slots i block hslot with ⟨-, hold⟩ | ⟨-, hown⟩
    · exact hext.shrinks.exclusive block (h.own i block hold hge)
    · exact hown
  · have heq : recordedHash s' seq i = recordedHash s seq i := by
      rw [recordedHash, hext.hashes, recordedHash]
    rw [hsize, heq]
    exact h.hashes i (heq ▸ hne)

/-! ## Rolling back -/

theorem rewind (hfiled : Filed s) (hfit : HashesFit s) (hpos : 0 < s.blockSize) {newSeqLen : Int}
    (hnonneg : 0 ≤ newSeqLen) :
    SessionOk (s.rollback seq newSeqLen) kv seq (σ.rewind newSeqLen.toNat
      ((newSeqLen.toNat + s.blockSize - 1) / s.blockSize)) := by
  have hshrinks := Shrinks.rollback hfiled seq newSeqLen
  obtain ⟨htable, hhashes⟩ := hfit.tables_rollback seq hnonneg
  have hsize := hshrinks.blockSize
  generalize s.rollback seq newSeqLen = t at *
  generalize newSeqLen.toNat = len at *
  have hceil := le_ceil_mul len hpos
  have hbelow : ∀ i < (len + s.blockSize - 1) / s.blockSize, i * s.blockSize < len := fun i hi => by
    have := (Nat.le_div_iff_mul_le hpos).mp (Nat.succ_le_of_lt hi)
    rw [Nat.succ_mul] at this
    omega
  generalize (len + s.blockSize - 1) / s.blockSize = needed at *
  refine ⟨?_, ?_, fun i hi => ?_, fun n hn hcut => ?_, fun i block hslot offset hoffset hlt => ?_,
    fun i block hslot hge => ?_, fun i hne => ?_⟩
  · rw [htable, length_take]
    exact Nat.le_min.mpr ⟨min_le_right _ _, (min_le_left _ _).trans h.frozen_le⟩
  · rw [htable, hsize, length_take, Session.rewind, length_take]
    rcases le_total needed (s.blockTable seq).length with hle | hle
    · rw [min_eq_left hle]
      exact (min_le_left _ _).trans hceil
    · rw [min_eq_right hle]
      exact (min_le_right _ _).trans h.covered
  · rw [hsize, Session.rewind, length_take]
    exact Nat.lt_min.mpr ⟨hbelow i (lt_of_lt_of_le hi (min_le_right _ _)),
      h.begun i (lt_of_lt_of_le hi (min_le_left _ _))⟩
  · rw [Session.rewind, length_take] at hcut
    rw [Session.rewind, take_take, min_eq_left (hcut.trans (min_le_left _ _))]
    exact h.prompt n hn (hcut.trans (min_le_right _ _))
  · rw [hsize] at hoffset hlt ⊢
    change _ < (σ.context.take len).length at hlt
    rw [length_take] at hlt
    change kv block offset = some (σ.salt, (σ.context.take len).take (i * s.blockSize + offset + 1))
    rw [take_take, min_eq_left (by omega)]
    exact h.written i block (hslot.of_take htable).2 offset hoffset (by omega)
  · obtain ⟨hlt, hold⟩ := hslot.of_take htable
    refine hshrinks.exclusive block (h.own i block hold ?_)
    change min σ.frozen needed ≤ i at hge
    omega
  · have heq : i < needed ∧ recordedHash t seq i = recordedHash s seq i := by
      rw [recordedHash, hhashes, getD_eq_getElem?_getD, getElem?_take] at hne ⊢
      split at hne
      next hlt => exact ⟨hlt, by rw [if_pos hlt, recordedHash, getD_eq_getElem?_getD]⟩
      next => exact absurd rfl hne
    rw [hsize, heq.2]
    rcases h.hashes i (heq.2 ▸ hne) with hprompt | ⟨hfrozen, hcontext⟩
    · exact .inl hprompt
    · refine .inr ⟨Nat.lt_min.mpr ⟨hfrozen, heq.1⟩, fun hfull => ?_⟩
      rw [Session.rewind, length_take] at hfull
      rw [hcontext (by omega)]
      refine chainHash_congr σ.salt ?_
      rw [Session.rewind, take_take, min_eq_left (by omega)]

/-! ## Forwarding a token -/

variable (hslot : HasSlot s seq (pos / s.blockSize) block)
include hslot

/-- Forwarding the token that is already there writes what is already there. -/
theorem write_same (hpos : 0 < s.blockSize) (hsame : σ.context[pos]? = some token) :
    Contents.write kv block (pos % s.blockSize) (σ.salt, σ.context.take pos ++ [token]) = kv := by
  have hlt := (List.getElem?_eq_some_iff.mp hsame).1
  have hold := h.written _ block hslot _ (Nat.mod_lt pos hpos)
    (by rw [Nat.mul_comm, Nat.div_add_mod]; exact hlt)
  rw [Nat.mul_comm, Nat.div_add_mod, take_add_one, hsame] at hold
  funext other offset
  rw [Contents.write]
  split
  next heq => rw [heq.1, heq.2, hold]; rfl
  next => rfl

/-- Past the shared blocks a token goes to a block of the sequence's own. -/
theorem own_slot (hpos : 0 < s.blockSize)
    (hpast : σ.frozen * s.blockSize ≤ pos) : Exclusive s block :=
  h.own _ block hslot ((Nat.le_div_iff_mul_le hpos).mpr hpast)

/-- Forwarding another token past the shared blocks. -/
theorem write_new (howned : Owned total s []) (hpos : 0 < s.blockSize)
    (hnext : pos ≤ σ.context.length) (hpast : σ.frozen * s.blockSize ≤ pos)
    (hprompt : pos < σ.prompt.length → σ.prompt[pos]? = some token) :
    SessionOk s
      (Contents.write kv block (pos % s.blockSize) (σ.salt, σ.context.take pos ++ [token])) seq
      { σ with context := σ.context.take pos ++ [token] } := by
  have hlength : (σ.context.take pos ++ [token]).length = pos + 1 := by
    rw [length_append, length_take, min_eq_left hnext, length_singleton]
  have hbefore : ∀ n ≤ pos, (σ.context.take pos ++ [token]).take n = σ.context.take n := by
    intro n hn
    rw [take_append_of_le_length (by rw [length_take]; omega), take_take,
      min_eq_left hn]
  have hfrozen : ∀ i < σ.frozen, (i + 1) * s.blockSize ≤ pos := fun i hi =>
    (Nat.mul_le_mul_right _ hi).trans hpast
  refine ⟨h.frozen_le, ?_, fun i hi => ?_, fun n hn hcut => ?_,
    fun i held hheld offset hoffset hlt => ?_, h.own, fun i hne => ?_⟩
  · rw [hlength]
    exact (Nat.div_lt_iff_lt_mul hpos).mp (List.getElem?_eq_some_iff.mp hslot).1
  · have := hfrozen i hi
    rw [Nat.add_one_mul] at this
    rw [hlength]
    omega
  · rw [hlength] at hcut
    rcases lt_or_ge pos n with hlast | hle
    · obtain rfl : n = pos + 1 := by omega
      rw [take_of_length_le (le_of_eq hlength), take_add_one, hprompt hn,
        h.prompt pos (Nat.le_of_succ_le hn) hnext]
      rfl
    · rw [hbefore n hle]
      exact h.prompt n hn (hle.trans hnext)
  · rw [hlength] at hlt
    rw [Contents.write]
    by_cases hhere : i * s.blockSize + offset = pos
    · have hi : pos / s.blockSize = i := by
        rw [← hhere, Nat.mul_comm, Nat.mul_add_div hpos, Nat.div_eq_of_lt hoffset, Nat.add_zero]
      have hoff : pos % s.blockSize = offset := by
        rw [← hhere, Nat.mul_comm, Nat.mul_add_mod, Nat.mod_eq_of_lt hoffset]
      rw [HasSlot, hi, hheld] at hslot
      obtain rfl : held = block := Option.some.inj (Option.some.inj hslot)
      rw [if_pos ⟨rfl, hoff.symm⟩, hhere, take_of_length_le (le_of_eq hlength)]
    · -- the block is in this slot only, so the write missed this offset
      have hmissed : ¬ (held = block ∧ offset = pos % s.blockSize) := by
        rintro ⟨rfl, rfl⟩
        have hi := ((h.own_slot hslot hpos hpast).unique howned hslot hheld).2
        refine hhere ?_
        rw [hi, Nat.mul_comm, Nat.div_add_mod]
      rw [if_neg hmissed, hbefore _ (by omega)]
      exact h.written i held hheld offset hoffset (by omega)
  · rcases h.hashes i hne with hprompt | ⟨hshared, hcontext⟩
    · exact .inl hprompt
    · refine .inr ⟨hshared, fun _ => ?_⟩
      have hle := hfrozen i hshared
      rw [hcontext (hle.trans hnext)]
      exact chainHash_congr σ.salt (hbefore _ hle).symm

end SessionOk

end Quench

import Quench.Runtime.SpecState

/-!
# Writes and copies of KV

Where a chunk's forward pass and its block copies leave the KV. Both are folds, so each comes with
two rules: a place that exactly one of the writes (or copies) goes to holds what that one put there,
and a place that none of them goes to holds what it held before. `location` says where a row writes,
in a linear chunk and in the group of a candidate.
-/

namespace Quench

open List

variable {n target : Nat} {src : Int} {block : Int} {blockSize c offset : Nat}

namespace Contents

/-- The block and offset behind a position of a table. An evicted slot has none. -/
def slot (blockSize : Nat) (table : List BlockRef) (position : Nat) : Option (Int × Nat) :=
  match table[position / blockSize]? with
  | some (some block) => some (block, position % blockSize)
  | _ => none

theorem slot_eq_some {table : List BlockRef} {position : Nat}
    : slot blockSize table position = some (block, offset) ↔
      table[position / blockSize]? = some (some block) ∧ position % blockSize = offset := by
  unfold slot
  split
  next found heq =>
    simp only [heq, Option.some.injEq, Prod.mk.injEq]
  next hnone =>
    constructor
    · intro h
      cases h
    · exact fun h => absurd h.1 (hnone block)

theorem writeAt_apply (kv : Contents) (blockSize : Nat) (table : List BlockRef) (position : Nat)
    (written : Written) (block : Int) (offset : Nat) :
    kv.writeAt blockSize table position written block offset =
      if slot blockSize table position = some (block, offset) then some written
      else kv block offset := by
  unfold writeAt slot
  generalize table[position / blockSize]? = entry
  rcases entry with _ | _ | found
  · rw [if_neg (by simp)]
  · rw [if_neg (by simp)]
  · simp only [write, Option.some.injEq, Prod.mk.injEq]
    by_cases hhere : block = found ∧ offset = position % blockSize
    · rw [if_pos hhere, if_pos ⟨hhere.1.symm, hhere.2.symm⟩]
    · rw [if_neg hhere, if_neg fun h => hhere ⟨h.1.symm, h.2.symm⟩]

theorem copyBlock_of_ne (kv : Contents) (src : BlockRef) {dst : BlockRef}
    (hne : dst ≠ some block) (offset : Nat) : kv.copyBlock src dst block offset =
      kv block offset := by
  unfold copyBlock
  split
  next => rw [if_neg fun heq => hne (by rw [heq])]
  next => rfl

section Copies

variable {kv : Contents} {pairs : Nat → BlockRef × BlockRef}

theorem foldl_copyBlock_miss (hmiss : ∀ i < n, (pairs i).2 ≠ some block) :
    (List.range n).foldl (fun kv i => kv.copyBlock (pairs i).1 (pairs i).2) kv block offset =
      kv block offset :=
  foldlRecOn (motive := fun after : Contents => after block offset = kv block offset) _ _ rfl
    fun _ hkept i hi => (copyBlock_of_ne _ _ (hmiss i (mem_range.mp hi)) _).trans hkept

/-- A block that no copy goes to keeps its contents. -/
theorem copyBlocks_miss (hmiss : ∀ i < n, (pairs i).2 ≠ some block) :
    kv.copyBlocks pairs n block offset = kv block offset :=
  foldl_copyBlock_miss fun i hi => hmiss i (by omega)

/-- A block that one copy goes to, from a block that none goes to. -/
theorem copyBlocks_hit (htarget : target < n) (hmax : target < kCopyMaxPairs)
    (hdst : (pairs target).2 = some block) (hsrc : (pairs target).1 = some src)
    (hunique : ∀ i < n, (pairs i).2 = some block → i = target)
    (hkept : ∀ i < n, (pairs i).2 ≠ some src) :
    kv.copyBlocks pairs n block offset = kv src offset := by
  have hfirst : target < min n kCopyMaxPairs := lt_min htarget hmax
  have hle : min n kCopyMaxPairs ≤ n := Nat.min_le_left _ _
  unfold copyBlocks
  generalize min n kCopyMaxPairs = copied at hfirst hle ⊢
  induction copied with
  | zero => omega
  | succ copied ih =>
    rw [range_succ, foldl_concat]
    by_cases hlast : target = copied
    · subst hlast
      rw [hdst, hsrc]
      exact (if_pos rfl).trans (foldl_copyBlock_miss fun i hi => hkept i (by omega))
    · rw [copyBlock_of_ne _ _ fun heq => hlast (hunique copied hle heq).symm]
      exact ih (by omega) (by omega)

end Copies

end Contents

namespace Chunk

open Contents

/-- Where the KV of a row goes. -/
def location (chunk : Chunk) (blockSize : Nat) (table : List BlockRef) (row : Nat) :
    Option (Int × Nat) :=
  slot blockSize (chunk.rowTable blockSize table row) ((chunk.rows[row]?.map Row.position).getD 0)

section Rows

variable {chunk : Chunk} {table : List BlockRef} {salt : Hash} {past : List Token}
  {junk : Nat → Written} {kv : Contents}

theorem forwardRows_succ (n : Nat) :
    chunk.forwardRows blockSize table salt past junk (n + 1) kv block offset =
      if chunk.location blockSize table n = some (block, offset) then
        some (chunk.written salt past junk n)
      else chunk.forwardRows blockSize table salt past junk n kv block offset := by
  unfold forwardRows
  rw [range_succ, foldl_append]
  exact writeAt_apply _ _ _ _ _ _ _

/-- A place that no row writes to keeps its KV. -/
theorem forwardRows_miss
    (hmiss : ∀ row < n, chunk.location blockSize table row ≠ some (block, offset)) :
    chunk.forwardRows blockSize table salt past junk n kv block offset = kv block offset := by
  induction n with
  | zero => rfl
  | succ n ih =>
    rw [forwardRows_succ, if_neg (hmiss n (Nat.lt_succ_self n)),
      ih fun row hrow => hmiss row (Nat.lt_succ_of_lt hrow)]

/-- A place that one row writes to holds that row's KV. -/
theorem forwardRows_hit (htarget : target < n)
    (hhere : chunk.location blockSize table target = some (block, offset))
    (hunique : ∀ row < n, chunk.location blockSize table row = some (block, offset) →
      row = target) : chunk.forwardRows blockSize table salt past junk n kv block offset =
      some (chunk.written salt past junk target) := by
  induction n with
  | zero => omega
  | succ n ih =>
    rw [forwardRows_succ]
    by_cases hlast : target = n
    · rw [← hlast, if_pos hhere]
    · rw [if_neg fun heq => hlast (hunique n (Nat.lt_succ_self n) heq).symm]
      exact ih (by omega) fun row hrow => hunique row (Nat.lt_succ_of_lt hrow)

end Rows

variable {chunk : Chunk} {row : Nat} {table : List BlockRef}

/-! ## Positions of rows -/

theorem position_linear (hlinear : chunk.mcOn = false) (hrow : row < chunk.chunkPad) :
    (chunk.rows[row]?.map Row.position).getD 0 = chunk.p0 + row := by
  rw [rows, hlinear, if_neg (by decide), stageDraft, getElem?_writeRows, getElem?_writeRows,
    chunk.getElem?_blankRows hrow, hlinear, if_neg Bool.false_ne_true]
  split <;> split <;> rfl

theorem position_candidate (hmc : chunk.mcOn = true) {j : Nat} {candidate : List Token}
    (hc : chunk.candidates[c]? = some candidate) (hj : j < chunk.rowsPerCand)
    (hpad : c * chunk.rowsPerCand + j < chunk.chunkPad) :
    (chunk.rows[c * chunk.rowsPerCand + j]?.map Row.position).getD 0 = chunk.p0 + j := by
  have hstage := getElem?_stageCandidates chunk 0 chunk.candidates chunk.blankRows hc hj
  rw [Nat.zero_add, chunk.getElem?_blankRows hpad, Option.map_some] at hstage
  rw [rows, if_pos hmc, hstage]
  rfl

variable {i t p : Nat}

theorem position_pad (hmc : chunk.mcOn = true)
    (hbehind : chunk.candidates.length * chunk.rowsPerCand ≤ row) (hrow : row < chunk.chunkPad) :
    (chunk.rows[row]?.map Row.position).getD 0 = chunk.p0 := by
  rw [rows, if_pos hmc,
    getElem?_stageCandidates_outside _ _ _ _ (.inr (by rw [Nat.zero_add]; exact hbehind)),
    chunk.getElem?_blankRows hrow, hmc]
  rfl

/-! ## Tables of rows -/

theorem getElem?_foldl_set (f : Nat → BlockRef) (base n : Nat) (table : List BlockRef) (i : Nat)
    (hi : i < table.length) :
    ((List.range n).foldl (fun entries t => entries.set (base + t) (f t)) table)[i]? =
      if base ≤ i ∧ i < base + n then some (f (i - base)) else table[i]? := by
  have hlength : ∀ n, ((List.range n).foldl (fun entries t => entries.set (base + t) (f t))
      table).length = table.length := fun n =>
    foldlRecOn (motive := fun entries : List BlockRef => entries.length = table.length) _ _ rfl
      fun _ hlength _ _ => length_set.trans hlength
  induction n with
  | zero => rw [if_neg (by omega)]; rfl
  | succ n ih =>
    rw [range_succ, foldl_concat, getElem?_set, ih]
    by_cases heq : base + n = i
    · rw [if_pos heq, if_pos (by rw [hlength]; omega), if_pos (by omega)]
      congr 2
      omega
    · rw [if_neg heq]
      by_cases hin : base ≤ i ∧ i < base + n
      · rw [if_pos hin, if_pos (by omega)]
      · rw [if_neg hin, if_neg (by omega)]

/-- A row of a candidate writes to the candidate's private blocks. -/
theorem rowTable_candidate (hmc : chunk.mcOn = true) (hrow : row < chunk.chunkLen)
    (ht : t < chunk.nPriv blockSize) (hin : chunk.p0 / blockSize + t < table.length) :
    (chunk.rowTable blockSize table row)[chunk.p0 / blockSize + t]? =
      some (chunk.privBlock blockSize table (row / chunk.rowsPerCand) t) := by
  rw [rowTable, if_pos ⟨hmc, hrow⟩, getElem?_foldl_set _ _ _ _ _ hin, if_pos (by omega),
    Nat.add_sub_cancel_left]

/-! ## A chunk over a table -/

/-- From some slot on, every slot of a table has a block of its own. -/
structure OwnsFrom (table : List BlockRef) (first : Nat) : Prop where
  live : ∀ i, first ≤ i → i < table.length → ∃ block, table[i]? = some (some block)
  distinct : ∀ i j block, first ≤ i → table[i]? = some (some block) →
    table[j]? = some (some block) → j = i

theorem div_lt_blocks {bs x y : Nat} (hbs : 0 < bs) (h : x < y) : x / bs < (y + bs - 1) / bs := by
  have hle : (x + bs) / bs ≤ (y + bs - 1) / bs := Nat.div_le_div_right (by omega)
  rw [Nat.add_div_right x hbs] at hle
  exact hle

theorem OwnsFrom.slot_inj {first q : Nat} (h : OwnsFrom table first) (hp : first ≤ p / blockSize)
    (hslot : slot blockSize table p = some (block, offset))
    (hslot' : slot blockSize table q = some (block, offset)) : q = p := by
  obtain ⟨hentry, hoffset⟩ := slot_eq_some.mp hslot
  obtain ⟨hentry', hoffset'⟩ := slot_eq_some.mp hslot'
  have hindex := h.distinct _ _ block hp hentry hentry'
  rw [← Nat.div_add_mod p blockSize, ← Nat.div_add_mod q blockSize, hindex, hoffset, hoffset']

theorem getD_none_eq_some : table.getD i none = some block ↔ table[i]? = some (some block) := by
  rw [getD_eq_getElem?_getD]
  cases table[i]? with
  | none => simp
  | some entry => simp

section Linear

variable {salt : Hash} {past : List Token} {junk : Nat → Written} {kv : Contents}

theorem location_linear (hlinear : chunk.mcOn = false) (hrow : row < chunk.chunkPad) :
    chunk.location blockSize table row = slot blockSize table (chunk.p0 + row) := by
  rw [location, position_linear hlinear hrow, rowTable, if_neg (by simp [hlinear])]

/-- The KV of a linear chunk: the forwarded rows at their positions, and the rest as it was. -/
theorem forwardRows_linear (hlinear : chunk.mcOn = false)
    (hown : OwnsFrom table (chunk.p0 / blockSize)) (hn : n ≤ chunk.chunkPad) (hp : p < chunk.p0 + n)
    (hslot : slot blockSize table p = some (block, offset)) :
    chunk.forwardRows blockSize table salt past junk n kv block offset =
      if p < chunk.p0 then kv block offset
      else some (chunk.written salt past junk (p - chunk.p0)) := by
  have hrow : ∀ row < n, chunk.location blockSize table row = some (block, offset) →
      p = chunk.p0 + row := by
    intro row hlt hhere
    rw [location_linear hlinear (by omega)] at hhere
    exact hown.slot_inj (Nat.div_le_div_right (Nat.le_add_right _ _)) hhere hslot
  split
  · exact forwardRows_miss fun row hlt hhere => by
      have := hrow row hlt hhere
      omega
  · refine forwardRows_hit (by omega) ?_ fun row hlt hhere => ?_
    · rw [location_linear hlinear (by omega), Nat.add_sub_cancel' (by omega)]
      exact hslot
    · have := hrow row hlt hhere
      omega

end Linear

section Grouped

variable {salt : Hash} {past : List Token} {junk : Nat → Written} {kv : Contents}

/-- The index of a private block in the table. -/
def privIndex (chunk : Chunk) (blockSize c t : Nat) : Nat :=
  chunk.blocksNeeded blockSize + c * chunk.nPriv blockSize + t

theorem privIndex_inj {c' t' : Nat} (ht : t < chunk.nPriv blockSize)
    (ht' : t' < chunk.nPriv blockSize)
    (h : chunk.privIndex blockSize c t = chunk.privIndex blockSize c' t') : c = c' ∧ t = t' := by
  have hsum : c * chunk.nPriv blockSize + t = c' * chunk.nPriv blockSize + t' := by
    unfold privIndex at h
    omega
  have hpos : 0 < chunk.nPriv blockSize := by omega
  have hc : c = c' := by
    have hdiv := congrArg (· / chunk.nPriv blockSize) hsum
    simp only [Nat.mul_comm _ (chunk.nPriv blockSize), Nat.mul_add_div hpos,
      Nat.div_eq_of_lt ht, Nat.div_eq_of_lt ht', Nat.add_zero] at hdiv
    exact hdiv
  subst hc
  exact ⟨rfl, by omega⟩

/-- What a multi-candidate chunk needs of its table: room for all private blocks, and blocks of its
own from the last committed one on. -/
structure Room (chunk : Chunk) (blockSize : Nat) (table : List BlockRef) : Prop where
  blockSize_pos : 0 < blockSize
  mcOn : chunk.mcOn = true
  chunkLen : chunk.chunkLen = chunk.candidates.length * chunk.rowsPerCand
  rows : chunk.rowsPerCand = 1 + chunk.k
  pad : chunk.chunkLen ≤ chunk.chunkPad
  pad_pos : 0 < chunk.chunkPad
  target : chunk.blocksTarget blockSize ≤ table.length
  own : OwnsFrom table (chunk.p0 / blockSize)

namespace Room

variable (h : chunk.Room blockSize table)
variable {j : Nat}

include h

theorem first_lt : chunk.p0 / blockSize < chunk.blocksNeeded blockSize :=
  div_lt_blocks h.blockSize_pos (by have := h.pad_pos; omega)

/-- The rows of a group are rows of the chunk. -/
theorem group_le (hc : c < chunk.candidates.length) :
    c * chunk.rowsPerCand + chunk.rowsPerCand ≤ chunk.chunkLen := by
  rw [h.chunkLen, ← Nat.succ_mul]
  exact Nat.mul_le_mul_right _ hc

theorem privIndex_lt (hc : c < chunk.candidates.length) (ht : t < chunk.nPriv blockSize) :
    chunk.privIndex blockSize c t < table.length := by
  have htarget := h.target
  rw [blocksTarget, if_pos h.mcOn] at htarget
  have hgroup : c * chunk.nPriv blockSize + chunk.nPriv blockSize ≤
      chunk.candidates.length * chunk.nPriv blockSize := by
    rw [← Nat.succ_mul]
    exact Nat.mul_le_mul_right _ hc
  unfold privIndex
  omega

/-- Every private block is there, and `privBlock` finds it. -/
theorem privBlock_eq (hc : c < chunk.candidates.length) (ht : t < chunk.nPriv blockSize) :
    ∃ block, table[chunk.privIndex blockSize c t]? = some (some block) ∧
      chunk.privBlock blockSize table c t = some block := by
  have hfirst := h.first_lt
  obtain ⟨block, hblock⟩ := h.own.live (chunk.privIndex blockSize c t)
    (by unfold privIndex; omega) (h.privIndex_lt hc ht)
  exact ⟨block, hblock, getD_none_eq_some.mpr hblock⟩

theorem privStep_lt (hj : j < chunk.rowsPerCand) :
    (chunk.p0 + j) / blockSize - chunk.p0 / blockSize < chunk.nPriv blockSize := by
  have hmono : (chunk.p0 + j) / blockSize ≤ (chunk.p0 + chunk.k) / blockSize :=
    Nat.div_le_div_right (by have := h.rows; omega)
  unfold nPriv
  omega

/-- A row of a group writes to the private block that stands for its position. -/
theorem location_group (hc : c < chunk.candidates.length) (hj : j < chunk.rowsPerCand) :
    ∃ block, table[chunk.privIndex blockSize c
        ((chunk.p0 + j) / blockSize - chunk.p0 / blockSize)]? = some (some block) ∧
      chunk.location blockSize table (c * chunk.rowsPerCand + j) =
        some (block, (chunk.p0 + j) % blockSize) := by
  have hgroup := h.group_le hc
  have hrow : c * chunk.rowsPerCand + j < chunk.chunkLen := by omega
  have hmono : chunk.p0 / blockSize ≤ (chunk.p0 + j) / blockSize :=
    Nat.div_le_div_right (Nat.le_add_right _ _)
  have hbefore : (chunk.p0 + j) / blockSize < chunk.blocksNeeded blockSize := by
    refine div_lt_blocks h.blockSize_pos ?_
    have := h.pad
    omega
  have htarget := h.target
  rw [blocksTarget, if_pos h.mcOn] at htarget
  have hdiv : (c * chunk.rowsPerCand + j) / chunk.rowsPerCand = c := by
    rw [Nat.mul_comm, Nat.mul_add_div (by omega), Nat.div_eq_of_lt hj, Nat.add_zero]
  obtain ⟨block, hblock, hpriv⟩ := h.privBlock_eq hc (h.privStep_lt hj)
  refine ⟨block, hblock, ?_⟩
  rw [location, position_candidate h.mcOn (getElem?_eq_getElem hc) hj
    (hrow.trans_le h.pad), slot_eq_some]
  refine ⟨?_, rfl⟩
  rw [← Nat.add_sub_cancel' hmono, rowTable_candidate h.mcOn hrow (h.privStep_lt hj) (by omega),
    hdiv, hpriv]

/-- A padding row writes to the canonical place of the last token. -/
theorem location_pad (hbehind : chunk.chunkLen ≤ row) (hrow : row < chunk.chunkPad) :
    chunk.location blockSize table row = slot blockSize table chunk.p0 := by
  rw [location, position_pad h.mcOn (by rw [← h.chunkLen]; exact hbehind) hrow, rowTable,
    if_neg fun hin => by omega]

/-- Every row is one of a group, or padding. -/
theorem row_cases (row : Nat) :
    (∃ c j, c < chunk.candidates.length ∧ j < chunk.rowsPerCand ∧
      row = c * chunk.rowsPerCand + j) ∨ chunk.chunkLen ≤ row := by
  have hpos : 0 < chunk.rowsPerCand := by have := h.rows; omega
  rcases lt_or_ge row chunk.chunkLen with hlt | hge
  · refine .inl ⟨row / chunk.rowsPerCand, row % chunk.rowsPerCand, ?_, Nat.mod_lt _ hpos, ?_⟩
    · rw [Nat.div_lt_iff_lt_mul hpos, ← h.chunkLen]
      exact hlt
    · rw [Nat.mul_comm, Nat.div_add_mod]
  · exact .inr hge

/-- Rows write to blocks from the last committed one on: the canonical one if they are padding,
private ones otherwise. -/
theorem location_index (hrow : row < chunk.chunkPad)
    (hhere : chunk.location blockSize table row = some (block, offset)) :
    (table[chunk.p0 / blockSize]? = some (some block) ∧ chunk.chunkLen ≤ row) ∨
    ∃ c j, c < chunk.candidates.length ∧ j < chunk.rowsPerCand ∧
      row = c * chunk.rowsPerCand + j ∧ (chunk.p0 + j) % blockSize = offset ∧
      table[chunk.privIndex blockSize c
        ((chunk.p0 + j) / blockSize - chunk.p0 / blockSize)]? = some (some block) := by
  rcases h.row_cases row with ⟨c, j, hc, hj, rfl⟩ | hbehind
  · obtain ⟨found, hfound, hlocation⟩ := h.location_group hc hj
    rw [hlocation] at hhere
    obtain ⟨rfl, rfl⟩ := Prod.mk.inj (Option.some.inj hhere)
    exact .inr ⟨c, j, hc, hj, rfl, rfl, hfound⟩
  · rw [h.location_pad hbehind hrow] at hhere
    exact .inl ⟨(slot_eq_some.mp hhere).1, hbehind⟩

/-- A row that writes to a private block is the row of its group whose position is there. -/
theorem location_priv (ht : t < chunk.nPriv blockSize)
    (hblock : table[chunk.privIndex blockSize c t]? = some (some block))
    (hrow : row < chunk.chunkPad)
    (hhere : chunk.location blockSize table row = some (block, offset)) :
    ∃ j, row = c * chunk.rowsPerCand + j ∧
      chunk.p0 + j = blockSize * (chunk.p0 / blockSize + t) + offset := by
  have hfirst := h.first_lt
  rcases h.location_index hrow hhere with ⟨hcanonical, -⟩ | ⟨c', j, -, hj, rfl, hoffset, hother⟩
  · have := h.own.distinct _ _ block (le_rfl) hcanonical hblock
    unfold privIndex at this
    omega
  · have hindex := h.own.distinct _ _ block (by unfold privIndex; omega) hblock hother
    obtain ⟨rfl, rfl⟩ := privIndex_inj (h.privStep_lt hj) ht hindex
    refine ⟨j, rfl, ?_⟩
    rw [Nat.add_sub_cancel' (Nat.div_le_div_right (Nat.le_add_right _ _)), ← hoffset,
      Nat.div_add_mod]

/-- Where a private block of a group is, no other row of the chunk writes to a row's place. -/
theorem forward_group (hc : c < chunk.candidates.length) (hj : j < chunk.rowsPerCand)
    (hblock : table[chunk.privIndex blockSize c
      ((chunk.p0 + j) / blockSize - chunk.p0 / blockSize)]? = some (some block)) :
    chunk.forwardRows blockSize table salt past junk chunk.chunkPad kv block
        ((chunk.p0 + j) % blockSize) =
      some (chunk.written salt past junk (c * chunk.rowsPerCand + j)) := by
  have hgroup := h.group_le hc
  obtain ⟨found, hfound, hlocation⟩ := h.location_group hc hj
  obtain rfl : found = block := by
    rw [hfound] at hblock
    exact Option.some.inj (Option.some.inj hblock)
  refine forwardRows_hit (by have := h.pad; omega) hlocation fun row hrow hhere => ?_
  obtain ⟨j', rfl, hposition⟩ := h.location_priv (h.privStep_lt hj) hblock hrow hhere
  rw [Nat.add_sub_cancel' (Nat.div_le_div_right (Nat.le_add_right _ _)), Nat.div_add_mod]
    at hposition
  omega

/-- Before the last token's offset, a group's first private block keeps what it was seeded with. -/
theorem forward_seeded (hblock : table[chunk.privIndex blockSize c 0]? = some (some block))
    (hoffset : offset < chunk.p0 % blockSize) :
    chunk.forwardRows blockSize table salt past junk chunk.chunkPad kv block offset =
      kv block offset := by
  refine forwardRows_miss fun row hrow hhere => ?_
  obtain ⟨j, -, hposition⟩ := h.location_priv (by unfold nPriv; omega) hblock hrow hhere
  have := Nat.div_add_mod chunk.p0 blockSize
  rw [Nat.add_zero] at hposition
  omega

/-- A committed position is written by no row. -/
theorem forward_committed (hp : p < chunk.p0)
    (hslot : slot blockSize table p = some (block, offset)) :
    chunk.forwardRows blockSize table salt past junk chunk.chunkPad kv block offset =
      kv block offset := by
  have hfirst := h.first_lt
  have hmono : p / blockSize ≤ chunk.p0 / blockSize := Nat.div_le_div_right (le_of_lt hp)
  refine forwardRows_miss fun row hrow hhere => ?_
  rcases h.location_index hrow hhere with ⟨-, hbehind⟩ | ⟨c', j', -, -, -, -, hother⟩
  · rw [h.location_pad hbehind hrow] at hhere
    have := h.own.slot_inj (le_rfl) hhere hslot
    omega
  · have := h.own.distinct _ _ block (by unfold privIndex; omega) hother (slot_eq_some.mp hslot).1
    unfold privIndex at this
    omega

/-- Seeding copies the last committed block to the private ones. -/
theorem seed_group (hc : c < chunk.candidates.length) (hmax : c < kCopyMaxPairs)
    (hsrc : table[chunk.p0 / blockSize]? = some (some src))
    (hblock : table[chunk.privIndex blockSize c 0]? = some (some block))
    (hoffset : offset < chunk.p0 % blockSize) :
    chunk.seed blockSize table kv block offset = kv src offset := by
  have hfirst := h.first_lt
  have hstep : 0 < chunk.nPriv blockSize := by unfold nPriv; omega
  rw [seed, if_pos ⟨h.mcOn, by omega⟩]
  refine copyBlocks_hit hc hmax (getD_none_eq_some.mpr hblock) (getD_none_eq_some.mpr hsrc)
    (fun i _ hdst => ?_) fun i _ hdst => ?_
  · have hfound : table[chunk.privIndex blockSize i 0]? = some (some block) :=
      getD_none_eq_some.mp hdst
    have hindex := h.own.distinct _ _ block (by unfold privIndex; omega) hblock hfound
    exact (privIndex_inj hstep hstep hindex).1
  · have hfound : table[chunk.privIndex blockSize i 0]? = some (some src) :=
      getD_none_eq_some.mp hdst
    have hindex := h.own.distinct _ _ src (le_rfl) hsrc hfound
    unfold privIndex at hindex
    omega

theorem seed_canonical (hi : i ≤ chunk.p0 / blockSize) (hblock : table[i]? = some (some block)) :
    chunk.seed blockSize table kv block offset = kv block offset := by
  have hfirst := h.first_lt
  unfold seed
  split
  · refine copyBlocks_miss fun c _ hdst => ?_
    have hfound : table[chunk.privIndex blockSize c 0]? = some (some block) :=
      getD_none_eq_some.mp hdst
    have hindex := h.own.distinct _ _ block (by unfold privIndex; omega) hfound hblock
    unfold privIndex at hindex
    omega
  · rfl

/-- The KV once the winner is materialised: the committed positions as they were, and the winner's
accepted rows behind them. -/
theorem materialized {best matched : Nat} (hbest : best < chunk.candidates.length)
    (hwidth : chunk.candidates.length ≤ kCopyMaxPairs) (hmatched : matched < chunk.rowsPerCand)
    (hdepth : chunk.rowsPerCand ≤ kCopyMaxPairs) (hp : p ≤ chunk.p0 + matched)
    (hslot : slot blockSize table p = some (block, offset)) :
    chunk.materialize blockSize table best matched
        (chunk.forwardRows blockSize table salt past junk chunk.chunkPad
          (chunk.seed blockSize table kv)) block offset =
      if p < chunk.p0 then kv block offset
      else some (chunk.written salt past junk (best * chunk.rowsPerCand + (p - chunk.p0))) := by
  obtain ⟨hentry, hoffset⟩ := slot_eq_some.mp hslot
  -- the canonical blocks the winner's are copied over
  have hcanonical : ∀ t, t < (chunk.p0 + matched) / blockSize - chunk.p0 / blockSize + 1 →
      t < chunk.nPriv blockSize ∧ chunk.p0 / blockSize + t < chunk.blocksNeeded blockSize ∧
        t < kCopyMaxPairs := by
    intro t ht
    have hstep := h.privStep_lt hmatched
    have hmono : chunk.p0 / blockSize ≤ (chunk.p0 + matched) / blockSize :=
      Nat.div_le_div_right (Nat.le_add_right _ _)
    have hspan : (chunk.p0 + matched) / blockSize ≤ chunk.p0 / blockSize + matched := by
      rw [← Nat.add_mul_div_left _ _ h.blockSize_pos]
      exact Nat.div_le_div_right (Nat.add_le_add_left (Nat.le_mul_of_pos_left _ h.blockSize_pos) _)
    have hend : (chunk.p0 + matched) / blockSize < chunk.blocksNeeded blockSize := by
      refine div_lt_blocks h.blockSize_pos ?_
      have hgroup := h.group_le hbest
      have := h.pad
      omega
    omega
  have htarget := h.target
  rw [materialize]
  by_cases hbefore : p / blockSize < chunk.p0 / blockSize
  · have hlt : p < chunk.p0 := by
      by_contra hge
      have := Nat.div_le_div_right (c := blockSize) (Nat.le_of_not_lt hge)
      omega
    rw [if_pos hlt, copyBlocks_miss, h.forward_committed hlt hslot,
      h.seed_canonical (le_of_lt hbefore) hentry]
    intro t ht hdst
    have hfound := getD_none_eq_some.mp hdst
    have := h.own.distinct _ _ block (Nat.le_add_right _ _) hfound hentry
    omega
  · obtain ⟨t, htindex⟩ : ∃ t, p / blockSize = chunk.p0 / blockSize + t :=
      ⟨p / blockSize - chunk.p0 / blockSize, by omega⟩
    have ht : t < (chunk.p0 + matched) / blockSize - chunk.p0 / blockSize + 1 := by
      have := Nat.div_le_div_right (c := blockSize) hp
      omega
    obtain ⟨htpriv, hneeded, hmax⟩ := hcanonical t ht
    obtain ⟨src, hsrc, hpriv⟩ := h.privBlock_eq hbest htpriv
    rw [htindex] at hentry
    rw [copyBlocks_hit ht hmax (getD_none_eq_some.mpr hentry) hpriv]
    · by_cases hlt : p < chunk.p0
      · have hsame : t = 0 := by
          have := Nat.div_le_div_right (c := blockSize) (le_of_lt hlt)
          omega
        subst hsame
        have hoff : offset < chunk.p0 % blockSize := by
          have hposition := Nat.div_add_mod p blockSize
          have hposition' := Nat.div_add_mod chunk.p0 blockSize
          rw [htindex, Nat.add_zero] at hposition
          omega
        rw [if_pos hlt, h.forward_seeded hsrc hoff, h.seed_group hbest (by omega) hentry hsrc hoff]
      · have hposition : chunk.p0 + (p - chunk.p0) = p := by omega
        have hplace : offset = (chunk.p0 + (p - chunk.p0)) % blockSize := by
          rw [hposition, hoffset]
        rw [if_neg hlt, hplace]
        refine h.forward_group hbest (by omega) ?_
        rw [hposition, htindex, Nat.add_sub_cancel_left]
        exact hsrc
    · intro i hi hdst
      have hfound := getD_none_eq_some.mp hdst
      have := h.own.distinct _ _ block (Nat.le_add_right _ _) hentry hfound
      omega
    · intro i hi hdst
      obtain ⟨-, hneeded', -⟩ := hcanonical i hi
      have hfound := getD_none_eq_some.mp hdst
      have := h.own.distinct _ _ src (Nat.le_add_right _ _) hfound hsrc
      unfold privIndex at this
      omega

end Room

end Grouped

end Chunk

end Quench

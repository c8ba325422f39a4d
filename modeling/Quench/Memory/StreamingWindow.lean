import Quench.Memory.LiveSequences

/-!
# Streaming eviction and the decode kernel

`evict_middle_blocks` counts the window back from the end of the block table; the decode kernels
count it back from the context length (`compute_context_range` of `attention_paged_common.cuh`). The
table can be longer than the context, since the graph loop appends blocks ahead.
`kernel_blocks_kept` says when every slot the kernel visits keeps its block, and
`spare_blocks_evict_window` has a table where one does not.
-/

namespace Quench

open List

variable {seq : Int} {s : KVCacheManager} {tableLength window : Nat}

/-! ## The slots a kernel visits -/

/-- `ContextRange`. -/
structure ContextRange where
  effectiveStart : Nat := 0
  firstBlock : Nat := 0
  numCtxBlocks : Nat := 0
  sinkEnd : Nat := 0
  sinkEndBlock : Nat := 0
  windowStart : Nat := 0
  windowStartBlock : Nat := 0

/-- `compute_context_range`. -/
def computeContextRange (ctxLen blockSize slidingWindow nSinks : Nat) : ContextRange :=
  let numCtxBlocks := (ctxLen + blockSize - 1) / blockSize
  if 0 < slidingWindow ∧ slidingWindow < ctxLen then
    let windowStart := ctxLen - slidingWindow
    if 0 < nSinks ∧ nSinks < windowStart then
      { numCtxBlocks
        sinkEnd := nSinks
        sinkEndBlock := (nSinks + blockSize - 1) / blockSize
        windowStart
        windowStartBlock := windowStart / blockSize }
    else { numCtxBlocks, effectiveStart := windowStart, firstBlock := windowStart / blockSize }
  else { numCtxBlocks }

variable {i ctxLen blockSize nSinks : Nat}

namespace ContextRange

variable (r : ContextRange)

/-- `streaming_active`. -/
def streamingActive : Bool := 0 < r.sinkEnd

/-- `next_valid_block`. -/
def nextValidBlock (curBlk : Nat) : Nat :=
  let next := curBlk + 1
  if r.streamingActive ∧ r.sinkEndBlock ≤ next ∧ next < r.windowStartBlock then r.windowStartBlock
  else next

/-- The block loop of a decode kernel. Every round moves on, so that the number of context blocks
bounds the rounds. -/
def visitFrom (r : ContextRange) : Nat → Nat → List Nat
  | 0, _ => []
  | rounds + 1, blk =>
    if blk < r.numCtxBlocks then blk :: visitFrom r rounds (r.nextValidBlock blk) else []

/-- The blocks of the table that a decode kernel reads. -/
def visitedBlocks : List Nat := r.visitFrom r.numCtxBlocks r.firstBlock

/-- Under streaming, a block of the sinks or of the window. -/
def Attended (blk : Nat) : Prop :=
  r.streamingActive = true → blk < r.sinkEndBlock ∨ r.windowStartBlock ≤ blk

theorem attended_nextValidBlock (blk : Nat) :
    blk < r.nextValidBlock blk ∧ r.Attended (r.nextValidBlock blk) := by
  unfold nextValidBlock
  dsimp only
  split
  next hgap => exact ⟨by omega, fun _ => .inr (le_rfl)⟩
  next hgap =>
    refine ⟨Nat.lt_succ_self blk, fun hactive => ?_⟩
    by_contra hnot
    exact hgap ⟨hactive, by omega, by omega⟩

/-- The loop goes forward, stays in the context, and under streaming reads attended blocks only. -/
theorem mem_visitFrom {r : ContextRange} {rounds blk : Nat} (hblk : r.Attended blk)
    (hmem : i ∈ r.visitFrom rounds blk) : i < r.numCtxBlocks ∧ blk ≤ i ∧ r.Attended i := by
  induction rounds generalizing blk with
  | zero => cases hmem
  | succ rounds ih =>
    unfold visitFrom at hmem
    split at hmem
    next hlt =>
      rcases mem_cons.mp hmem with rfl | hmem
      · exact ⟨hlt, le_rfl, hblk⟩
      · obtain ⟨hforward, hnext⟩ := r.attended_nextValidBlock blk
        obtain ⟨hin, hle, hattended⟩ := ih hnext hmem
        exact ⟨hin, by omega, hattended⟩
    next => cases hmem

end ContextRange

/-- A kernel with a window reads blocks of the context only, in the sinks or in the window. -/
theorem mem_visitedBlocks {slidingWindow : Nat} (hwindow : 0 < slidingWindow)
    (hmem : i ∈ (computeContextRange ctxLen blockSize slidingWindow nSinks).visitedBlocks) :
    i < (nSinks + blockSize - 1) / blockSize ∨
      (ctxLen - slidingWindow) / blockSize ≤ i ∧ i < (ctxLen + blockSize - 1) / blockSize := by
  unfold computeContextRange at hmem
  dsimp only at hmem
  split at hmem
  next hactive =>
    split at hmem
    next hsinks =>
      have hfirst : 0 < (nSinks + blockSize - 1) / blockSize ∨
          (ctxLen - slidingWindow) / blockSize ≤ 0 := by
        rcases Nat.eq_zero_or_pos blockSize with rfl | hsize
        · exact .inr (by simp)
        · exact .inl (Nat.div_pos (by omega) hsize)
      obtain ⟨hlt, -, hattended⟩ := ContextRange.mem_visitFrom (fun _ => hfirst) hmem
      exact (hattended (by simp [ContextRange.streamingActive, hsinks.1])).imp_right
        fun hle => ⟨hle, hlt⟩
    next =>
      obtain ⟨hlt, hle, -⟩ := ContextRange.mem_visitFrom (fun hno => by cases hno) hmem
      exact .inr ⟨hle, hlt⟩
  next hwhole =>
    obtain ⟨hlt, -, -⟩ := ContextRange.mem_visitFrom (fun hno => by cases hno) hmem
    refine .inr ⟨?_, hlt⟩
    rw [Nat.sub_eq_zero_of_le (by omega), Nat.zero_div]
    exact Nat.zero_le i

/-! ## The slots eviction empties -/

namespace KVCacheManager

/-- Whether `evict_middle_blocks` empties this slot: it is past the sinks and before the window. -/
def InMiddle (s : KVCacheManager) (seq nSinkTokens nWindowTokens : Int) (i : Nat) : Prop :=
  0 < nSinkTokens ∧ 0 < nWindowTokens ∧
    (nSinkTokens.toNat + s.blockSize - 1) / s.blockSize ≤ i ∧
    i < (s.blockTable seq).length - (nWindowTokens.toNat + s.blockSize - 1) / s.blockSize - 1

instance (s : KVCacheManager) (seq nSinkTokens nWindowTokens : Int) (i : Nat) :
    Decidable (s.InMiddle seq nSinkTokens nWindowTokens i) := inferInstanceAs (Decidable (_ ∧ _))

theorem getElem_evictSlots (seq : Int) (count slot i : Nat) (s : KVCacheManager) :
    ((evictSlots seq count slot s).blockTable seq)[i]? =
      if slot ≤ i ∧ i < slot + count then (s.blockTable seq)[i]?.map fun _ => none
      else (s.blockTable seq)[i]? := by
  induction count generalizing slot s with
  | zero => rw [if_neg (by omega)]; rfl
  | succ count ih =>
    rw [evictSlots, ih, blockTable_evictSlot]
    by_cases hi : slot = i
    · subst hi
      rw [if_neg (by omega), if_pos (by omega), getElem?_set_self']
      rfl
    · rw [getElem?_set_ne hi]
      by_cases hin : slot + 1 ≤ i ∧ i < slot + 1 + count
      · rw [if_pos hin, if_pos (by omega)]
      · rw [if_neg hin, if_neg (by omega)]

/-- Evicting holes does nothing. -/
theorem evictSlots_holes {count slot : Nat} (hholes : ∀ i block, slot ≤ i → i < slot + count →
      (s.blockTable seq)[i]? ≠ some (some block)) : evictSlots seq count slot s = s := by
  induction count generalizing slot with
  | zero => rfl
  | succ count ih =>
    have hslot : s.evictSlot seq slot = s := by
      unfold evictSlot
      split
      next block hsome => exact absurd hsome (hholes slot block (le_rfl) (by omega))
      next => rfl
    rw [evictSlots, hslot]
    exact ih fun i block hle hlt => hholes i block (by omega) (by omega)

section

variable (s : KVCacheManager) (seq nSinkTokens nWindowTokens : Int)

/-- Pinning, emptying and clearing hashes, once the guards of `evict_middle_blocks` are passed. -/
theorem evictMiddleBlocks_cases :
    (s.evictMiddleBlocks seq nSinkTokens nWindowTokens = (0, s) ∧
      ∀ i, ¬ s.InMiddle seq nSinkTokens nWindowTokens i) ∨
    ∃ pinned : KVCacheManager, SameBlocks s pinned ∧
      let sinkEnd := (nSinkTokens.toNat + s.blockSize - 1) / s.blockSize
      let windowStart := (s.blockTable seq).length -
        (nWindowTokens.toNat + s.blockSize - 1) / s.blockSize - 1
      0 < nSinkTokens ∧ 0 < nWindowTokens ∧
      s.evictMiddleBlocks seq nSinkTokens nWindowTokens =
        ((((((s.blockTable seq).take windowStart).drop sinkEnd).filter Option.isSome).length : Int),
          (evictSlots seq (windowStart - sinkEnd) sinkEnd pinned).clearHashesFrom seq sinkEnd
            (s.blockTable seq).length) := by
  rw [s.evictMiddleBlocks_eq seq nSinkTokens nWindowTokens rfl rfl]
  split
  next hmiddle =>
    refine .inr ⟨_, ?_, hmiddle.1, hmiddle.2.1, rfl⟩
    split
    · exact SameBlocks.pinPrefix s seq _
    · exact SameBlocks.rfl' s
  next hnone =>
    refine .inl ⟨rfl, ?_⟩
    rintro i ⟨hsinks, hwindow, hfirst, hlast⟩
    exact hnone ⟨hsinks, hwindow, hfirst.trans_lt hlast⟩

/-- What `evict_middle_blocks` does to the table of the sequence. -/
theorem getElem_evictMiddleBlocks (i : Nat) :
    ((s.evictMiddleBlocks seq nSinkTokens nWindowTokens).2.blockTable seq)[i]? =
      if s.InMiddle seq nSinkTokens nWindowTokens i then (s.blockTable seq)[i]?.map fun _ => none
      else (s.blockTable seq)[i]? := by
  obtain ⟨heq, hnone⟩ | ⟨pinned, hsame, hsinks, hwindow, heq⟩ :=
    s.evictMiddleBlocks_cases seq nSinkTokens nWindowTokens
  · rw [heq, if_neg (hnone i)]
  · rw [heq, (SameOwners.of_records (.clearHashesFrom _ seq _ _)).blockTable, getElem_evictSlots,
      hsame.toSameOwners.blockTable]
    have hrange : ∀ {first last : Nat},
        first ≤ i ∧ i < first + (last - first) ↔ first ≤ i ∧ i < last := by omega
    by_cases hmiddle : s.InMiddle seq nSinkTokens nWindowTokens i
    · rw [if_pos hmiddle, if_pos (hrange.mpr hmiddle.2.2)]
    · rw [if_neg hmiddle, if_neg fun hin => hmiddle ⟨hsinks, hwindow, hrange.mp hin⟩]

theorem length_evictMiddleBlocks :
    ((s.evictMiddleBlocks seq nSinkTokens nWindowTokens).2.blockTable seq).length
      = (s.blockTable seq).length := by
  obtain ⟨heq, -⟩ | ⟨pinned, hsame, -, -, heq⟩ :=
    s.evictMiddleBlocks_cases seq nSinkTokens nWindowTokens
  · rw [heq]
  · rw [heq, (SameOwners.of_records (.clearHashesFrom _ seq _ _)).blockTable,
      (Indexed.tables_evictSlots seq _ _ pinned).1, hsame.toSameOwners.blockTable]

theorem blockSize_evictMiddleBlocks :
    (s.evictMiddleBlocks seq nSinkTokens nWindowTokens).2.blockSize = s.blockSize :=
  evictMiddleBlocks_rule (P := (·.blockSize = s.blockSize)) rfl
    (fun _ => (PinsOnly.pinPrefix s seq _).keeps (·.blockSize) fun _ _ => rfl)
    (fun t slot => ((Slots.evictSlot seq slot t).rest.keeps (·.blockSize) fun _ _ => rfl).trans)
    fun t _ _ => ((RecordsOnly.clearHashesFrom t seq _ _).keeps (·.blockSize) fun _ _ => rfl).trans

end

/-- With holes between sinks and window, `evict_middle_blocks` frees nothing. -/
theorem evictMiddleBlocks_holes {nSinkTokens nWindowTokens : Int}
    (hholes : ∀ i block, s.InMiddle seq nSinkTokens nWindowTokens i →
      (s.blockTable seq)[i]? ≠ some (some block)) :
    let again := s.evictMiddleBlocks seq nSinkTokens nWindowTokens
    again.1 = 0 ∧ again.2.blockTable seq = s.blockTable seq ∧ again.2.pool = s.pool := by
  intro again
  obtain ⟨heq, -⟩ | ⟨pinned, hsame, hsinks, hwindow, heq⟩ :=
    s.evictMiddleBlocks_cases seq nSinkTokens nWindowTokens
  · exact ⟨congrArg Prod.fst heq, by rw [show again = _ from heq], by rw [show again = _ from heq]⟩
  · unfold InMiddle at hholes
    rw [show again = _ from heq]
    clear_value again
    generalize (nSinkTokens.toNat + s.blockSize - 1) / s.blockSize = sinkEnd at hholes ⊢
    generalize (nWindowTokens.toNat + s.blockSize - 1) / s.blockSize = windowCount at hholes ⊢
    have hslots : evictSlots seq ((s.blockTable seq).length - windowCount - 1 - sinkEnd) sinkEnd
        pinned = pinned := by
      refine evictSlots_holes fun i block hle hlt => ?_
      rw [hsame.toSameOwners.blockTable]
      exact hholes i block ⟨hsinks, hwindow, hle, by omega⟩
    have hcleared := SameOwners.of_records
      (.clearHashesFrom pinned seq sinkEnd (s.blockTable seq).length)
    rw [hslots, hcleared.blockTable, hcleared.pool, hsame.toSameOwners.blockTable, hsame.pool]
    refine ⟨?_, rfl, rfl⟩
    rw [Int.natCast_eq_zero, length_eq_zero_iff, filter_eq_nil_iff]
    intro ref href hsome
    obtain ⟨block, rfl⟩ := Option.isSome_iff_exists.mp hsome
    obtain ⟨i, hi⟩ := getElem?_of_mem href
    rw [getElem?_drop, getElem?_take] at hi
    split at hi
    next hlt => exact hholes (sinkEnd + i) block ⟨hsinks, hwindow, by omega, hlt⟩ hi
    next => cases hi

/-! ## Agreement -/

/-- The host keeps what a kernel visits: nothing is freed, or no block past the sinks is in the
context, or the window of the table starts no later than the window of the context. -/
def WindowsAgree (tableLength blockSize nSinks window ctxLen : Nat) : Prop :=
  let sinkBlocks := (nSinks + blockSize - 1) / blockSize
  let windowBlocks := (window + blockSize - 1) / blockSize
  (blockSize = 0 ∨ nSinks = 0 ∨ window = 0 ∨ tableLength ≤ sinkBlocks + windowBlocks + 1) ∨
    ctxLen ≤ sinkBlocks * blockSize ∨
    (tableLength - windowBlocks - 1) * blockSize + window ≤ ctxLen

/-- They agree for a table that ends with the block of the context's last token. -/
theorem windowsAgree_of_exact (hsize : 0 < blockSize)
    (hexact : (tableLength - 1) * blockSize < ctxLen) :
    WindowsAgree tableLength blockSize nSinks window ctxLen := by
  unfold WindowsAgree
  have hwindow := le_ceil_mul window hsize
  generalize (window + blockSize - 1) / blockSize = windowBlocks at hwindow ⊢
  generalize (nSinks + blockSize - 1) / blockSize = sinkBlocks
  by_cases hshort : tableLength ≤ windowBlocks + 1
  · exact .inl (.inr (.inr (.inr (by omega))))
  · refine .inr (.inr ?_)
    have hsplit : (tableLength - 1) * blockSize
        = (tableLength - windowBlocks - 1) * blockSize + windowBlocks * blockSize := by
      rw [← Nat.add_mul]
      congr 1
      omega
    omega

/-- Where they do not agree, a slot between the sinks and the window of the table is in the window
of the context. -/
theorem exists_freed_of_not_agree (h : ¬ WindowsAgree tableLength blockSize nSinks window ctxLen) :
    0 < nSinks ∧ 0 < window ∧ ∃ i, (nSinks + blockSize - 1) / blockSize ≤ i ∧
      i < tableLength - (window + blockSize - 1) / blockSize - 1 ∧
      (ctxLen - window) / blockSize ≤ i ∧ i < (ctxLen + blockSize - 1) / blockSize := by
  simp only [WindowsAgree, not_or, not_le] at h
  obtain ⟨⟨hsize, hsinks, hwindow, hlong⟩, hpast, hlate⟩ := h
  have hpos := Nat.pos_of_ne_zero hsize
  refine ⟨Nat.pos_of_ne_zero hsinks, Nat.pos_of_ne_zero hwindow, ?_⟩
  generalize (nSinks + blockSize - 1) / blockSize = sinkBlocks at hlong hpast ⊢
  generalize (window + blockSize - 1) / blockSize = windowBlocks at hlong hlate ⊢
  -- the first slot behind the sinks and in the window of the context
  refine ⟨max sinkBlocks ((ctxLen - window) / blockSize), le_max_left _ _, max_lt (by omega) ?_,
    le_max_right _ _, max_lt ?_ ?_⟩
  · have hroom : 0 < (tableLength - windowBlocks - 1) * blockSize := Nat.mul_pos (by omega) hpos
    rw [Nat.div_lt_iff_lt_mul hpos]
    omega
  · rw [Nat.lt_iff_add_one_le, Nat.le_div_iff_mul_le hpos, Nat.succ_mul]
    omega
  · rw [Nat.lt_iff_add_one_le, Nat.le_div_iff_mul_le hpos, Nat.succ_mul]
    have hle := Nat.div_mul_le_self (ctxLen - window) blockSize
    omega

/-- While the windows of table and context agree, `evict_middle_blocks` keeps every slot that a
decode kernel visits, and in a table without holes only then. In every case it keeps the length of
the table, and a second call frees nothing. -/
theorem kernel_blocks_kept (s : KVCacheManager) (seq : Int) (nSinks window ctxLen : Nat) :
    let after := (s.evictMiddleBlocks seq nSinks window).2
    let again := after.evictMiddleBlocks seq nSinks window
    let kept := ∀ i, i ∈ (computeContextRange ctxLen s.blockSize window nSinks).visitedBlocks ∨
        i < (nSinks + s.blockSize - 1) / s.blockSize ∨
        (ctxLen - window) / s.blockSize ≤ i ∧ i < (ctxLen + s.blockSize - 1) / s.blockSize →
      (after.blockTable seq)[i]? = (s.blockTable seq)[i]?
    let agree := WindowsAgree (s.blockTable seq).length s.blockSize nSinks window ctxLen
    (agree → kept) ∧ ((∀ ref ∈ s.blockTable seq, ref.isSome = true) → (kept ↔ agree)) ∧
    (after.blockTable seq).length = (s.blockTable seq).length ∧
    again.1 = 0 ∧ again.2.blockTable seq = after.blockTable seq ∧ again.2.pool = after.pool := by
  intro after again kept agree
  have hlength := s.length_evictMiddleBlocks seq nSinks window
  have hsize := s.blockSize_evictMiddleBlocks seq nSinks window
  have hslot := s.getElem_evictMiddleBlocks seq nSinks window
  have hkept : agree → kept := by
    intro hagree i hvisit
    rw [hslot i, if_neg]
    rintro ⟨hsinkTokens, hwindow, hpast, hbefore⟩
    rw [Int.toNat_natCast] at hpast hbefore
    have hrange : (ctxLen - window) / s.blockSize ≤ i ∧
        i < (ctxLen + s.blockSize - 1) / s.blockSize := by
      have hsink : ¬ i < (nSinks + s.blockSize - 1) / s.blockSize := Nat.not_lt.mpr hpast
      rcases hvisit with hvisit | hvisit
      · exact (mem_visitedBlocks (Int.natCast_pos.mp hwindow) hvisit).resolve_left hsink
      · exact hvisit.resolve_left hsink
    have hpos : 0 < s.blockSize := Nat.pos_of_ne_zero fun hzero => by
      rw [hzero, Nat.div_zero] at hrange
      omega
    obtain hshort | hsinks | hwindows := hagree
    · omega
    · have hceil : (ctxLen + s.blockSize - 1) / s.blockSize
          < (nSinks + s.blockSize - 1) / s.blockSize + 1 := by
        rw [Nat.div_lt_iff_lt_mul hpos, Nat.add_mul]
        omega
      omega
    · have hstart := (Nat.le_div_iff_mul_le hpos).mpr (Nat.le_sub_of_add_le hwindows)
      omega
  refine ⟨hkept, fun hfull => ⟨fun hkeeps => ?_, hkept⟩, hlength,
    evictMiddleBlocks_holes fun i block hmiddle hsome => ?_⟩
  · by_contra hnot
    obtain ⟨hsinks, hwindow, i, hpast, hbefore, hrange⟩ := exists_freed_of_not_agree hnot
    have hi : i < (s.blockTable seq).length :=
      hbefore.trans_le ((Nat.sub_le _ _).trans (Nat.sub_le _ _))
    have hmiddle : s.InMiddle seq nSinks window i :=
      ⟨Int.natCast_pos.mpr hsinks, Int.natCast_pos.mpr hwindow, hpast, hbefore⟩
    have hsame := hkeeps i (.inr (.inr hrange))
    rw [hslot i, if_pos hmiddle, getElem?_eq_getElem hi] at hsame
    have hsome := hfull _ (getElem_mem hi)
    rw [← Option.some.inj hsame] at hsome
    cases hsome
  · have hbefore : s.InMiddle seq nSinks window i := by
      unfold InMiddle at hmiddle ⊢
      rwa [hsize, hlength] at hmiddle
    rw [hslot i, if_pos hbefore] at hsome
    cases hget : (s.blockTable seq)[i]? with
    | none =>
      rw [hget] at hsome
      cases hsome
    | some ref =>
      rw [hget] at hsome
      cases hsome

/-- Ten tokens in blocks of two, one sink and a window of three: the table ends with the context. -/
theorem kernel_blocks_kept_exact :
    let s := (fresh 2 8 0).run [.allocateBlocks 0 5]
    let after := (s.evictMiddleBlocks 0 (1 : Nat) (3 : Nat)).2
    (computeContextRange 10 2 3 1).visitedBlocks = [0, 3, 4] ∧
      after.blockTable 0 = [some 0, none, some 2, some 3, some 4] ∧
      ∀ i ∈ (computeContextRange 10 2 3 1).visitedBlocks,
        (after.blockTable 0)[i]? = (s.blockTable 0)[i]? := by
  intro s after
  have hexact : (s.blockTable 0).length = 5 ∧ s.blockSize = 2 := by decide +kernel
  have hagree : WindowsAgree (s.blockTable 0).length s.blockSize 1 3 10 := by
    exact windowsAgree_of_exact (by decide) (by decide)
  refine ⟨by decide, by decide +kernel, fun i hi => ?_⟩
  exact (kernel_blocks_kept s 0 1 3 10).1 hagree i (.inl (by rw [hexact.2]; exact hi))

/-- A table of ten blocks of one token for a context of three: the window of the table starts at
slot eight, that of the context at slot two, which the kernel visits and which is a hole now. -/
theorem spare_blocks_evict_window :
    let s := (fresh 1 10 0).run [.allocateBlocks 0 10]
    let after := (s.evictMiddleBlocks 0 1 1).2
    3 ≤ (s.blockTable 0).length * s.blockSize ∧
      2 ∈ (computeContextRange 3 s.blockSize 1 1).visitedBlocks ∧
      (s.blockTable 0)[2]? = some (some 2) ∧ (after.blockTable 0)[2]? = some none := by
  decide +kernel

end KVCacheManager

end Quench

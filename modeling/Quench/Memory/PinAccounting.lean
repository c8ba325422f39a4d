import Quench.Lib.Runs
import Quench.Memory.Reclaimable
import Quench.Memory.Released

/-!
# The accounting of pins

What the four structures that record pins say about each other after any run that loads no persisted
cache (`pin_accounting`). The order of the owners is stated against `pinLog`, the owners that a run
pins for, one entry a pin.
-/

namespace Quench.KVCacheManager

open Lib List

/-! ## Who pins -/

variable (s : KVCacheManager)

/-- The owner that a call pins blocks for. Apart from `pin_prefix`, `evict_middle_blocks` pins the
sinks when it frees blocks and the owner has fewer pins than sinks. -/
def pinOwner : Op → Option Int
  | .pinPrefix seq numBlocks => if s.pinsFor seq numBlocks = [] then none else some seq
  | .evictMiddleBlocks seq nSinkTokens nWindowTokens =>
    let sinkEnd := (nSinkTokens.toNat + s.blockSize - 1) / s.blockSize
    let windowCount := (nWindowTokens.toNat + s.blockSize - 1) / s.blockSize
    if 0 < nSinkTokens ∧ 0 < nWindowTokens ∧
        sinkEnd < (s.blockTable seq).length - windowCount - 1 ∧
        ((s.pinnedSeqBlocks.lookup seq).getD []).length < sinkEnd ∧
        s.pinsFor seq sinkEnd ≠ [] then some seq
    else none
  | _ => none

/-- The owners that the calls of a run pin for, in order. -/
def pinLog : KVCacheManager → List Op → List Int
  | _, [] => []
  | s, op :: ops => (s.pinOwner op).toList ++ pinLog (s.step op) ops

/-! ## The queue of owners -/

/-- The queue lists the owners, in the order of their last entry in the log. -/
structure PinsQueued (log : List Int) (s : KVCacheManager) : Prop where
  owners : ∀ seq, seq ∈ s.pinFifo ↔ seq ∈ s.pinnedSeqBlocks
  order : s.pinFifo.Sublist log.dedup

variable {seq : Int} {ops : List Op}

namespace PinsQueued

variable {log : List Int} {s t : KVCacheManager}

theorem nodup (h : PinsQueued log s) : s.pinFifo.Nodup := h.order.nodup (nodup_dedup log)

theorem congr (h : PinsQueued log s) (hsame : SameOwnedPins s t) : PinsQueued log t := by
  refine ⟨fun seq => ?_, ?_⟩
  · rw [hsame.fifo, hsame.owners]
    exact h.owners seq
  · rw [hsame.fifo]
    exact h.order

variable (h : PinsQueued log s) (hpins : PinsOwned s)
include h hpins

omit hpins in
/-- An owner without pins is not in the queue. -/
theorem filter_eq (hnew : seq ∉ s.pinnedSeqBlocks) : s.pinFifo.filter (· ≠ seq) = s.pinFifo := by
  refine filter_eq_self.mpr fun other hother => decide_eq_true ?_
  rintro rfl
  exact hnew ((h.owners other).mp hother)

theorem unpinPrefix (seq : Int) :
    PinsQueued log (s.unpinPrefix seq) ∧
      (s.unpinPrefix seq).pinFifo = s.pinFifo.filter (· ≠ seq) := by
  have howners := (hpins.unpinPrefix seq).2
  have hfifo : (s.unpinPrefix seq).pinFifo = s.pinFifo.filter (· ≠ seq) := by
    unfold KVCacheManager.unpinPrefix
    split
    next hnone => exact (h.filter_eq (AList.lookup_eq_none.mp hnone)).symm
    next owned _ =>
      exact congrArg (List.filter _) (unpinBlocks_fold owned hpins.toPinsKeyed).2.1.2
  refine ⟨⟨fun other => ?_, ?_⟩, hfifo⟩
  · rw [hfifo, howners, mem_filter, AList.mem_erase, h.owners other]
    simp [and_comm]
  · rw [hfifo]
    exact filter_sublist.trans h.order

/-- Pins for an owner that has none. -/
theorem pinBlocks (hnew : seq ∉ s.pinnedSeqBlocks) (owned : List Int) :
    PinsQueued (log ++ if owned = [] then [] else [seq]) (s.pinBlocks seq owned) := by
  by_cases hempty : owned = []
  · subst hempty
    rw [if_pos rfl, append_nil]
    exact h
  · obtain ⟨-, ⟨howners, hfifo⟩, -⟩ := pinBlocks_fold owned hpins.toPinsKeyed
    unfold KVCacheManager.pinBlocks
    rw [if_neg hempty]
    rw [if_neg fun hnil => hempty (List.isEmpty_iff.mp hnil)]
    refine ⟨fun other => ?_, ?_⟩
    · rw [hfifo, howners, mem_append, mem_singleton, AList.mem_insert, h.owners other]
      exact or_comm
    · rw [hfifo, dedup_concat, ← h.filter_eq hnew]
      exact (h.order.filter _).append_right _

/-- The owner's old pins go, and room is made. -/
theorem replaced (seq toPin : Int) :
    let t := (s.unpinPrefix seq).makePinRoom toPin
    PinsQueued log t ∧ PinsOwned t ∧ seq ∉ t.pinnedSeqBlocks := by
  have hunpin : ∀ t other, PinsQueued log t ∧ PinsOwned t →
      PinsQueued log (t.unpinPrefix other) ∧ PinsOwned (t.unpinPrefix other) := fun t other ht =>
    ⟨(ht.1.unpinPrefix ht.2 other).1, (ht.2.unpinPrefix other).1⟩
  exact ⟨(makePinRoom_rule toPin hunpin (hunpin s seq ⟨h, hpins⟩)).1, hpins.replaced seq toPin⟩

theorem pinPrefix (seq numBlocks : Int) :
    PinsQueued (log ++ (s.pinOwner (.pinPrefix seq numBlocks)).toList)
      (s.pinPrefix seq numBlocks) := by
  have howner : (s.pinOwner (.pinPrefix seq numBlocks)).toList
      = if s.pinsFor seq numBlocks = [] then [] else [seq] := by
    simp only [pinOwner]
    split <;> rfl
  rw [howner]
  obtain ⟨heq, hnone⟩ | ⟨toPin, -, -, heq⟩ := s.pinPrefix_cases seq numBlocks
  · rw [heq, if_pos hnone, append_nil]
    exact h
  · rw [heq]
    obtain ⟨hqueued, howned, hnew⟩ := h.replaced hpins seq toPin
    exact hqueued.pinBlocks howned hnew _

end PinsQueued

variable {s : KVCacheManager} {log : List Int} {budget : Int}

/-! ## The budget -/

/-- The number of blocks with a pin, as the budget loop of `pin_prefix` counts them. -/
def pinCount (s : KVCacheManager) : Nat := s.pinRefcount.keys.length

section

variable (s : KVCacheManager)

theorem pinCount_unpinBlock (block : Int) : (s.unpinBlock block).pinCount ≤ s.pinCount := by
  unfold pinCount
  obtain ⟨-, heq⟩ | ⟨hmore, -, hpins⟩ | ⟨-, -, hpins⟩ := s.unpinBlock_cases block
  · rw [heq]
  · have hmem : block ∈ s.pinRefcount.keys := by
      by_contra hnone
      rw [pinsOf, AList.lookup_eq_none.mpr hnone] at hmore
      exact absurd hmore (by decide)
    rw [hpins, AList.keys_insert, length_cons, length_erase_of_mem hmem]
    have := length_pos_of_mem hmem
    omega
  · rw [hpins, AList.keys_erase]
    exact length_erase_le

theorem pinCount_unpinPrefix (seq : Int) : (s.unpinPrefix seq).pinCount ≤ s.pinCount :=
  unpinPrefix_rule (P := (·.pinCount ≤ s.pinCount)) seq
    (fun t block ht => (t.pinCount_unpinBlock block).trans ht) (fun _ _ _ ht => ht) le_rfl

theorem pinCount_makePinRoom (toPin : Int) : (s.makePinRoom toPin).pinCount ≤ s.pinCount :=
  makePinRoom_rule (P := (·.pinCount ≤ s.pinCount)) toPin
    (fun t seq ht => (t.pinCount_unpinPrefix seq).trans ht) le_rfl

theorem pinCount_pinBlock (block : Int) : (s.pinBlock block).pinCount ≤ s.pinCount + 1 := by
  unfold pinCount
  rw [(s.pinBlock_pins block).1, AList.keys_insert, length_cons]
  exact Nat.succ_le_succ length_erase_le

theorem pinCount_pinBlocks (seq : Int) (owned : List Int) :
    (s.pinBlocks seq owned).pinCount ≤ s.pinCount + owned.length := by
  have hfold : (owned.foldl pinBlock s).pinCount ≤ s.pinCount + owned.length := by
    induction owned generalizing s with
    | nil => exact le_rfl
    | cons first owned ih =>
      have hfirst := s.pinCount_pinBlock first
      have hrest := ih (s.pinBlock first)
      rw [foldl_cons, length_cons]
      omega
  unfold pinBlocks
  split <;> exact hfold

end

/-- Without owners no block has a pin. -/
theorem pinCount_eq_zero (hqueued : PinsQueued log s) (hpins : PinsOwned s)
    (hempty : s.pinFifo = []) : s.pinCount = 0 := by
  have hnone : ∀ seq, seq ∉ s.pinnedSeqBlocks := fun seq hmem => by
    rw [← hqueued.owners, hempty] at hmem
    exact absurd hmem not_mem_nil
  exact length_eq_zero_iff.mpr (eq_nil_iff_forall_not_mem.mpr (hpins.no_pins hnone))

/-- The budget loop ends with room for the new pins. It stops only when they fit or no owner is
left, and without owners nothing is pinned. -/
theorem evictPins_room {toPin : Int} {rounds : Nat} (hqueued : PinsQueued log s)
    (hpins : PinsOwned s) (hrounds : s.pinFifo.length ≤ rounds)
    (htoPin : toPin ≤ s.pinBudgetBlocks) :
    (evictPins toPin rounds s).pinCount + toPin ≤ s.pinBudgetBlocks := by
  induction rounds generalizing s with
  | zero =>
    have hnone := pinCount_eq_zero hqueued hpins (length_eq_zero_iff.mp (Nat.le_zero.mp hrounds))
    change (s.pinCount : Int) + toPin ≤ _
    omega
  | succ rounds ih =>
    unfold evictPins
    split
    next hfull =>
      split
      next hempty =>
        have hnone := pinCount_eq_zero hqueued hpins hempty
        omega
      next oldest rest hfifo =>
        obtain ⟨hqueued', hfifo'⟩ := hqueued.unpinPrefix hpins oldest
        have hbudget := s.pinBudgetBlocks_unpinPrefix oldest
        rw [← hbudget] at htoPin ⊢
        refine ih hqueued' (hpins.unpinPrefix oldest).1 ?_ htoPin
        rw [hfifo', hfifo, filter_cons_of_neg (by simp)]
        rw [hfifo, length_cons] at hrounds
        exact (length_filter_le _ _).trans (Nat.le_of_succ_le_succ hrounds)
    next hfits => exact Int.not_lt.mp hfits

/-- Pinning under a budget stays within it. -/
theorem pinCount_pinPrefix (hqueued : PinsQueued log s) (hpins : PinsOwned s) (hpos : 0 < budget)
    {numBlocks : Int} (hbudget : s.pinsFor seq numBlocks ≠ [] → s.pinBudgetBlocks = budget)
    (hcount : (s.pinCount : Int) ≤ budget) :
    ((s.pinPrefix seq numBlocks).pinCount : Int) ≤ budget := by
  obtain ⟨heq, -⟩ | ⟨toPin, hlength, hcap, heq⟩ := s.pinPrefix_cases seq numBlocks
  · rw [heq]
    exact hcount
  · rw [heq]
    have hsame := s.pinBudgetBlocks_unpinPrefix seq
    have hle := s.pinCount_unpinPrefix seq
    have hpinned := ((s.unpinPrefix seq).makePinRoom toPin).pinCount_pinBlocks seq
      (s.pinsFor seq numBlocks)
    by_cases hnone : s.pinsFor seq numBlocks = []
    · rw [hnone, length_nil] at hpinned
      rw [hnone]
      have hroom := (s.unpinPrefix seq).pinCount_makePinRoom toPin
      omega
    · have hfixed := hbudget hnone
      have hroom : (((s.unpinPrefix seq).makePinRoom toPin).pinCount : Int) + toPin ≤
          (s.unpinPrefix seq).pinBudgetBlocks := by
        unfold makePinRoom
        rw [if_pos (by omega)]
        exact evictPins_room (hqueued.unpinPrefix hpins seq).1 (hpins.unpinPrefix seq).1 le_rfl
          (hsame ▸ hcap (by omega))
      omega

/-! ## Every operation -/

/-- `evict_middle_blocks` leaves the pins alone, or pins the sinks as `pin_prefix` does. -/
theorem evictMiddleBlocks_pins (s : KVCacheManager) (seq nSinkTokens nWindowTokens : Int) :
    (SameOwnedPins s (s.evictMiddleBlocks seq nSinkTokens nWindowTokens).2 ∧
      s.pinOwner (.evictMiddleBlocks seq nSinkTokens nWindowTokens) = none) ∨
    ∃ sinkEnd : Int,
      SameOwnedPins (s.pinPrefix seq sinkEnd)
        (s.evictMiddleBlocks seq nSinkTokens nWindowTokens).2 ∧
      s.pinOwner (.evictMiddleBlocks seq nSinkTokens nWindowTokens)
        = s.pinOwner (.pinPrefix seq sinkEnd) := by
  generalize hsinks : (nSinkTokens.toNat + s.blockSize - 1) / s.blockSize = sinkEnd
  rw [s.evictMiddleBlocks_eq seq nSinkTokens nWindowTokens hsinks rfl]
  simp only [pinOwner, hsinks]
  split
  next hmiddle =>
    -- emptying the middle slots and clearing their hashes leaves the pins alone
    have hkept := fun t : KVCacheManager => SameOwnedPins.of_call (Serves.of_edits
      ((Slots.evictSlots seq ((s.blockTable seq).length - (nWindowTokens.toNat + s.blockSize - 1) /
        s.blockSize - 1 - sinkEnd) sinkEnd t).edits.trans (.clearHashesFrom _ seq sinkEnd
          (s.blockTable seq).length))).rest
    by_cases hfew : ((s.pinnedSeqBlocks.lookup seq).getD []).length < sinkEnd
    · refine .inr ⟨sinkEnd, ?_, ?_⟩
      · rw [if_pos hfew]
        exact hkept _
      · by_cases hnone : s.pinsFor seq sinkEnd = []
        · rw [if_pos hnone, if_neg fun hall => hall.2.2.2.2 hnone]
        · rw [if_neg hnone, if_pos ⟨hmiddle.1, hmiddle.2.1, hmiddle.2.2, hfew, hnone⟩]
    · refine .inl ⟨?_, if_neg fun hall => hfew hall.2.2.2.1⟩
      rw [if_neg hfew]
      exact hkept s
  next hnone =>
    exact .inl ⟨⟨rfl, rfl, rfl, rfl⟩, if_neg fun hall => hnone ⟨hall.1, hall.2.1, hall.2.2.1⟩⟩

/-- Every call that pins for no owner, apart from unpinning, keeps pins and owners; a call that pins
does it as `pin_prefix`. -/
theorem step_pins (s : KVCacheManager) (op : Op) :
    (SameOwnedPins s (s.step op) ∧ s.pinOwner op = none) ∨
    (∃ seq, s.step op = s.unpinPrefix seq ∧ s.pinOwner op = none) ∨
    ∃ seq numBlocks, SameOwnedPins (s.pinPrefix seq numBlocks) (s.step op) ∧
      s.pinOwner op = s.pinOwner (.pinPrefix seq numBlocks) := by
  cases op with
  | pinPrefix seq numBlocks =>
    exact .inr (.inr ⟨seq, numBlocks, ⟨rfl, rfl, rfl, rfl⟩, rfl⟩)
  | unpinPrefix seq => exact .inr (.inl ⟨seq, rfl, rfl⟩)
  | evictMiddleBlocks seq nSinkTokens nWindowTokens =>
    obtain hsame | ⟨sinkEnd, hpinned⟩ := s.evictMiddleBlocks_pins seq nSinkTokens nWindowTokens
    · exact .inl hsame
    · exact .inr (.inr ⟨seq, sinkEnd, hpinned⟩)
  | _ =>
    exact .inl ⟨s.step_sameOwnedPins _ (fun _ _ => nofun) (fun _ => nofun) fun _ _ _ => nofun, rfl⟩

theorem PinsQueued.step (h : PinsQueued log s) (hpins : PinsOwned s) (op : Op) :
    PinsQueued (log ++ (s.pinOwner op).toList) (s.step op) := by
  obtain ⟨hsame, hnone⟩ | ⟨seq, heq, hnone⟩ | ⟨seq, numBlocks, hsame, howner⟩ := s.step_pins op
  · rw [hnone, Option.toList_none, append_nil]
    exact h.congr hsame
  · rw [hnone, Option.toList_none, append_nil, heq]
    exact (h.unpinPrefix hpins seq).1
  · rw [howner]
    exact (h.pinPrefix hpins seq numBlocks).congr hsame

/-- The queue follows the log through a whole run. -/
theorem PinsQueued.run (h : PinsQueued log s) (hpins : PinsOwned s) (ops : List Op) :
    PinsQueued (log ++ pinLog s ops) (s.run ops) := by
  induction ops generalizing log s with
  | nil =>
    rw [pinLog, append_nil]
    exact h
  | cons op ops ih =>
    rw [pinLog, ← append_assoc]
    exact ih (h.step hpins op) (step_pinsOwned s op hpins)

/-- The pins of this run are made under one budget. -/
def FixedBudget (budget : Int) (s : KVCacheManager) (op : Op) : Prop :=
  (s.pinOwner op).isSome = true → s.pinBudgetBlocks = budget

instance (budget : Int) (s : KVCacheManager) (op : Op) : Decidable (FixedBudget budget s op) :=
  inferInstanceAs (Decidable (_ → _))

theorem pinCount_step (h : PinsQueued log s) (hpins : PinsOwned s) (hpos : 0 < budget) {op : Op}
    (hfixed : FixedBudget budget s op) (hcount : (s.pinCount : Int) ≤ budget) :
    ((s.step op).pinCount : Int) ≤ budget := by
  have hsamecount : ∀ {t u : KVCacheManager}, SameOwnedPins t u → u.pinCount = t.pinCount :=
    fun hsame => congrArg (fun table : Table Int Nat => table.keys.length) hsame.pins
  obtain ⟨hsame, -⟩ | ⟨seq, heq, -⟩ | ⟨seq, numBlocks, hsame, howner⟩ := s.step_pins op
  · rw [hsamecount hsame]
    exact hcount
  · rw [heq]
    have := s.pinCount_unpinPrefix seq
    omega
  · rw [hsamecount hsame]
    refine pinCount_pinPrefix h hpins hpos (fun hsome => hfixed ?_) hcount
    rw [howner]
    simp only [pinOwner, if_neg hsome, Option.isSome_some]

theorem pinCount_run (h : PinsQueued log s) (hpins : PinsOwned s) (hpos : 0 < budget)
    (hfixed : SafeRun (FixedBudget budget) s ops) (hcount : (s.pinCount : Int) ≤ budget) :
    ((s.run ops).pinCount : Int) ≤ budget := by
  induction ops generalizing log s with
  | nil => exact hcount
  | cons op ops ih =>
    exact ih (h.step hpins op) (step_pinsOwned s op hpins) hfixed.2
      (pinCount_step h hpins hpos hfixed.1 hcount)

theorem fresh_pinsOwned (blockSize totalBlocks swaBlocks : Nat) :
    PinsOwned (fresh blockSize totalBlocks swaBlocks) where
  positive _ hmem := absurd hmem (AList.notMem_empty _)
  keys _ hmem := absurd hmem (Finset.notMem_empty _)
  counts _ := rfl

theorem fresh_pinsQueued (blockSize totalBlocks swaBlocks : Nat) :
    PinsQueued [] (fresh blockSize totalBlocks swaBlocks) where
  owners seq := ⟨fun hmem => absurd hmem not_mem_nil,
    fun hmem => absurd hmem (AList.notMem_empty seq)⟩
  order := List.Sublist.refl _

/-- A run without loads is one with safe loads. -/
theorem loadSafe_run (hload : ∀ records, .loadPrefixCache records ∉ ops) (s : KVCacheManager) :
    SafeRun LoadSafe s ops := by
  induction ops generalizing s with
  | nil => trivial
  | cons op ops ih =>
    refine ⟨?_, ih (fun records hmem => hload records (mem_cons_of_mem _ hmem)) _⟩
    cases op
    case loadPrefixCache records => exact absurd mem_cons_self (hload records)
    all_goals trivial

/-- After every run that loads no persisted cache, the pinned blocks are the keys of the counts, a
count is the number of times the owners' lists name the block, the queue has each owner once, in the
order of their last pins, the pins made under one budget stay within it, and the counter of
reclaimable blocks is the number of cached blocks that are not pinned. -/
theorem pin_accounting (blockSize totalBlocks swaBlocks : Nat) (ops : List Op)
    (hload : ∀ records, .loadPrefixCache records ∉ ops) :
    let start := fresh blockSize totalBlocks swaBlocks
    let s := start.run ops
    (∀ block, block ∈ s.pinnedBlocks ↔ block ∈ s.pinRefcount) ∧
      (∀ block, (s.pinRefcount.lookup block).getD 0
        = Table.total (fun owned => owned.count block) s.pinnedSeqBlocks) ∧
      (∀ block, s.pinRefcount.lookup block ≠ some 0) ∧
      (∀ seq, seq ∈ s.pinFifo ↔ seq ∈ s.pinnedSeqBlocks) ∧
      s.pinFifo.Nodup ∧ s.pinFifo.Sublist (pinLog start ops).dedup ∧
      (∀ budget : Int, 0 < budget → SafeRun (FixedBudget budget) start ops →
        (s.pinnedBlocks.card : Int) ≤ budget) ∧
      s.reclaimableCachedCount = ((s.cachedBlocksMap \ s.pinnedBlocks).card : Int) := by
  intro start s
  have howned : PinsOwned s :=
    run_invariant step_pinsOwned (fresh_pinsOwned blockSize totalBlocks swaBlocks) ops
  have hqueued : PinsQueued (pinLog start ops) s :=
    (fresh_pinsQueued blockSize totalBlocks swaBlocks).run
      (fresh_pinsOwned blockSize totalBlocks swaBlocks) ops
  have hcounted : Counted 0 totalBlocks s [] := safeRun_invariant Counted.step
    (fresh_pinsHeld blockSize totalBlocks swaBlocks).toCounted (loadSafe_run hload start)
  have hkeys : ∀ block, block ∈ s.pinnedBlocks ↔ block ∈ s.pinRefcount :=
    fun block => ⟨howned.keys block, hcounted.counted.pinned block⟩
  refine ⟨hkeys, howned.counts, fun block hzero => ?_, hqueued.owners, hqueued.nodup,
    hqueued.order, fun budget hpos hfixed => ?_, hcounted.counted.reclaimable⟩
  · have hmem : block ∈ s.pinRefcount := Table.mem_of_lookup hzero
    have hpositive := howned.positive block hmem
    rw [pinsOf, hzero] at hpositive
    exact absurd hpositive (lt_irrefl 0)
  · have hcard : s.pinnedBlocks.card = s.pinCount := by
      rw [pinCount, ← toFinset_card_of_nodup s.pinRefcount.keys_nodup]
      refine congrArg Finset.card (Finset.ext fun block => ?_)
      rw [hkeys block, mem_toFinset]
      exact AList.mem_keys
    rw [hcard]
    exact pinCount_run (fresh_pinsQueued blockSize totalBlocks swaBlocks)
      (fresh_pinsOwned blockSize totalBlocks swaBlocks) hpos hfixed hpos.le

/-- Three owners under a budget of two blocks: the third pin evicts the pins of the first owner, and
the second owner pins again and moves to the back. -/
theorem pin_accounting_evicted :
    let start := fresh 1 8 0
    let ops : List Op := [.setPinBudgetBlocks 2, .allocateBlocks 0 1, .allocateBlocks 1 1,
      .allocateBlocks 2 1, .pinPrefix 0 1, .pinPrefix 1 1, .pinPrefix 2 1, .pinPrefix 1 1]
    let s := start.run ops
    pinLog start ops = [0, 1, 2, 1] ∧ s.pinFifo = [2, 1] ∧
      s.pinFifo.Sublist (pinLog start ops).dedup ∧ (s.pinnedBlocks.card : Int) ≤ 2 := by
  intro start ops s
  have h := pin_accounting 1 8 0 ops (by simp [ops])
  exact ⟨by decide +kernel, by decide +kernel, h.2.2.2.2.2.1,
    h.2.2.2.2.2.2.1 2 (by decide) (by decide +kernel)⟩

end Quench.KVCacheManager

import Quench.Memory.Plan

/-!
# The plan and its budget

More memory never makes a plan worse. The optional caches and the KV blocks share one residual, and
both grow with it (`planMemory_monotone`).

A plan that fails reports lines that sum up to what it requests, which is more than the budget, if
and only if the floor of the KV pool can be reported (`planFailure_adds_up`,
`planFailure_does_not_add_up`).
-/

namespace Quench.Plan

open List

variable {input : PlanInput}

/-! ## More memory -/

theorem grantedCaches_mono {residual more : Nat} (hle : residual ≤ more) :
    input.grantedCaches residual ≤ input.grantedCaches more ∧
      residual - input.grantedCaches residual ≤ more - input.grantedCaches more := by
  unfold PlanInput.grantedCaches
  dsimp only
  generalize input.blocksFor input.seq * input.perBlock = kvFloorBytes
  split_ifs <;> omega

theorem distribute_mono {budget : Nat} (hle : input.budgetBytes ≤ budget) :
    input.distribute.1 ≤ ({ input with budgetBytes := budget } : PlanInput).distribute.1 ∧
      input.distribute.2 ≤ ({ input with budgetBytes := budget } : PlanInput).distribute.2 := by
  rw [PlanInput.distribute]
  split_ifs with hnone
  · exact ⟨Nat.zero_le _, Nat.zero_le _⟩
  · obtain ⟨hcaches, hrest⟩ := grantedCaches_mono (Nat.sub_le_sub_right hle input.committed)
    have hroom : ¬ (input.committed ≥ budget ∨ input.perBlock = 0) := by omega
    have hmore : ({ input with budgetBytes := budget } : PlanInput).distribute = _ := if_neg hroom
    rw [hmore]
    exact ⟨hcaches, min_le_min_left _ (Nat.div_le_div_right hrest)⟩

theorem batch_pos : 0 < input.batch := by
  unfold PlanInput.batch
  omega

/-- Optional caches leave the pool a full sequence. -/
theorem blocksPerSeq_le_distribute (hcaches : 0 < input.distribute.1) :
    input.blocksFor input.seq ≤ input.distribute.2 := by
  rw [PlanInput.distribute] at hcaches ⊢
  split_ifs at hcaches ⊢ with hnone
  · cases hcaches
  · refine Nat.le_min.mpr ⟨Nat.le_mul_of_pos_right _ batch_pos, ?_⟩
    rw [Nat.le_div_iff_mul_le (by omega)]
    refine (le_grantedCaches_iff ?_).mpr (.inl le_rfl)
    dsimp only [PlanInput.grantedCaches] at hcaches
    generalize input.blocksFor input.seq * input.perBlock = kvFloorBytes at *
    split_ifs at hcaches <;> omega

/-- With a larger budget, an accepted plan stays accepted and neither the pool nor the optional
caches shrink. With either budget, optional caches are granted only beside a full sequence. -/
theorem planMemory_monotone (input : PlanInput) (budget : Nat) (hle : input.budgetBytes ≤ budget) :
    let less := planMemory input
    let more := planMemory { input with budgetBytes := budget }
    (less.ok = true → more.ok = true) ∧ less.plan.kv.blocks ≤ more.plan.kv.blocks ∧
      less.plan.optionalCaches ≤ more.plan.optionalCaches ∧
      ∀ plan ∈ [less.plan, more.plan],
        0 < plan.optionalCaches → plan.kv.blocksPerSeq ≤ plan.kv.blocks := by
  obtain ⟨hcaches, hblocks⟩ := distribute_mono hle
  dsimp only
  rw [plan_planMemory, plan_planMemory]
  refine ⟨fun hok => ?_, hblocks, hcaches, ?_⟩
  · obtain ⟨htotal, hfloor⟩ := planMemory_ok.mp hok
    have hcommitted : input.committed ≤ budget := by omega
    exact planMemory_ok.mpr ⟨distribute_le hcommitted, hfloor.imp_right (·.trans hblocks)⟩
  · rw [forall_mem_cons, forall_mem_singleton]
    exact ⟨blocksPerSeq_le_distribute, blocksPerSeq_le_distribute⟩

theorem planMemory_monotone_small :
    (planMemory smallInput).plan.kv.blocks ≤
      (planMemory { smallInput with budgetBytes := 200 }).plan.kv.blocks :=
  (planMemory_monotone smallInput 200 (by decide)).2.1

/-! ## A plan that fails -/

/-- The floor of the pool can be reported: there is none, or its blocks cost nothing and the charges
are over the budget, or the pool has a block and the floor costs more than the budget leaves. The
latter holds if the batch wants the floor, or there are optional caches enough. -/
def FloorReported (input : PlanInput) : Prop :=
  input.floorBlocks = 0 ∨ (input.perBlock = 0 ∧ input.budgetBytes < input.committed) ∨
    0 < input.perBlock ∧ 0 < input.seq ∧ input.committed + input.perBlock ≤ input.budgetBytes ∧
      (input.floorBlocks ≤ input.blocksFor input.seq * input.batch ∨
        input.budgetBytes <
          input.committed + input.optionalCacheDemand + input.floorBlocks * input.perBlock)

section Lines

variable (f : PlanLine → PlanLine)

theorem sumBytes_map_push (lines : List PlanLine) (name : String) (tag : RegionTag) (bytes : Nat) :
    sumBytes ((push lines name tag bytes).map f) =
      sumBytes (lines.map f) + if 0 < bytes then (f ⟨name, tag, bytes⟩).bytes else 0 := by
  unfold push
  split_ifs
  · simp [sumBytes]
  · rfl

variable {f} (hf : ∀ line : PlanLine, line.tag ≠ .kvBlockPool → (f line).bytes = line.bytes)
include hf

/-- A line of another region keeps its bytes. -/
theorem sumBytes_map_push_of {tag : RegionTag} (htag : tag ≠ .kvBlockPool)
    (lines : List PlanLine) (name : String) (bytes : Nat) :
    sumBytes ((push lines name tag bytes).map f) = sumBytes (lines.map f) + bytes := by
  rw [sumBytes_map_push, hf _ htag]
  split_ifs with hpos
  · rfl
  · rw [Nat.eq_zero_of_not_pos hpos]

theorem sumBytes_map_pools {pools : List PlanLine} (hpools : ∀ q ∈ pools, q.tag ≠ .kvBlockPool)
    (lines : List PlanLine) :
    sumBytes ((pools.foldl (fun lines q => push lines q.name q.tag q.bytes) lines).map f) =
      sumBytes (lines.map f) + sumBytes pools := by
  induction pools generalizing lines with
  | nil => rfl
  | cons q pools ih =>
    obtain ⟨hq, hpools⟩ := forall_mem_cons.mp hpools
    rw [foldl_cons, ih hpools, sumBytes_map_push_of hf hq, sumBytes, sumBytes, sumBytes, map_cons,
      sum_cons, Nat.add_assoc]

/-- The lines sum up to the total, with the line of the pool at what it is listed with. -/
theorem sumBytes_map_lines {p : MemoryPlan} (hpools : ∀ q ∈ p.pools, q.tag ≠ .kvBlockPool) :
    sumBytes (p.lines.map f) = p.total - p.kv.bytes +
      if 0 < p.kv.bytes then (f ⟨"KV pool", .kvBlockPool, p.kv.bytes⟩).bytes else 0 := by
  rw [MemoryPlan.lines, sumBytes, (((perm_insertionSort _ _).map f).map PlanLine.bytes).sum_eq,
    ← sumBytes]
  simp only [sumBytes_map_push_of hf, sumBytes_map_pools hf hpools, sumBytes_map_push f _ "KV pool",
    ne_eq, reduceCtorEq, not_false_eq_true]
  rw [MemoryPlan.total, map_nil, sumBytes, map_nil, sum_nil]
  omega

end Lines

theorem tag_pools : ∀ q ∈ input.pools, q.tag ≠ .kvBlockPool := by
  unfold PlanInput.pools push
  split_ifs <;> simp

/-- The pool gets a block if and only if a sequence needs one and the budget has room for it. -/
theorem distribute_pos_iff (hblock : 0 < input.perBlock) :
    0 < input.distribute.2 ↔
      0 < input.seq ∧ input.committed + input.perBlock ≤ input.budgetBytes := by
  have hsize : 0 < input.blockSize := by
    unfold PlanInput.blockSize
    split_ifs <;> omega
  have hblocks : 0 < input.blocksFor input.seq ↔ 0 < input.seq := by
    rw [PlanInput.blocksFor, Nat.div_pos_iff]
    omega
  rw [← hblocks, PlanInput.distribute]
  split_ifs with hnone
  · exact iff_of_false (Nat.lt_irrefl 0) fun h => by omega
  · dsimp only
    rw [Nat.lt_min, Nat.mul_pos_iff_of_pos_right batch_pos]
    refine and_congr_right fun hpos => ⟨fun hleft => ?_, fun hroom => Nat.div_pos ?_ hblock⟩
    · have := (Nat.div_pos_iff.mp hleft).2
      omega
    · exact (le_grantedCaches_iff (by omega)).mpr (.inl (Nat.le_mul_of_pos_left _ hpos))

/-- What the caches leave does not hold the floor. -/
theorem budget_lt_floor_iff (hblock : 0 < input.perBlock)
    (hroom : input.committed + input.perBlock ≤ input.budgetBytes)
    (hbelow : input.distribute.2 < input.floorBlocks) :
    input.budgetBytes <
        input.committed + input.distribute.1 + input.floorBlocks * input.perBlock ↔
      input.floorBlocks ≤ input.blocksFor input.seq * input.batch ∨
        input.budgetBytes <
          input.committed + input.optionalCacheDemand + input.floorBlocks * input.perBlock := by
  rw [PlanInput.distribute, if_neg (by omega)] at hbelow ⊢
  dsimp only at hbelow ⊢
  rcases Nat.lt_or_ge (input.blocksFor input.seq * input.batch) input.floorBlocks with hwant | hwant
  · rw [or_iff_right (Nat.not_le.mpr hwant)]
    have hfloor : input.blocksFor input.seq * input.perBlock < input.floorBlocks * input.perBlock :=
      Nat.mul_lt_mul_of_pos_right
        ((Nat.le_mul_of_pos_right _ batch_pos).trans_lt hwant) hblock
    unfold PlanInput.grantedCaches
    dsimp only
    split_ifs <;> omega
  · have hfits := (min_lt_iff.mp hbelow).resolve_left (Nat.not_lt.mpr hwant)
    rw [Nat.div_lt_iff_lt_mul hblock] at hfits
    exact iff_of_true (by omega) (.inl hwant)

/-- What a failed plan lists and what it requests. -/
theorem planFailure_figures (input : PlanInput) :
    (sumBytes input.planFailure.lines = input.committed + input.distribute.1 +
      if 0 < input.distribute.2 * input.perBlock then
        if input.memoryPlan.kv.belowFloor then input.floorBlocks * input.perBlock
        else input.distribute.2 * input.perBlock
      else 0) ∧
    input.planFailure.requested = input.committed + input.distribute.1 +
      if input.memoryPlan.kv.belowFloor then input.floorBlocks * input.perBlock
      else input.distribute.2 * input.perBlock := by
  have htotal : input.memoryPlan.total = _ := total_memoryPlan
  have hbytes : input.memoryPlan.kv.bytes = input.distribute.2 * input.perBlock := rfl
  unfold PlanInput.planFailure
  dsimp only
  rw [sumBytes_map_lines (fun line htag => by rw [if_neg fun h => htag h.2]) tag_pools, hbytes]
  generalize input.distribute.2 * input.perBlock = kvBytes at *
  cases input.memoryPlan.kv.belowFloor <;>
    simp only [Bool.false_eq_true, false_and, true_and, if_false, if_true] <;>
    exact ⟨by split_ifs <;> omega, by omega⟩

/-- The figures of a plan below the floor add up, to more than the budget, if and only if the floor
can be reported. -/
theorem figures_add_up_iff (hpos : 0 < input.floorBlocks)
    (hbelow : input.distribute.2 < input.floorBlocks) :
    (sumBytes input.planFailure.lines = input.planFailure.requested ∧
      input.budgetBytes < input.planFailure.requested) ↔ FloorReported input := by
  have hkv : input.memoryPlan.kv.belowFloor = true := decide_eq_true ⟨hpos, hbelow⟩
  obtain ⟨hlines, hrequested⟩ := planFailure_figures input
  rw [hlines, hrequested, hkv, if_pos rfl, FloorReported, or_iff_right (Nat.ne_of_gt hpos)]
  rcases Nat.eq_zero_or_pos input.perBlock with hblock | hblock
  · have hnone : input.distribute = (0, 0) := if_pos (.inr hblock)
    simp [hblock, hnone]
  · have hneed : 0 < input.floorBlocks * input.perBlock := Nat.mul_pos hpos hblock
    rw [or_iff_right (fun h => Nat.ne_of_gt hblock h.1), and_iff_right hblock, ← and_assoc,
      ← distribute_pos_iff hblock]
    simp only [Nat.mul_pos_iff_of_pos_right hblock]
    constructor
    · rintro ⟨hsum, hover⟩
      have hgot : 0 < input.distribute.2 := by
        by_contra hnot
        rw [if_neg hnot] at hsum
        omega
      have hroom := ((distribute_pos_iff hblock).mp hgot).2
      exact ⟨hgot, (budget_lt_floor_iff hblock hroom hbelow).mp hover⟩
    · rintro ⟨hgot, hcost⟩
      have hroom := ((distribute_pos_iff hblock).mp hgot).2
      rw [if_pos hgot]
      exact ⟨rfl, (budget_lt_floor_iff hblock hroom hbelow).mpr hcost⟩

/-- A floor that cannot be reported is not reached. -/
theorem distribute_lt_of_not_reported (hfloor : ¬ FloorReported input) :
    0 < input.floorBlocks ∧ input.distribute.2 < input.floorBlocks := by
  unfold FloorReported at hfloor
  have hpos : 0 < input.floorBlocks := by omega
  refine ⟨hpos, ?_⟩
  rcases Nat.eq_zero_or_pos input.perBlock with hblock | hblock
  · rw [PlanInput.distribute, if_pos (.inr hblock)]
    exact hpos
  · rcases Nat.eq_zero_or_pos input.distribute.2 with hnone | hgot
    · omega
    · obtain ⟨hseq, hroom⟩ := (distribute_pos_iff hblock).mp hgot
      have hwant : input.blocksFor input.seq * input.batch < input.floorBlocks := by
        generalize input.blocksFor input.seq * input.batch = want at *
        generalize input.floorBlocks * input.perBlock = need at *
        omega
      rw [PlanInput.distribute]
      split_ifs
      · exact hpos
      · exact (min_le_left _ _).trans_lt hwant

/-- The lines of every failed plan sum up to what it requests, which is over the budget by the
difference, if and only if the floor can be reported. Otherwise the plan fails, and they do not. -/
theorem planFailure_adds_up :
    ((planMemory input).ok = false →
      ∃ failure, (planMemory input).failure = some failure ∧
        sumBytes failure.lines = failure.requested ∧ input.budgetBytes < failure.requested ∧
        failure.overBy = failure.requested - input.budgetBytes ∧ 0 < failure.overBy) ↔
      FloorReported input := by
  constructor
  · intro hall
    by_contra hfloor
    obtain ⟨hpos, hbelow⟩ := distribute_lt_of_not_reported hfloor
    have hkv : input.memoryPlan.kv.belowFloor = true := decide_eq_true ⟨hpos, hbelow⟩
    have hfails : planMemory input = ⟨false, input.memoryPlan, some input.planFailure⟩ :=
      if_neg fun h => by rw [hkv] at h; cases h.2
    rw [hfails] at hall
    obtain ⟨failure, heq, hsum, hover, -, -⟩ := hall rfl
    cases heq
    exact hfloor ((figures_add_up_iff hpos hbelow).mp ⟨hsum, hover⟩)
  · intro hfloor hfail
    have hnot : ¬ (input.memoryPlan.total ≤ input.budgetBytes ∧
        input.memoryPlan.kv.belowFloor = false) := fun h => by
      rw [planMemory, if_pos h] at hfail
      cases hfail
    refine ⟨input.planFailure, by rw [planMemory, if_neg hnot], ?_⟩
    suffices h : sumBytes input.planFailure.lines = input.planFailure.requested ∧
        input.budgetBytes < input.planFailure.requested from
      ⟨h.1, h.2, rfl, Nat.sub_pos_of_lt h.2⟩
    cases hbelow : input.memoryPlan.kv.belowFloor with
    | false =>
      have hover := Nat.not_le.mp fun hle => hnot ⟨hle, hbelow⟩
      rw [total_memoryPlan] at hover
      obtain ⟨hlines, hrequested⟩ := planFailure_figures input
      rw [hlines, hrequested, hbelow, if_neg Bool.false_ne_true]
      split_ifs <;> omega
    | true =>
      obtain ⟨hpos, hless⟩ := of_decide_eq_true hbelow
      exact (figures_add_up_iff hpos hless).mpr hfloor

/-- In one failed plan the weights are over the budget, so the pool has no line and the lines sum up
to less than is requested; in the other the floor is above what the batch wants, and no shortfall is
reported. -/
theorem planFailure_does_not_add_up :
    ((planMemory { smallInput with budgetBytes := 100 }).failure.map
      fun failure => (sumBytes failure.lines, failure.requested)) = some (110, 142) ∧
    ((planMemory highFloor).failure.map
      fun failure => (failure.requested, failure.overBy)) = some (2, 0) := by
  decide

end Quench.Plan

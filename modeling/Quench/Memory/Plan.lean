import Mathlib.Algebra.Order.BigOperators.Group.List
import Mathlib.Algebra.Ring.Nat
import Mathlib.Data.List.Sort

/-!
# The memory plan

`plan_memory` of `memory/plan.cpp` for inputs without overflow. The fixed charges come first, then
the optional weight caches as far as they leave one sequence of KV blocks, then the KV pool, which
takes what is left up to what the batch wants. The plan is accepted if everything fits and the pool
holds the floor of `min_kv_tokens`.

`planMemory_ok_iff` shows that this is a single inequality, `Fits`, exactly on the inputs for which
the plan reaches the floor if it fits (`FloorInReach`). On the others a configuration that fits is
rejected (`fitting_plan_rejected`).
-/

namespace Quench.Plan

/-- `ModelShape`, as far as the plan reads it. -/
structure ModelShape where
  nKvLayers : Int := 0
  weightBytes : Nat := 0
  weightCacheBytes : Nat := 0
  mandatoryCacheBytes : Nat := 0

/-- `FeatureSet`. -/
structure FeatureSet where
  visionTowerBytes : Nat := 0
  specDecodeBytes : Nat := 0
  ssmStateBytes : Nat := 0
  recurrentSnapshotBytes : Nat := 0
  residualRingBytes : Nat := 0
  swaLiveTokens : Int := 0
  nSwaLayers : Int := 0

/-- `ConcurrencyLimits`. -/
structure ConcurrencyLimits where
  maxBatchSize : Int := 1
  maxSeqLen : Int := 0
  kvBlockSize : Int := 16
  kvBlockBytesPerLayer : Nat := 0
  minKvTokens : Int := 0

/-- `PlanInput`. -/
structure PlanInput where
  model : ModelShape := {}
  features : FeatureSet := {}
  limits : ConcurrencyLimits := {}
  libraryBytes : Nat := 0
  budgetBytes : Nat := 0
  contextBytes : Nat := 0
  forwardScratchBytes : Nat := 0
  enginePersistentBytes : Nat := 0

/-- `RegionTag`, as far as the plan uses it. -/
inductive RegionTag where
  | modelResident
  | kvBlockPool
  | swaBlockPool
  | enginePersistent
  | forwardScratch
  | ssmState
  | recurrentSnapshots
  | residualRing
  | other
  deriving DecidableEq

structure PlanLine where
  name : String
  tag : RegionTag
  bytes : Nat

structure KvPlan where
  blocks : Nat
  blocksPerSeq : Nat
  swaBlocks : Nat
  bytes : Nat
  swaBytes : Nat
  belowFloor : Bool

structure MemoryPlan where
  modelResident : Nat
  optionalCaches : Nat
  enginePersistent : Nat
  forwardScratch : Nat
  kv : KvPlan
  pools : List PlanLine
  libraryReserve : Nat
  contextReserve : Nat

structure PlanLever where
  change : String
  frees : Nat

structure PlanFailure where
  requested : Nat
  budget : Nat
  overBy : Nat
  lines : List PlanLine
  levers : List PlanLever

structure PlanResult where
  ok : Bool
  plan : MemoryPlan
  failure : Option PlanFailure

/-- `push`: an empty line is left out. -/
def push (lines : List PlanLine) (name : String) (tag : RegionTag) (bytes : Nat) : List PlanLine :=
  if 0 < bytes then lines ++ [⟨name, tag, bytes⟩] else lines

def sumBytes (lines : List PlanLine) : Nat := (lines.map PlanLine.bytes).sum

/-! ## Shapes -/

namespace PlanInput

variable (input : PlanInput)

def blockSize : Nat :=
  if 0 < input.limits.kvBlockSize then input.limits.kvBlockSize.toNat else 16

def batch : Nat := (max 1 input.limits.maxBatchSize).toNat

def seq : Nat := (max 0 input.limits.maxSeqLen).toNat

/-- The blocks of so many tokens. -/
def blocksFor (tokens : Nat) : Nat := (tokens + input.blockSize - 1) / input.blockSize

def mandatoryCaches : Nat := min input.model.mandatoryCacheBytes input.model.weightCacheBytes

def optionalCacheDemand : Nat := input.model.weightCacheBytes - input.mandatoryCaches

def hasSwa : Bool :=
  decide (0 < input.features.swaLiveTokens ∧ 0 < input.features.nSwaLayers ∧
    input.features.nSwaLayers ≤ input.model.nKvLayers)

def swaBlocks : Nat :=
  if input.hasSwa then
    (input.blocksFor input.features.swaLiveTokens.toNat + 1) * input.batch
  else 0

def swaBytes : Nat :=
  if input.hasSwa then
    input.swaBlocks * input.limits.kvBlockBytesPerLayer * input.features.nSwaLayers.toNat
  else 0

def nGlobalLayers : Int :=
  if input.hasSwa then input.model.nKvLayers - input.features.nSwaLayers
  else input.model.nKvLayers

/-- The bytes of one block over all global layers. -/
def perBlock : Nat := input.limits.kvBlockBytesPerLayer * (max 0 input.nGlobalLayers).toNat

def floorBlocks : Nat :=
  if 0 < input.limits.minKvTokens then input.blocksFor input.limits.minKvTokens.toNat else 0

def pools : List PlanLine :=
  push (push (push [] "SSM/GDN state" .ssmState input.features.ssmStateBytes)
    "recurrent snapshots" .recurrentSnapshots input.features.recurrentSnapshotBytes)
    "residual FP16 ring" .residualRing input.features.residualRingBytes

/-- What the budget leaves for the optional caches. -/
def grantedCaches (residual : Nat) : Nat :=
  let kvFloorBytes := input.blocksFor input.seq * input.perBlock
  min input.optionalCacheDemand (if kvFloorBytes < residual then residual - kvFloorBytes else 0)

end PlanInput

namespace MemoryPlan

variable (p : MemoryPlan)

/-- `total`. -/
def total : Nat :=
  p.contextReserve + p.libraryReserve + p.modelResident + p.optionalCaches + p.enginePersistent +
    p.forwardScratch + p.kv.bytes + p.kv.swaBytes + sumBytes p.pools

/-- `lines`, largest first. -/
def lines : List PlanLine :=
  let fixed :=
    push (push (push (push (push (push []
      "model weights + mandatory caches" .modelResident p.modelResident)
      "optional weight caches" .modelResident p.optionalCaches)
      "KV pool" .kvBlockPool p.kv.bytes)
      "KV pool (SWA group)" .swaBlockPool p.kv.swaBytes)
      "engine-persistent" .enginePersistent p.enginePersistent)
      "forward scratch" .forwardScratch p.forwardScratch
  let pooled := p.pools.foldl (fun lines q => push lines q.name q.tag q.bytes) fixed
  (push (push pooled "CUDA context + driver" .other p.contextReserve)
    "library reserve (measured)" .other p.libraryReserve).insertionSort
    fun a b => b.bytes ≤ a.bytes

end MemoryPlan

/-! ## The plan -/

namespace PlanInput

variable (input : PlanInput)

/-- What is charged before anything is distributed. -/
def committed : Nat :=
  input.contextBytes + input.libraryBytes + (input.model.weightBytes + input.mandatoryCaches) +
    (input.enginePersistentBytes + input.features.visionTowerBytes +
      input.features.specDecodeBytes) +
    input.forwardScratchBytes + input.swaBytes + sumBytes input.pools

/-- The optional caches and the KV blocks. -/
def distribute : Nat × Nat :=
  if input.committed ≥ input.budgetBytes ∨ input.perBlock = 0 then (0, 0)
  else
    let residual := input.budgetBytes - input.committed
    let caches := input.grantedCaches residual
    (caches, min (input.blocksFor input.seq * input.batch) ((residual - caches) / input.perBlock))

def memoryPlan : MemoryPlan where
  modelResident := input.model.weightBytes + input.mandatoryCaches
  optionalCaches := input.distribute.1
  enginePersistent :=
    input.enginePersistentBytes + input.features.visionTowerBytes + input.features.specDecodeBytes
  forwardScratch := input.forwardScratchBytes
  kv :=
    { blocks := input.distribute.2
      blocksPerSeq := input.blocksFor input.seq
      swaBlocks := input.swaBlocks
      bytes := input.distribute.2 * input.perBlock
      swaBytes := input.swaBytes
      belowFloor := decide (0 < input.floorBlocks ∧ input.distribute.2 < input.floorBlocks) }
  pools := input.pools
  libraryReserve := input.libraryBytes
  contextReserve := input.contextBytes

/-- A knob with its old and new value. -/
def lever (knob : String) (old new : Nat) : String := s!"{knob} {old} -> {new}"

/-- The knobs, with what each of them frees. -/
def levers : List PlanLever :=
  let p := input.memoryPlan
  let half := input.blocksFor (input.seq / 2)
  (if 256 < input.seq ∧ 0 < input.perBlock then
    [⟨lever "runtime.max_seq_len" input.seq (input.seq / 2),
      (p.kv.blocksPerSeq - half) * input.perBlock * input.batch⟩] else []) ++
  (if 1 < input.batch then
    [⟨lever "runtime.max_batch_size" input.batch (input.batch - 1),
      p.kv.bytes / input.batch + p.kv.swaBytes / input.batch⟩] else []) ++
  (if 0 < p.kv.bytes then [⟨"kv_cache.dtype f16 -> fp8", p.kv.bytes / 2⟩] else []) ++
  (if input.model.mandatoryCacheBytes < input.model.weightCacheBytes then
    [⟨"drop the optional weight caches",
      input.model.weightCacheBytes - input.model.mandatoryCacheBytes⟩] else [])

/-- The report of a plan that does not fit. A pool below the floor is listed with what the floor
would cost. -/
def planFailure : PlanFailure :=
  let p := input.memoryPlan
  let need := input.floorBlocks * input.perBlock
  let requested := if p.kv.belowFloor then p.total - p.kv.bytes + need else p.total
  { requested
    budget := input.budgetBytes
    overBy := requested - input.budgetBytes
    lines := p.lines.map fun l =>
      if p.kv.belowFloor ∧ l.tag = .kvBlockPool then { l with bytes := need } else l
    levers := (input.levers.insertionSort fun a b => b.frees ≤ a.frees).take 3 }

end PlanInput

variable (input : PlanInput)

/-- `plan_memory`. -/
def planMemory : PlanResult :=
  let p := input.memoryPlan
  if p.total ≤ input.budgetBytes ∧ p.kv.belowFloor = false then ⟨true, p, none⟩
  else ⟨false, p, some input.planFailure⟩

/-! ## What the plan is for -/

/-- The mandatory charges and the floor of the KV pool are within the budget. -/
def Fits : Prop :=
  input.contextBytes + input.libraryBytes + (input.model.weightBytes + input.mandatoryCaches) +
    (input.enginePersistentBytes + input.features.visionTowerBytes +
      input.features.specDecodeBytes) + input.forwardScratchBytes +
    (input.features.ssmStateBytes + input.features.recurrentSnapshotBytes +
      input.features.residualRingBytes) + input.swaBytes +
    input.floorBlocks * input.perBlock ≤ input.budgetBytes

/-- A floor that fits is within what the plan tries to reach: there are global layers, the batch
wants as many blocks, and one sequence does or the budget has room for all optional caches too. -/
def FloorInReach : Prop :=
  input.floorBlocks = 0 ∨ ¬ Fits input ∨
    0 < input.perBlock ∧ input.floorBlocks ≤ input.blocksFor input.seq * input.batch ∧
      (input.floorBlocks ≤ input.blocksFor input.seq ∨
        input.committed + input.optionalCacheDemand + input.floorBlocks * input.perBlock ≤
          input.budgetBytes)

/-- The input without optional caches. -/
def withoutOptional : PlanInput :=
  { input with model := { input.model with weightCacheBytes := input.mandatoryCaches } }

variable {input : PlanInput}

theorem sumBytes_push (lines : List PlanLine) (name : String) (tag : RegionTag) (bytes : Nat) :
    sumBytes (push lines name tag bytes) = sumBytes lines + bytes := by
  unfold push
  split_ifs with h
  · simp [sumBytes]
  · omega

theorem fits_iff :
    Fits input ↔ input.committed + input.floorBlocks * input.perBlock ≤ input.budgetBytes := by
  have hpools : sumBytes input.pools = input.features.ssmStateBytes +
      input.features.recurrentSnapshotBytes + input.features.residualRingBytes := by
    rw [PlanInput.pools, sumBytes_push, sumBytes_push, sumBytes_push, sumBytes, List.map_nil,
      List.sum_nil, zero_add]
  rw [Fits, PlanInput.committed, hpools]
  generalize input.floorBlocks * input.perBlock = floorBytes
  omega

theorem total_memoryPlan :
    input.memoryPlan.total =
      input.committed + input.distribute.1 + input.distribute.2 * input.perBlock := by
  simp only [MemoryPlan.total, PlanInput.memoryPlan, PlanInput.committed]
  generalize input.distribute.2 * input.perBlock = kvBytes
  omega

theorem plan_planMemory : (planMemory input).plan = input.memoryPlan := by
  unfold planMemory
  dsimp only
  split_ifs <;> rfl

theorem planMemory_ok :
    (planMemory input).ok = true ↔
      input.committed + input.distribute.1 + input.distribute.2 * input.perBlock ≤
          input.budgetBytes ∧
        (input.floorBlocks = 0 ∨ input.floorBlocks ≤ input.distribute.2) := by
  have hfloor : input.memoryPlan.kv.belowFloor = false ↔
      input.floorBlocks = 0 ∨ input.floorBlocks ≤ input.distribute.2 := by
    change decide (0 < input.floorBlocks ∧ input.distribute.2 < input.floorBlocks) = false ↔ _
    rw [decide_eq_false_iff_not]
    omega
  rw [← total_memoryPlan, ← hfloor]
  unfold planMemory
  dsimp only
  split_ifs with h
  · exact iff_of_true rfl h
  · exact iff_of_false id h

/-- Nothing is distributed that the budget does not leave. -/
theorem distribute_le (h : input.committed ≤ input.budgetBytes) :
    input.committed + input.distribute.1 + input.distribute.2 * input.perBlock ≤
      input.budgetBytes := by
  unfold PlanInput.distribute
  split_ifs with hnone
  · omega
  · dsimp only
    have hcaches : input.grantedCaches (input.budgetBytes - input.committed) ≤
        input.budgetBytes - input.committed := by
      unfold PlanInput.grantedCaches
      dsimp only
      split_ifs <;> omega
    generalize input.grantedCaches (input.budgetBytes - input.committed) = caches at *
    have hblocks : min (input.blocksFor input.seq * input.batch)
          ((input.budgetBytes - input.committed - caches) / input.perBlock) * input.perBlock ≤
        input.budgetBytes - input.committed - caches :=
      (Nat.mul_le_mul_right _ (min_le_right _ _)).trans (Nat.div_mul_le_self _ _)
    omega

/-- The optional caches leave bytes for the floor if and only if one sequence needs as many or there
is room for both. -/
theorem le_grantedCaches_iff {residual floorBytes : Nat} (hfits : floorBytes ≤ residual) :
    floorBytes ≤ residual - input.grantedCaches residual ↔
      floorBytes ≤ input.blocksFor input.seq * input.perBlock ∨
        input.optionalCacheDemand + floorBytes ≤ residual := by
  unfold PlanInput.grantedCaches
  dsimp only
  generalize input.blocksFor input.seq * input.perBlock = kvFloorBytes
  split_ifs <;> omega

/-- A floor that fits is reached if and only if it is in reach. -/
theorem floor_le_distribute_iff
    (hfits : input.committed + input.floorBlocks * input.perBlock ≤ input.budgetBytes) :
    input.floorBlocks = 0 ∨ input.floorBlocks ≤ input.distribute.2 ↔ FloorInReach input := by
  rw [FloorInReach, fits_iff, or_iff_right (not_not.mpr hfits)]
  rcases Nat.eq_zero_or_pos input.floorBlocks with hzero | hpos
  · simp only [hzero, true_or]
  refine or_congr_right ?_
  rcases Nat.eq_zero_or_pos input.perBlock with hnone | hblock
  · rw [PlanInput.distribute, if_pos (.inr hnone)]
    dsimp only
    omega
  have hbytes : 0 < input.floorBlocks * input.perBlock := Nat.mul_pos hpos hblock
  rw [PlanInput.distribute, if_neg (by omega), and_iff_right hblock]
  dsimp only
  rw [Nat.le_min, Nat.le_div_iff_mul_le hblock, le_grantedCaches_iff (by omega),
    Nat.mul_le_mul_right_iff hblock]
  generalize input.floorBlocks * input.perBlock = floorBytes at *
  omega

/-- Blocks that are reached fit. -/
theorem fits_of_distribute
    (htotal : input.committed + input.distribute.1 + input.distribute.2 * input.perBlock ≤
      input.budgetBytes) (hfloor : input.floorBlocks = 0 ∨ input.floorBlocks ≤ input.distribute.2) :
    input.committed + input.floorBlocks * input.perBlock ≤ input.budgetBytes := by
  have hbytes : input.floorBlocks * input.perBlock ≤ input.distribute.2 * input.perBlock :=
    Nat.mul_le_mul_right _ (by omega)
  omega

/-- Acceptance is the inequality if and only if the floor is in reach. -/
theorem ok_iff_fits : ((planMemory input).ok = true ↔ Fits input) ↔ FloorInReach input := by
  rw [planMemory_ok]
  by_cases hfits : Fits input
  · have hbytes := fits_iff.mp hfits
    rw [iff_true_right hfits, ← floor_le_distribute_iff hbytes]
    exact and_iff_right (distribute_le (by omega))
  · refine iff_of_true (iff_of_false ?_ hfits) (.inr (.inl hfits))
    rintro ⟨htotal, hfloor⟩
    exact hfits (fits_iff.mpr (fits_of_distribute htotal hfloor))

theorem mandatoryCaches_withoutOptional :
    (withoutOptional input).mandatoryCaches = input.mandatoryCaches := by
  unfold withoutOptional PlanInput.mandatoryCaches
  dsimp only
  omega

/-- Without optional caches the same floor fits the same budget. -/
theorem fits_withoutOptional : Fits (withoutOptional input) ↔ Fits input := by
  unfold Fits
  rw [mandatoryCaches_withoutOptional]
  rfl

/-- Without optional caches nothing stands between the floor and the budget. -/
theorem FloorInReach.withoutOptional (h : FloorInReach input) :
    FloorInReach (withoutOptional input) := by
  by_cases hfits : Fits input
  · refine h.imp_right fun hreach => .inr ?_
    obtain ⟨hblock, hwant, -⟩ := hreach.resolve_left (not_not.mpr hfits)
    refine ⟨hblock, hwant, .inr ?_⟩
    rw [PlanInput.optionalCacheDemand, mandatoryCaches_withoutOptional]
    exact (congrArg (_ + · + _ ≤ _) (Nat.sub_self _)).mpr
      (fits_iff.mp (fits_withoutOptional.mpr hfits))
  · exact .inr (.inl (fits_withoutOptional.not.mpr hfits))

/-- A plan is accepted if and only if the mandatory charges and the floor fit, the optional caches
do not change that, and an accepted plan is within the budget: exactly if the floor is in reach. -/
theorem planMemory_ok_iff :
    ((planMemory input).ok = true ↔ Fits input) ∧
      (planMemory (withoutOptional input)).ok = (planMemory input).ok ∧
      ((planMemory input).ok = true → (planMemory input).plan.total ≤ input.budgetBytes) ↔
    FloorInReach input := by
  refine ⟨fun h => ok_iff_fits.mp h.1, fun hreach => ⟨ok_iff_fits.mpr hreach, ?_, fun hok => ?_⟩⟩
  · rw [Bool.eq_iff_iff, ok_iff_fits.mpr hreach, ok_iff_fits.mpr hreach.withoutOptional,
      fits_withoutOptional]
  · rw [plan_planMemory, total_memoryPlan]
    exact (planMemory_ok.mp hok).1

/-- Two global layers, one sequence of 64 tokens, a floor of 32 of them and optional caches. -/
def smallInput : PlanInput where
  model := { nKvLayers := 2, weightBytes := 100, weightCacheBytes := 50, mandatoryCacheBytes := 10 }
  limits := { maxSeqLen := 64, kvBlockBytesPerLayer := 8, minKvTokens := 32 }
  budgetBytes := 150

/-- A model without global layers. -/
def noGlobalLayers : PlanInput where
  limits := { maxSeqLen := 64, kvBlockBytesPerLayer := 8, minKvTokens := 32 }
  budgetBytes := 100

/-- A floor above what the batch can use. -/
def highFloor : PlanInput where
  model := { nKvLayers := 1 }
  limits := { maxSeqLen := 16, kvBlockBytesPerLayer := 1, minKvTokens := 32 }
  budgetBytes := 100

/-- A floor of two sequences, and optional caches for all but one of them. -/
def greedyCaches : PlanInput where
  model := { nKvLayers := 1, weightCacheBytes := 100 }
  limits := { maxBatchSize := 2, maxSeqLen := 16, kvBlockBytesPerLayer := 1, minKvTokens := 32 }
  budgetBytes := 100

/-- Plans that fit and are rejected. The last one is accepted without its optional caches. -/
theorem fitting_plan_rejected :
    (Fits noGlobalLayers ∧ (planMemory noGlobalLayers).ok = false) ∧
      (Fits highFloor ∧ (planMemory highFloor).ok = false) ∧
      (Fits greedyCaches ∧ (planMemory greedyCaches).ok = false ∧
        (planMemory (withoutOptional greedyCaches)).ok = true) := by
  unfold Fits
  decide

end Quench.Plan

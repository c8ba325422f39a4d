import Quench.Runtime.Request

/-!
# The continuous-batching scheduler

`Scheduler` of `runtime/scheduler.cpp` with the request records it shares with the engine and the
server worker. A `shared_ptr<Request>` is a `Ref` into `requests`, so that a status written by one
party is seen by all of them, and the same request may stand in several lists.

`std::ranges::sort` is not stable: the order of requests with prompts of one length is whatever the
`order` of a `Config` makes it. The engine's reuse limit is the hook `prefixReuseLimit`.
-/

namespace Quench

namespace Request

variable (req : Request)

/-- A request that `schedule` removes from the active list. -/
def isTerminal : Bool :=
  req.status == .finished || req.status == .cancelled

def hasImage : Bool :=
  req.image || decide (req.qwenPatches ≠ 0) || req.visionEmb || decide (0 < req.nVisionTokens)

/-- An image request takes part in prefix caching only through the hash of its pictures. -/
def cacheable : Bool := !req.hasImage || req.visionContentHash != 0

/-- The blocks that prompt and output occupy. -/
def blocksNeeded (blockSize : Nat) : Nat :=
  (req.contextLen + blockSize - 1) / blockSize

/-- The prompt tokens whose prefill `reused` blocks save. At least one token is forwarded. -/
def reuseSkip (blockSize : Nat) (reused : Int) : Int :=
  let total : Int := req.inputTokens.length
  let skip := reused * blockSize
  let skip := if total ≤ skip then total / blockSize * blockSize else skip
  if total ≤ skip then total - 1 else skip

/-- Start the prefill behind the reused blocks. -/
def skipReused (blockSize : Nat) (reused : Int) : Request :=
  if 0 < reused then
    let skip := req.reuseSkip blockSize reused
    { req with prefillOffset := skip, cachedTokens := skip }
  else req

/-- A chunked prefill that has started and is not complete. -/
def midPrefill : Bool :=
  req.status == .prefilling && decide (0 < req.prefillOffset) &&
    decide (req.prefillOffset < req.inputTokens.length)

end Request

/-- A shared pointer to a request. -/
abbrev Ref := Nat

/-- One request may stand before another in the sorted queue. -/
def PromptLe (requests : Ref → Request) (a b : Ref) : Prop :=
  (requests a).inputTokens.length ≤ (requests b).inputTokens.length

instance (requests : Ref → Request) : DecidableRel (PromptLe requests) :=
  fun _ _ => Nat.decLe _ _

instance (requests : Ref → Request) : Std.Total (PromptLe requests) :=
  ⟨fun _ _ => le_total _ _⟩

instance (requests : Ref → Request) : IsTrans Ref (PromptLe requests) :=
  ⟨fun _ _ _ => le_trans⟩

/-- A sort of the pending queue by prompt length, as `std::ranges::sort` may perform it. -/
structure PendingOrder where
  sort : (Ref → Request) → List Ref → List Ref
  perm : ∀ requests refs, (sort requests refs).Perm refs
  sorted : ∀ requests refs, (sort requests refs).Pairwise (PromptLe requests)

/-- The stable sort by prompt length is one of them. -/
def PendingOrder.stable : PendingOrder where
  sort requests refs := refs.insertionSort (PromptLe requests)
  perm requests refs := List.perm_insertionSort (PromptLe requests) refs
  sorted requests refs := List.pairwise_insertionSort (PromptLe requests) refs

/-- What the scheduler is given besides its state: the sort, and the engine's hook. The hook
returns the cap on reused blocks and the snapshots it attaches to the request. -/
structure SchedulerConfig where
  order : PendingOrder
  prefixReuseLimit : Option (KVCacheManager → Request → Int × Option Nat × Option Nat)

/-- The scheduler's lists, the manager it reserves blocks from, and the shared requests. -/
structure Scheduler where
  maxBatchSize : Int := 32
  pendingDirty : Bool := false
  pending : List Ref := []
  active : List Ref := []
  kvManager : Option KVCacheManager := none
  requests : Ref → Request

namespace Scheduler

/-- `add_request`. -/
def addRequest (s : Scheduler) (ref : Ref) : Scheduler :=
  { s with pending := s.pending ++ [ref], pendingDirty := true }

/-- Write one request record. -/
def setRequest (s : Scheduler) (ref : Ref) (req : Request) : Scheduler :=
  { s with requests := Function.update s.requests ref req }

variable (config : SchedulerConfig)

/-- The call of the hook: its cap, `-1` without a hook, and the request with its snapshots. -/
def reuseLimit (kv : KVCacheManager) (req : Request) : Int × Request :=
  match config.prefixReuseLimit with
  | none => (-1, req)
  | some limit =>
    let (maxReuse, recurrentRestore, swaRestore) := limit kv req
    (maxReuse, { req with recurrentRestore, swaRestore })

/-- What becomes of a pending request. -/
inductive Verdict where
  | promote
  | wait
  | overCapacity
  deriving DecidableEq, Repr

/-- Reserve the blocks of a request with prefix reuse. A count of reused blocks that differs from
the snapshot boundary falls back to plain allocation. -/
def reserveWithReuse (kv : KVCacheManager) (req : Request) : Verdict × Request × KVCacheManager :=
  let (maxReuse, req) := reuseLimit config kv req
  let (reused, reusedKv) :=
    kv.allocateBlocksWithPrefix req.id req.inputTokens maxReuse req.visionContentHash
  if reused < 0 then (.wait, req, reusedKv)
  else if 0 ≤ maxReuse ∧ reused ≠ maxReuse then
    let req := { req with recurrentRestore := none }
    match (reusedKv.freeSequence req.id).allocateBlocks req.id (req.blocksNeeded kv.blockSize) with
    | (false, kv) => (.wait, req, kv)
    | (true, kv) => (.promote, req, kv)
  else (.promote, req.skipReused kv.blockSize reused, reusedKv)

/-- The memory-aware check of one pending request and the reservation of its blocks. A request
that the cache can never hold is cancelled. -/
def reserve (kv : KVCacheManager) (req : Request) : Verdict × Request × KVCacheManager :=
  let blocksNeeded := req.blocksNeeded kv.blockSize
  if kv.canAllocate blocksNeeded then
    if kv.prefixCachingEnabled && req.cacheable then reserveWithReuse config kv req
    else
      match kv.allocateBlocks req.id blocksNeeded with
      | (false, kv) => (.wait, req, kv)
      | (true, kv) => (.promote, req, kv)
  else if kv.pool.numBlocks < blocksNeeded then
    (.overCapacity, { req with status := .cancelled, cancelReason := .kvCapacity }, kv)
  else (.wait, req, kv)

/-- `reserve` against the scheduler's manager; without one every request is promoted. -/
def consider (s : Scheduler) (ref : Ref) : Verdict × Scheduler :=
  match s.kvManager with
  | none => (.promote, s)
  | some kv =>
    let (verdict, req, kv) := reserve config kv (s.requests ref)
    (verdict, { s.setRequest ref req with kvManager := some kv })

/-- Move a request to the active list. -/
def promote (s : Scheduler) (ref : Ref) : Scheduler :=
  { s.setRequest ref { s.requests ref with status := .prefilling } with
    active := s.active ++ [ref] }

/-- The promotion loop over the rest of the queue: the requests that stay pending, the prefill
batch, and the state. -/
def promoteLoop (config : SchedulerConfig) : List Ref → Scheduler → List Ref × List Ref × Scheduler
  | [], s => ([], [], s)
  | ref :: rest, s =>
    if s.active.length < s.maxBatchSize then
      match s.consider config ref with
      | (.promote, s) =>
        let (kept, batch, s) := promoteLoop config rest (s.promote ref)
        (kept, ref :: batch, s)
      | (.wait, s) =>
        let (kept, batch, s) := promoteLoop config rest s
        (ref :: kept, batch, s)
      | (.overCapacity, s) => promoteLoop config rest s
    else (ref :: rest, [], s)

/-- The chunked prefills still to be continued, each queued once. -/
def requeue (requests : Ref → Request) (batch : List Ref) (active : List Ref) : List Ref :=
  active.foldl
    (fun batch ref =>
      if (requests ref).midPrefill && !batch.contains ref then batch ++ [ref] else batch) batch

/-- What one call of `schedule` hands out. -/
structure Batches where
  prefill : List Ref
  decode : List Ref

/-- `schedule`: drop terminal requests from the active list, sort the queue if it grew, promote
what fits, and collect the two batches. -/
def schedule (s : Scheduler) : Batches × Scheduler :=
  let active := s.active.filter fun ref => !(s.requests ref).isTerminal
  let queue := if s.pendingDirty then config.order.sort s.requests s.pending else s.pending
  let (kept, batch, s) := promoteLoop config queue { s with active, pendingDirty := false }
  ({ prefill := requeue s.requests batch s.active
     decode := s.active.filter fun ref => (s.requests ref).status == .decoding },
    { s with pending := kept })

end Scheduler

end Quench

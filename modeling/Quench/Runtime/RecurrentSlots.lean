import Mathlib.Data.Finset.Card
import Quench.Lib.Runs
import Quench.Runtime.Request

/-!
# Recurrent-state slots

The allocator of recurrent-state slots of `engine_sampling_stop.cpp` and the ways a request takes
and gives back its slot: admission, prefill chunks, decode steps, immediate and deferred finishes,
cancellations by the engine and by the worker, and exceptions. `Parted` says that the free list and
the slots in use are together the slots of the state, each once. Some endings do not give the slot
back, and then two running requests can share one (`leaked_slot_shared`); without them none is
shared (`slots_unshared`).
-/

namespace Quench.Slots

open List

variable {pool : Pool} {req : Request}

/-! ## The pool -/

/-- The slot allocator of an engine whose recurrent state has `capacity` sequences. The list of free
slots begins with the back of the source's vector. -/
structure Pool where
  capacity : Nat
  freeSlots : List Nat := []
  slotOf : Lib.Table Nat Nat := ∅
  initialized : Bool := false

/-- The slot that `fill_recurrent_state` chose, and whether it was the remainder of the id. -/
structure Selection where
  slot : Nat
  byModulo : Bool := false
  deriving DecidableEq, Repr

namespace Pool

variable (pool : Pool)

/-- The list of free slots is filled at the first use. -/
def ready : Pool :=
  if pool.initialized then pool
  else { pool with freeSlots := List.range pool.capacity, initialized := true }

/-- `acquire_recurrent_slot_`. -/
def acquireRecurrentSlot (id : Nat) : Selection × Pool :=
  if pool.capacity = 0 then (⟨0, false⟩, pool)
  else match pool.slotOf.lookup id with
    | some slot => (⟨slot, false⟩, pool)
    | none =>
      match pool.ready.freeSlots with
      | slot :: rest =>
        (⟨slot, false⟩, { pool.ready with freeSlots := rest, slotOf := pool.slotOf.insert id slot })
      | [] =>
        (⟨id % pool.capacity, true⟩,
          { pool.ready with slotOf := pool.slotOf.insert id (id % pool.capacity) })

/-- `release_recurrent_slot_`. -/
def releaseRecurrentSlot (id : Nat) : Pool :=
  match pool.slotOf.lookup id with
  | none => pool
  | some slot =>
    { pool with freeSlots := slot :: pool.freeSlots, slotOf := pool.slotOf.erase id }

/-- The choice of a slot in `fill_recurrent_state`. -/
def fillRecurrentState (id : Nat) (reset : Bool) : Selection × Pool :=
  if reset then pool.acquireRecurrentSlot id
  else match pool.slotOf.lookup id with
    | some slot => (⟨slot, false⟩, pool)
    | none => if 0 < pool.capacity then (⟨id % pool.capacity, true⟩, pool) else (⟨0, false⟩, pool)

/-- The slots in use, one for each request in the table. -/
def heldSlots (pool : Pool) : List Nat := pool.slotOf.values

/-- Free slots and slots in use are together all slots, each once. Before the first use the list of
free slots is empty. -/
structure Parted (pool : Pool) : Prop where
  split : (pool.ready.freeSlots ++ pool.heldSlots).Perm (List.range pool.capacity)
  unopened : pool.initialized = false → pool.freeSlots = []

@[simp] theorem ready_capacity : pool.ready.capacity = pool.capacity := by
  unfold ready
  split <;> rfl

@[simp] theorem ready_initialized : pool.ready.initialized = true := by
  unfold ready
  split
  · assumption
  · rfl

theorem ready_of_initialized {pool : Pool} (h : pool.initialized = true) : pool.ready = pool :=
  if_pos h

theorem parted_start (capacity : Nat) : Parted { capacity } where
  split := by simp [ready, heldSlots, Lib.Table.values]
  unopened _ := rfl

namespace Parted

variable {pool : Pool}

section

variable (h : pool.Parted)
include h

theorem nodup : (pool.ready.freeSlots ++ pool.heldSlots).Nodup :=
  h.split.nodup_iff.mpr nodup_range

/-- The list of free slots, filled or not, is part of the list after the first use. -/
theorem freeSlots_sublist : pool.freeSlots.Sublist pool.ready.freeSlots := by
  cases hopen : pool.initialized with
  | false =>
    rw [h.unopened hopen]
    exact nil_sublist _
  | true => rw [ready_of_initialized hopen]

theorem freeSlots_disjoint : pool.freeSlots.Disjoint pool.heldSlots :=
  fun _ hfree hheld =>
    disjoint_of_nodup_append h.nodup (h.freeSlots_sublist.subset hfree) hheld

/-- A pool that gave out a slot was opened. -/
theorem opened {id slot : Nat} (hslot : pool.slotOf.lookup id = some slot) :
    pool.initialized = true := by
  cases hopen : pool.initialized with
  | true => rfl
  | false =>
    have hready : pool.ready.freeSlots = List.range pool.capacity := by simp [ready, hopen]
    have hlength := h.split.length_eq
    rw [hready, length_append, length_range] at hlength
    have hheld : 0 < pool.heldSlots.length :=
      length_pos_of_mem (Lib.Table.mem_values hslot)
    omega

omit h in
theorem of_opened (hopen : pool.initialized = true)
    (hsplit : (pool.freeSlots ++ pool.heldSlots).Perm (List.range pool.capacity)) :
    pool.Parted where
  split := by rwa [ready_of_initialized hopen]
  unopened hclosed := absurd (hopen.symm.trans hclosed) (by decide)

theorem release (id : Nat) : (pool.releaseRecurrentSlot id).Parted := by
  unfold releaseRecurrentSlot
  split
  case h_1 => exact h
  case h_2 slot hslot =>
    have hopen := h.opened hslot
    have hsplit := h.split
    rw [ready_of_initialized hopen] at hsplit
    have hmove : (slot :: pool.freeSlots ++ Lib.Table.values (pool.slotOf.erase id)).Perm
        (pool.freeSlots ++ pool.heldSlots) :=
      perm_middle.symm.trans (List.Perm.append_left _ (Lib.Table.values_erase hslot).symm)
    exact of_opened hopen (hmove.trans hsplit)

/-- With fewer requests in the table than slots, one is free. -/
theorem freeSlots_ne_nil (hroom : pool.slotOf.keys.length < pool.capacity) :
    pool.ready.freeSlots ≠ [] := by
  intro hnil
  have hlength := h.split.length_eq
  have hkeys : pool.heldSlots.length = pool.slotOf.keys.length := by
    simp [heldSlots, Lib.Table.values, AList.keys, List.keys]
  simp only [hnil, nil_append, length_range] at hlength
  omega

/-- What acquiring a slot does when the request has one, or another slot is free. -/
theorem acquire {id : Nat} (hpos : 0 < pool.capacity)
    (hroom : id ∉ pool.slotOf → pool.slotOf.keys.length < pool.capacity) :
    (pool.acquireRecurrentSlot id).1.byModulo = false ∧
      (pool.acquireRecurrentSlot id).2.Parted ∧
      ∀ other, other ∈ (pool.acquireRecurrentSlot id).2.slotOf ↔
        other = id ∨ other ∈ pool.slotOf := by
  unfold acquireRecurrentSlot
  rw [if_neg (by omega)]
  cases hslot : pool.slotOf.lookup id with
  | some slot =>
    have hid : id ∈ pool.slotOf := Lib.Table.mem_of_lookup hslot
    exact ⟨rfl, h, fun other => (or_iff_right_of_imp fun heq => heq ▸ hid).symm⟩
  | none =>
    have hfree := h.freeSlots_ne_nil (hroom (AList.lookup_eq_none.mp hslot))
    cases hlist : pool.ready.freeSlots with
    | nil => exact absurd hlist hfree
    | cons slot rest =>
      have hsplit := h.split
      rw [hlist] at hsplit
      have hheld : heldSlots { pool.ready with
          freeSlots := rest, slotOf := pool.slotOf.insert id slot }
            = slot :: pool.heldSlots := Lib.Table.values_insert hslot
      refine ⟨rfl, of_opened (ready_initialized pool) ?_, fun other => AList.mem_insert _⟩
      rw [hheld, ready_capacity]
      exact perm_middle.trans hsplit

end

/-- A request with a slot is given its slot again. -/
theorem fill_held {id : Nat} (hid : id ∈ pool.slotOf) :
    pool.fillRecurrentState id false = (⟨(pool.slotOf.lookup id).getD 0, false⟩, pool) := by
  obtain ⟨slot, hslot⟩ := Option.isSome_iff_exists.mp (AList.lookup_isSome.mpr hid)
  simp [fillRecurrentState, hslot]

end Parted

end Pool

/-! ## The engine -/

/-- What the slot of a request depends on: the requests and their ids, the scheduler's queue, the
worker's list of requests, and the decode pipeline with the requests it has still to release. -/
structure Engine where
  pool : Pool
  requests : Nat → Request := fun _ => {}
  nextRequestId : Nat := 0
  pending : List Nat := []
  active : List Nat := []
  inFlight : Bool := false
  deferred : List Nat := []

/-- How a prefill chunk ends: with more of the prompt to come, with the first token, with a first
token that stops the request, or with an exception. -/
inductive ChunkEnd where
  | more (length : Nat)
  | decodes
  | finishes
  | throws
  deriving DecidableEq, Repr

/-- The chunk is the last one of its prompt and throws nothing. -/
def ChunkEnd.IsLast (ending : ChunkEnd) : Prop := ending = .decodes ∨ ending = .finishes

instance (ending : ChunkEnd) : Decidable ending.IsLast :=
  inferInstanceAs (Decidable (ending = .decodes ∨ ending = .finishes))

/-- What happens to the requests of an engine. `stops` are the rows of a decode step that end with
it, and `uploaded` says whether all copies of a chunk's metadata succeed. A refusal is a
cancellation by the engine itself, when a part of a step is not to be had. -/
inductive Event where
  | submit
  | promote (id skip : Nat)
  | prefill (id skip : Nat) (stops : List Nat) (uploaded : Bool) (ending : ChunkEnd)
  | decode (id : Nat) (launch : Bool) (stops : List Nat)
  | pipelined (stops : List Nat) (chained : Bool)
  | drain (stops : List Nat)
  | refuse (id : Nat)
  | finishLoop (id : Nat)
  | cancel (id : Nat) (stops : List Nat)
  | throws
  | deliver
  deriving DecidableEq, Repr

namespace Engine

/-- An engine before its first request. -/
def start (capacity : Nat) : Engine := { pool := { capacity } }

variable (s : Engine)

def status (id : Nat) : RequestStatus := (s.requests id).status

/-- The request is PREFILLING or DECODING. -/
def live (id : Nat) : Bool :=
  s.status id == .prefilling || s.status id == .decoding

/-- The request runs and the first chunk of its prompt is done. -/
def started (id : Nat) : Bool :=
  s.status id == .decoding ||
    (s.status id == .prefilling && (s.requests id).prefillOffset != (s.requests id).cachedTokens)

def ended (id : Nat) : Bool :=
  s.status id == .finished || s.status id == .cancelled

def setRequest (id : Nat) (req : Request) : Engine :=
  { s with requests := Function.update s.requests id req }

def setStatus (id : Nat) (status : RequestStatus) : Engine :=
  s.setRequest id { s.requests id with status }

/-- The part of `finish_request_release_` and `reset_ssm_state` that concerns the slot. -/
def release (id : Nat) : Engine :=
  { s with pool := s.pool.releaseRecurrentSlot id }

/-- A decode row that stops. Its resources are kept while a decode step is in flight. -/
def stopRow (id : Nat) : Engine :=
  if s.status id = .decoding then
    if s.inFlight then { s.setStatus id .finished with deferred := s.deferred ++ [id] }
    else (s.setStatus id .finished).release id
  else s

/-- `pipeline_run_deferred_releases_`. -/
def runDeferredReleases : Engine :=
  { s.deferred.foldl release s with deferred := [] }

/-- `abandon_decode_pipeline`, which is also how the pipeline ends. -/
def abandonDecodePipeline : Engine :=
  { s.runDeferredReleases with inFlight := false }

/-- `drain_decode_pipeline`: the outputs of the step in flight are taken in. -/
def drainDecodePipeline (stops : List Nat) : Engine :=
  if s.inFlight then (stops.foldl stopRow s).abandonDecodePipeline else s

/-- A prompt whose blocks are not there yet starts after the `skip` tokens found in the cache. -/
def skipCached (req : Request) (skip : Nat) : Request :=
  if req.prefillOffset = 0 ∧ req.cachedTokens = 0 then
    { req with prefillOffset := skip, cachedTokens := skip }
  else req

/-- The end of a prefill chunk. -/
def endChunk (id : Nat) : ChunkEnd → Engine
  | .more length =>
    s.setRequest id { s.requests id with prefillOffset := (s.requests id).prefillOffset + length }
  | .decodes => s.setStatus id .decoding
  | .finishes => (s.setStatus id .finished).release id
  | .throws => s

/-- A prefill chunk of `step_prefill_one`. If a copy of `prefill_upload_metadata_` fails, the
request is CANCELLED and the chunk goes on. -/
def prefillChunk (id skip : Nat) (uploaded : Bool) (ending : ChunkEnd) :
    Option Selection × Engine :=
  let req := skipCached (s.requests id) skip
  let req := if uploaded then req else { req with status := .cancelled }
  let filled := s.pool.fillRecurrentState id (req.prefillOffset == req.cachedTokens)
  (some filled.1, { s.setRequest id req with pool := filled.2 }.endChunk id ending)

/-- The cancellation of one request by the worker, of which nothing is done for a request that has
ended. -/
def abort (id : Nat) : Engine :=
  if s.ended id then s else (s.setStatus id .cancelled).release id

/-- One event, with the slot that `fill_recurrent_state` chose in it. An event whose guard does not
hold does not happen. -/
def step : Event → Option Selection × Engine
  | .submit =>
    (none, { s with
      nextRequestId := s.nextRequestId + 1
      pending := s.pending ++ [s.nextRequestId]
      active := s.active ++ [s.nextRequestId] })
  | .promote id skip =>
    if id ∈ s.pending then
      let req := { s.requests id with
        status := .prefilling, prefillOffset := skip, cachedTokens := skip }
      (none, { s.setRequest id req with pending := s.pending.erase id })
    else (none, s)
  | .prefill id skip stops uploaded ending =>
    let s := s.drainDecodePipeline stops
    if s.status id = .prefilling then s.prefillChunk id skip uploaded ending else (none, s)
  | .decode id launch stops =>
    if s.inFlight = false ∧ s.status id = .decoding then
      let filled := s.pool.fillRecurrentState id false
      (some filled.1, stops.foldl stopRow { s with pool := filled.2, inFlight := launch })
    else (none, s)
  | .pipelined stops chained =>
    if s.inFlight then
      let s := stops.foldl stopRow s
      (none, if chained then s else s.abandonDecodePipeline)
    else (none, s)
  | .drain stops => (none, s.drainDecodePipeline stops)
  | .refuse id => (none, if s.live id then s.setStatus id .cancelled else s)
  | .finishLoop id => (none, if s.status id = .decoding then s.setStatus id .finished else s)
  | .cancel id stops =>
    (none, if id ∈ s.active then (s.drainDecodePipeline stops).abort id else s)
  | .throws => (none, { (s.active.foldl abort s).abandonDecodePipeline with active := [] })
  | .deliver => (none, { s with active := s.active.filter fun id => !s.ended id })

/-- The slot that an event chooses. -/
def selected (event : Event) : Option Selection := (s.step event).1

/-- The state after an event. -/
def next (event : Event) : Engine := (s.step event).2

/-! ## Updates -/

@[simp] theorem requests_setRequest_self (id : Nat) (req : Request) :
    (s.setRequest id req).requests id = req := Function.update_self ..

theorem requests_setRequest_ne {id other : Nat} (h : other ≠ id) (req : Request) :
    (s.setRequest id req).requests other = s.requests other := Function.update_of_ne h ..

theorem live_iff {s : Engine} {id : Nat} :
    s.live id = true ↔ s.status id = .prefilling ∨ s.status id = .decoding := by
  unfold live
  simp

theorem live_of_started {s : Engine} {id : Nat} (h : s.started id = true) : s.live id = true := by
  unfold started at h
  unfold live
  cases hstatus : s.status id <;> simp_all

theorem mem_release (pool : Pool) (id other : Nat) :
    other ∈ (pool.releaseRecurrentSlot id).slotOf ↔ other ≠ id ∧ other ∈ pool.slotOf := by
  unfold Pool.releaseRecurrentSlot
  split
  case h_1 hnone =>
    refine ⟨fun h => ⟨?_, h⟩, And.right⟩
    rintro rfl
    exact AList.lookup_eq_none.mp hnone h
  case h_2 => exact AList.mem_erase

theorem foldl_release (ids : List Nat) (s : Engine) :
    ids.foldl release s = { s with pool := ids.foldl Pool.releaseRecurrentSlot s.pool } := by
  induction ids generalizing s with
  | nil => rfl
  | cons id ids ih => exact ih (s.release id)

theorem releases (ids : List Nat) (h : pool.Parted) :
    (ids.foldl Pool.releaseRecurrentSlot pool).Parted ∧
      ∀ other, other ∈ (ids.foldl Pool.releaseRecurrentSlot pool).slotOf ↔
        other ∉ ids ∧ other ∈ pool.slotOf := by
  induction ids generalizing pool with
  | nil => exact ⟨h, fun other => by simp⟩
  | cons id ids ih =>
    obtain ⟨hrest, hmem⟩ := ih (h.release id)
    refine ⟨hrest, fun other => (hmem other).trans ?_⟩
    rw [mem_release, mem_cons, not_or]
    tauto

theorem nextRequestId_abort (id : Nat) : (s.abort id).nextRequestId = s.nextRequestId := by
  unfold abort
  split <;> rfl

/-! ## Running requests -/

/-- How many requests are PREFILLING or DECODING. -/
def liveCount : Nat := (List.range s.nextRequestId).countP s.live

/-- No request runs in `s'` that does not run in `s`. -/
structure Quieter (s s' : Engine) : Prop where
  capacity : s'.pool.capacity = s.pool.capacity
  nextRequestId : s'.nextRequestId = s.nextRequestId
  live : ∀ id, s'.live id = true → s.live id = true

namespace Quieter

variable {s s' s'' : Engine}

theorem refl (s : Engine) : Quieter s s := ⟨rfl, rfl, fun _ h => h⟩

theorem trans (h : Quieter s s') (h' : Quieter s' s'') : Quieter s s'' :=
  ⟨h'.capacity.trans h.capacity, h'.nextRequestId.trans h.nextRequestId,
    fun id hlive => h.live id (h'.live id hlive)⟩

theorem liveCount_le (h : Quieter s s') : s'.liveCount ≤ s.liveCount := by
  unfold liveCount
  rw [h.nextRequestId]
  exact countP_mono_left fun id _ => h.live id

variable (s : Engine)

theorem release (id : Nat) : Quieter s (s.release id) := by
  refine ⟨?_, rfl, fun _ h => h⟩
  change (s.pool.releaseRecurrentSlot id).capacity = _
  unfold Pool.releaseRecurrentSlot
  split <;> rfl

theorem releases (ids : List Nat) : Quieter s (ids.foldl Engine.release s) :=
  foldlRecOn ids _ (refl s) fun _ h id _ => h.trans (release _ id)

theorem finish (id : Nat) : Quieter s (s.setStatus id .finished) := by
  refine ⟨rfl, rfl, fun other hlive => ?_⟩
  by_cases heq : other = id
  · subst heq
    simp [Engine.live, status, setStatus] at hlive
  · unfold Engine.live status at hlive ⊢
    rwa [setStatus, requests_setRequest_ne s heq] at hlive

theorem stopRow (id : Nat) : Quieter s (s.stopRow id) := by
  unfold Engine.stopRow
  split
  case isFalse => exact refl s
  case isTrue =>
    split
    case isTrue => exact (finish s id).trans ⟨rfl, rfl, fun _ h => h⟩
    case isFalse => exact (finish s id).trans (release _ id)

theorem stopRows (stops : List Nat) : Quieter s (stops.foldl Engine.stopRow s) :=
  foldlRecOn stops _ (refl s) fun _ h id _ => h.trans (stopRow _ id)

theorem drain (stops : List Nat) : Quieter s (s.drainDecodePipeline stops) := by
  unfold drainDecodePipeline
  split
  case isTrue => exact (stopRows s stops).trans ((releases _ _).trans ⟨rfl, rfl, fun _ h => h⟩)
  case isFalse => exact refl s

end Quieter

/-! ## What every event keeps -/

/-- What holds of one request. Its slot is in use while it runs or while its release is put off, and
past its first chunk it has one. -/
structure Fits (s : Engine) (id : Nat) : Prop where
  held : id ∈ s.pool.slotOf → s.live id = true ∨ id ∈ s.deferred
  begun : s.started id = true → id ∈ s.pool.slotOf
  done : id ∈ s.deferred → s.status id = .finished
  queued : id ∈ s.pending → s.status id = .pending ∨ s.status id = .cancelled
  unborn : s.nextRequestId ≤ id → s.status id = .pending ∧ id ∉ s.pending
  known : id ∈ s.active → id < s.nextRequestId

/-- What holds between events: every slot is free or in use, once, and every request fits. -/
structure Kept (s : Engine) : Prop where
  parted : s.pool.Parted
  fits : ∀ id, Fits s id
  flying : s.deferred ≠ [] → s.inFlight = true
  fresh : s.pending.Nodup

namespace Fits

variable {s s' : Engine} {id : Nat} (h : Fits s id)
include h

/-- What holds of a request depends on its record and on the lists it is in. -/
theorem congr (hreq : s'.requests id = s.requests id)
    (hslot : id ∈ s'.pool.slotOf ↔ id ∈ s.pool.slotOf)
    (hdeferred : id ∈ s'.deferred ↔ id ∈ s.deferred) (hpending : id ∈ s'.pending ↔ id ∈ s.pending)
    (hactive : id ∈ s'.active → id ∈ s.active) (hnext : s'.nextRequestId = s.nextRequestId) :
    Fits s' id := by
  have hstatus : s'.status id = s.status id := congrArg Request.status hreq
  have hlive : s'.live id = s.live id := by
    unfold live
    rw [hstatus]
  have hstarted : s'.started id = s.started id := by
    unfold started
    rw [hstatus, hreq]
  constructor
  · rw [hslot, hlive, hdeferred]
    exact h.held
  · rw [hslot, hstarted]
    exact h.begun
  · rw [hdeferred, hstatus]
    exact h.done
  · rw [hpending, hstatus]
    exact h.queued
  · rw [hnext, hpending, hstatus]
    exact h.unborn
  · rw [hnext]
    exact fun hid => h.known (hactive hid)

theorem born (hstatus : s.status id ≠ .pending) : id < s.nextRequestId := by
  by_contra hlt
  exact hstatus (h.unborn (Nat.le_of_not_lt hlt)).1

theorem not_deferred (hstatus : s.status id ≠ .finished) : id ∉ s.deferred :=
  fun hid => hstatus (h.done hid)

/-- A running request has left the queue, is known, and is not one to be released later. -/
theorem running (hlive : s.live id = true) :
    id ∉ s.pending ∧ id < s.nextRequestId ∧ id ∉ s.deferred := by
  have hstatus := live_iff.mp hlive
  refine ⟨fun hid => ?_, h.born ?_, h.not_deferred ?_⟩
  · rcases hstatus with hs | hs <;> rcases h.queued hid with hq | hq <;>
      exact absurd (hs.symm.trans hq) (by decide)
  · rcases hstatus with hs | hs <;> rw [hs] <;> decide
  · rcases hstatus with hs | hs <;> rw [hs] <;> decide

end Fits

namespace Kept

variable {s : Engine}
variable {id : Nat}

theorem start (capacity : Nat) : Kept (start capacity) where
  parted := Pool.parted_start capacity
  fits id :=
    { held := fun h => absurd h (AList.notMem_empty _)
      begun := fun h => by cases h
      done := fun h => absurd h not_mem_nil
      queued := fun h => absurd h not_mem_nil
      unborn := fun _ => ⟨rfl, not_mem_nil⟩
      known := fun h => absurd h not_mem_nil }
  flying h := absurd rfl h
  fresh := nodup_nil

variable (h : Kept s)
include h

/-- A request that ends with its slot given back. -/
theorem ends {status : RequestStatus}
    (hstatus : status = .cancelled ∨ status = .finished ∧ id ∉ s.pending)
    (hborn : id < s.nextRequestId) (hdeferred : id ∉ s.deferred) :
    Kept ((s.setStatus id status).release id) where
  parted := h.parted.release id
  fits other := by
    by_cases heq : other = id
    · subst heq
      have hnow : ((s.setStatus other status).release other).status other = status := by
        simp [Engine.status, setStatus, Engine.release]
      constructor
      · exact fun hslot => absurd rfl ((mem_release _ _ _).mp hslot).1
      · intro hstarted
        have hlive := live_iff.mp (live_of_started hstarted)
        rw [hnow] at hlive
        rcases hstatus with rfl | ⟨rfl, -⟩ <;> simp at hlive
      · exact fun hother => absurd hother hdeferred
      · rw [hnow]
        exact fun hother => .inr (hstatus.resolve_right fun hfinished => hfinished.2 hother)
      · exact fun hother => absurd hborn (Nat.not_lt.mpr hother)
      · exact fun _ => hborn
    · refine (h.fits other).congr (requests_setRequest_ne s heq _) ?_ .rfl .rfl (fun hid => hid) rfl
      exact (mem_release _ _ _).trans (and_iff_right heq)
  flying := h.flying
  fresh := h.fresh

/-- A request that ends without a slot to give back. -/
theorem ends_unheld {status : RequestStatus} (hstatus : status = .cancelled ∨ status = .finished)
    (hlive : s.live id = true) (hunheld : id ∉ s.pool.slotOf) : Kept (s.setStatus id status) := by
  have hrelease : (s.setStatus id status).release id = s.setStatus id status := by
    unfold Engine.release Pool.releaseRecurrentSlot
    rw [show (s.setStatus id status).pool = s.pool from rfl, AList.lookup_eq_none.mpr hunheld]
    rfl
  obtain ⟨hpending, hborn, hdeferred⟩ := (h.fits id).running hlive
  rw [← hrelease]
  exact h.ends (hstatus.imp_right fun hfinished => ⟨hfinished, hpending⟩) hborn hdeferred

/-- A running request that runs on, with a slot. -/
theorem runs (hlive : s.live id = true)
    (hreq : req.status = .prefilling ∨ req.status = .decoding) (hparted : pool.Parted)
    (hmem : ∀ other, other ∈ pool.slotOf ↔ other = id ∨ other ∈ s.pool.slotOf) :
    Kept { s.setRequest id req with pool } where
  parted := hparted
  fits other := by
    by_cases heq : other = id
    · subst heq
      obtain ⟨hpending, hborn, hdeferred⟩ := (h.fits other).running hlive
      have hnow : Engine.status { s.setRequest other req with pool } other = req.status := by
        simp [Engine.status]
      refine ⟨fun _ => .inl (live_iff.mpr ?_), fun _ => (hmem other).mpr (.inl rfl),
        fun hid => absurd hid hdeferred, fun hid => absurd hid hpending,
        fun hid => absurd hborn (Nat.not_lt.mpr hid), fun _ => hborn⟩
      rw [hnow]
      exact hreq
    · refine (h.fits other).congr (requests_setRequest_ne s heq _) ?_ .rfl .rfl (fun hid => hid) rfl
      exact (hmem other).trans (or_iff_right heq)
  flying := h.flying
  fresh := h.fresh

/-- A row that stops while a step is in flight keeps its slot for now. -/
theorem defers (hstatus : s.status id = .decoding) (hflight : s.inFlight = true) :
    Kept { s.setStatus id .finished with deferred := s.deferred ++ [id] } where
  parted := h.parted
  fits other := by
    by_cases heq : other = id
    · subst heq
      obtain ⟨hpending, hborn, -⟩ := (h.fits other).running (live_iff.mpr (.inr hstatus))
      have hnow : Engine.status
          { s.setStatus other .finished with deferred := s.deferred ++ [other] } other
            = .finished := by
        simp [Engine.status, setStatus]
      refine ⟨fun _ => .inr (mem_append_right _ (mem_singleton_self other)),
        fun hstarted => ?_, fun _ => hnow, fun hid => absurd hid hpending,
        fun hid => absurd hborn (Nat.not_lt.mpr hid), fun _ => hborn⟩
      have hlive := live_iff.mp (live_of_started hstarted)
      rw [hnow] at hlive
      simp at hlive
    · refine (h.fits other).congr (requests_setRequest_ne s heq _) .rfl ?_ .rfl (fun hid => hid) rfl
      rw [mem_append, mem_singleton]
      exact or_iff_left heq
  flying _ := hflight
  fresh := h.fresh

theorem stopRow (id : Nat) : Kept (s.stopRow id) := by
  unfold Engine.stopRow
  split
  case isFalse => exact h
  case isTrue hstatus =>
    split
    case isTrue hflight => exact h.defers hstatus hflight
    case isFalse =>
      obtain ⟨hpending, hborn, hdeferred⟩ :=
        (h.fits id).running (live_iff.mpr (.inr hstatus))
      exact h.ends (.inr ⟨rfl, hpending⟩) hborn hdeferred

theorem stopRows (stops : List Nat) : Kept (stops.foldl Engine.stopRow s) :=
  foldlRecOn stops _ h fun _ ht id _ => ht.stopRow id

/-- Once the put-off releases have run, only running requests have slots. -/
theorem abandon : Kept s.abandonDecodePipeline ∧ s.abandonDecodePipeline.deferred = [] := by
  obtain ⟨hparted, hmem⟩ := releases s.deferred h.parted
  have hstate : s.abandonDecodePipeline = { s with
      pool := s.deferred.foldl Pool.releaseRecurrentSlot s.pool
      deferred := []
      inFlight := false } := by
    unfold abandonDecodePipeline runDeferredReleases
    rw [foldl_release]
  rw [hstate]
  refine ⟨⟨hparted, fun other => ?_, fun hne => absurd rfl hne, h.fresh⟩, rfl⟩
  have hfits := h.fits other
  refine ⟨fun hslot => ?_, fun hstarted => ?_, fun hid => absurd hid not_mem_nil,
    hfits.queued, hfits.unborn, hfits.known⟩
  · obtain ⟨hnot, hslot⟩ := (hmem other).mp hslot
    exact .inl ((hfits.held hslot).resolve_right hnot)
  · obtain ⟨-, -, hnot⟩ := hfits.running (live_of_started hstarted)
    exact (hmem other).mpr ⟨hnot, hfits.begun hstarted⟩

/-- Taking in the step in flight leaves none in flight. -/
theorem drain (stops : List Nat) :
    Kept (s.drainDecodePipeline stops) ∧ (s.drainDecodePipeline stops).deferred = [] := by
  unfold drainDecodePipeline
  split
  case isTrue => exact (h.stopRows stops).abandon
  case isFalse hflight => exact ⟨h, by_contra fun hne => hflight (h.flying hne)⟩

theorem abort (hborn : id < s.nextRequestId) : Kept (s.abort id) := by
  unfold Engine.abort
  split
  case isTrue => exact h
  case isFalse hended =>
    refine h.ends (.inl rfl) hborn ((h.fits id).not_deferred fun hfinished => hended ?_)
    simp [ended, hfinished]

theorem aborts {ids : List Nat} (hborn : ∀ id ∈ ids, id < s.nextRequestId) :
    Kept (ids.foldl Engine.abort s) := by
  induction ids generalizing s with
  | nil => exact h
  | cons id ids ih =>
    refine ih (h.abort (hborn id mem_cons_self)) fun other hother => ?_
    rw [nextRequestId_abort]
    exact hborn other (mem_cons_of_mem _ hother)

theorem submit : Kept (s.next .submit) where
  parted := h.parted
  fits id := by
    have hfits := h.fits id
    refine ⟨hfits.held, hfits.begun, hfits.done, fun hid => ?_, fun hid => ?_, fun hid => ?_⟩
    · rcases mem_append.mp hid with hid | hid
      · exact hfits.queued hid
      · exact .inl (hfits.unborn (mem_singleton.mp hid).ge).1
    · have hborn : s.nextRequestId < id := hid
      obtain ⟨hstatus, hpending⟩ := hfits.unborn hborn.le
      refine ⟨hstatus, fun hmem => (mem_append.mp hmem).elim hpending fun hlast => ?_⟩
      exact hborn.ne' (mem_singleton.mp hlast)
    · rcases mem_append.mp hid with hid | hid
      · exact Nat.lt_succ_of_lt (hfits.known hid)
      · exact (mem_singleton.mp hid).trans_lt (Nat.lt_succ_self _)
  flying := h.flying
  fresh := by
    have hnew : s.nextRequestId ∉ s.pending := ((h.fits _).unborn le_rfl).2
    exact nodup_append'.mpr ⟨h.fresh, nodup_singleton _, disjoint_singleton.mpr hnew⟩

theorem promote (id skip : Nat) : Kept (s.next (.promote id skip)) := by
  simp only [next, step]
  split
  case isFalse => exact h
  case isTrue hid =>
    have hqueued := (h.fits id).queued hid
    refine ⟨h.parted, fun other => ?_, h.flying, h.fresh.erase id⟩
    by_cases heq : other = id
    · subst heq
      have hnot : other ∉ s.pending.erase other := fun hmem =>
        absurd rfl (h.fresh.mem_erase_iff.mp hmem).1
      have hborn : other < s.nextRequestId := by
        by_contra hlt
        exact ((h.fits other).unborn (Nat.le_of_not_lt hlt)).2 hid
      refine ⟨fun _ => .inl ?_, fun hstarted => ?_, fun hdeferred => ?_,
        fun hmem => absurd hmem hnot, fun hlt => absurd hborn (Nat.not_lt.mpr hlt),
        fun _ => hborn⟩
      · simp [live, Engine.status]
      · simp [started, Engine.status] at hstarted
      · have hdone := (h.fits other).done hdeferred
        rcases hqueued with hq | hq <;> exact absurd (hq.symm.trans hdone) (by decide)
    · refine (h.fits other).congr (requests_setRequest_ne s heq _) .rfl .rfl ?_
        (fun hmem => hmem) rfl
      exact mem_erase_of_ne heq

/-- While no more requests run than there are slots, a running request without a slot finds one. -/
theorem room (hnone : s.deferred = []) (hcrowd : s.liveCount ≤ s.pool.capacity)
    (hlive : s.live id = true) :
    0 < s.pool.capacity ∧ (id ∉ s.pool.slotOf → s.pool.slotOf.keys.length < s.pool.capacity) := by
  have hmem : ∀ other, s.live other = true → other ∈ (List.range s.nextRequestId).filter s.live :=
    fun other hother => mem_filter.mpr
      ⟨mem_range.mpr ((h.fits other).running hother).2.1, hother⟩
  have hcount : ((List.range s.nextRequestId).filter s.live).length ≤ s.pool.capacity := by
    rwa [← countP_eq_length_filter]
  refine ⟨(length_pos_of_mem (hmem id hlive)).trans_le hcount, fun hid => ?_⟩
  have hkeys : ∀ other ∈ s.pool.slotOf.keys, s.live other = true := fun other hother => by
    have hheld := (h.fits other).held hother
    rw [hnone] at hheld
    exact hheld.resolve_right not_mem_nil
  have hnodup : (id :: s.pool.slotOf.keys).Nodup :=
    nodup_cons.mpr ⟨hid, s.pool.slotOf.keys_nodup⟩
  have hsub : id :: s.pool.slotOf.keys ⊆ (List.range s.nextRequestId).filter s.live := by
    intro other hother
    rcases mem_cons.mp hother with rfl | hother
    · exact hmem _ hlive
    · exact hmem other (hkeys other hother)
  exact ((List.Nodup.subperm hnodup hsub).length_le).trans hcount

variable (hstatus : s.status id = .prefilling)
include hstatus

/-- The slot of a prefill chunk. A chunk that does not start the sequence belongs to a request that
has its slot. -/
theorem fill (hnone : s.deferred = []) (hcrowd : s.liveCount ≤ s.pool.capacity) (skip : Nat)
    (hreq : req = skipCached (s.requests id) skip) {filled : Selection × Pool}
    (hfilled : filled = s.pool.fillRecurrentState id (req.prefillOffset == req.cachedTokens)) :
    filled.1.byModulo = false ∧ filled.2.Parted ∧
      ∀ other, other ∈ filled.2.slotOf ↔ other = id ∨ other ∈ s.pool.slotOf := by
  obtain ⟨hpos, hroom⟩ := h.room hnone hcrowd (live_iff.mpr (.inl hstatus))
  by_cases hreset : req.prefillOffset = req.cachedTokens
  · rw [hfilled, beq_iff_eq.mpr hreset]
    exact h.parted.acquire hpos hroom
  · have hsame : req = s.requests id := by
      rw [hreq] at hreset ⊢
      unfold skipCached at hreset ⊢
      split at hreset
      case isTrue => exact absurd rfl hreset
      case isFalse hskip => exact if_neg hskip
    have hstarted : s.started id = true := by
      rw [hsame] at hreset
      simp [started, hstatus, hreset]
    have hid := (h.fits id).begun hstarted
    rw [hfilled, beq_false_of_ne hreset, Pool.Parted.fill_held hid]
    exact ⟨rfl, h.parted, fun other => (or_iff_right_of_imp fun heq => heq ▸ hid).symm⟩

theorem endChunk (hid : id ∈ s.pool.slotOf) (ending : ChunkEnd) : Kept (s.endChunk id ending) := by
  have hlive : s.live id = true := live_iff.mpr (.inl hstatus)
  have hmem : ∀ other, other ∈ s.pool.slotOf ↔ other = id ∨ other ∈ s.pool.slotOf :=
    fun other => (or_iff_right_of_imp fun heq => heq ▸ hid).symm
  cases ending with
  | more length => exact h.runs hlive (.inl hstatus) h.parted hmem
  | decodes => exact h.runs hlive (.inr rfl) h.parted hmem
  | finishes =>
    obtain ⟨hpending, hborn, hdeferred⟩ := (h.fits id).running hlive
    exact h.ends (.inr ⟨rfl, hpending⟩) hborn hdeferred
  | throws => exact h

/-- No prefill chunk takes its slot by the remainder of the id. -/
theorem prefillChunk (hnone : s.deferred = []) (hcrowd : s.liveCount ≤ s.pool.capacity)
    (skip : Nat) (ending : ChunkEnd) :
    (∀ sel ∈ (s.prefillChunk id skip true ending).1, sel.byModulo = false) ∧
      Kept (s.prefillChunk id skip true ending).2 := by
  have hrunning : (skipCached (s.requests id) skip).status = .prefilling := by
    unfold skipCached
    split <;> exact hstatus
  obtain ⟨hmodulo, hparted, hmem⟩ := h.fill hstatus hnone hcrowd skip rfl rfl
  have hchunk := h.runs (live_iff.mpr (.inl hstatus)) (.inl hrunning) hparted hmem
  refine ⟨fun sel hsel => ?_, hchunk.endChunk ?_ ((hmem id).mpr (.inl rfl)) ending⟩
  · obtain rfl : _ = sel := Option.some.inj hsel
    exact hmodulo
  · simpa [Engine.status] using hrunning

end Kept

/-- The last chunk sets the status again, so that a failed copy has no effect on it. -/
theorem prefillChunk_last {ending : ChunkEnd} (h : ending.IsLast) (id skip : Nat)
    (uploaded : Bool) :
    s.prefillChunk id skip uploaded ending = s.prefillChunk id skip true ending := by
  cases uploaded with
  | true => rfl
  | false =>
    rcases h with rfl | rfl <;>
      simp [prefillChunk, endChunk, setStatus, setRequest, release]

/-- No request that has a slot is refused by the engine or ended by the graph loop of `generate`,
which do not give the slot back, and no copy fails for a chunk that is not the last one of its
prompt, after which nobody does. -/
def SlotSafe : Event → Prop
  | .refuse id | .finishLoop id => id ∉ s.pool.slotOf
  | .prefill _ _ _ uploaded ending => uploaded = true ∨ ending.IsLast
  | _ => True

/-- At most as many requests are PREFILLING or DECODING as there are slots. -/
def Uncrowded (s : Engine) : Prop := s.liveCount ≤ s.pool.capacity

instance (s : Engine) : Decidable s.Uncrowded :=
  inferInstanceAs (Decidable (s.liveCount ≤ s.pool.capacity))

instance (s : Engine) : (event : Event) → Decidable (SlotSafe s event)
  | .refuse id | .finishLoop id => inferInstanceAs (Decidable (id ∉ s.pool.slotOf))
  | .prefill _ _ _ uploaded ending =>
    inferInstanceAs (Decidable (uploaded = true ∨ ending.IsLast))
  | .submit | .promote .. | .decode .. | .pipelined .. | .drain .. | .cancel ..
  | .throws | .deliver => inferInstanceAs (Decidable True)

/-- One event keeps the slots apart and chooses none by the remainder of the id. -/
theorem Kept.step {s : Engine} (h : Kept s) (hcrowd : s.Uncrowded) {event : Event}
    (hsafe : SlotSafe s event) :
    (∀ sel ∈ s.selected event, sel.byModulo = false) ∧ Kept (s.next event) := by
  have hnone : ∀ sel ∈ (none : Option Selection), sel.byModulo = false := by simp
  cases event with
  | submit => exact ⟨hnone, h.submit⟩
  | promote id skip =>
    refine ⟨?_, h.promote id skip⟩
    simp only [selected, Engine.step]
    split <;> exact hnone
  | prefill id skip stops uploaded ending =>
    have hchunk : ∀ s : Engine, s.prefillChunk id skip uploaded ending =
        s.prefillChunk id skip true ending := fun s => hsafe.elim (fun huploaded => by
          rw [huploaded]) fun hlast => s.prefillChunk_last hlast id skip uploaded
    obtain ⟨hdrain, hdeferred⟩ := h.drain stops
    have hquiet := Quieter.drain s stops
    simp only [selected, next, Engine.step]
    split
    case isTrue hstatus =>
      rw [hchunk]
      refine hdrain.prefillChunk hstatus hdeferred ?_ skip ending
      rw [hquiet.capacity]
      exact hquiet.liveCount_le.trans hcrowd
    case isFalse => exact ⟨hnone, hdrain⟩
  | decode id launch stops =>
    simp only [selected, next, Engine.step]
    split
    case isFalse => exact ⟨hnone, h⟩
    case isTrue hguard =>
      have hid := (h.fits id).begun (by simp [started, hguard.2])
      have hdeferred : s.deferred = [] := by_contra fun hne => by
        rw [h.flying hne] at hguard
        cases hguard.1
      have hlaunched : Kept { s with inFlight := launch } :=
        ⟨h.parted, fun other => (h.fits other).congr rfl .rfl .rfl .rfl (fun hmem => hmem) rfl,
          fun hne => absurd hdeferred hne, h.fresh⟩
      rw [Pool.Parted.fill_held hid]
      exact ⟨by simp, hlaunched.stopRows stops⟩
  | pipelined stops chained =>
    simp only [selected, next, Engine.step]
    split
    case isFalse => exact ⟨hnone, h⟩
    case isTrue =>
      refine ⟨hnone, ?_⟩
      split
      · exact h.stopRows stops
      · exact (h.stopRows stops).abandon.1
  | drain stops => exact ⟨hnone, (h.drain stops).1⟩
  | refuse id =>
    refine ⟨hnone, ?_⟩
    simp only [next, Engine.step]
    split
    case isTrue hlive => exact h.ends_unheld (.inl rfl) hlive hsafe
    case isFalse => exact h
  | finishLoop id =>
    refine ⟨hnone, ?_⟩
    simp only [next, Engine.step]
    split
    case isTrue hstatus => exact h.ends_unheld (.inr rfl) (live_iff.mpr (.inr hstatus)) hsafe
    case isFalse => exact h
  | cancel id stops =>
    refine ⟨hnone, ?_⟩
    simp only [next, Engine.step]
    split
    case isTrue hid =>
      refine (h.drain stops).1.abort ?_
      rw [(Quieter.drain s stops).nextRequestId]
      exact (h.fits id).known hid
    case isFalse => exact h
  | throws =>
    obtain ⟨habandon, -⟩ := (h.aborts fun id => (h.fits id).known).abandon
    refine ⟨hnone, habandon.parted, fun other => ?_, habandon.flying, habandon.fresh⟩
    exact (habandon.fits other).congr rfl .rfl .rfl .rfl (fun hmem => by cases hmem) rfl
  | deliver =>
    refine ⟨hnone, h.parted, fun other => ?_, h.flying, h.fresh⟩
    exact (h.fits other).congr rfl .rfl .rfl .rfl (fun hmem => (mem_filter.mp hmem).1) rfl

/-- In every run in which at most as many requests run as there are slots, no request that has a
slot is refused by the engine or ended by the graph loop of `generate`, and no copy fails for a
chunk before the last one, two requests past their first chunk have different slots of the state, no
slot is twice on the free list or free and in use, and no slot is chosen by the remainder of the
id. -/
theorem slots_unshared (capacity : Nat) (before after : List Event)
    (h : Lib.Meets next (fun s event => s.Uncrowded ∧ SlotSafe s event) (start capacity)
      (before ++ after)) : let s := Lib.runFrom next (start capacity) before
    (∀ id, s.started id = true → ∃ slot < s.pool.capacity, s.pool.slotOf.lookup id = some slot) ∧
      (∀ id other, s.started id = true → s.started other = true → id ≠ other →
        s.pool.slotOf.lookup id ≠ s.pool.slotOf.lookup other) ∧
      s.pool.freeSlots.Nodup ∧ s.pool.freeSlots.Disjoint s.pool.heldSlots ∧
      ∀ event ∈ after.head?, ∀ sel ∈ s.selected event, sel.byModulo = false := by
  intro s
  have hkept : Kept s := h.invariant
    (fun s event hs hsafe => (hs.step hsafe.1 hsafe.2).2) (Kept.start capacity)
  have hslot : ∀ id, s.started id = true →
      ∃ slot < s.pool.capacity, s.pool.slotOf.lookup id = some slot := by
    intro id hstarted
    obtain ⟨slot, hslot⟩ := Option.isSome_iff_exists.mp
      (AList.lookup_isSome.mpr ((hkept.fits id).begun hstarted))
    have hused := mem_append_right s.pool.ready.freeSlots (Lib.Table.mem_values hslot)
    exact ⟨slot, mem_range.mp (hkept.parted.split.mem_iff.mp hused), hslot⟩
  refine ⟨hslot, fun id other hid hother hne => ?_,
    hkept.parted.freeSlots_sublist.nodup hkept.parted.nodup.of_append_left,
    hkept.parted.freeSlots_disjoint, fun event hevent => ?_⟩
  · obtain ⟨slot, -, hlookup⟩ := hslot other hother
    rw [hlookup]
    exact Lib.Table.lookup_ne_of_nodup hkept.parted.nodup.of_append_right hne hlookup
  · obtain ⟨rest, rfl⟩ := head?_eq_some_iff.mp hevent
    obtain ⟨hcrowd, hsafe⟩ := h.at_event
    exact (hkept.step hcrowd hsafe).1

/-- The only slot of a finished request goes to the next one, whose prompt takes two chunks. -/
theorem slots_unshared_handed_on :
    let events := [.submit, .promote 0 0, .prefill 0 0 [] true .decodes, .decode 0 false [0],
      .submit, .promote 1 3, .prefill 1 0 [] true (.more 4), .prefill 1 0 [] true .decodes]
    let s := Lib.runFrom next (start 1) events
    Lib.Meets next (fun s event => s.Uncrowded ∧ SlotSafe s event) (start 1)
        (events ++ [.decode 1 false []]) ∧
      s.started 1 = true ∧ (∃ slot < 1, s.pool.slotOf.lookup 1 = some slot) ∧
      ∀ sel ∈ s.selected (.decode 1 false []), sel.byModulo = false := by
  intro events s
  have hmeets : Lib.Meets next (fun s event => s.Uncrowded ∧ SlotSafe s event) (start 1)
      (events ++ [.decode 1 false []]) := by decide
  have hstarted : s.started 1 = true := by decide
  have h := slots_unshared 1 events [.decode 1 false []] hmeets
  exact ⟨hmeets, hstarted, h.1 1 hstarted, h.2.2.2.2 _ rfl⟩

/-- With two slots, the engine cancels request 1 during decode and keeps its slot. Request 2 then
gets slot 0 as the remainder of its id, which request 0 is using, and in the end slot 0 is free
twice. -/
theorem leaked_slot_shared :
    let events := [.submit, .promote 0 0, .prefill 0 0 [] true .decodes,
      .submit, .promote 1 0, .prefill 1 0 [] true .decodes, .refuse 1,
      .submit, .promote 2 0]
    let chunk := .prefill 2 0 [] true .decodes
    let s := Lib.runFrom next (start 2) (events ++ [chunk])
    let ended := [.decode 0 false [0], .decode 2 false [2]]
    Lib.Meets next (fun s _ => s.Uncrowded) (start 2) (events ++ [chunk] ++ ended) ∧
      (Lib.runFrom next (start 2) events).selected chunk = some ⟨0, true⟩ ∧
      s.started 0 = true ∧ s.started 2 = true ∧
      s.pool.slotOf.lookup 0 = some 0 ∧ s.pool.slotOf.lookup 2 = some 0 ∧
      (Lib.runFrom next s ended).pool.freeSlots = [0, 0] := by
  decide

end Engine

end Quench.Slots

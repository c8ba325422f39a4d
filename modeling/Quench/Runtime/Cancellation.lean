import Quench.Lib.Runs
import Quench.Memory.HashRecords
import Quench.Runtime.Scheduler

/-!
# Cancellation and the scheduler

The server worker cancels a request by writing its status and freeing its blocks, and the scheduler
learns of it from the record. `schedule_touches` says which requests one call of `schedule` can
write, queue or reserve blocks for. A terminal request is left alone as long as none waits in the
queue while the batch has room (`run_leaves_terminal`); one that waits is revived
(`cancelled_is_promoted`).
-/

namespace Quench

open Lib List

variable {s : Scheduler}

namespace Scheduler

/-- The block table of a sequence in the scheduler's manager, if it has one. -/
def blockTable (s : Scheduler) (seq : Int) : Option (List BlockRef) :=
  s.kvManager.map (·.blockTable seq)

/-- What the check of a request leaves as it was. A request that has to wait keeps its status, and
one that cannot be held is cancelled. -/
structure Checked (kv : KVCacheManager) (req : Request) (out : Verdict × Request × KVCacheManager) :
    Prop where
  id : out.2.1.id = req.id
  serves : KVCacheManager.Serves req.id kv out.2.2
  wait : out.1 = .wait → out.2.1.status = req.status
  overCapacity : out.1 = .overCapacity → out.2.1.status = .cancelled

section Check

variable (config : SchedulerConfig) (kv : KVCacheManager) (req : Request)

/-- The hook writes nothing but the snapshots to restore. -/
theorem reuseLimit_eq : ∃ maxReuse recurrentRestore swaRestore,
    reuseLimit config kv req = (maxReuse, { req with recurrentRestore, swaRestore }) := by
  unfold reuseLimit
  split
  · exact ⟨-1, req.recurrentRestore, req.swaRestore, rfl⟩
  · exact ⟨_, _, _, rfl⟩

theorem Checked.reserveWithReuse : Checked kv req (reserveWithReuse config kv req) := by
  obtain ⟨maxReuse, recurrentRestore, swaRestore, hlimit⟩ := reuseLimit_eq config kv req
  have hreused := KVCacheManager.Serves.allocateBlocksWithPrefix kv req.id req.inputTokens maxReuse
    req.visionContentHash
  unfold Scheduler.reserveWithReuse
  rw [hlimit]
  dsimp only
  split
  · exact ⟨rfl, hreused, fun _ => rfl, nofun⟩
  · split
    · have hfreed := hreused.trans (.freeSequence _ req.id)
      split
      next after heq => exact ⟨rfl, hfreed.trans (.of_allocateBlocks heq), fun _ => rfl, nofun⟩
      next after heq => exact ⟨rfl, hfreed.trans (.of_allocateBlocks heq), nofun, nofun⟩
    · refine ⟨?_, hreused, nofun, nofun⟩
      unfold Request.skipReused
      split <;> rfl

theorem Checked.reserve : Checked kv req (reserve config kv req) := by
  unfold Scheduler.reserve
  dsimp only
  split
  · split
    · exact .reserveWithReuse config kv req
    · split
      next after heq => exact ⟨rfl, .of_allocateBlocks heq, fun _ => rfl, nofun⟩
      next after heq => exact ⟨rfl, .of_allocateBlocks heq, nofun, nofun⟩
  · split
    · exact ⟨rfl, .rfl' _, nofun, fun _ => rfl⟩
    · exact ⟨rfl, .rfl' _, fun _ => rfl, nofun⟩

end Check

variable (config : SchedulerConfig)

/-- The state after the loop has seen one request. -/
def visit (s : Scheduler) (ref : Ref) : Scheduler :=
  match s.consider config ref with
  | (.promote, s) => s.promote ref
  | (.wait, s) => s
  | (.overCapacity, s) => s

/-- One round of the loop with room in the batch. -/
theorem promoteLoop_cons (ref : Ref) (rest : List Ref) (hroom : s.active.length < s.maxBatchSize) :
    let out := promoteLoop config rest (s.visit config ref)
    promoteLoop config (ref :: rest) s =
      (if (s.consider config ref).1 = .wait then ref :: out.1 else out.1,
        if (s.consider config ref).1 = .promote then ref :: out.2.1 else out.2.1, out.2.2) := by
  rw [promoteLoop, if_pos hroom, visit]
  rcases s.consider config ref with ⟨verdict, checked⟩
  cases verdict <;> rfl

/-- A full batch stops the promotion loop before it starts. -/
theorem promoteLoop_full (queue : List Ref)
    (hfull : s.maxBatchSize ≤ s.active.length) : promoteLoop config queue s = (queue, [], s) := by
  cases queue with
  | nil => rfl
  | cons ref rest => rw [promoteLoop, if_neg (by omega)]

/-! ## What a call touches -/

/-- A stretch of `schedule` that writes, activates and reserves blocks for these requests only. -/
structure Touches (refs : List Ref) (s s' : Scheduler) : Prop where
  requests : ∀ ref, ref ∉ refs → s'.requests ref = s.requests ref
  ids : ∀ ref, (s'.requests ref).id = (s.requests ref).id
  tables : ∀ seq, (∀ ref ∈ refs, (s.requests ref).id ≠ seq) → s'.blockTable seq = s.blockTable seq
  active : ∀ ref ∈ s'.active, ref ∈ s.active ∨ ref ∈ refs

namespace Touches

variable {refs more : List Ref} {s s' s'' : Scheduler}

theorem rfl' (refs : List Ref) (s : Scheduler) : Touches refs s s :=
  ⟨fun _ _ => rfl, fun _ => rfl, fun _ _ => rfl, fun _ h => .inl h⟩

theorem trans (h : Touches refs s s') (h' : Touches refs s' s'') : Touches refs s s'' where
  requests ref hout := (h'.requests ref hout).trans (h.requests ref hout)
  ids ref := (h'.ids ref).trans (h.ids ref)
  tables seq hout :=
    (h'.tables seq fun ref hmem => by rw [h.ids]; exact hout ref hmem).trans (h.tables seq hout)
  active ref hmem := by
    rcases h'.active ref hmem with hold | hnew
    · exact h.active ref hold
    · exact .inr hnew

theorem mono (h : Touches refs s s') (hsub : refs ⊆ more) : Touches more s s' where
  requests ref hout := h.requests ref fun hmem => hout (hsub hmem)
  ids := h.ids
  tables seq hout := h.tables seq fun ref hmem => hout ref (hsub hmem)
  active ref hmem := (h.active ref hmem).imp_right fun hnew => hsub hnew

theorem setRequest (s : Scheduler) (ref : Ref) {req : Request}
    (hid : req.id = (s.requests ref).id) : Touches [ref] s (s.setRequest ref req) where
  requests other hout :=
    Function.update_of_ne (fun heq => hout (mem_singleton.mpr heq)) _ _
  ids other := by
    by_cases heq : other = ref
    · subst heq
      simp only [Scheduler.setRequest, Function.update_self, hid]
    · simp only [Scheduler.setRequest, Function.update_of_ne heq]
  tables _ _ := rfl
  active _ hmem := .inl hmem

theorem promote (s : Scheduler) (ref : Ref) : Touches [ref] s (s.promote ref) := by
  have hwrite : Touches [ref] s (s.setRequest ref { s.requests ref with status := .prefilling }) :=
    setRequest s ref rfl
  exact { hwrite with active := fun other hmem => mem_append.mp hmem }

theorem consider (s : Scheduler) (ref : Ref) : Touches [ref] s (s.consider config ref).2 := by
  unfold Scheduler.consider
  cases hkv : s.kvManager with
  | none => exact rfl' _ s
  | some kv =>
    have hcheck := Checked.reserve config kv (s.requests ref)
    refine { setRequest s ref hcheck.id with tables := fun seq hout => ?_ }
    have hother : seq ≠ (s.requests ref).id :=
      fun heq => hout ref (mem_singleton_self ref) heq.symm
    simp only [blockTable, hkv, Option.map_some, hcheck.serves.blockTable hother]

theorem visit (s : Scheduler) (ref : Ref) : Touches [ref] s (s.visit config ref) := by
  have hcheck := consider config s ref
  unfold Scheduler.visit
  split
  next checked heq =>
    rw [heq] at hcheck
    exact hcheck.trans (promote checked ref)
  next checked heq => rwa [heq] at hcheck
  next checked heq => rwa [heq] at hcheck

/-- The promotion loop touches requests of the queue only, and fills the batch from it. -/
theorem promoteLoop (queue : List Ref) (s : Scheduler) :
    Touches queue s (promoteLoop config queue s).2.2 ∧
      (promoteLoop config queue s).2.1 ⊆ queue := by
  induction queue generalizing s with
  | nil => exact ⟨rfl' _ s, nil_subset _⟩
  | cons ref rest ih =>
    have hhead : [ref] ⊆ ref :: rest := cons_subset_cons ref (nil_subset rest)
    have htail : rest ⊆ ref :: rest := subset_cons_self ref rest
    by_cases hroom : (s.active.length : Int) < s.maxBatchSize
    · obtain ⟨hrest, hbatch⟩ := ih (s.visit config ref)
      rw [promoteLoop_cons config ref rest hroom]
      refine ⟨((visit config s ref).mono hhead).trans (hrest.mono htail), ?_⟩
      dsimp only
      split
      · exact cons_subset_cons ref hbatch
      · exact List.Subset.trans hbatch htail
    · rw [promoteLoop_full config _ (not_lt.mp hroom)]
      exact ⟨rfl' _ s, nil_subset _⟩

end Touches

variable {s : Scheduler} {ref : Ref}

/-- Continuing chunked prefills adds only requests in the middle of one. -/
theorem mem_requeue (requests : Ref → Request) (active batch : List Ref)
    (h : ref ∈ requeue requests batch active) : ref ∈ batch ∨ (requests ref).midPrefill := by
  unfold requeue at h
  induction active generalizing batch with
  | nil => exact .inl h
  | cons first rest ih =>
    rw [foldl_cons] at h
    rcases ih _ h with hmem | hmid
    · split at hmem
      next hqueued =>
        rcases mem_append.mp hmem with hmem | hmem
        · exact .inl hmem
        · rw [mem_singleton.mp hmem]
          exact .inr (Bool.and_eq_true_iff.mp hqueued).1
      next => exact .inl hmem
    · exact .inr hmid

/-! ## Terminal requests -/

/-- No terminal request waits in the queue, or the active requests that are left when the terminal
ones are gone fill the batch. -/
def QueueLive (s : Scheduler) : Prop :=
  (∀ ref ∈ s.pending, (s.requests ref).isTerminal = false) ∨
    s.maxBatchSize ≤ (s.active.filter fun ref => !(s.requests ref).isTerminal).length

instance (s : Scheduler) : Decidable s.QueueLive := inferInstanceAs (Decidable (_ ∨ _))

/-- The queue as `schedule` walks it. -/
def queue (s : Scheduler) : List Ref :=
  if s.pendingDirty then config.order.sort s.requests s.pending else s.pending

/-- The state in which `schedule` starts to promote: terminal requests are not active any more. -/
def cleared (s : Scheduler) : Scheduler :=
  { s with
    active := s.active.filter fun ref => !(s.requests ref).isTerminal
    pendingDirty := false }

theorem queue_perm (s : Scheduler) : (s.queue config).Perm s.pending := by
  unfold queue
  split
  · exact config.order.perm s.requests s.pending
  · exact .refl _

/-- One call of `schedule` touches live pending requests only, and every request it hands out is
one of them or is in a prefill or decode phase afterwards. -/
theorem schedule_touches (hlive : s.QueueLive) : ∃ touched : List Ref,
      (∀ ref ∈ touched, ref ∈ s.pending ∧ (s.requests ref).isTerminal = false) ∧
      Touches touched s (s.schedule config).2 ∧
      ∀ ref, ref ∈ (s.schedule config).1.prefill ∨ ref ∈ (s.schedule config).1.decode →
        ref ∈ touched ∨ ((s.schedule config).2.requests ref).isTerminal = false := by
  obtain ⟨touched, hmem, hloop, hbatch⟩ : ∃ touched : List Ref,
      (∀ ref ∈ touched, ref ∈ s.pending ∧ (s.requests ref).isTerminal = false) ∧
      Touches touched s.cleared (promoteLoop config (s.queue config) s.cleared).2.2 ∧
      (promoteLoop config (s.queue config) s.cleared).2.1 ⊆ touched := by
    rcases hlive with hlive | hfull
    · obtain ⟨hloop, hbatch⟩ := Touches.promoteLoop config (s.queue config) s.cleared
      refine ⟨s.queue config, fun ref hmem => ?_, hloop, hbatch⟩
      have hpending := (queue_perm config s).mem_iff.mp hmem
      exact ⟨hpending, hlive ref hpending⟩
    · rw [promoteLoop_full config _ hfull]
      exact ⟨[], nofun, .rfl' _ _, nil_subset _⟩
  have hdropped : Touches touched s s.cleared :=
    { Touches.rfl' touched s with active := fun _ hmem => .inl (mem_of_mem_filter hmem) }
  refine ⟨touched, hmem, { hdropped.trans hloop with }, fun ref hout => ?_⟩
  rcases hout with hprefill | hdecode
  · rcases mem_requeue _ _ _ hprefill with hqueued | hmid
    · exact .inl (hbatch hqueued)
    · have hstatus : ((s.schedule config).2.requests ref).status = .prefilling :=
        beq_iff_eq.mp (Bool.and_eq_true_iff.mp (Bool.and_eq_true_iff.mp hmid).1).1
      exact .inr (by rw [Request.isTerminal, hstatus]; rfl)
  · have hstatus : ((s.schedule config).2.requests ref).status = .decoding :=
      beq_iff_eq.mp (mem_filter.mp hdecode).2
    exact .inr (by rw [Request.isTerminal, hstatus]; rfl)

/-- What the scheduler owes a request that is terminal when `schedule` starts: it is in neither
batch, its record is untouched, and so is the table of its id, unless a live request waiting in the
queue goes by the same id. -/
structure LeavesAlone (config : SchedulerConfig) (s : Scheduler) (ref : Ref) : Prop where
  prefill : ref ∉ (s.schedule config).1.prefill
  decode : ref ∉ (s.schedule config).1.decode
  record : (s.schedule config).2.requests ref = s.requests ref
  table : (∀ other ∈ s.pending, (s.requests other).isTerminal = false →
      (s.requests other).id ≠ (s.requests ref).id) →
    (s.schedule config).2.blockTable (s.requests ref).id = s.blockTable (s.requests ref).id

theorem QueueLive.leavesAlone (h : s.QueueLive) (config : SchedulerConfig)
    (hterminal : (s.requests ref).isTerminal) : LeavesAlone config s ref := by
  obtain ⟨touched, hlive, htouches, hout⟩ := schedule_touches config h
  have hunseen : ref ∉ touched := fun hmem => by simp [(hlive ref hmem).2] at hterminal
  have hrecord := htouches.requests ref hunseen
  have hneither : ¬ (ref ∈ (s.schedule config).1.prefill ∨ ref ∈ (s.schedule config).1.decode) := by
    intro hmem
    rcases hout ref hmem with hmem | hstatus
    · exact hunseen hmem
    · simp [hrecord, hterminal] at hstatus
  refine ⟨fun hmem => hneither (.inl hmem), fun hmem => hneither (.inr hmem), hrecord, ?_⟩
  intro hid
  exact htouches.tables _ fun other hmem => hid other (hlive other hmem).1 (hlive other hmem).2

/-! ## Runs -/

/-- One action of the server: a call of the scheduler, the worker's cancellation of a request, what
the engine writes into a request, or a call the engine makes on the cache manager. -/
inductive Event where
  | addRequest (ref : Ref)
  | schedule
  | cancel (ref : Ref)
  | write (ref : Ref) (req : Request)
  | manager (op : KVCacheManager.Op)

/-- The worker loop on a cancelled request: mark it and free its blocks, unless it has ended. -/
def cancel (s : Scheduler) (ref : Ref) : Scheduler :=
  if (s.requests ref).isTerminal then s
  else
    { s.setRequest ref { s.requests ref with status := .cancelled } with
      kvManager := s.kvManager.map (·.freeSequence (s.requests ref).id) }

/-- The state after one action. -/
def step (s : Scheduler) : Event → Scheduler
  | .addRequest ref => s.addRequest ref
  | .schedule => (s.schedule config).2
  | .cancel ref => s.cancel ref
  | .write ref req => s.setRequest ref req
  | .manager op => { s with kvManager := s.kvManager.map (·.step op) }

/-- The condition on a run: `schedule` is called on a live queue. -/
def Safe (s : Scheduler) : Event → Prop
  | .schedule => s.QueueLive
  | _ => True

instance (s : Scheduler) : (event : Event) → Decidable (s.Safe event)
  | .schedule => inferInstanceAs (Decidable s.QueueLive)
  | .addRequest _ | .cancel _ | .write _ _ | .manager _ => inferInstanceAs (Decidable True)

/-- In a run that calls `schedule` on live queues only, no call ever revives, queues or serves a
request that has been cancelled or has finished. -/
theorem run_leaves_terminal (s : Scheduler) {events : List Event}
    (hsafe : Meets (step config) Safe s events) :
    ∀ before after, events = before ++ .schedule :: after → ∀ ref,
      ((runFrom (step config) s before).requests ref).isTerminal →
      LeavesAlone config (runFrom (step config) s before) ref := by
  intro before after hsplit ref hterminal
  subst hsplit
  exact QueueLive.leavesAlone hsafe.at_event config hterminal

/-- Two requests of five tokens each. -/
def twoPrompts (ref : Ref) : Request := { id := ref, inputTokens := [1, 2, 3, 4, 5] }

/-- A scheduler with room for one active request and a cache of four blocks of four tokens. -/
def oneSlot : Scheduler :=
  { maxBatchSize := 1, kvManager := some (KVCacheManager.fresh 4 4 0), requests := twoPrompts }

/-- A dense model: no cap on prefix reuse. -/
def denseConfig : SchedulerConfig := { order := .stable, prefixReuseLimit := none }

/-- The second request is cancelled while it waits behind the first, which fills the batch. -/
def cancelWaiting : List Event :=
  [.addRequest 0, .schedule, .addRequest 1, .cancel 1]

theorem run_leaves_terminal_waiting :
    Meets (step denseConfig) Safe oneSlot (cancelWaiting ++ [.schedule]) ∧
      LeavesAlone denseConfig (runFrom (step denseConfig) oneSlot cancelWaiting) 1 := by
  have hsafe : Meets (step denseConfig) Safe oneSlot (cancelWaiting ++ [.schedule]) := by
    decide +kernel
  exact ⟨hsafe, run_leaves_terminal denseConfig oneSlot hsafe cancelWaiting [] rfl 1
    (by decide +kernel)⟩

/-- The first request then finishes, and the next call promotes the cancelled one: it is in the
prefill batch, its status is overwritten, and it holds blocks again. -/
theorem cancelled_is_promoted :
    let s := runFrom (step denseConfig) oneSlot (cancelWaiting ++
      [.schedule, .write 0 { twoPrompts 0 with status := .finished }, .manager (.freeSequence 0)])
    let out := s.schedule denseConfig
    (s.requests 1).status = .cancelled ∧ s.blockTable 1 = some [] ∧
      1 ∈ out.1.prefill ∧ (out.2.requests 1).status = .prefilling ∧
      out.2.blockTable 1 = some [some 1, some 0] := by
  decide +kernel

end Scheduler

end Quench

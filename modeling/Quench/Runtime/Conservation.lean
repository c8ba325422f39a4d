import Mathlib.Algebra.Order.Floor.Div
import Quench.Runtime.Cancellation

/-!
# Conservation of requests

`schedule` moves every request it was given through three places: the pending queue, the active
list, and the terminal statuses. `Placement` is what holds between calls, whatever the engine writes
into live requests, and `Ready` is what one call needs. `Conserves` is what a call owes the
requests: `schedule_conserves` shows it for one call, `run_conserves` for every call of a run.

A request whose first chunk was not prefilled before the next call is not ready. It stays active and
is handed out no more (`first_chunk_lost`).
-/

namespace Quench

open Lib List KVCacheManager

variable {queue : List Ref} {ref : Ref} {s : Scheduler}

/-! ## The slots of a reservation -/

namespace KVCacheManager

/-- A call that keeps the block size and, when it succeeds, appends this many slots to a table. -/
structure Reserves (seq : Int) (slots : Nat) (ok : Prop) (s s' : KVCacheManager) : Prop where
  blockSize : s'.blockSize = s.blockSize
  length : ok → (s'.blockTable seq).length = (s.blockTable seq).length + slots

namespace Reserves

variable {seq : Int} {slots : Nat} {ok : Prop} {s t s' : KVCacheManager}

theorem of_allocateBlocks {numBlocks : Nat} {done : Bool}
    (h : s.allocateBlocks seq numBlocks = (done, s')) :
    Reserves seq numBlocks (done = true) s s' := by
  have hserves := Serves.of_allocateBlocks h
  obtain ⟨-, hlength⟩ := s.allocateBlocks_lengths seq numBlocks
  rw [h, Int.toNat_natCast] at hlength
  exact ⟨hserves.rest.keeps (·.blockSize) fun _ _ => rfl, fun hok => by rw [hlength, if_pos hok]⟩

/-- A prefix allocation for a prompt whose sequence has no slot yet reserves all slots of the
prompt, or fails. -/
theorem allocateBlocksWithPrefix {tokens : List Token} (maxReuseBlocks : Int) (contentSalt : Hash)
    (htokens : tokens ≠ []) (hempty : s.blockTable seq = []) :
    Reserves seq ((tokens.length + s.blockSize - 1) / s.blockSize)
      (0 ≤ (s.allocateBlocksWithPrefix seq tokens maxReuseBlocks contentSalt).1) s
      (s.allocateBlocksWithPrefix seq tokens maxReuseBlocks contentSalt).2 := by
  refine ⟨(Serves.allocateBlocksWithPrefix s seq tokens maxReuseBlocks contentSalt).rest.keeps
    (·.blockSize) fun _ _ => rfl, ?_⟩
  rw [allocateBlocksWithPrefix_start htokens hempty]
  intro hok
  dsimp only at hok ⊢
  rw [if_neg (not_lt.mpr hok), (SameTables.of_sameBlocks (SameBlocks.trackLru _ seq)).blockTable,
    (startTable_lengths _ _ _ hempty).1 hok, hempty, length_nil, zero_add]

end Reserves

theorem blockTable_freeSequence (s : KVCacheManager) (seq : Int) :
    (s.freeSequence seq).blockTable seq = [] := by
  simp only [blockTable, (freeSequence_empty s seq).1, Option.getD_none]

end KVCacheManager

variable {req : Request}

namespace Request

/-- The prefill of a reused prompt starts inside the prompt and inside the reused blocks. -/
theorem skipReused_bounds (blockSize : Nat) {reused : Int} (hprompt : req.inputTokens ≠ [])
    (hoffset : req.prefillOffset = 0) (hreused : 0 ≤ reused) :
    let req' := req.skipReused blockSize reused
    0 ≤ req'.prefillOffset ∧ req'.prefillOffset < req'.inputTokens.length ∧
      req'.prefillOffset ≤ reused * blockSize := by
  have hlength : 0 < (req.inputTokens.length : Int) := by
    exact_mod_cast length_pos_iff.mpr hprompt
  have hskip : 0 ≤ reused * blockSize := Int.mul_nonneg hreused (Int.natCast_nonneg blockSize)
  unfold skipReused
  split
  next hpos =>
    have hround : 0 ≤ (req.inputTokens.length : Int) / blockSize * blockSize :=
      Int.mul_nonneg (Int.ediv_nonneg hlength.le (Int.natCast_nonneg blockSize))
        (Int.natCast_nonneg blockSize)
    simp only [reuseSkip]
    split
    · split <;> omega
    · omega
  next =>
    simp only [hoffset]
    exact ⟨le_refl 0, hlength, hskip⟩

end Request

namespace Scheduler

/-! ## The reservation of one request -/

/-- A request nothing of which has been computed, and whose sequence has no slot yet. -/
structure Unstarted (kv : KVCacheManager) (req : Request) : Prop where
  prompt : req.inputTokens ≠ []
  output : req.outputTokens = []
  offset : req.prefillOffset = 0
  table : kv.blockTable req.id = []

instance (kv : KVCacheManager) (req : Request) : Decidable (Unstarted kv req) :=
  decidable_of_iff (req.inputTokens ≠ [] ∧ req.outputTokens = [] ∧ req.prefillOffset = 0 ∧
    kv.blockTable req.id = []) ⟨fun h => ⟨h.1, h.2.1, h.2.2.1, h.2.2.2⟩,
      fun h => ⟨h.1, h.2, h.3, h.4⟩⟩

/-- The blocks a reservation reuses: none without prefix caching, and none when their number is
not the one the snapshot of a hybrid model was taken at. -/
def reusedBlocks (config : SchedulerConfig) (kv : KVCacheManager) (req : Request) : Int :=
  if kv.prefixCachingEnabled && req.cacheable then
    let (maxReuse, req) := reuseLimit config kv req
    let (reused, _) :=
      kv.allocateBlocksWithPrefix req.id req.inputTokens maxReuse req.visionContentHash
    if 0 ≤ maxReuse ∧ reused ≠ maxReuse then 0 else reused
  else 0

/-- What a promoted request owns and where its prefill starts, when `kv` is the manager its blocks
were reserved from. -/
structure Admitted (config : SchedulerConfig) (kv : KVCacheManager) (req req' : Request)
    (kv' : KVCacheManager) : Prop where
  slots : (kv'.blockTable req'.id).length = req'.contextLen ⌈/⌉ kv'.blockSize
  offset_nonneg : 0 ≤ req'.prefillOffset
  offset_lt : req'.prefillOffset < req'.inputTokens.length
  offset_le : req'.prefillOffset ≤ reusedBlocks config kv req * kv'.blockSize

variable {kv : KVCacheManager} {events : List Event}

section

variable (config : SchedulerConfig)

/-- Plain allocation for an unstarted request gives it the slots of its prompt. -/
theorem Unstarted.admitted_of_plain {config : SchedulerConfig} {kv₀ kv' : KVCacheManager}
    (h : Unstarted kv req) (hsize : kv₀.blockSize = kv.blockSize)
    (hempty : kv₀.blockTable req.id = []) (hreused : reusedBlocks config kv req = 0)
    (hcall : kv₀.allocateBlocks req.id (req.blocksNeeded kv.blockSize) = (true, kv'))
    (recurrentRestore swaRestore : Option Nat) :
    Admitted config kv req { req with recurrentRestore, swaRestore } kv' := by
  have hreserved := Reserves.of_allocateBlocks hcall
  refine ⟨?_, h.offset.ge, ?_, ?_⟩
  · rw [hreserved.length rfl, hempty, hreserved.blockSize, hsize, length_nil, zero_add,
      Nat.ceilDiv_eq_add_pred_div]
    rfl
  · rw [h.offset]
    exact_mod_cast length_pos_iff.mpr h.prompt
  · rw [h.offset, hreused, Int.zero_mul]

theorem Unstarted.reserveWithReuse (h : Unstarted kv req)
    (hcaching : (kv.prefixCachingEnabled && req.cacheable) = true) :
    let out := reserveWithReuse config kv req
    out.1 = .promote → Admitted config kv req out.2.1 out.2.2 := by
  obtain ⟨maxReuse, recurrentRestore, swaRestore, hlimit⟩ := reuseLimit_eq config kv req
  have hreused : reusedBlocks config kv req =
      if 0 ≤ maxReuse ∧ (kv.allocateBlocksWithPrefix req.id req.inputTokens maxReuse
        req.visionContentHash).1 ≠ maxReuse then 0
      else (kv.allocateBlocksWithPrefix req.id req.inputTokens maxReuse
        req.visionContentHash).1 := by
    rw [reusedBlocks, if_pos hcaching, hlimit]
  have hcall := Reserves.allocateBlocksWithPrefix maxReuse req.visionContentHash
    h.prompt h.table
  unfold Scheduler.reserveWithReuse
  rw [hlimit]
  dsimp only
  generalize kv.allocateBlocksWithPrefix req.id req.inputTokens maxReuse req.visionContentHash =
    result at hcall hreused ⊢
  obtain ⟨reused, reusedKv⟩ := result
  split
  next => nofun
  next hok =>
    split
    next hmismatch =>
      rw [if_pos hmismatch] at hreused
      have hfreed : (reusedKv.freeSequence req.id).blockSize = kv.blockSize :=
        ((Serves.freeSequence reusedKv req.id).rest.keeps (·.blockSize) fun _ _ => rfl).trans
          hcall.blockSize
      split
      next => nofun
      next after heq =>
        exact fun _ => h.admitted_of_plain hfreed (blockTable_freeSequence reusedKv req.id) hreused
          heq none swaRestore
    next hmatch =>
      rw [if_neg hmatch] at hreused
      intro _
      generalize hlimited : ({ req with recurrentRestore, swaRestore } : Request) = limited
      have hid : limited.id = req.id := by rw [← hlimited]
      have hinput : limited.inputTokens = req.inputTokens := by rw [← hlimited]
      have hcontext : limited.contextLen = req.inputTokens.length := by
        rw [← hlimited, Request.contextLen, h.output, length_nil, add_zero]
      obtain ⟨hnonneg, hlt, hle⟩ := Request.skipReused_bounds kv.blockSize
        (hinput ▸ h.prompt) (by rw [← hlimited]; exact h.offset) (not_lt.mp hok)
      have hfields : (limited.skipReused kv.blockSize reused).id = limited.id ∧
          (limited.skipReused kv.blockSize reused).contextLen = limited.contextLen := by
        unfold Request.skipReused
        split <;> exact ⟨rfl, rfl⟩
      refine ⟨?_, hnonneg, hlt, ?_⟩
      · rw [hfields.1, hfields.2, hid, hcall.length (not_lt.mp hok), h.table, hcontext,
          hcall.blockSize, Nat.ceilDiv_eq_add_pred_div, length_nil, zero_add]
      · rw [hreused, hcall.blockSize]
        exact hle

/-- An unstarted request that is promoted owns its slots. -/
theorem Unstarted.reserve (h : Unstarted kv req) : let out := reserve config kv req
    out.1 = .promote → Admitted config kv req out.2.1 out.2.2 := by
  unfold Scheduler.reserve
  dsimp only
  split
  · split
    next hcaching =>
      exact h.reserveWithReuse config hcaching
    next hplain =>
      split
      next => nofun
      next after heq =>
        have hreused : reusedBlocks config kv req = 0 := by rw [reusedBlocks, if_neg hplain]
        exact fun _ => h.admitted_of_plain rfl h.table hreused heq req.recurrentRestore
          req.swaRestore
  · split <;> nofun

/-! ## The promotion loop -/

theorem requests_promote_self (s : Scheduler) (ref : Ref) :
    (s.promote ref).requests ref = { s.requests ref with status := .prefilling } :=
  Function.update_self ref _ _

/-- What one round does to the lists and to the request's status. -/
theorem visit_spec (s : Scheduler) (ref : Ref) : let out := s.visit config ref
    out.maxBatchSize = s.maxBatchSize ∧
      match (s.consider config ref).1 with
      | .promote => out.active = s.active ++ [ref] ∧ (out.requests ref).status = .prefilling
      | .wait => out.active = s.active ∧ (out.requests ref).status = (s.requests ref).status
      | .overCapacity => out.active = s.active ∧ (out.requests ref).status = .cancelled := by
  have hcheck : (s.consider config ref).2.active = s.active ∧
      (s.consider config ref).2.maxBatchSize = s.maxBatchSize ∧
      ((s.consider config ref).1 = .wait →
        ((s.consider config ref).2.requests ref).status = (s.requests ref).status) ∧
      ((s.consider config ref).1 = .overCapacity →
        ((s.consider config ref).2.requests ref).status = .cancelled) := by
    unfold consider
    split
    · exact ⟨rfl, rfl, fun _ => rfl, nofun⟩
    next kv _ =>
      simp only [setRequest, Function.update_self]
      have hchecked := Checked.reserve config kv (s.requests ref)
      exact ⟨trivial, trivial, hchecked.wait, hchecked.overCapacity⟩
  rw [visit]
  generalize s.consider config ref = out at hcheck ⊢
  obtain ⟨verdict, checked⟩ := out
  obtain ⟨hactive, hmax, hwait, hcancel⟩ := hcheck
  cases verdict with
  | promote => exact ⟨hmax, congrArg (· ++ [ref]) hactive, by rw [requests_promote_self]⟩
  | wait => exact ⟨hmax, hactive, hwait rfl⟩
  | overCapacity => exact ⟨hmax, hactive, hcancel rfl⟩

end

/-- The loop's account of a queue: every request of it is kept, promoted or dropped, and its status
says which. -/
structure Promotes (queue : List Ref) (s : Scheduler) (kept batch dropped : List Ref)
    (s' : Scheduler) : Prop where
  perm : (kept ++ batch ++ dropped).Perm queue
  active : s'.active = s.active ++ batch
  maxBatchSize : s'.maxBatchSize = s.maxBatchSize
  room : s.active.length ≤ s.maxBatchSize → s'.active.length ≤ s.maxBatchSize
  kept_status : ∀ ref ∈ kept, (s'.requests ref).status = (s.requests ref).status
  batch_status : ∀ ref ∈ batch, (s'.requests ref).status = .prefilling
  dropped_status : ∀ ref ∈ dropped, (s'.requests ref).status = .cancelled

namespace Promotes

variable {kept batch dropped : List Ref} {t s' : Scheduler}

theorem mem_iff (h : Promotes queue s kept batch dropped s') (ref : Ref) :
    ref ∈ queue ↔ ref ∈ kept ∨ ref ∈ batch ∨ ref ∈ dropped := by
  rw [← h.perm.mem_iff, mem_append, mem_append, or_assoc]

end Promotes

/-- The promotion loop on a queue without repetitions. -/
theorem promoteLoop_promotes (config : SchedulerConfig) (hnodup : queue.Nodup) (s : Scheduler) :
    ∃ dropped, Promotes queue s (promoteLoop config queue s).1 (promoteLoop config queue s).2.1
      dropped (promoteLoop config queue s).2.2 := by
  induction queue generalizing s with
  | nil =>
    exact ⟨[], .refl _, (append_nil _).symm, rfl, id, nofun, nofun, nofun⟩
  | cons ref rest ih =>
    obtain ⟨hout, hrest⟩ := nodup_cons.mp hnodup
    by_cases hroom : (s.active.length : Int) < s.maxBatchSize
    · obtain ⟨dropped, h⟩ := ih hrest (s.visit config ref)
      obtain ⟨hmax, hverdict⟩ := visit_spec config s ref
      rw [promoteLoop_cons config ref rest hroom]
      -- The round writes the first request only, and the rest of the loop the others only.
      have hlater := (Touches.promoteLoop config rest (s.visit config ref)).1.requests ref hout
      generalize promoteLoop config rest (s.visit config ref) = out at h hlater
      have hkept : ∀ other ∈ out.1,
          (out.2.2.requests other).status = (s.requests other).status := fun other hmem => by
        rw [h.kept_status other hmem, (Touches.visit config s ref).requests other fun heq =>
          hout (mem_singleton.mp heq ▸ (h.mem_iff other).mpr (.inl hmem))]
      cases hcheck : (s.consider config ref).1 with
      | promote =>
        simp only [hcheck] at hverdict
        refine ⟨dropped,
          { h with
            perm := ?_
            active := ?_
            maxBatchSize := h.maxBatchSize.trans hmax
            room := fun _ => ?_
            kept_status := hkept
            batch_status := forall_mem_cons.mpr ⟨hlater ▸ hverdict.2, h.batch_status⟩ }⟩
        · rw [if_neg (by decide), if_pos rfl, append_assoc, cons_append]
          exact perm_middle.trans ((append_assoc _ _ dropped ▸ h.perm).cons ref)
        · rw [h.active, hverdict.1, append_assoc]
          rfl
        · rw [← hmax]
          refine h.room ?_
          rw [hverdict.1, hmax, length_append, length_singleton]
          exact_mod_cast Int.add_one_le_of_lt hroom
      | wait =>
        simp only [hcheck] at hverdict
        exact ⟨dropped,
          { h with
            perm := h.perm.cons ref
            active := hverdict.1 ▸ h.active
            maxBatchSize := h.maxBatchSize.trans hmax
            room := hmax ▸ hverdict.1 ▸ h.room
            kept_status := forall_mem_cons.mpr ⟨hlater ▸ hverdict.2, hkept⟩ }⟩
      | overCapacity =>
        simp only [hcheck] at hverdict
        exact ⟨ref :: dropped,
          { h with
            perm := perm_middle.trans (h.perm.cons ref)
            active := hverdict.1 ▸ h.active
            maxBatchSize := h.maxBatchSize.trans hmax
            room := hmax ▸ hverdict.1 ▸ h.room
            kept_status := hkept
            dropped_status := forall_mem_cons.mpr ⟨hlater ▸ hverdict.2, h.dropped_status⟩ }⟩
    · rw [promoteLoop_full config _ (not_lt.mp hroom)]
      refine ⟨[], ?_, (append_nil _).symm, rfl, id, fun _ _ => rfl, nofun, nofun⟩
      rw [append_nil, append_nil]

/-! ## The slots of promoted requests -/

/-- A queue of unstarted requests with different ids. -/
structure Reservable (queue : List Ref) (s : Scheduler) : Prop where
  unstarted : ∀ kv ∈ s.kvManager, ∀ ref ∈ queue, Unstarted kv (s.requests ref)
  ids : (queue.map fun ref => (s.requests ref).id).Nodup

namespace Reservable

variable {rest : List Ref}

theorem nodup (h : Reservable queue s) : queue.Nodup := h.ids.of_map _

theorem id_ne (h : Reservable (ref :: rest) s) {other : Ref} (hmem : other ∈ rest) :
    (s.requests other).id ≠ (s.requests ref).id := by
  have hids := nodup_cons.mp (map_cons ▸ h.ids)
  exact fun heq => hids.1 (heq ▸ mem_map_of_mem hmem)

/-- What the loop does to the first request leaves the others as they were. -/
theorem visit (h : Reservable (ref :: rest) s) (config : SchedulerConfig) :
    Reservable rest (s.visit config ref) := by
  have htouch := Touches.visit config s ref
  have hout := (nodup_cons.mp h.nodup).1
  have hsame : ∀ other ∈ rest, (s.visit config ref).requests other = s.requests other :=
    fun other hmem => htouch.requests other fun heq => hout (mem_singleton.mp heq ▸ hmem)
  constructor
  · intro kv' hkv' other hmem
    have htable := htouch.tables (s.requests other).id fun first hfirst => by
      rw [mem_singleton.mp hfirst]
      exact (h.id_ne hmem).symm
    rw [Scheduler.blockTable, Scheduler.blockTable, Option.mem_def.mp hkv',
      Option.map_some] at htable
    obtain ⟨kv, hkv, htable⟩ := Option.map_eq_some_iff.mp htable.symm
    have hreq := h.unstarted kv hkv other (mem_cons_of_mem ref hmem)
    rw [hsame other hmem]
    exact ⟨hreq.prompt, hreq.output, hreq.offset, htable ▸ hreq.table⟩
  · have hids := (nodup_cons.mp (map_cons ▸ h.ids)).2
    rwa [map_congr_left fun other hmem => congrArg Request.id (hsame other hmem)]

end Reservable

section

variable (config : SchedulerConfig)

/-- The check of an unstarted request against the manager: its size is kept, and if the request is
promoted it owns its slots. -/
theorem visit_admits (hkv : s.kvManager = some kv) (h : Unstarted kv (s.requests ref)) :
    ∃ kv', (s.visit config ref).kvManager = some kv' ∧ kv'.blockSize = kv.blockSize ∧
      ((s.consider config ref).1 = .promote →
        Admitted config kv (s.requests ref) ((s.visit config ref).requests ref) kv') := by
  have hconsider : s.consider config ref = ((reserve config kv (s.requests ref)).1,
      { s.setRequest ref (reserve config kv (s.requests ref)).2.1 with
        kvManager := some (reserve config kv (s.requests ref)).2.2 }) := by
    rw [consider, hkv]
  refine ⟨(reserve config kv (s.requests ref)).2.2, ?_,
    (Checked.reserve config kv (s.requests ref)).serves.rest.keeps (·.blockSize) fun _ _ => rfl,
    fun hpromote => ?_⟩
  · rw [visit, hconsider]
    split
    next heq => rw [← (Prod.mk.inj heq).2]; rfl
    next heq => rw [← (Prod.mk.inj heq).2]
    next heq => rw [← (Prod.mk.inj heq).2]
  · rw [hconsider] at hpromote
    have h := h.reserve config hpromote
    have hrequest : (s.visit config ref).requests ref =
        { (reserve config kv (s.requests ref)).2.1 with status := .prefilling } := by
      rw [visit, hconsider, show (reserve config kv (s.requests ref)).1 = .promote from hpromote,
        requests_promote_self]
      simp only [setRequest, Function.update_self]
    rw [hrequest]
    exact { h with }

/-- The loop keeps the manager and its block size. -/
theorem promoteLoop_blockSize (h : Reservable queue s) (hkv : s.kvManager = some kv) :
    ∃ kv', (promoteLoop config queue s).2.2.kvManager = some kv' ∧
      kv'.blockSize = kv.blockSize := by
  induction queue generalizing s kv with
  | nil => exact ⟨kv, hkv, rfl⟩
  | cons ref rest ih =>
    by_cases hroom : (s.active.length : Int) < s.maxBatchSize
    · obtain ⟨kv', hkv', hsize, -⟩ :=
        visit_admits config hkv (h.unstarted kv hkv ref mem_cons_self)
      obtain ⟨last, hlast, hlastSize⟩ := ih (h.visit config) hkv'
      rw [promoteLoop_cons config ref rest hroom]
      exact ⟨last, hlast, hlastSize.trans hsize⟩
    · rw [promoteLoop_full config _ (not_lt.mp hroom)]
      exact ⟨kv, hkv, rfl⟩

/-- Every request the loop promotes owns its slots afterwards, counted against the manager the loop
had when it came to the request. -/
theorem promoteLoop_admits (h : Reservable queue s)
    {start : KVCacheManager} (hstart : s.kvManager = some start)
    (hmem : ref ∈ (promoteLoop config queue s).2.1) :
    ∃ before after kv last, queue = before ++ ref :: after ∧
      (promoteLoop config before s).2.2.kvManager = some kv ∧
      (promoteLoop config queue s).2.2.kvManager = some last ∧
      Admitted config kv (s.requests ref) ((promoteLoop config queue s).2.2.requests ref) last := by
  induction queue generalizing s start with
  | nil => exact absurd hmem not_mem_nil
  | cons first rest ih =>
    by_cases hroom : (s.active.length : Int) < s.maxBatchSize
    · obtain ⟨visited, hvisited, -, hadmits⟩ :=
        visit_admits config hstart (h.unstarted start hstart first mem_cons_self)
      have hrest := h.visit config
      have hout := (nodup_cons.mp h.nodup).1
      rw [promoteLoop_cons config first rest hroom] at hmem ⊢
      dsimp only at hmem ⊢
      by_cases hfirst : ref = first
      · subst hfirst
        have hpromote : (s.consider config ref).1 = .promote := by
          by_contra hnot
          rw [if_neg hnot] at hmem
          exact hout ((Touches.promoteLoop config rest _).2 hmem)
        obtain ⟨last, hlast, hsize⟩ := promoteLoop_blockSize config hrest hvisited
        refine ⟨[], rest, start, last, rfl, hstart, hlast, ?_⟩
        -- The rest of the loop touches neither the request nor the table of its id.
        have hlater := (Touches.promoteLoop config rest (s.visit config ref)).1
        have hid := (Touches.visit config s ref).ids
        have htable := hlater.tables (s.requests ref).id fun other hother => by
          rw [hid]
          exact h.id_ne hother
        rw [Scheduler.blockTable, Scheduler.blockTable, hlast, hvisited, Option.map_some,
          Option.map_some, Option.some_inj] at htable
        have hadmitted := hadmits hpromote
        rw [hlater.requests ref hout]
        refine ⟨?_, hadmitted.offset_nonneg, hadmitted.offset_lt, ?_⟩
        · rw [hid, htable, hsize, ← hid, hadmitted.slots]
        · rw [hsize]
          exact hadmitted.offset_le
      · have hmem : ref ∈ (promoteLoop config rest (s.visit config first)).2.1 := by
          split at hmem
          · exact (mem_cons.mp hmem).resolve_left hfirst
          · exact hmem
        obtain ⟨before, after, kv, last, hsplit, hkv, hlast, hadmitted⟩ := ih hrest hvisited hmem
        refine ⟨first :: before, after, kv, last, by rw [hsplit]; rfl, ?_, hlast, ?_⟩
        · rw [promoteLoop_cons config first before hroom, hkv]
        · rwa [(Touches.visit config s first).requests ref fun heq =>
            hfirst (mem_singleton.mp heq)] at hadmitted
    · rw [promoteLoop_full config _ (not_lt.mp hroom)] at hmem
      exact absurd hmem not_mem_nil

end

/-! ## The batches -/

/-- Continuing chunked prefills keeps what is queued, queues nothing twice, and misses no active
request in the middle of a prefill. -/
theorem requeue_spec (requests : Ref → Request) (active : List Ref) {batch : List Ref}
    (hnodup : batch.Nodup) :
    (requeue requests batch active).Nodup ∧ batch ⊆ requeue requests batch active ∧
      ∀ ref ∈ active, (requests ref).midPrefill → ref ∈ requeue requests batch active := by
  unfold requeue
  induction active generalizing batch with
  | nil => exact ⟨hnodup, List.Subset.refl batch, nofun⟩
  | cons first rest ih =>
    rw [foldl_cons]
    split
    next hqueue =>
      obtain ⟨-, hout⟩ := Bool.and_eq_true_iff.mp hqueue
      have hout : first ∉ batch := by simpa using hout
      have hgrown : (batch ++ [first]).Nodup :=
        nodup_append'.mpr ⟨hnodup, nodup_singleton first, disjoint_singleton.mpr hout⟩
      obtain ⟨hnodup, hsub, hmid⟩ := ih hgrown
      refine ⟨hnodup, fun ref hmem => hsub (mem_append_left _ hmem), fun ref hmem hdue => ?_⟩
      rcases mem_cons.mp hmem with rfl | hmem
      · exact hsub (mem_append_right _ (mem_singleton_self ref))
      · exact hmid ref hmem hdue
    next hskip =>
      obtain ⟨hnodup, hsub, hmid⟩ := ih hnodup
      refine ⟨hnodup, hsub, fun ref hmem hdue => ?_⟩
      rcases mem_cons.mp hmem with rfl | hmem
      · have hqueued : ref ∈ batch := by simpa [hdue] using hskip
        exact hsub hqueued
      · exact hmid ref hmem hdue

/-! ## One call -/

/-- Where the scheduler finds a request: how often it stands in either list, and whether it has
ended. -/
def places (s : Scheduler) (ref : Ref) : Nat :=
  s.pending.count ref + s.active.count ref + if (s.requests ref).isTerminal then 1 else 0

/-- What one call of `schedule` owes the requests that were added before it. -/
structure Conserves (config : SchedulerConfig) (s : Scheduler) (added : List Ref) : Prop where
  placed : ∀ ref ∈ added, (s.schedule config).2.places ref = 1
  room : (s.schedule config).2.active.length ≤ (s.schedule config).2.maxBatchSize
  once : ((s.schedule config).1.prefill ++ (s.schedule config).1.decode).Nodup
  decoding : ∀ ref ∈ (s.schedule config).2.active,
    ((s.schedule config).2.requests ref).status = .decoding → ref ∈ (s.schedule config).1.decode
  prefilling : ∀ ref ∈ (s.schedule config).2.active,
    ((s.schedule config).2.requests ref).status = .prefilling →
    ((s.schedule config).2.requests ref).prefillOffset <
      ((s.schedule config).2.requests ref).inputTokens.length →
    ref ∈ (s.schedule config).1.prefill
  admitted : s.kvManager.isSome → ∀ ref ∈ (s.schedule config).2.active, ref ∉ s.active →
    ∃ before after kv kv', s.queue config = before ++ ref :: after ∧
      (promoteLoop config before s.cleared).2.2.kvManager = some kv ∧
      (s.schedule config).2.kvManager = some kv' ∧
      Admitted config kv (s.requests ref) ((s.schedule config).2.requests ref) kv'

/-- What holds between calls: no request stands twice in the lists, the requests in them were added,
an added request that is in neither has ended, and the batch is not overfull. -/
structure Placement (added : List Ref) (s : Scheduler) : Prop where
  nodup : (s.pending ++ s.active).Nodup
  listed : ∀ ref ∈ s.pending ++ s.active, ref ∈ added
  kept : ∀ ref ∈ added, ref ∈ s.pending ++ s.active ∨ (s.requests ref).isTerminal
  room : s.active.length ≤ s.maxBatchSize

/-- What a call of `schedule` needs: no terminal request waits, every active request that is being
prefilled has its first chunk behind it, and blocks can be reserved for the queue. -/
structure Ready (s : Scheduler) : Prop where
  live : ∀ ref ∈ s.pending, (s.requests ref).isTerminal = false
  begun : ∀ ref ∈ s.active, (s.requests ref).status = .prefilling →
    (s.requests ref).prefillOffset < (s.requests ref).inputTokens.length →
    0 < (s.requests ref).prefillOffset
  reservable : s.kvManager.isSome → Reservable s.pending s

/-- A call on a ready state: where its loop starts, what it promotes, and what it leaves alone. -/
theorem Placement.promotes {added : List Ref} (h : Placement added s) (config : SchedulerConfig) :
    ∃ dropped, Promotes (s.queue config) s.cleared (s.schedule config).2.pending
      (promoteLoop config (s.queue config) s.cleared).2.1 dropped (s.schedule config).2 := by
  have hnodup : (s.queue config).Nodup :=
    (queue_perm config s).nodup_iff.mpr (nodup_append.mp h.nodup).1
  obtain ⟨dropped, hloop⟩ := promoteLoop_promotes config hnodup s.cleared
  exact ⟨dropped, { hloop with }⟩

/-- A request that does not wait is not written. -/
theorem schedule_untouched (config : SchedulerConfig)
    (hout : ref ∉ s.pending) : (s.schedule config).2.requests ref = s.requests ref :=
  (Touches.promoteLoop config (s.queue config) s.cleared).1.requests ref fun hmem =>
    hout ((queue_perm config s).mem_iff.mp hmem)

section Call

variable {added : List Ref} (h : Placement added s) (hready : s.Ready) (config : SchedulerConfig)

include h hready

/-- After the call every added request is in one place. -/
theorem Placement.schedule_placed (hadded : ref ∈ added) :
    (s.schedule config).2.places ref = 1 := by
  obtain ⟨dropped, hloop⟩ := h.promotes config
  obtain ⟨hpending, hactive, hdisjoint⟩ := nodup_append.mp h.nodup
  generalize (promoteLoop config (s.queue config) s.cleared).2.1 = batch at hloop
  have hcount := (hloop.perm.trans (queue_perm config s)).count_eq ref
  rw [count_append, count_append] at hcount
  unfold places
  rw [hloop.active, count_append]
  by_cases hwaits : ref ∈ s.pending
  · have hother : ref ∉ s.cleared.active := fun hmem =>
      hdisjoint ref hwaits ref (mem_of_mem_filter hmem) rfl
    have hqueued := (hloop.mem_iff ref).mp ((queue_perm config s).mem_iff.mpr hwaits)
    rw [count_eq_one_of_mem hpending hwaits] at hcount
    rw [count_eq_zero_of_not_mem hother]
    rcases hqueued with hmem | hmem | hmem <;> have hone := count_pos_iff.mpr hmem
    · have hlive := hready.live ref hwaits
      rw [Request.isTerminal] at hlive ⊢
      rw [hloop.kept_status ref hmem, if_neg (by exact hlive ▸ Bool.false_ne_true)]
      omega
    · rw [Request.isTerminal, hloop.batch_status ref hmem, if_neg (by decide)]
      omega
    · rw [Request.isTerminal, hloop.dropped_status ref hmem, if_pos (by decide)]
      omega
  · rw [count_eq_zero_of_not_mem hwaits] at hcount
    rw [schedule_untouched config hwaits]
    cases hended : (s.requests ref).isTerminal with
    | true =>
      have hgone : ref ∉ s.cleared.active := fun hmem => by
        simpa [hended] using (mem_filter.mp hmem).2
      rw [count_eq_zero_of_not_mem hgone, if_pos rfl]
      omega
    | false =>
      have hstays : ref ∈ s.cleared.active := by
        have hlisted := (h.kept ref hadded).resolve_right (by simp [hended])
        refine mem_filter.mpr ⟨(mem_append.mp hlisted).resolve_left hwaits, ?_⟩
        rw [hended]
        rfl
      have honce : s.cleared.active.count ref = 1 :=
        count_eq_one_of_mem (hactive.filter _) hstays
      rw [honce, if_neg Bool.false_ne_true]
      omega

/-- What holds between calls holds after one. -/
theorem Placement.schedule : Placement added (s.schedule config).2 := by
  obtain ⟨dropped, hloop⟩ := h.promotes config
  have hplaced : ∀ ref ∈ added, (s.schedule config).2.places ref = 1 := fun _ hadded =>
    h.schedule_placed hready config hadded
  have hwaited : ∀ ref ∈ s.queue config, ref ∈ added := fun ref hmem =>
    h.listed ref (mem_append_left _ ((queue_perm config s).mem_iff.mp hmem))
  have hlisted : ∀ ref ∈ (s.schedule config).2.pending ++ (s.schedule config).2.active,
      ref ∈ added := by
    intro ref hmem
    rw [hloop.active] at hmem
    rcases mem_append.mp hmem with hmem | hmem
    · exact hwaited ref ((hloop.mem_iff ref).mpr (.inl hmem))
    · rcases mem_append.mp hmem with hmem | hmem
      · exact h.listed ref (mem_append_right _ (mem_of_mem_filter hmem))
      · exact hwaited ref ((hloop.mem_iff ref).mpr (.inr (.inl hmem)))
  refine ⟨nodup_iff_count_le_one.mpr fun ref => ?_, hlisted, fun ref hadded => ?_, ?_⟩
  · by_cases hmem : ref ∈ (s.schedule config).2.pending ++ (s.schedule config).2.active
    · have hone := hplaced ref (hlisted ref hmem)
      rw [places] at hone
      rw [count_append]
      omega
    · rw [count_eq_zero_of_not_mem hmem]
      exact Nat.zero_le 1
  · by_contra hnowhere
    obtain ⟨hout, hlive⟩ := not_or.mp hnowhere
    have hone := hplaced ref hadded
    rw [places, ← count_append, count_eq_zero_of_not_mem hout, if_neg hlive] at hone
    exact absurd hone (by decide)
  · have hfewer : s.cleared.active.length ≤ s.active.length := length_filter_le _ _
    have hroom := h.room
    rw [hloop.maxBatchSize]
    exact hloop.room (by change (s.cleared.active.length : Int) ≤ s.maxBatchSize; omega)

theorem Placement.schedule_nodup :
    (s.schedule config).2.active.Nodup ∧
      (promoteLoop config (s.queue config) s.cleared).2.1.Nodup := by
  obtain ⟨dropped, hloop⟩ := h.promotes config
  have hactive := (nodup_append.mp (h.schedule hready config).nodup).2.1
  have hparts := hactive
  rw [hloop.active] at hparts
  exact ⟨hactive, (nodup_append.mp hparts).2.1⟩

/-- One call of `schedule` on a ready state. -/
theorem Placement.schedule_conserves : Conserves config s added := by
  obtain ⟨dropped, hloop⟩ := h.promotes config
  obtain ⟨hactive, hbatch⟩ := h.schedule_nodup hready config
  refine
    { placed := fun _ hadded => h.schedule_placed hready config hadded
      room := (h.schedule hready config).room
      once := ?_
      decoding := fun _ hmem hstatus => mem_filter.mpr ⟨hmem, beq_iff_eq.mpr hstatus⟩
      prefilling := ?_
      admitted := ?_ }
  · refine nodup_append.mpr ⟨(requeue_spec _ _ hbatch).1, hactive.filter _, ?_⟩
    -- What is prefilled has another status than what is decoded.
    intro ref hprefill other hdecode heq
    subst heq
    have hdecoding := beq_iff_eq.mp (mem_filter.mp hdecode).2
    have hprefilling : ((s.schedule config).2.requests ref).status = .prefilling := by
      rcases mem_requeue _ _ _ hprefill with hqueued | hmid
      · exact hloop.batch_status ref hqueued
      · exact beq_iff_eq.mp (Bool.and_eq_true_iff.mp (Bool.and_eq_true_iff.mp hmid).1).1
    exact absurd (hprefilling.symm.trans hdecoding) (by decide)
  · intro ref hmem hstatus hincomplete
    obtain ⟨-, hsub, hmid⟩ := requeue_spec (s.schedule config).2.requests
      (s.schedule config).2.active hbatch
    have hcases := hmem
    rw [hloop.active] at hcases
    rcases mem_append.mp hcases with hold | hnew
    · have hold := mem_of_mem_filter hold
      have hout : ref ∉ s.pending := fun hwaits =>
        (nodup_append.mp h.nodup).2.2 ref hwaits ref hold rfl
      have hsame := schedule_untouched config hout
      rw [hsame] at hstatus hincomplete
      refine hmid ref hmem ?_
      rw [hsame, Request.midPrefill, hstatus, decide_eq_true hincomplete,
        decide_eq_true (hready.begun ref hold hstatus hincomplete)]
      rfl
    · exact hsub hnew
  · intro hkv ref hmem hnew
    obtain ⟨start, hstart⟩ := Option.isSome_iff_exists.mp hkv
    have hqueue := queue_perm config s
    obtain ⟨hunstarted, hids⟩ := hready.reservable hkv
    have hreservable : Reservable (s.queue config) s.cleared :=
      ⟨fun kv hkv ref hmem => hunstarted kv hkv ref (hqueue.mem_iff.mp hmem),
        (hqueue.map _).nodup_iff.mpr hids⟩
    rw [hloop.active] at hmem
    have hpromoted := (mem_append.mp hmem).resolve_left fun hold =>
      hnew (mem_of_mem_filter hold)
    exact promoteLoop_admits config hreservable hstart hpromoted

end Call

/-! ## Runs -/

/-- The request an action adds. -/
def Event.added : Event → Option Ref
  | .addRequest ref => some ref
  | _ => none

/-- The condition on a run: `schedule` is called on ready states, and the engine never revives a
request. -/
def Admissible (s : Scheduler) : Event → Prop
  | .schedule => s.Ready
  | .write ref req => (s.requests ref).isTerminal → req.isTerminal
  | _ => True

/-- Writing a request keeps what holds between calls as long as no request is revived. -/
theorem Placement.setRequest {added : List Ref} (h : Placement added s)
    (hfinal : (s.requests ref).isTerminal → req.isTerminal) :
    Placement added (s.setRequest ref req) := by
  refine { h with kept := fun other hmem => (h.kept other hmem).imp_right fun hended => ?_ }
  by_cases heq : other = ref
  · subst heq
    simp only [Scheduler.setRequest, Function.update_self]
    exact hfinal hended
  · simp only [Scheduler.setRequest, Function.update_of_ne heq]
    exact hended

/-- What holds between calls is kept by every admissible action. -/
theorem Placement.step {added : List Ref} (h : Placement added s)
    (config : SchedulerConfig) {event : Event} (hsafe : s.Admissible event)
    (hfresh : ∀ ref ∈ event.added, ref ∉ added) :
    Placement (added ++ event.added.toList) (step config s event) := by
  cases event with
  | addRequest ref =>
    have hout : ref ∉ added := hfresh ref rfl
    have hperm : (s.pending ++ [ref] ++ s.active).Perm (ref :: (s.pending ++ s.active)) := by
      rw [append_assoc, singleton_append]
      exact perm_middle
    refine ⟨hperm.nodup_iff.mpr (nodup_cons.mpr ⟨fun hmem => hout (h.listed ref hmem),
      h.nodup⟩), fun other hmem => ?_, fun other hmem => ?_, h.room⟩
    · rcases mem_cons.mp (hperm.mem_iff.mp hmem) with rfl | hmem
      · exact mem_append_right _ (mem_singleton_self _)
      · exact mem_append_left _ (h.listed other hmem)
    · rcases mem_append.mp hmem with hmem | hmem
      · refine (h.kept other hmem).imp_left fun hlisted => ?_
        exact hperm.mem_iff.mpr (mem_cons_of_mem ref hlisted)
      · rw [mem_singleton.mp hmem]
        exact .inl (hperm.mem_iff.mpr mem_cons_self)
  | schedule => exact (append_nil added).symm ▸ h.schedule hsafe config
  | cancel ref =>
    refine (append_nil added).symm ▸ ?_
    change Placement added (s.cancel ref)
    unfold cancel
    split
    · exact h
    · have hwrite : Placement added (s.setRequest ref
          { s.requests ref with status := .cancelled }) := h.setRequest fun _ => rfl
      exact { hwrite with }
  | write ref req => exact (append_nil added).symm ▸ h.setRequest hsafe
  | manager op => exact (append_nil added).symm ▸ { h with }

/-- Along a run the requests added so far are placed. -/
theorem Placement.run {config : SchedulerConfig} {added : List Ref}
    (h : Placement added s) (hsafe : Meets (Scheduler.step config) Admissible s events)
    (hdistinct : (added ++ events.filterMap Event.added).Nodup) :
    Placement (added ++ events.filterMap Event.added)
      (runFrom (Scheduler.step config) s events) := by
  induction events generalizing added s with
  | nil =>
    rw [filterMap_nil, append_nil]
    exact h
  | cons event events ih =>
    have hcons : (event :: events).filterMap Event.added =
        event.added.toList ++ events.filterMap Event.added := by
      rw [filterMap_cons]
      cases event.added <;> rfl
    rw [hcons, ← append_assoc] at hdistinct ⊢
    have hfirst := (nodup_append.mp (nodup_append.mp hdistinct).1).2.2
    refine ih (h.step config hsafe.1 fun ref hadded hmem => ?_) hsafe.2 hdistinct
    exact hfirst ref hmem ref (Option.mem_toList.mpr hadded) rfl

instance (s : Scheduler) : Decidable s.Ready :=
  decidable_of_iff ((∀ ref ∈ s.pending, (s.requests ref).isTerminal = false) ∧
    (∀ ref ∈ s.active, (s.requests ref).status = .prefilling →
      (s.requests ref).prefillOffset < (s.requests ref).inputTokens.length →
      0 < (s.requests ref).prefillOffset) ∧
    (s.kvManager.isSome → (∀ kv ∈ s.kvManager, ∀ ref ∈ s.pending, Unstarted kv (s.requests ref)) ∧
      (s.pending.map fun ref => (s.requests ref).id).Nodup))
    ⟨fun h => ⟨h.1, h.2.1, fun hkv => ⟨(h.2.2 hkv).1, (h.2.2 hkv).2⟩⟩,
      fun h => ⟨h.1, h.2, fun hkv => ⟨(h.3 hkv).1, (h.3 hkv).2⟩⟩⟩

instance (s : Scheduler) : (event : Event) → Decidable (s.Admissible event)
  | .schedule => inferInstanceAs (Decidable s.Ready)
  | .write ref req =>
    inferInstanceAs (Decidable ((s.requests ref).isTerminal = true → req.isTerminal = true))
  | .addRequest _ | .cancel _ | .manager _ => inferInstanceAs (Decidable True)

/-- In a run that adds different requests to an empty scheduler, calls `schedule` on ready states
and revives no request, every call conserves the requests added before it. -/
theorem run_conserves (config : SchedulerConfig) {s : Scheduler} (hpending : s.pending = [])
    (hactive : s.active = []) (hbatch : 0 ≤ s.maxBatchSize) {events : List Event}
    (hdistinct : (events.filterMap Event.added).Nodup)
    (hsafe : Meets (step config) Admissible s events) :
    ∀ before after, events = before ++ .schedule :: after →
      Conserves config (runFrom (step config) s before) (before.filterMap Event.added) := by
  intro before after hsplit
  subst hsplit
  have hstart : Placement [] s := by
    refine ⟨?_, ?_, nofun, ?_⟩ <;> rw [hactive]
    · rw [hpending]
      exact nodup_nil
    · rw [hpending]
      exact nofun
    · exact hbatch
  rw [filterMap_append] at hdistinct
  have hbefore := hstart.run hsafe.before (nodup_append.mp hdistinct).1
  exact hbefore.schedule_conserves hsafe.at_event config

/-- A request is prefilled in two chunks and decoded while the other one waits for its slot. -/
def servedInTurn : List Event :=
  [.addRequest 0, .addRequest 1, .schedule,
    .write 0 { twoPrompts 0 with status := .prefilling, prefillOffset := 4 }, .schedule,
    .write 0 { twoPrompts 0 with status := .decoding, prefillOffset := 5 }, .schedule,
    .write 0 { twoPrompts 0 with status := .finished, prefillOffset := 5 },
    .manager (.freeSequence 0)]

theorem run_conserves_served_in_turn :
    Meets (step denseConfig) Admissible oneSlot (servedInTurn ++ [.schedule]) ∧
      Conserves denseConfig (runFrom (step denseConfig) oneSlot servedInTurn) [0, 1] := by
  have hsafe : Meets (step denseConfig) Admissible oneSlot (servedInTurn ++ [.schedule]) := by
    decide +kernel
  exact ⟨hsafe, run_conserves denseConfig rfl rfl (by decide) (by decide) hsafe servedInTurn [] rfl⟩

/-- Two calls in a row: the engine has not come to the first chunk of the promoted request, its
prefill starts at the first token, and the second call leaves it out of both batches. -/
theorem first_chunk_lost :
    let s := runFrom (step denseConfig) oneSlot [.addRequest 0, .schedule]
    let out := s.schedule denseConfig
    0 ∈ out.2.active ∧ (out.2.requests 0).status = .prefilling ∧
      (out.2.requests 0).prefillOffset = 0 ∧ (out.2.requests 0).inputTokens.length = 5 ∧
      0 ∉ out.1.prefill ∧ 0 ∉ out.1.decode := by
  decide +kernel

end Scheduler

end Quench

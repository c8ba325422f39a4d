import Quench.Memory.ReuseSound
import Quench.Runtime.KvWrites

/-!
# Model state covers the committed context

Between decode steps the model state of a sequence should cover its tokens except the last, which
the next step forwards: the KV of every position before it was computed from the tokens up to there,
and a hybrid model's recurrent state was advanced over them once (`Covers`).

A verify step keeps that for the KV whatever it accepts. When an accepted token opens a budgeted
think block, the recurrent state covers the last token as well, and the next step advances it again
(`think_break_advances_twice` in `SpecRuns`). `ThinkSafe` excludes that case.
-/

namespace Quench

open Lib KVCacheManager List Chunk

/-! ## What the accept loop accepts -/

namespace StopConfig

/-- The request after these tokens were emitted one by one. -/
def feed (config : StopConfig) (req : Request) (tokens : List Token) : Request :=
  tokens.foldl config.decodeToken req

theorem feed_concat (config : StopConfig) (req : Request) (tokens : List Token) (token : Token) :
    config.feed req (tokens ++ [token]) = config.decodeToken (config.feed req tokens) token := by
  rw [feed, foldl_append]
  rfl

/-- An emitted token leaves the request's id, content salt and prompt alone. -/
theorem decodeToken_fixed (config : StopConfig) (req : Request) (token : Token) :
    (config.decodeToken req token).id = req.id ∧
      (config.decodeToken req token).visionContentHash = req.visionContentHash ∧
      (config.decodeToken req token).inputTokens = req.inputTokens := by
  obtain ⟨_, _, _, _, htrack⟩ := config.thinkOnly_trackThinkState (req.push token) token
  obtain ⟨_, _, _, _, hstop⟩ := config.thinkOnly_shouldStop
    ((config.trackThinkState (req.push token) token).updateConstraints token) token
  unfold decodeToken hardStop
  dsimp only
  rw [hstop, htrack]
  split <;> exact ⟨rfl, rfl, rfl⟩

end StopConfig

variable {config : StopConfig} {row0 : Nat} {acc : List Token} {req : Request} {out : Accepted}

/-- What the accept loop accepted: the confirmed part of the draft, and at most one token behind it.
Without that token the loop left because of a think block. -/
structure AcceptShape (config : StopConfig) (argmax : Nat → Token) (row0 accLen : Nat)
    (acc : List Token) (req : Request) (out : Accepted) : Prop where
  matched_le : out.matched ≤ accLen
  confirmed : ∀ i < out.matched, acc[i]? = some (argmax (row0 + i))
  emitted : ∃ rest, out.req.context = req.context ++ acc.take out.matched ++ rest ∧
    out.emitted = out.matched + rest.length ∧ rest.length ≤ 1
  think : out.emitted = out.matched →
    0 < out.matched ∧ out.req = config.feed req (acc.take out.matched) ∧
      0 < out.req.thinkBudget ∧ out.req.inThinkBlock
  fixed : out.req.id = req.id ∧ out.req.visionContentHash = req.visionContentHash ∧
    out.req.inputTokens = req.inputTokens

variable {argmax : Nat → Token} {accLen j blockSize p length : Nat} {block : Int}

theorem acceptLoop_shape (mcOn : Bool) (n j : Nat)
    (state : Accepted) (hj : j ≤ accLen) (hn : accLen < n + j) (hmatched : state.matched = j)
    (hemitted : state.emitted = j) (hreq : state.req = config.feed req (acc.take j))
    (hcontext : state.req.context = req.context ++ acc.take j) (hfixed : state.req.id = req.id ∧
      state.req.visionContentHash = req.visionContentHash ∧ state.req.inputTokens = req.inputTokens)
    (hconfirmed : ∀ i < j, acc[i]? = some (argmax (row0 + i))) :
    AcceptShape config argmax row0 accLen acc req
      (acceptLoop config mcOn argmax row0 acc accLen n j state) := by
  induction n generalizing j state with
  | zero => omega
  | succ n ih =>
    rw [acceptLoop, if_neg (fun h => absurd h.2 (by omega))]
    dsimp only
    obtain ⟨hgrown, -, -⟩ := config.decodeToken_spec state.req (argmax (row0 + j))
    obtain ⟨hid, hsalt, hinput⟩ := config.decodeToken_fixed state.req (argmax (row0 + j))
    have hdone := And.intro (hid.trans hfixed.1)
      (And.intro (hsalt.trans hfixed.2.1) (hinput.trans hfixed.2.2))
    -- leaving with the token behind the accepted ones
    have hleave : AcceptShape config argmax row0 accLen acc req
        { state with
          emitted := state.emitted + 1
          req := config.decodeToken state.req (argmax (row0 + j)) } := by
      refine ⟨by dsimp only; omega, by rw [hmatched]; exact hconfirmed,
        ⟨[argmax (row0 + j)], ?_, ?_, le_refl 1⟩, fun h => ?_, hdone⟩
      · rw [hgrown, hcontext, hmatched]
      · dsimp only [length_singleton]
        omega
      · dsimp only at h
        omega
    rw [StopConfig.acceptToken_eq]
    generalize (config.hardStop _ _).1 = stop
    cases stop with
    | true => exact hleave
    | false =>
      dsimp only
      split
      · exact hleave
      next hmore =>
        obtain ⟨hlt, haccept⟩ := not_or.mp hmore
        have htoken : acc[j]? = some (argmax (row0 + j)) := not_not.mp haccept
        have htake : acc.take (j + 1) = acc.take j ++ [argmax (row0 + j)] := by
          rw [take_add_one, htoken, Option.toList_some]
        have hfed : config.decodeToken state.req (argmax (row0 + j)) =
            config.feed req (acc.take (j + 1)) := by
          rw [htake, StopConfig.feed_concat, ← hreq]
        have hextended : (config.decodeToken state.req (argmax (row0 + j))).context =
            req.context ++ acc.take (j + 1) := by
          rw [hgrown, hcontext, append_assoc, htake]
        have hall : ∀ i < j + 1, acc[i]? = some (argmax (row0 + i)) :=
          Nat.forall_lt_succ_right.mpr ⟨hconfirmed, htoken⟩
        split
        next hthink =>
          refine ⟨by dsimp only; omega, by rw [hmatched]; exact hall,
            ⟨[], ?_, ?_, Nat.zero_le 1⟩, fun _ => ⟨Nat.succ_pos _, ?_, hthink⟩, hdone⟩
          · rw [hextended, hmatched, append_nil]
          · dsimp only [length_nil]
            omega
          · rw [hmatched]
            exact hfed
        · exact ih (j + 1) _ (by omega) (by omega) (by dsimp only; omega)
            (by dsimp only; omega) hfed hextended hdone hall

/-- Only the part of the draft that the loop could reach matters. -/
theorem AcceptShape.take (h : AcceptShape config argmax row0 accLen acc req out)
    (hlen : accLen ≤ acc.length) :
    AcceptShape config argmax row0 (acc.take accLen).length (acc.take accLen) req out := by
  have htake : (acc.take accLen).take out.matched = acc.take out.matched := by
    rw [take_take, min_eq_left h.matched_le]
  refine ⟨?_, fun i hi => ?_, ?_, ?_, h.fixed⟩
  · rw [length_take, min_eq_left hlen]
    exact h.matched_le
  · rw [getElem?_take_of_lt (hi.trans_le h.matched_le)]
    exact h.confirmed i hi
  · rw [htake]
    exact h.emitted
  · rw [htake]
    exact h.think

section

variable (h : AcceptShape config argmax row0 acc.length acc req out)
include h

/-- The context after the step, cut behind an accepted token. -/
theorem AcceptShape.take_context (hj : j ≤ out.matched) :
    out.req.context.take (req.contextLen + j) = req.context ++ acc.take j := by
  obtain ⟨rest, hcontext, -, -⟩ := h.emitted
  have hmatched := h.matched_le
  rw [hcontext, append_assoc, ← Request.length_context, take_length_add_append,
    take_append_of_le_length (by rw [length_take]; omega), take_take,
    min_eq_left hj]

theorem AcceptShape.contextLen_le :
    req.contextLen + out.matched ≤ out.req.contextLen ∧
      out.req.contextLen ≤ req.contextLen + out.matched + 1 ∧
      (out.emitted ≠ out.matched → out.req.contextLen = req.contextLen + out.matched + 1) := by
  obtain ⟨rest, hcontext, hemitted, hrest⟩ := h.emitted
  have hmatched := h.matched_le
  have hlen : out.req.contextLen = req.contextLen + out.matched + rest.length := by
    rw [← Request.length_context, hcontext, length_append, length_append,
      Request.length_context, length_take, min_eq_left hmatched]
  omega

theorem AcceptShape.outputTokens_ne_nil
    (houtput : req.outputTokens ≠ []) : out.req.outputTokens ≠ [] := by
  have hlen := h.contextLen_le.1
  have hpos := length_pos_of_ne_nil houtput
  rw [Request.contextLen, Request.contextLen, h.fixed.2.2] at hlen
  exact ne_nil_of_length_pos (by omega)

end

/-- The rows the accept loop reads, the draft it compares them with, and what it accepts. -/
theorem Chunk.Fits.accept_shape {chunk : Chunk} (hfits : chunk.Fits req) (config : StopConfig)
    (argmax : Nat → Token) :
    ∃ start acc, chunk.Staged start acc ∧
      (∀ i ≤ acc.length, chunk.groupStart (start + i) = start ∧ start + i < chunk.chunkLen) ∧
      AcceptShape config argmax start acc.length acc req (chunk.accept config argmax req) ∧
      (chunk.mcOn = false → start = 0 ∧ acc = chunk.draft.take chunk.k ∧ acc.length = chunk.k) ∧
      (chunk.mcOn = true → start = chunk.winner argmax * chunk.rowsPerCand ∧
        chunk.winner argmax < chunk.candidates.length ∧ acc.length < chunk.rowsPerCand) := by
  obtain ⟨start, acc, accLen, n, haccept, hlen, hn, hstaged, hgroup, hlinear, hgrouped⟩ :=
    hfits.group argmax
  have htake : (acc.take accLen).length = accLen := by rw [length_take, Nat.min_eq_left hlen]
  have hshape :
      AcceptShape config argmax start accLen acc req (chunk.accept config argmax req) := by
    rw [haccept]
    exact acceptLoop_shape _ n 0 _ (Nat.zero_le _) (by omega) rfl rfl rfl (append_nil _).symm
      ⟨rfl, rfl, rfl⟩ fun i hi => absurd hi (Nat.not_lt_zero i)
  refine ⟨start, acc.take accLen, hstaged, by rwa [htake], hshape.take hlen, fun hmc => ?_, ?_⟩
  · obtain ⟨rfl, rfl, rfl⟩ := hlinear hmc
    exact ⟨rfl, rfl, htake⟩
  · rw [htake]
    exact hgrouped

/-! ## The manager under a decode step -/

/-- The facts about the manager that a decode step relies on. They hold in every state its own
operations reach. -/
structure ManagerOk (total : Nat) (m : KVCacheManager) : Prop where
  blockSize_pos : 0 < m.blockSize
  owned : Owned total m []
  filed : Filed m
  fit : HashesFit m

namespace ManagerOk

variable {total : Nat} {m m' : KVCacheManager} {seq : Int} (h : ManagerOk total m)
include h

/-- A step that changes neither blocks, tables nor the index. -/
theorem of_swa (swa : SwaTables) (lruOrder : List Int) :
    ManagerOk total { m with swa, lruOrder } where
  blockSize_pos := h.blockSize_pos
  owned := { h.owned with }
  filed := ⟨h.filed.named, h.filed.live⟩
  fit := h.fit

omit h in
theorem fresh (hpos : 0 < blockSize) (total swaBlocks : Nat) :
    ManagerOk total (KVCacheManager.fresh blockSize total swaBlocks) := by
  have hnone : ∀ hash block, ¬ Files (KVCacheManager.fresh blockSize total swaBlocks) hash block :=
    fun hash block hfiles => by
      cases hfiles.1
  exact ⟨hpos, fresh_owned blockSize total swaBlocks,
    ⟨fun hash block hfiles => absurd hfiles (hnone hash block),
      fun hash block hfiles => absurd hfiles (hnone hash block)⟩, fun seq => Nat.zero_le _⟩

theorem of_shrinks (hshrinks : Shrinks m m') (howned : Owned total m' []) (hfit : HashesFit m') :
    ManagerOk total m' :=
  ⟨hshrinks.blockSize ▸ h.blockSize_pos, howned, hshrinks.filed, hfit⟩

theorem allocateBlocks (seq numBlocks : Int) : ManagerOk total (m.allocateBlocks seq numBlocks).2 :=
  h.of_shrinks (Extends.allocateBlocks h.filed seq numBlocks).shrinks
    (h.owned.allocateBlocks seq numBlocks) (h.fit.allocateBlocks seq numBlocks)

theorem rollback (seq newSeqLen : Int) : ManagerOk total (m.rollback seq newSeqLen) :=
  h.of_shrinks (.rollback h.filed seq newSeqLen) (h.owned.rollback seq newSeqLen)
    (h.fit.rollback seq newSeqLen)

theorem appendBlock (seq : Int) : ManagerOk total (m.appendBlock seq).2 :=
  h.of_shrinks (Extends.appendBlock h.filed seq).shrinks (h.owned.appendBlock seq)
    (h.fit.appendBlock seq)

end ManagerOk

/-- A manager whose table of a sequence grew by blocks of its own. -/
structure Grown (total : Nat) (seq : Int) (m m' : KVCacheManager) (added : List Int) : Prop where
  ok : ManagerOk total m'
  blockSize : m'.blockSize = m.blockSize
  exclusive : ∀ block, Exclusive m block → Exclusive m' block
  table : m'.blockTable seq = m.blockTable seq ++ added.map some
  own : ∀ block ∈ added, Exclusive m' block

theorem appendBlock_grown {total : Nat} {m : KVCacheManager} (h : ManagerOk total m) (seq : Int) :
    ∃ added, Grown total seq m (m.appendBlock seq).2 added ∧
      (¬ (m.appendBlock seq).1 < 0 → added.length = 1) := by
  have hextends := Extends.appendBlock h.filed seq
  have hok := h.appendBlock seq
  have htable : ∃ added : List Int,
      (m.appendBlock seq).2.blockTable seq = m.blockTable seq ++ added.map some ∧
      (¬ (m.appendBlock seq).1 < 0 → added.length = 1) := by
    unfold KVCacheManager.appendBlock
    split
    · exact ⟨[], by rw [map_nil, append_nil],
        fun hge => absurd (show (-1 : Int) < 0 by decide) hge⟩
    · split
      next after halloc =>
        refine ⟨[], ?_, fun hge => absurd (show (-1 : Int) < 0 by decide) hge⟩
        rw [map_nil, append_nil]
        exact (SameTables.allocateBlockRefWithEviction halloc).blockTable seq
      next block after halloc =>
        refine ⟨[block], ?_, fun _ => rfl⟩
        rw [KVCacheManager.pushBlock, blockTable_setTable,
          (SameTables.allocateBlockRefWithEviction halloc).blockTable seq]
        rfl
  obtain ⟨added, htable, hone⟩ := htable
  refine ⟨added, ⟨hok, hextends.shrinks.blockSize, hextends.shrinks.exclusive, htable, ?_⟩, hone⟩
  intro block hmem
  obtain ⟨i, hi⟩ := getElem?_of_mem (mem_map_of_mem (f := some) hmem)
  have hslot : HasSlot (m.appendBlock seq).2 seq ((m.blockTable seq).length + i) block := by
    rw [HasSlot, htable, getElem?_append_right (Nat.le_add_right _ _), Nat.add_sub_cancel_left]
    exact hi
  rcases hextends.slots _ block hslot with ⟨hlt, -⟩ | ⟨-, hown⟩
  · omega
  · exact hown

theorem growTable_grown {total : Nat} (seq : Int) (n : Nat) {m : KVCacheManager}
    (h : ManagerOk total m) :
    ∃ added, Grown total seq m (growTable seq n m).2 added ∧
      ((growTable seq n m).1 = true → added.length = n) := by
  induction n generalizing m with
  | zero =>
    exact ⟨[], ⟨h, rfl, fun _ hexcl => hexcl, (append_nil _).symm, by simp⟩, fun _ => rfl⟩
  | succ n ih =>
    obtain ⟨first, hfirst, hone⟩ := appendBlock_grown h seq
    rw [growTable]
    dsimp only
    split
    · exact ⟨first, hfirst, fun hfalse => absurd hfalse Bool.false_ne_true⟩
    next hge =>
      obtain ⟨rest, hrest, hlen⟩ := ih hfirst.ok
      refine ⟨first ++ rest, ⟨hrest.ok, hrest.blockSize.trans hfirst.blockSize,
        fun block hexcl => hrest.exclusive block (hfirst.exclusive block hexcl), ?_, ?_⟩, ?_⟩
      · rw [hrest.table, hfirst.table, append_assoc, map_append]
      · intro block hmem
        rcases mem_append.mp hmem with hold | hnew
        · exact hrest.exclusive block (hfirst.own block hold)
        · exact hrest.own block hnew
      · intro hok
        rw [length_append, hone hge, hlen hok, Nat.add_comm]

/-! ## Coverage -/

/-- The model state covers the tokens of a request but the last: the table reaches over them, the KV
at each of their positions was computed from the tokens up to it, and the recurrent state of a
hybrid model was advanced over exactly them. -/
structure Covers (hybrid : Bool) (req : Request) (st : SeqState) : Prop where
  reach : req.contextLen - 1 ≤ (st.manager.blockTable req.id).length * st.manager.blockSize
  kv : ∀ p < req.contextLen - 1, ∀ block,
    HasSlot st.manager req.id (p / st.manager.blockSize) block →
      st.kv block (p % st.manager.blockSize) =
        some (req.visionContentHash, req.context.take (p + 1))
  recurrent : hybrid = true → st.recurrent = req.context.dropLast

/-- A decoding request and the state of its sequence between two steps. From the block of the last
token on, the blocks of the table belong to this sequence alone. -/
structure SeqOk (total : Nat) (hybrid : Bool) (req : Request) (st : SeqState) : Prop where
  ok : ManagerOk total st.manager
  output : req.outputTokens ≠ []
  covers : Covers hybrid req st
  own : ∀ i, (req.contextLen - 1) / st.manager.blockSize ≤ i →
    i < (st.manager.blockTable req.id).length →
      ∃ block, HasSlot st.manager req.id i block ∧ Exclusive st.manager block

namespace SeqOk

variable {total : Nat} {hybrid : Bool} {st : SeqState}
variable {m : KVCacheManager} {added : List Int}

theorem contextLen_pos (h : SeqOk total hybrid req st) : 0 < req.contextLen := by
  have := length_pos_of_ne_nil h.output
  unfold Request.contextLen
  omega

variable (h : SeqOk total hybrid req st) (hgrown : Grown total req.id st.manager m added)
include h hgrown

/-- The table once it has grown. -/
theorem owns : ∀ i, (req.contextLen - 1) / m.blockSize ≤ i → i < (m.blockTable req.id).length →
    ∃ block, HasSlot m req.id i block ∧ Exclusive m block := by
  intro i hfirst hlt
  rw [hgrown.blockSize] at hfirst
  rcases lt_or_ge i (st.manager.blockTable req.id).length with hold | hnew
  · obtain ⟨block, hslot, hexcl⟩ := h.own i hfirst hold
    refine ⟨block, ?_, hgrown.exclusive block hexcl⟩
    rw [HasSlot, hgrown.table, getElem?_append_left hold]
    exact hslot
  · rw [hgrown.table, length_append, length_map] at hlt
    have hin : i - (st.manager.blockTable req.id).length < added.length := by omega
    refine ⟨added[i - (st.manager.blockTable req.id).length], ?_, hgrown.own _ (getElem_mem hin)⟩
    rw [HasSlot, hgrown.table, getElem?_append_right hnew, getElem?_map,
      getElem?_eq_getElem hin, Option.map_some]

theorem ownsFrom : OwnsFrom (m.blockTable req.id) ((req.contextLen - 1) / m.blockSize) := by
  refine ⟨fun i hfirst hlt => ?_, fun i j block hfirst hi hj => ?_⟩
  · obtain ⟨block, hslot, -⟩ := h.owns hgrown i hfirst hlt
    exact ⟨block, hslot⟩
  · have hlt := (List.getElem?_eq_some_iff.mp hi).1
    obtain ⟨found, hslot, hexcl⟩ := h.owns hgrown i hfirst hlt
    rw [HasSlot, hi] at hslot
    obtain rfl := Option.some.inj (Option.some.inj hslot)
    exact (hexcl.unique hgrown.ok.owned hi hj).2

/-- The KV of the committed positions, seen through the grown table. -/
theorem kv_grown (hp : p < req.contextLen - 1) (hslot : HasSlot m req.id (p / m.blockSize) block) :
    st.kv block (p % m.blockSize) = some (req.visionContentHash, req.context.take (p + 1)) := by
  rw [hgrown.blockSize] at hslot ⊢
  have hold : p / st.manager.blockSize < (st.manager.blockTable req.id).length :=
    (Nat.div_lt_iff_lt_mul h.ok.blockSize_pos).mpr (hp.trans_le h.covers.reach)
  rw [HasSlot, hgrown.table, getElem?_append_left hold] at hslot
  exact h.covers.kv p hp block hslot

/-- A declined step that kept the grown table. -/
theorem of_grown : SeqOk total hybrid req { st with manager := m } where
  ok := hgrown.ok
  output := h.output
  covers :=
    { reach := by
        rw [hgrown.table, hgrown.blockSize, length_append, Nat.add_mul]
        exact h.covers.reach.trans (Nat.le_add_right _ _)
      kv := fun p hp block hslot => h.kv_grown hgrown hp hslot
      recurrent := h.covers.recurrent }
  own := h.owns hgrown

end SeqOk

variable {total : Nat} {m : KVCacheManager} {added : List Int}

/-- Cutting a table back to a length that it reaches keeps that many tokens covered. -/
theorem rollback_table (h : ManagerOk total m) (seq : Int) (length : Nat) :
    (m.rollback seq length).blockSize = m.blockSize ∧
      (m.rollback seq length).blockTable seq =
        (m.blockTable seq).take ((length + m.blockSize - 1) / m.blockSize) ∧
      (∀ block, Exclusive m block → Exclusive (m.rollback seq length) block) ∧
      (length ≤ (m.blockTable seq).length * m.blockSize →
        length ≤ ((m.rollback seq length).blockTable seq).length * m.blockSize) := by
  have hshrinks := Shrinks.rollback h.filed seq length
  have htable := (h.fit.tables_rollback seq (Int.natCast_nonneg length)).1
  rw [Int.toNat_natCast] at htable
  refine ⟨hshrinks.blockSize, htable, hshrinks.exclusive, fun hreach => ?_⟩
  rw [htable, length_take, Nat.min_def]
  split
  · exact le_ceil_mul length h.blockSize_pos
  · exact hreach

theorem Grown.of_swa {seq : Int} {m' : KVCacheManager} (h : Grown total seq m m' added)
    (swa : SwaTables) (lruOrder : List Int) :
    Grown total seq m { m' with swa, lruOrder } added where
  ok := h.ok.of_swa swa lruOrder
  blockSize := h.blockSize
  exclusive := h.exclusive
  table := h.table
  own := h.own

theorem Grown.prepareSwa {seq : Int} {m' : KVCacheManager} (h : Grown total seq m m' added)
    (device : Device) (other : Int) (committed upto : Nat) :
    Grown total seq m (prepareSwa device m' other committed upto).2 added := by
  unfold Quench.prepareSwa
  split
  · exact h.of_swa _ m'.lruOrder
  · exact h

/-- The state after the table was cut back to a length: whatever the request is by then, its tokens
but the last are covered if the KV and the recurrent state say so. -/
theorem SeqOk.of_rollback {hybrid : Bool} {req' : Request} {st : SeqState}
    (h : SeqOk total hybrid req st) (hgrown : Grown total req.id st.manager m added)
    {kv : Contents} {recurrent : List Token} (hid : req'.id = req.id)
    (houtput : req'.outputTokens ≠ []) (hmore : req.contextLen ≤ req'.contextLen)
    (hlength : req'.contextLen - 1 ≤ length)
    (hreach : length ≤ (m.blockTable req.id).length * m.blockSize) (hkv : ∀ p < req'.contextLen - 1,
      ∀ block, HasSlot m req.id (p / m.blockSize) block → kv block (p % m.blockSize) = some
      (req'.visionContentHash, req'.context.take (p + 1)))
    (hrecurrent : hybrid = true → recurrent = req'.context.dropLast) :
    SeqOk total hybrid req' { manager := m.rollback req.id length, kv, recurrent } := by
  obtain ⟨hsize, htable, hexclusive, hkept⟩ := rollback_table hgrown.ok req.id length
  refine ⟨hgrown.ok.rollback req.id length, houtput, ⟨?_, fun p hp block hslot => ?_, hrecurrent⟩,
    fun i hfirst hlt => ?_⟩
  · rw [hid, hsize]
    exact hlength.trans (hkept hreach)
  · rw [hid, hsize] at hslot
    rw [hsize]
    exact hkv p hp block (hslot.of_take htable).2
  · rw [hsize] at hfirst
    rw [hid] at hlt ⊢
    have hin : i < (m.blockTable req.id).length := by
      rw [htable, length_take] at hlt
      omega
    have hfrom : (req.contextLen - 1) / m.blockSize ≤ i :=
      (Nat.div_le_div_right (by omega)).trans hfirst
    obtain ⟨block, hslot, hexcl⟩ := h.owns hgrown i hfrom hin
    refine ⟨block, ?_, hexclusive block hexcl⟩
    rw [HasSlot, htable] at *
    rw [getElem?_take_of_lt (by rw [length_take] at hlt; omega)]
    exact hslot

/-! ## The verify step -/

/-- No draft token that the rows confirm leaves the request, once emitted, decoding inside a
budgeted think block. -/
def ThinkSafe (config : StopConfig) (forward : VerifyForward) (call : VerifyCall) (req : Request) :
    Prop :=
  ∀ chunk ∈ call.chunk req, ∀ j < chunk.k,
    (∀ i < j + 1, chunk.draft[i]? = some (forward req.context.dropLast chunk i)) →
    (config.feed req (chunk.draft.take (j + 1))).status = .decoding →
      ¬ (0 < (config.feed req (chunk.draft.take (j + 1))).thinkBudget ∧
        (config.feed req (chunk.draft.take (j + 1))).inThinkBlock = true)

instance (config : StopConfig) (forward : VerifyForward) (call : VerifyCall) (req : Request) :
    Decidable (ThinkSafe config forward call req) :=
  inferInstanceAs (Decidable (∀ chunk ∈ call.chunk req, ∀ j < chunk.k,
    (∀ i < j + 1, _ = _) → _ = _ → ¬ (_ ∧ _)))

/-- The blocks of the padded chunk reach over its positions. -/
theorem Chunk.reach_of_target (chunk : Chunk) (hpos : 0 < blockSize)
    (htarget : chunk.blocksTarget blockSize ≤ length) :
    chunk.p0 + chunk.chunkPad ≤ length * blockSize := by
  have hneeded : chunk.blocksNeeded blockSize ≤ length :=
    (Nat.le_add_right _ _).trans htarget
  exact (le_ceil_mul _ hpos).trans (Nat.mul_le_mul_right _ hneeded)

section Settle

variable {hybrid : Bool} {st : SeqState} {chunk : Chunk}
variable {start : Nat}

/-- The KV a chunk leaves up to an accepted token: what stood before its first position, and from
there on the rows of one group. -/
def Chunk.Leaves (chunk : Chunk) (m : KVCacheManager) (req : Request) (junk : Nat → Written)
    (start matched : Nat) (old kv : Contents) : Prop :=
  ∀ p ≤ chunk.p0 + matched, ∀ block, HasSlot m req.id (p / m.blockSize) block →
    kv block (p % m.blockSize) =
      if p < chunk.p0 then old block (p % m.blockSize)
      else some (chunk.written req.visionContentHash req.context.dropLast junk
        (start + (p - chunk.p0)))

variable {junk : Nat → Written} {matched : Nat} {salt : Hash}

/-- Forwarding the accepted rows of a linear chunk again changes nothing. -/
theorem Chunk.Leaves.replay {old kv : Contents} (h : chunk.Leaves m req junk 0 matched old kv)
    (hmc : chunk.mcOn = false) (hown : OwnsFrom (m.blockTable req.id) (chunk.p0 / m.blockSize))
    (hpad : matched + 1 ≤ chunk.chunkPad) :
    chunk.Leaves m req junk 0 matched old
      (chunk.forwardRows m.blockSize (m.blockTable req.id) req.visionContentHash
        req.context.dropLast junk (matched + 1) kv) := by
  intro p hp block hslot
  rw [forwardRows_linear hmc hown hpad (by omega) (Contents.slot_eq_some.mpr ⟨hslot, rfl⟩),
    Nat.zero_add]
  split
  next hold => rw [h p hp block hslot, if_pos hold]
  · rfl

section

variable (h : SeqOk total hybrid req st) (hgrown : Grown total req.id st.manager m added)
  (hfits : chunk.Fits req) (htarget : chunk.blocksTarget m.blockSize ≤ (m.blockTable req.id).length)
include h hgrown hfits htarget

/-- The grown table has room for the candidates. -/
theorem SeqOk.room (hmc : chunk.mcOn = true) : chunk.Room m.blockSize (m.blockTable req.id) := by
  obtain ⟨hlen, hrows, -⟩ := hfits.grouped hmc
  have hown := h.ownsFrom hgrown
  rw [← hfits.p0] at hown
  have hsome : 0 < chunk.candidates.length := by
    rw [mcOn, Bool.not_eq_true', isEmpty_eq_false_iff] at hmc
    exact length_pos_of_ne_nil hmc
  refine ⟨hgrown.ok.blockSize_pos, hmc, hlen, hrows, hfits.pad, ?_, htarget, hown⟩
  have hgroup : chunk.rowsPerCand ≤ chunk.chunkLen := by
    rw [hlen]
    exact Nat.le_mul_of_pos_left _ hsome
  have := hfits.pad
  omega

/-- Forwarding a chunk writes to no committed position. -/
theorem SeqOk.kv_forwarded {past : List Token} (hp : p < chunk.p0)
    (hslot : HasSlot m req.id (p / m.blockSize) block) :
    chunk.forwardRows m.blockSize (m.blockTable req.id) salt past junk chunk.chunkPad
        (chunk.seed m.blockSize (m.blockTable req.id) st.kv) block (p % m.blockSize) =
      st.kv block (p % m.blockSize) := by
  have hplace := Contents.slot_eq_some.mpr ⟨hslot, rfl⟩
  cases hmc : chunk.mcOn with
  | false =>
    have hown := h.ownsFrom hgrown
    rw [← hfits.p0] at hown
    rw [forwardRows_linear hmc hown (le_rfl) (by omega) hplace, if_pos hp,
      seed, if_neg fun hon => Bool.false_ne_true (hmc.symm.trans hon.1)]
  | true =>
    have hroom := h.room hgrown hfits htarget hmc
    rw [hroom.forward_committed hp hplace,
      hroom.seed_canonical (Nat.div_le_div_right (le_of_lt hp)) hslot]

/-- The KV of a forwarded and accepted chunk up to the accepted draft. -/
theorem SeqOk.kv_settle (hwidth : chunk.candidates.length ≤ 8)
    (hdepth : ∀ candidate ∈ chunk.candidates, candidate.length ≤ 7)
    (hlinear : chunk.mcOn = false → start = 0 ∧ matched ≤ chunk.k) (hgrouped :
      chunk.mcOn = true → start = chunk.winner argmax * chunk.rowsPerCand ∧ chunk.winner argmax <
      chunk.candidates.length ∧ matched < chunk.rowsPerCand) (junk : Nat → Written) :
    chunk.Leaves m req junk start matched st.kv
      (if chunk.mcOn then
        chunk.materialize m.blockSize (m.blockTable req.id) (chunk.winner argmax) matched
          (chunk.forwardRows m.blockSize (m.blockTable req.id) req.visionContentHash
            req.context.dropLast junk chunk.chunkPad
            (chunk.seed m.blockSize (m.blockTable req.id) st.kv))
      else chunk.forwardRows m.blockSize (m.blockTable req.id) req.visionContentHash
        req.context.dropLast junk chunk.chunkPad
        (chunk.seed m.blockSize (m.blockTable req.id) st.kv)) := by
  intro p hp block hslot
  replace hslot := Contents.slot_eq_some.mpr ⟨hslot, rfl⟩
  have hown := h.ownsFrom hgrown
  rw [← hfits.p0] at hown
  cases hmc : chunk.mcOn with
  | false =>
    obtain ⟨rfl, hmatched⟩ := hlinear hmc
    obtain ⟨-, -, hlen, -⟩ := hfits.linear hmc
    have hpad := hfits.pad
    have hseed : chunk.seed m.blockSize (m.blockTable req.id) st.kv = st.kv := by
      rw [seed, hmc, if_neg fun hon => Bool.false_ne_true hon.1]
    rw [if_neg Bool.false_ne_true, forwardRows_linear hmc hown (le_rfl)
      (by omega) hslot, Nat.zero_add, hseed]
  | true =>
    obtain ⟨rfl, hbest, hmatched⟩ := hgrouped hmc
    obtain ⟨-, hrows, hk⟩ := hfits.grouped hmc
    have hshallow := mcDepth_le_iff.mpr hdepth
    exact (h.room hgrown hfits htarget hmc).materialized hbest (hwidth.trans (by decide)) hmatched
      (by rw [hrows, hk, kCopyMaxPairs]; omega) hp hslot

end

variable (hfits : chunk.Fits req)
include hfits

/-- What a real row of the accepted group was computed from. -/
theorem written_row (houtput : req.outputTokens ≠ []) (hstaged : chunk.Staged start acc)
    (hgroup : ∀ i ≤ acc.length, chunk.groupStart (start + i) = start ∧ start + i < chunk.chunkLen)
    (hj : j ≤ acc.length) :
    chunk.written salt req.context.dropLast junk (start + j) =
      (salt, req.context ++ acc.take j) := by
  rw [written, if_pos (hstaged.real hj (hgroup j hj).2), hstaged.visible hj (hgroup j hj).1,
    hfits.t0, append_cons, ← Request.context_eq houtput]

/-- The staged tokens of a linear chunk up to an accepted one. -/
theorem tokens_linear (hmc : chunk.mcOn = false)
    (hstaged : chunk.Staged 0 acc) (hj : j ≤ acc.length) :
    (chunk.rows.take (j + 1)).map Row.token = chunk.t0 :: acc.take j := by
  have hrows : chunk.groupStart (0 + j) = 0 := by
    rw [groupStart, (hfits.linear hmc).2.2.2, Nat.mul_zero]
  have hvisible := hstaged.visible hj hrows
  rw [visible, hrows, drop_zero, Nat.zero_add] at hvisible
  exact hvisible

/-- What a request that goes on after a verify step has in its KV: everything up to the token behind
the accepted draft. -/
theorem SeqOk.kv_accepted (h : SeqOk total hybrid req st)
    (hgrown : Grown total req.id st.manager m added) (hstaged : chunk.Staged start acc)
    (hgroup : ∀ i ≤ acc.length, chunk.groupStart (start + i) = start ∧ start + i < chunk.chunkLen)
    (hshape : AcceptShape config argmax start acc.length acc req out) {kv : Contents}
    (hkv : chunk.Leaves m req junk start out.matched st.kv kv) :
    ∀ p < out.req.contextLen - 1, ∀ block, HasSlot m req.id (p / m.blockSize) block →
      kv block (p % m.blockSize) =
        some (out.req.visionContentHash, out.req.context.take (p + 1)) := by
  intro p hp block hslot
  have hpos := h.contextLen_pos
  have hp0 := hfits.p0
  have hlen := hshape.contextLen_le
  have hmatched := hshape.matched_le
  rw [hkv p (by omega) block hslot, hshape.fixed.2.1]
  split
  next hold =>
    have hcut := hshape.take_context (Nat.zero_le _)
    rw [take_zero, append_nil, Nat.add_zero] at hcut
    rw [h.kv_grown hgrown (by omega) hslot, ← hcut, take_take, min_eq_left (by omega)]
  next hnew =>
    rw [written_row hfits h.output hstaged hgroup (by omega),
      ← hshape.take_context (show p - chunk.p0 ≤ out.matched by omega),
      show req.contextLen + (p - chunk.p0) = p + 1 by omega]

/-- The recurrent state of a hybrid model that restored its snapshot and replayed the accepted rows,
or kept the state of a draft accepted as a whole. -/
theorem SeqOk.recurrent_replayed (h : SeqOk total true req st)
    (hmc : chunk.mcOn = false) (hstaged : chunk.Staged 0 acc)
    (hshape : AcceptShape config argmax 0 acc.length acc req out)
    (hbonus : out.emitted ≠ out.matched) :
    st.recurrent ++ (chunk.rows.take (out.matched + 1)).map Row.token =
      out.req.context.dropLast := by
  have hlen := hshape.contextLen_le.2.2 hbonus
  rw [h.covers.recurrent rfl, tokens_linear hfits hmc hstaged hshape.matched_le, hfits.t0,
    append_cons, ← Request.context_eq h.output, ← hshape.take_context (le_rfl),
    dropLast_eq_take, Request.length_context, hlen, Nat.add_sub_cancel]

/-- A verify step that accepts and goes on keeps the request covered, unless the model is hybrid and
the accept loop left without the token behind the accepted draft. -/
theorem SeqOk.settle {device : Device} (h : SeqOk total device.hybrid req st)
    (hgrown : Grown total req.id st.manager m added)
    (htarget : chunk.blocksTarget m.blockSize ≤ (m.blockTable req.id).length)
    (hwidth : chunk.candidates.length ≤ 8)
    (hdepth : ∀ candidate ∈ chunk.candidates, candidate.length ≤ 7)
    (hroute : device.hybrid = true → chunk.mcOn = false) (config : StopConfig)
    (argmax : Nat → Token)
    (hbonus : device.hybrid = true → (chunk.accept config argmax req).emitted ≠
      (chunk.accept config argmax req).matched)
    (hlive : (chunk.accept config argmax req).req.status ≠ .finished) :
    SeqOk total device.hybrid (chunk.accept config argmax req).req
      ({ st with manager := m }.settle device chunk argmax req
        (chunk.accept config argmax req)) := by
  obtain ⟨start, acc, hstaged, hgroup, hshape, hlinear, hgrouped⟩ :=
    hfits.accept_shape config argmax
  generalize chunk.accept config argmax req = out at hshape hbonus hlive ⊢
  obtain ⟨rest, hcontext, -, -⟩ := hshape.emitted
  have hp0 := hfits.p0
  have hlen := hshape.contextLen_le
  have hmatched := hshape.matched_le
  have hpad : out.matched + 1 ≤ chunk.chunkPad := by
    have := (hgroup acc.length (le_rfl)).2
    have := hfits.pad
    omega
  -- the blocks asked for reach over everything the step keeps
  have hreach : chunk.p0 + 1 + out.matched ≤ (m.blockTable req.id).length * m.blockSize :=
    (show _ ≤ chunk.p0 + chunk.chunkPad by omega).trans
      (chunk.reach_of_target hgrown.ok.blockSize_pos htarget)
  have hfinal : ∀ kv recurrent, chunk.Leaves m req device.junk start out.matched st.kv kv →
      (device.hybrid = true → recurrent = out.req.context.dropLast) →
      SeqOk total device.hybrid out.req
        { manager := (m.touch req.id).rollback req.id (chunk.p0 + 1 + out.matched : Nat)
          kv
          recurrent } := by
    intro kv recurrent hkv hrecurrent
    exact h.of_rollback (hgrown.of_swa m.swa _) hshape.fixed.1
      (hshape.outputTokens_ne_nil h.output) (by omega) (by omega) hreach
      (h.kv_accepted hfits hgrown hstaged hgroup hshape hkv) hrecurrent
  unfold SeqState.settle
  simp only [hlive, not_false_eq_true, and_true, if_false]
  have hsettled := h.kv_settle hgrown hfits htarget hwidth hdepth
    (fun hmc => ⟨(hlinear hmc).1, (hlinear hmc).2.2 ▸ hmatched⟩)
    (fun hmc => ⟨(hgrouped hmc).1, (hgrouped hmc).2.1, hmatched.trans_lt (hgrouped hmc).2.2⟩)
    device.junk
  split
  next hreplay =>
    obtain ⟨hhybrid, hless⟩ := hreplay
    have hmc := hroute hhybrid
    obtain ⟨rfl, -, -⟩ := hlinear hmc
    have hown := h.ownsFrom hgrown
    rw [← hp0] at hown
    refine hfinal _ _ (hsettled.replay hmc hown hpad) fun _ => ?_
    rw [hhybrid] at h
    exact h.recurrent_replayed hfits hmc hstaged hshape (hbonus hhybrid)
  next hkeep =>
    refine hfinal _ _ hsettled fun hhybrid => ?_
    have hmc := hroute hhybrid
    obtain ⟨rfl, -, hk⟩ := hlinear hmc
    have hwhole : ¬ out.matched < chunk.k := fun hless => hkeep ⟨hhybrid, hless⟩
    rw [if_pos hhybrid, (hfits.linear hmc).2.2.1, show chunk.k = out.matched by omega]
    rw [hhybrid] at h
    exact h.recurrent_replayed hfits hmc hstaged hshape (hbonus hhybrid)

end Settle

end Quench

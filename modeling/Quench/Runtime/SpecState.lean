import Quench.Memory.BlockContents
import Quench.Runtime.SpecLossless

/-!
# Model state under speculation

What a decode step does to the model state of its sequence: the KV in the blocks of its table, and,
in a hybrid model, the recurrent state. The KV at a position is named by the tokens it was computed
from (`Contents`), the recurrent state by the tokens it was advanced over, in order.

`step_spec_verify_` forwards the whole chunk, so it writes KV for drafts that are then rejected and
advances the recurrent state through them. Candidates write to private blocks appended to the table,
and the winner's are copied back. What was rejected is undone by `rollback` and, for the recurrent
state, by restoring a snapshot and replaying the accepted rows. The KV of padding rows is arbitrary
(`junk`).
-/

namespace Quench

open Lib

/-! ## Candidates -/

/-- `TokenRecycleTable`: for every token of the vocabulary a row of successors, most recent first,
with negative entries where no successor is recorded yet. -/
structure TokenRecycleTable where
  vocab : Int
  slots : Nat
  row : Token → List Token

namespace TokenRecycleTable

variable (table : TokenRecycleTable)

def valid (token : Token) : Bool :=
  decide (0 ≤ token.toInt) && decide (token.toInt < table.vocab)

/-- The chain of most recent successors, at most this many tokens. -/
def chain (table : TokenRecycleTable) : Nat → Token → List Token
  | 0, _ => []
  | n + 1, cur =>
    let next := (table.row cur).headD (-1)
    if next.toInt < 0 then [] else next :: chain table n next

/-- `draft_candidates`: one chain for each recorded successor. -/
def draftCandidates (t0 : Token) (width depth : Int) : List (List Token) :=
  if table.valid t0 ∧ 0 < width ∧ 0 < depth then
    (((table.row t0).take (min width.toNat table.slots)).takeWhile (0 ≤ ·.toInt)).map
      fun first => first :: table.chain (depth.toNat - 1) first
  else []

end TokenRecycleTable

/-- `kCopyMaxPairs`: the blocks one copy call can move. -/
def kCopyMaxPairs : Nat := 16

/-- A verify call whose candidates come from the recycle table. -/
structure SpecCall extends VerifyCall where
  width : candidates.length ≤ 8
  depth : ∀ candidate ∈ candidates, candidate.length ≤ 7

/-! ## KV in blocks -/

/-- The model state of one sequence, and the manager that holds its table. -/
structure SeqState where
  manager : KVCacheManager
  kv : Contents
  recurrent : List Token

/-- Write the KV of one position through a block table. An evicted slot has no block. -/
def Contents.writeAt (kv : Contents) (blockSize : Nat) (table : List BlockRef) (position : Nat)
    (written : Written) : Contents :=
  match table[position / blockSize]? with
  | some (some block) => kv.write block (position % blockSize) written
  | _ => kv

/-- `copy_blocks_device` on one pair. -/
def Contents.copyBlock (kv : Contents) (src dst : BlockRef) : Contents :=
  match src, dst with
  | some src, some dst => fun block offset => if block = dst then kv src offset else kv block offset
  | _, _ => kv

/-- `copy_blocks_device`: the pairs are copied in order, at most `kCopyMaxPairs` of them. -/
def Contents.copyBlocks (kv : Contents) (pairs : Nat → BlockRef × BlockRef) (n : Nat) : Contents :=
  (List.range (min n kCopyMaxPairs)).foldl (fun kv i => kv.copyBlock (pairs i).1 (pairs i).2) kv

namespace Chunk

variable (chunk : Chunk) (blockSize : Nat)

/-- The blocks of the padded chunk. -/
def blocksNeeded : Nat :=
  (chunk.p0 + chunk.chunkPad + blockSize - 1) / blockSize

/-- The private blocks of one candidate. -/
def nPriv : Nat :=
  (chunk.p0 + chunk.k) / blockSize - chunk.p0 / blockSize + 1

/-- The table size the chunk asks for. -/
def blocksTarget : Nat :=
  chunk.blocksNeeded blockSize +
    if chunk.mcOn then chunk.candidates.length * chunk.nPriv blockSize else 0

variable (table : List BlockRef)

/-- A private block of a candidate. -/
def privBlock (c t : Nat) : BlockRef :=
  table.getD (chunk.blocksNeeded blockSize + c * chunk.nPriv blockSize + t) none

/-- The table of one row: the canonical one, or with the candidate's private blocks in place of
those it writes. -/
def rowTable (row : Nat) : List BlockRef :=
  if chunk.mcOn ∧ row < chunk.chunkLen then
    (List.range (chunk.nPriv blockSize)).foldl
      (fun entries t => entries.set (chunk.p0 / blockSize + t)
        (chunk.privBlock blockSize table (row / chunk.rowsPerCand) t)) table
  else table

/-- Copy the committed rows of the last block into the candidates' first private blocks. -/
def seed (kv : Contents) : Contents :=
  if chunk.mcOn ∧ chunk.p0 % blockSize ≠ 0 then
    kv.copyBlocks (fun c => (table.getD (chunk.p0 / blockSize) none,
      chunk.privBlock blockSize table c 0)) chunk.candidates.length
  else kv

instance (chunk : Chunk) (row : Nat) : Decidable (chunk.Real row) :=
  inferInstanceAs (Decidable (_ ∧ _))

/-- What a row's KV is computed from. Padding leaves something else behind. -/
def written (salt : Hash) (past : List Token) (junk : Nat → Written) (row : Nat) : Written :=
  if chunk.Real row then (salt, past ++ chunk.visible row) else junk row

/-- The KV after the first rows of the chunk have been forwarded. -/
def forwardRows (salt : Hash)
    (past : List Token) (junk : Nat → Written) (n : Nat) (kv : Contents) : Contents :=
  (List.range n).foldl
    (fun kv row => kv.writeAt blockSize (chunk.rowTable blockSize table row)
      ((chunk.rows[row]?.map Row.position).getD 0) (chunk.written salt past junk row)) kv

/-- The group the accept loop verifies against. -/
def winner (argmax : Nat → Token) : Nat :=
  (bestLoop argmax chunk.rowsPerCand 0 chunk.candidates (0, -1)).1

/-- Copy the winner's private blocks over the canonical ones it stands for. -/
def materialize (best matched : Nat) (kv : Contents) : Contents :=
  kv.copyBlocks (fun t => (chunk.privBlock blockSize table best t,
    table.getD (chunk.p0 / blockSize + t) none))
    ((chunk.p0 + matched) / blockSize - chunk.p0 / blockSize + 1)

end Chunk

/-! ## The steps -/

/-- Where a verify step may fail: while it prepares its buffers, before the forward pass, or after
it. -/
inductive Fault where
  | buffers
  | beforeForward
  | afterForward
  deriving DecidableEq

/-- What the step runs on: whether the model is hybrid, whether windowed layers have their own
blocks, the fault that occurs if any, and what padding leaves in the KV. -/
structure Device where
  hybrid : Bool
  swaSizingActive : Bool := false
  fault : Option Fault := none
  junk : Nat → Written := fun _ => (0, [])

/-- The append loop: this many blocks, or `false` when the pool is exhausted. -/
def growTable (seq : Int) : Nat → KVCacheManager → Bool × KVCacheManager
  | 0, m => (true, m)
  | n + 1, m =>
    match m.appendBlock seq with
    | (block, m) => if block < 0 then (false, m) else growTable seq n m

/-- `swa_trim` and `swa_prepare` for a span of positions. -/
def prepareSwa (device : Device) (m : KVCacheManager) (seq : Int) (committed upto : Nat) :
    Bool × KVCacheManager :=
  if device.swaSizingActive then
    let trimmed := m.swa.swaTrim m.blockSize seq committed
    let tableLength := (m.seqBlocks.lookup seq).map List.length
    let (ok, swa) := trimmed.swaPrepare m.blockSize seq tableLength committed upto
    (ok, { m with swa })
  else (true, m)

/-- `finish_request_release_` as far as the manager goes: publish what was forwarded, pin the
prompt if the request asks for it, and free the sequence. -/
def finishRelease (m : KVCacheManager) (req : Request) : KVCacheManager :=
  let m := if m.prefixCachingEnabled then
      let forwarded := if 1 < req.outputTokens.length then
          req.inputTokens ++ req.outputTokens.dropLast
        else req.inputTokens
      let m := m.registerBlockHashes req.id forwarded 0
      let inputLen : Int := req.inputTokens.length
      let pinTokens := if 0 ≤ req.pinKvPrefixTokens ∧ req.pinKvPrefixTokens < inputLen then
          req.pinKvPrefixTokens
        else inputLen
      let fullBlocks := pinTokens / m.blockSize
      if req.pinKvPrefix ∧ 0 < fullBlocks then m.pinPrefix req.id fullBlocks else m
    else m
  m.freeSequence req.id

/-- The model state once the chunk has been forwarded and its rows accepted. -/
def SeqState.settle (st : SeqState) (device : Device) (chunk : Chunk) (argmax : Nat → Token)
    (req : Request) (out : Accepted) : SeqState :=
  let table := st.manager.blockTable req.id
  let past := req.context.dropLast
  let bs := st.manager.blockSize
  let salt := req.visionContentHash
  let finished := out.req.status = .finished
  let forwarded := chunk.forwardRows bs table salt past device.junk chunk.chunkPad
    (chunk.seed bs table st.kv)
  let m := (if finished then finishRelease st.manager out.req else st.manager).touch req.id
  let kv := if chunk.mcOn ∧ ¬ finished then
      chunk.materialize bs table (chunk.winner argmax) out.matched forwarded
    else forwarded
  let m := m.rollback req.id (chunk.p0 + 1 + out.matched : Nat)
  -- a hybrid model that rejected part of the draft restores its snapshot and replays the rest
  if device.hybrid ∧ out.matched < chunk.k ∧ ¬ finished then
    { manager := m
      kv := chunk.forwardRows bs table salt past device.junk (out.matched + 1) kv
      recurrent := st.recurrent ++ (chunk.rows.take (out.matched + 1)).map Row.token }
  else
    { manager := m
      kv
      recurrent := if device.hybrid then
          st.recurrent ++ (chunk.rows.take chunk.chunkLen).map Row.token
        else st.recurrent }

/-- `step_spec_verify_` on request and model state. A declined step returns no tokens. -/
def StopConfig.verifyState (config : StopConfig) (device : Device) (forward : VerifyForward)
    (call : VerifyCall) (req : Request) (st : SeqState) : Option Accepted × SeqState :=
  -- the candidate route is off in hybrid models and under windowed sizing
  let call := if device.hybrid ∨ device.swaSizingActive then { call with candidates := [] }
    else call
  match call.chunk req with
  | none => (none, st)
  | some chunk =>
    let bs := st.manager.blockSize
    let rolledBack (m : KVCacheManager) : SeqState :=
      { st with manager := m.rollback req.id chunk.p0 }
    match growTable req.id
        (chunk.blocksTarget bs - (st.manager.blockTable req.id).length) st.manager with
    | (false, m) => (none, rolledBack m)
    | (true, m) =>
      match prepareSwa device m req.id chunk.p0 (chunk.p0 + chunk.chunkPad) with
      | (false, m) => (none, rolledBack m)
      | (true, m) =>
        let grown := { st with manager := m }
        match device.fault with
        | some .buffers => (none, grown)
        | some .beforeForward => (none, rolledBack m)
        | some .afterForward =>
          let table := m.blockTable req.id
          (none, { rolledBack m with
            kv := chunk.forwardRows bs table req.visionContentHash req.context.dropLast
              device.junk chunk.chunkPad (chunk.seed bs table st.kv) })
        | none =>
          let argmax := forward req.context.dropLast chunk
          let out := chunk.accept config argmax req
          (some out, grown.settle device chunk argmax req out)

/-- The plain decode step on request and model state: a block for the last token if it needs one,
its forward pass, and the bookkeeping of the next token. Without a block the request is
cancelled. -/
def StopConfig.plainState (config : StopConfig) (device : Device) (greedy : List Token → Token)
    (req : Request) (st : SeqState) : Request × SeqState :=
  let bs := st.manager.blockSize
  let blocksNeeded := (req.contextLen + bs - 1) / bs
  let cancelled (m : KVCacheManager) : Request × SeqState :=
    ({ req with status := .cancelled }, { st with manager := m.freeSequence req.id })
  match growTable req.id (min 1 (blocksNeeded - (st.manager.blockTable req.id).length))
      st.manager with
  | (false, m) => cancelled m
  | (true, m) =>
    match prepareSwa device m req.id req.contextLen req.contextLen with
    | (false, m) => cancelled m
    | (true, m) =>
      let next := config.decodeToken req (greedy req.context)
      let kv := st.kv.writeAt bs (m.blockTable req.id) (req.contextLen - 1)
        (req.visionContentHash, req.context)
      let m := if next.status = .finished then finishRelease m next else m
      (next,
        { manager := m.touch req.id
          kv
          recurrent := if device.hybrid then
              st.recurrent ++ [req.outputTokens.getLastD 0]
            else st.recurrent })

end Quench

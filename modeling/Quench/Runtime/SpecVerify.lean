import Quench.Runtime.ThinkStop

/-!
# Speculative verification

`step_spec_verify_` of `engine_spec_ngram.cpp` from a draft to the emitted tokens: the shape of the
verify chunk and its clamp, the rows staged for the forward pass, and the accept loop. A draft is
one continuation of the output (linear) or several candidate continuations verified side by side
(multi-candidate, `mc` in the source). The forward pass is a parameter: it returns a token for every
row of the staged chunk.

The plain decode step of `engine_scheduler.cpp` stands next to it.
-/

namespace Quench

/-! ## One emitted token -/

variable (config : StopConfig)

/-- The bookkeeping of the plain decode step for one sampled token. -/
def StopConfig.decodeToken (req : Request) (token : Token) : Request :=
  let req := config.trackThinkState (req.push token) token
  let req := req.updateConstraints token
  let (stop, req) := config.hardStop req token
  if stop then req.finish else req

/-- The bookkeeping of the accept loop for one row: whether generation ended, and the request. Here
the constraint manager is advanced after the stop test. -/
def StopConfig.acceptToken (req : Request) (token : Token) : Bool × Request :=
  let req := config.trackThinkState (req.push token) token
  let (stop, req) := config.hardStop req token
  let req := req.updateConstraints token
  if stop then (true, req.finish) else (false, req)

/-- One plain decode step with a greedy sampler. Only decoding requests are stepped. -/
def StopConfig.plainStep (greedy : List Token → Token) (req : Request) : Request :=
  if req.status = .decoding then config.decodeToken req (greedy req.context) else req

/-! ## The chunk -/

/-- What a verify step is called with: the draft and the candidates, the caller's depth floor, the
capacity of the attention scores (`0` without a limit), the largest capture bucket if it runs as a
captured graph, and whether blocks, buffers and device calls were all available. -/
structure VerifyCall where
  draft : List Token
  candidates : List (List Token)
  minDraft : Int := 0
  attnScoresCap : Int := 0
  captureBucketMax : Option Nat := none
  prepared : Bool := true

/-- The verify chunk of a step: its kind, the number of drafted tokens per row group, and its rows
with and without padding. -/
structure Chunk where
  t0 : Token
  p0 : Nat
  draft : List Token
  candidates : List (List Token)
  k : Nat
  rowsPerCand : Nat
  chunkLen : Nat
  chunkPad : Nat

/-- `mc_depth`: the length of the longest candidate. -/
def mcDepth (candidates : List (List Token)) : Nat :=
  candidates.foldl (fun depth candidate => max depth candidate.length) 0

/-- The clamp loop: shorten the draft until the score matrix fits. -/
def clampLoop (cap2 ctxEnd : Int) : Nat → Nat
  | 0 => 0
  | k + 1 => if cap2 < (k + 2 : Int) * ctxEnd then clampLoop cap2 ctxEnd k else k + 1

/-- `spec_capture_bucket_`: the smallest bucket that holds the chunk. -/
def specCaptureBucket (bucketMax chunkLen : Nat) : Nat :=
  let cap := max chunkLen bucketMax
  ([3, 4, 5, 9, 17, 33].find? fun b => decide (chunkLen ≤ b ∧ b ≤ cap)).getD cap

namespace VerifyCall

variable (call : VerifyCall)

/-- The rows of the chunk after padding to its capture bucket. -/
def padded (chunkLen : Nat) : Nat :=
  (call.captureBucketMax.map (specCaptureBucket · chunkLen)).getD chunkLen

/-- The shape of a linear chunk, unless no drafted token survives the clamp. -/
def linearChunk (t0 : Token) (p0 : Nat) : Option Chunk :=
  let k := call.draft.length
  let k := if 0 < call.attnScoresCap then
      clampLoop (call.attnScoresCap * call.attnScoresCap) (p0 + 1 + k) k
    else k
  if k = 0 then none
  else some
    { t0, p0, draft := call.draft, candidates := [], k, rowsPerCand := 0
      chunkLen := k + 1, chunkPad := call.padded (k + 1) }

/-- The shape of a multi-candidate chunk, unless its score matrix does not fit. -/
def candidateChunk (t0 : Token) (p0 : Nat) : Option Chunk :=
  let depth := mcDepth call.candidates
  let chunkLen := call.candidates.length * (1 + depth)
  if 0 < call.attnScoresCap ∧
      call.attnScoresCap * call.attnScoresCap < (chunkLen : Int) * (p0 + 1 + depth) then none
  else some
    { t0, p0, draft := call.draft, candidates := call.candidates, k := depth
      rowsPerCand := 1 + depth, chunkLen, chunkPad := call.padded chunkLen }

/-- The chunk of a verify step, or `none` where the step is left to the plain decode path. -/
def chunk (req : Request) : Option Chunk :=
  let t0 := req.outputTokens.getLastD 0
  let p0 := req.contextLen - 1
  let mcOn := !call.candidates.isEmpty
  let depth := if mcOn then mcDepth call.candidates else call.draft.length
  if 0 < call.minDraft ∧ (depth : Int) < call.minDraft then none
  else if call.draft.isEmpty && !mcOn then none
  else if mcOn then call.candidateChunk t0 p0
  else call.linearChunk t0 p0

end VerifyCall

/-! ## Staging -/

/-- One staged row: its token, its position and the context it attends to. -/
structure Row where
  token : Token
  position : Nat
  rowLen : Nat

/-- A `for` loop over consecutive rows from `base` on, with the loop index passed to its body. -/
def writeRows (base : Nat) (body : Nat → Row → Row) : Nat → List Row → List Row
  | 0, rows => rows
  | n + 1, rows => (writeRows base body n rows).modify (base + n) (body n)

namespace Chunk

variable (chunk : Chunk)

/-- Whether the chunk holds candidates. -/
def mcOn : Bool := !chunk.candidates.isEmpty

/-- The rows before any draft is staged: copies of the last token. -/
def blankRows : List Row :=
  (List.range chunk.chunkPad).map fun i =>
    { token := chunk.t0, position := if chunk.mcOn then chunk.p0 else chunk.p0 + i, rowLen := 1 }

/-- The body of the loop that stages a candidate. Rows past its end stay copies of the last
token. -/
def stageRow (candidate : List Token) (j : Nat) (row : Row) : Row :=
  { token := if 0 < j ∧ j - 1 < candidate.length then candidate.getD (j - 1) 0 else row.token
    position := chunk.p0 + j
    rowLen := if j = 0 ∨ j - 1 < candidate.length then chunk.p0 + j + 1 else 1 }

/-- The loop over the candidates from the given index on. -/
def stageCandidates (chunk : Chunk) : Nat → List (List Token) → List Row → List Row
  | _, [], rows => rows
  | c, candidate :: rest, rows =>
    stageCandidates chunk (c + 1) rest
      (writeRows (c * chunk.rowsPerCand) (chunk.stageRow candidate) chunk.rowsPerCand rows)

/-- The two loops that stage a linear draft. -/
def stageDraft (rows : List Row) : List Row :=
  let rows := writeRows 1 (fun i row => { row with token := chunk.draft.getD i 0 }) chunk.k rows
  writeRows 0 (fun i row => { row with rowLen := chunk.p0 + i + 1 }) chunk.chunkLen rows

/-- The staged chunk. -/
def rows : List Row :=
  if chunk.mcOn then chunk.stageCandidates 0 chunk.candidates chunk.blankRows
  else chunk.stageDraft chunk.blankRows

/-- The first row of the group a row belongs to. A linear chunk is one group. -/
def groupStart (row : Nat) : Nat := row / chunk.rowsPerCand * chunk.rowsPerCand

/-- The tokens a row sees beyond the committed context: those of its group, up to itself. -/
def visible (row : Nat) : List Token :=
  ((chunk.rows.take (row + 1)).drop (chunk.groupStart row)).map Row.token

/-- A row whose result the host may use: it attends to its whole prefix. Padding does not. -/
def Real (row : Nat) : Prop :=
  row < chunk.chunkLen ∧ ∃ staged ∈ chunk.rows[row]?, staged.rowLen = staged.position + 1

end Chunk

/-- The greedy token of every row of a chunk after a committed context. -/
abbrev VerifyForward := List Token → Chunk → Nat → Token

/-- The forward pass computes at each real row what greedy decoding computes after the tokens that
row sees. Nothing is assumed about padding. -/
def VerifyForward.Faithful (forward : VerifyForward) (greedy : List Token → Token) : Prop :=
  ∀ past chunk row, chunk.Real row → forward past chunk row = greedy (past ++ chunk.visible row)

/-! ## Acceptance -/

/-- The number of tokens of a candidate that the rows of its group confirm. -/
def matchLength (argmax : Nat → Token) (row0 : Nat) : List Token → Nat → Nat
  | [], m => m
  | token :: rest, m =>
    if argmax (row0 + m) = token then matchLength argmax row0 rest (m + 1) else m

/-- The search for the candidate with the longest match; the earlier one wins a tie. -/
def bestLoop (argmax : Nat → Token) (rowsPerCand : Nat) :
    Nat → List (List Token) → Nat × Int → Nat × Int
  | _, [], best => best
  | c, candidate :: rest, best =>
    let m := matchLength argmax (c * rowsPerCand) candidate 0
    bestLoop argmax rowsPerCand (c + 1) rest (if best.2 < m then (c, (m : Int)) else best)

/-- What the accept loop leaves behind. -/
structure Accepted where
  matched : Nat
  emitted : Nat
  req : Request

/-- The accept loop with `n` rows to go from row `j` of the group on. It stops at the end of
generation, at the first row that contradicts the draft, after the row behind the draft, and when a
budgeted think block has been entered. -/
def acceptLoop (config : StopConfig) (mcOn : Bool) (argmax : Nat → Token) (row0 : Nat)
    (acc : List Token) (accLen : Nat) : Nat → Nat → Accepted → Accepted
  | 0, _, state => state
  | n + 1, j, state =>
    if mcOn ∧ accLen < j then state
    else
      let token := argmax (row0 + j)
      match config.acceptToken state.req token with
      | (true, req) => { state with emitted := state.emitted + 1, req }
      | (false, req) =>
        if accLen ≤ j ∨ acc[j]? ≠ some token then
          { state with emitted := state.emitted + 1, req }
        else
          let state := { matched := state.matched + 1, emitted := state.emitted + 1, req }
          if 0 < req.thinkBudget ∧ req.inThinkBlock then state
          else acceptLoop config mcOn argmax row0 acc accLen n (j + 1) state

/-- Pick the winning group, then accept its rows. -/
def Chunk.accept (chunk : Chunk) (config : StopConfig) (argmax : Nat → Token) (req : Request) :
    Accepted :=
  let start : Accepted := { matched := 0, emitted := 0, req }
  if chunk.mcOn then
    let best := (bestLoop argmax chunk.rowsPerCand 0 chunk.candidates (0, -1)).1
    let row0 := best * chunk.rowsPerCand
    let acc := chunk.candidates.getD best []
    acceptLoop config true argmax row0 acc acc.length (chunk.chunkLen - row0) 0 start
  else acceptLoop config false argmax 0 chunk.draft chunk.k chunk.chunkLen 0 start

/-- `step_spec_verify_`: the accepted tokens and the request, or `none` where it declines and the
plain decode step runs instead. -/
def StopConfig.stepSpecVerify (forward : VerifyForward) (call : VerifyCall)
    (req : Request) : Option Accepted :=
  (call.chunk req).bind fun chunk =>
    if call.prepared then
      some (chunk.accept config (forward req.context.dropLast chunk) req)
    else none

end Quench

import Quench.Runtime.Request

/-!
# Think blocks and stop tokens

The host side of the think and stop logic: the text matcher of `think_stop_logic.h`, and
`track_think_state` and `should_stop` of `engine_sampling_stop.cpp`. Both run after a token has been
appended to the output.

Neither of them changes anything but the think state of the request (`ThinkOnly`), and the stop test
does not look at the constraint manager (`hardStop_updateConstraints`), which the two loops update
on different sides of it.
-/

namespace Quench

/-! ## Text markers -/

/-- The bytes of the marker that opens a think block, `<think>`. -/
def thinkOpen : Bytes := [60, 116, 104, 105, 110, 107, 62]

/-- The bytes of the marker that closes it, `</think>`. -/
def thinkClose : Bytes := [60, 47, 116, 104, 105, 110, 107, 62]

/-- `find(marker) != npos`. -/
def Bytes.has (text marker : Bytes) : Bool := text.tails.any marker.isPrefixOf

/-- `TextThinkState`: the think flag and the last bytes of decoded text. -/
structure TextThinkState where
  inThinkBlock : Bool
  thinkTextTail : Bytes

/-- `kWindow`: the bytes of text that are kept. -/
def TextThinkState.kWindow : Nat := 32

/-- `feed_piece`: whether the piece completed a marker, and the state after it. -/
def TextThinkState.feedPiece (ts : TextThinkState) (piece : Bytes) : Bool × TextThinkState :=
  if piece.isEmpty then (false, ts)
  else
    let tail := ts.thinkTextTail ++ piece
    let tail := tail.drop (tail.length - kWindow)
    if ts.inThinkBlock then
      if Bytes.has tail thinkClose then (true, { inThinkBlock := false, thinkTextTail := [] })
      else (false, { ts with thinkTextTail := tail })
    else
      if Bytes.has tail thinkOpen && !Bytes.has tail thinkClose then
        (true, { inThinkBlock := true, thinkTextTail := [] })
      else (false, { ts with thinkTextTail := tail })

/-- `kMinAnswerAfterThink`. -/
def kMinAnswerAfterThink : Int := 16

/-- `grace_blocks_stop`: whether a stop right after a think block is still ignored. -/
def graceBlocksStop (thinkExitIdx outputSize : Int) (contentAfterThink : Bool) : Bool :=
  if thinkExitIdx < 0 ∨ contentAfterThink then false
  else decide (outputSize - thinkExitIdx < kMinAnswerAfterThink)

/-! ## The engine's stop test -/

/-- The tokenizer if it is loaded, the chat template's stop tokens, the banned ones, the ids of the
think markers (`-1` if they are not single tokens) and the table of tokens that decode to white
space. -/
structure StopConfig where
  tokenizer : Option ((Token → Bool) × (Token → Bytes))
  stopTokenIds : List Token
  bannedTokenIds : List Token
  thinkStartId : Token
  thinkEndId : Token
  whitespaceTable : List Bool

namespace StopConfig

variable (config : StopConfig)

/-- `is_stop_token`. -/
def isStopToken (token : Token) : Bool :=
  config.tokenizer.any (fun tokenizer => tokenizer.1 token) ||
    config.stopTokenIds.contains token || config.bannedTokenIds.contains token

/-- `token_is_whitespace`. -/
def tokenIsWhitespace (token : Token) : Bool :=
  decide (0 ≤ token.toInt) && config.whitespaceTable.getD token.toInt.toNat false

/-- The think block is left at the current end of the output. -/
def exitThink (req : Request) : Request :=
  { req with
    inThinkBlock := false
    thinkExitIdx := req.outputTokens.length
    contentAfterThink := false }

/-- The text fallback of `track_think_state`. -/
def trackThinkText (req : Request) (piece : Bytes) : Request :=
  let (transitioned, ts) := TextThinkState.feedPiece ⟨req.inThinkBlock, req.thinkTextTail⟩ piece
  let fed := { req with inThinkBlock := ts.inThinkBlock, thinkTextTail := ts.thinkTextTail }
  if transitioned && req.inThinkBlock && !fed.inThinkBlock then exitThink fed else fed

/-- `track_think_state`. -/
def trackThinkState (req : Request) (token : Token) : Request :=
  if token = config.thinkStartId then { req with inThinkBlock := true }
  else if token = config.thinkEndId then exitThink req
  else
    match config.tokenizer with
    | none => req
    | some tokenizer =>
      if (tokenizer.2 token).isEmpty then req else trackThinkText req (tokenizer.2 token)

/-- `should_stop`. Inside a think block a stop token closes the block instead. After it, a stop is
ignored until an answer has begun or the grace period is over. -/
def shouldStop (req : Request) (token : Token) : Bool × Request :=
  if req.ignoreEos then (false, req)
  else if req.inThinkBlock then
    if config.isStopToken token then (false, { exitThink req with thinkTextTail := [] })
    else (false, req)
  else if 0 ≤ req.thinkExitIdx ∧ config.isStopToken token then
    if graceBlocksStop req.thinkExitIdx req.outputTokens.length req.contentAfterThink then
      (false, req)
    else (config.isStopToken token, req)
  else if 0 ≤ req.thinkExitIdx ∧ req.thinkExitIdx < req.outputTokens.length ∧
      !config.tokenIsWhitespace token then
    (config.isStopToken token, { req with contentAfterThink := true })
  else (config.isStopToken token, req)

/-- Whether generation ends after this token: the stop test or the token limit. -/
def hardStop (req : Request) (token : Token) : Bool × Request :=
  let (stop, req) := config.shouldStop req token
  (stop || decide (req.maxTokens ≤ req.outputTokens.length), req)

/-! ## What the bookkeeping may change -/

/-- Two requests that differ in their think state only. -/
def ThinkOnly (req req' : Request) : Prop :=
  ∃ inThinkBlock thinkTextTail thinkExitIdx contentAfterThink, req' =
    { req with inThinkBlock, thinkTextTail, thinkExitIdx, contentAfterThink }

theorem ThinkOnly.trans {req req' req'' : Request} (h : ThinkOnly req req')
    (h' : ThinkOnly req' req'') : ThinkOnly req req'' := by
  obtain ⟨_, _, _, _, rfl⟩ := h
  obtain ⟨_, _, _, _, rfl⟩ := h'
  exact ⟨_, _, _, _, rfl⟩

variable (req : Request) (token : Token)

theorem thinkOnly_trackThinkState : ThinkOnly req (config.trackThinkState req token) := by
  unfold trackThinkState
  split
  · exact ⟨_, _, _, _, rfl⟩
  · split
    · exact ⟨_, _, _, _, rfl⟩
    · split
      · exact ⟨_, _, _, _, rfl⟩
      · split
        · exact ⟨_, _, _, _, rfl⟩
        · unfold trackThinkText
          dsimp only
          split <;> exact ⟨_, _, _, _, rfl⟩

theorem thinkOnly_shouldStop : ThinkOnly req (config.shouldStop req token).2 := by
  unfold shouldStop
  repeat' split
  all_goals exact ⟨_, _, _, _, rfl⟩

/-- The stop test comes out the same before and after the constraint manager is advanced. -/
theorem hardStop_updateConstraints :
    config.hardStop (req.updateConstraints token) token =
      ((config.hardStop req token).1, (config.hardStop req token).2.updateConstraints token) := by
  unfold hardStop shouldStop Request.updateConstraints
  dsimp only
  split
  · rfl
  · split
    · split <;> rfl
    · split
      · split <;> rfl
      · split <;> rfl

end StopConfig

end Quench

import Quench.Runtime.ThinkStop

/-!
# The graph decode loop

`CudaGraphConditionalRunner` decodes on the device until the kernel `post_decode_step_kernel` breaks
the loop. Here are the kernel (`postDecodeStep`), the device memory it works on, and what the host
puts there: `build_graph_config`, the initial upload of `setup`, and `rearm` for another launch.

The sampling parameters of the configuration, the forward pass and the handling of CUDA errors are
left out. `static_cast<int>(max_tokens * think_budget)` is a parameter.
-/

namespace Quench

/-! ## The think budget on the host -/

/-- `count_reasoning_tokens`: the tokens inside think blocks, and whether the last block is open. -/
def countReasoningTokens (thinkStartId thinkEndId : Token) (startedInThink : Bool)
    (outputTokens : List Token) : Int × Bool :=
  outputTokens.foldl
    (fun state token =>
      if token = thinkStartId then (state.1, true)
      else if token = thinkEndId then (state.1, false)
      else if state.2 then (state.1 + 1, true)
      else state)
    (0, startedInThink)

/-- `kMaxAnswerReserve`. -/
def kMaxAnswerReserve : Int := 256

/-- `should_force_think_end`; `fracLimit` is the fraction of `maxTokens` that may be thought. -/
def shouldForceThinkEnd (thinkBudget : Rat) (thinkEndId : Token) (maxTokens fracLimit : Int)
    (outputTokens : List Token) (thinkStartId : Token) (startedInThink : Bool) : Bool :=
  if ¬ 0 < thinkBudget ∨ thinkEndId.toInt < 0 ∨ outputTokens.isEmpty then false
  else
    let reserveLimit := maxTokens - kMaxAnswerReserve
    let thinkLimit := if reserveLimit < fracLimit then fracLimit else reserveLimit
    let (nReasoning, currentlyThinking) :=
      countReasoningTokens thinkStartId thinkEndId startedInThink outputTokens
    currentlyThinking && decide (thinkLimit ≤ nReasoning)

/-! ## Configuration and device memory -/

/-- `CudaGraphConditionalRunner::Config`. A table of white space that is missing is empty, and a
penalty history is there only if there are penalties. -/
structure GraphConfig where
  maxSteps : Int := 0
  initialContextLen : Int := 0
  initialPosition : Int := 0
  eosId : Token := -1
  stopIds : List Token := []
  thinkBudgetLimit : Int := 0
  thinkStartId : Token := -1
  thinkEndId : Token := -1
  initialInThink : Bool := false
  thinkGraceTokens : Int := 0
  tokenIsWhitespace : List Bool := []
  ignoreEos : Bool := false
  stepLimit : Int := 0
  penaltyHistory : Option (List Token) := none

/-- The think counters on the device. -/
structure DeviceThink where
  count : Int := 0
  inThink : Bool
  exitStep : Int := -1
  contentAfterThink : Bool := false

/-- The memory the kernel works on. -/
structure GraphState where
  ringBuffer : List Token
  ringStepCounter : Int := 0
  position : Int
  contextLen : Int
  stepCounter : Nat := 0
  thinkLimit : Int
  think : Option DeviceThink
  stepLimit : Int
  penaltyRing : Option (List Token)
  penaltyCount : Int
  burstDone : Bool := false

namespace GraphConfig

variable (config : GraphConfig)

/-- The upload of `setup`. -/
def setup : GraphState where
  ringBuffer := List.replicate config.maxSteps.toNat 0
  position := config.initialPosition
  contextLen := config.initialContextLen
  thinkLimit := config.thinkBudgetLimit
  think := if 0 ≤ config.thinkEndId.toInt then some { inThink := config.initialInThink } else none
  stepLimit := config.stepLimit
  penaltyRing := config.penaltyHistory.map fun history =>
    history ++ List.replicate config.maxSteps.toNat 0
  penaltyCount := (config.penaltyHistory.getD []).length

/-- `captured_context_ceiling`. -/
def capturedContextCeiling : Int :=
  config.initialContextLen + config.maxSteps

/-- `rearm`: it fails if the launch could pass the context the graph was captured for. -/
def rearm (state : GraphState) (position contextLen stepLimit : Int)
    (inThink : Bool) (thinkLimit : Int) : Option GraphState :=
  let stepsThisLaunch := if 0 < stepLimit then stepLimit else config.maxSteps
  if config.capturedContextCeiling < contextLen + stepsThisLaunch then none
  else some { state with
    ringStepCounter := 0
    position
    contextLen
    stepCounter := 0
    thinkLimit
    think := state.think.map fun _ => { inThink }
    stepLimit
    burstDone := false }

/-! ## The kernel -/

variable (token : Token)

/-- The comparison with `eos_id` and the stop ids. -/
def isStop : Bool :=
  token == config.eosId || config.stopIds.contains token

/-- The look-up in the white space table. -/
def isWhitespace : Bool :=
  decide (0 ≤ token.toInt) && config.tokenIsWhitespace.getD token.toInt.toNat false

/-- `track_think`: whether the device follows think blocks. -/
def tracksThink : Bool := decide (0 ≤ config.thinkEndId.toInt)

/-- Follow the think markers, and count reasoning tokens if there is a budget. -/
def trackThink (thinkLimit : Int) (step : Nat) (think : DeviceThink)
    (token : Token) : DeviceThink :=
  if token = config.thinkStartId then { think with inThink := true }
  else if token = config.thinkEndId then
    { think with inThink := false, exitStep := step, contentAfterThink := false }
  else if think.inThink ∧ 0 < thinkLimit then { think with count := think.count + 1 }
  else think

/-- Note the first real answer token after a think block. -/
def noteContent (step : Nat) (think : DeviceThink) (token : Token) : DeviceThink :=
  if 0 ≤ think.exitStep ∧ think.exitStep < step ∧ token ≠ config.thinkStartId ∧
      token ≠ config.thinkEndId ∧ !config.isStop token ∧ !config.isWhitespace token then
    { think with contentAfterThink := true }
  else think

/-- `eff_max`: the step limit of the launch, below the capacity. -/
def effMax (stepLimit : Int) : Int :=
  if 0 < stepLimit ∧ stepLimit < config.maxSteps then stepLimit else config.maxSteps

/-- Whether a stop is ignored because a think block was left and no answer has begun. -/
def inGrace (step : Nat) (think : DeviceThink) : Bool :=
  decide (0 < config.thinkGraceTokens ∧ 0 ≤ think.exitStep ∧
    step - think.exitStep < config.thinkGraceTokens) && !think.contentAfterThink

/-- The think counters once a token has been followed. -/
def nextThink (state : GraphState) (token : Token) : Option DeviceThink :=
  if config.tracksThink then
    state.think.map fun think =>
      config.noteContent state.stepCounter
        (config.trackThink state.thinkLimit state.stepCounter think token) token
  else state.think

/-- Whether the device is inside a think block. -/
def inThink (think : Option DeviceThink) : Bool :=
  config.tracksThink && think.any DeviceThink.inThink

/-- The step cap. -/
def capReached (state : GraphState) : Bool :=
  decide (config.effMax state.stepLimit ≤ state.stepCounter + 1)

/-- The stop test of the kernel. -/
def stopHit (step : Nat) (think : Option DeviceThink) (token : Token) : Bool :=
  !config.inThink think && !think.any (config.inGrace step) && !config.ignoreEos &&
    config.isStop token

/-- The think budget of the kernel. -/
def budgetHit (thinkLimit : Int) (think : Option DeviceThink) : Bool :=
  decide (0 < thinkLimit) && config.inThink think &&
    think.any fun think => decide (thinkLimit ≤ think.count)

/-- `post_decode_step_kernel`: whether the loop is broken, and the memory after the step. -/
def postDecodeStep (state : GraphState) (token : Token) : Bool × GraphState :=
  let step := state.stepCounter
  let think := config.nextThink state token
  let shouldStop := config.capReached state || config.stopHit step think token ||
    config.budgetHit state.thinkLimit think
  let historyLen := (config.penaltyHistory.getD []).length
  (shouldStop,
    { state with
      think
      ringBuffer := state.ringBuffer.set step token
      penaltyRing := state.penaltyRing.map fun ring => ring.set (historyLen + step) token
      penaltyCount :=
        if state.penaltyRing.isSome then historyLen + step + 1 else state.penaltyCount
      position := state.position + 1
      contextLen := state.contextLen + 1
      stepCounter := step + 1
      ringStepCounter := step + 1
      burstDone := state.burstDone || shouldStop })

end GraphConfig

/-! ## The host's side of a launch -/

namespace StopConfig

variable (config : StopConfig)

/-- The tokens a request has thought, as counted at a launch. -/
def usedThinking (req : Request) : Int :=
  (countReasoningTokens config.thinkStartId config.thinkEndId req.startedInThink req.outputTokens).1

/-- The budget of a launch: what is left of the fraction, and at least one token. -/
def launchThinkLimit (req : Request) (fracLimit : Int) : Int :=
  if 0 < req.thinkBudget ∧ 0 ≤ config.thinkEndId.toInt then
    max 1 (fracLimit - config.usedThinking req)
  else 0

/-- `build_graph_config`; `eosId` is that of the tokenizer, and `penalized` says whether the request
has a penalty. -/
def buildGraphConfig (eosId : Token) (penalized : Bool) (fracLimit : Int)
    (req : Request) (remaining : Int) : GraphConfig :=
  let base : GraphConfig :=
    { maxSteps := remaining
      initialContextLen := req.contextLen
      initialPosition := req.contextLen - 1
      eosId := if config.tokenizer.isSome then eosId else -1
      stopIds := config.stopTokenIds ++ config.bannedTokenIds
      ignoreEos := req.ignoreEos
      penaltyHistory := if penalized then some req.outputTokens else none }
  if 0 ≤ config.thinkEndId.toInt then
    { base with
      thinkStartId := config.thinkStartId
      thinkEndId := config.thinkEndId
      initialInThink := req.inThinkBlock
      thinkGraceTokens := kMinAnswerAfterThink
      tokenIsWhitespace := config.whitespaceTable
      thinkBudgetLimit := config.launchThinkLimit req fracLimit }
  else base

/-- `rearm` as the engine calls it for the next burst of a request. -/
def rearmLaunch (graph : GraphConfig) (state : GraphState)
    (fracLimit : Int) (req : Request) (stepLimit : Int) : Option GraphState :=
  graph.rearm state (req.contextLen - 1) req.contextLen stepLimit req.inThinkBlock
    (config.launchThinkLimit req fracLimit)

/-- What the host does with one token, sampled by itself or harvested from a burst: emit it, follow
the think markers, test for a stop. -/
def eagerStep (req : Request) (token : Token) : Bool × Request :=
  config.shouldStop (config.trackThinkState (req.push token) token) token

theorem thinkOnly_eagerStep (req : Request) (token : Token) :
    ThinkOnly (req.push token) (config.eagerStep req token).2 :=
  (config.thinkOnly_trackThinkState _ token).trans (config.thinkOnly_shouldStop _ token)

end StopConfig

end Quench

import Quench.Memory.KVCacheManager

/-!
# Requests

The fields of `Request` of `runtime/request.h` that the scheduler and the decode loop read or write,
with their defaults. Sampling parameters, log probabilities and the statistics of speculation are
left out.
-/

namespace Quench

/-- `RequestStatus`. -/
inductive RequestStatus where
  | pending
  | prefilling
  | decoding
  | finished
  | cancelled
  deriving DecidableEq, Repr

/-- `CancelReason`. -/
inductive CancelReason where
  | none
  | kvCapacity
  deriving DecidableEq, Repr

/-- A `std::string`: the decoded text of tokens. -/
abbrev Bytes := List UInt8

/-- A `Request`. Of a picture and its embedding only the presence matters here. A snapshot to
restore is named by a number, and a constraint manager by the tokens it was updated with. -/
structure Request where
  id : Int := 0
  status : RequestStatus := .pending
  inputTokens : List Token := []
  outputTokens : List Token := []
  maxTokens : Int := 256
  ignoreEos : Bool := false
  inThinkBlock : Bool := false
  startedInThink : Bool := false
  thinkTextTail : Bytes := []
  thinkExitIdx : Int := -1
  contentAfterThink : Bool := false
  thinkBudget : Rat := 0
  constraints : Option (List Token) := Option.none
  pinKvPrefix : Bool := false
  pinKvPrefixTokens : Int := -1
  prefillOffset : Int := 0
  cachedTokens : Int := 0
  recurrentRestore : Option Nat := Option.none
  swaRestore : Option Nat := Option.none
  cancelReason : CancelReason := .none
  image : Bool := false
  qwenPatches : Nat := 0
  visionEmb : Bool := false
  nVisionTokens : Int := 0
  visionContentHash : Hash := 0

namespace Request

variable (req : Request)

/-- Prompt and output: the tokens the next one depends on. -/
def context : List Token := req.inputTokens ++ req.outputTokens

/-- `context_len`. -/
def contextLen : Nat := req.inputTokens.length + req.outputTokens.length

theorem length_context : req.context.length = req.contextLen :=
  List.length_append

/-- Emit one token. -/
def push (token : Token) : Request :=
  { req with outputTokens := req.outputTokens ++ [token] }

/-- Advance the request's constraint manager, if it has one. -/
def updateConstraints (token : Token) : Request :=
  { req with constraints := req.constraints.map (· ++ [token]) }

/-- `finish_request` as far as the request goes: its snapshot buffer and its constraint manager are
handed back. -/
def finish : Request :=
  { req with status := .finished, recurrentRestore := none, constraints := none }

end Request

end Quench

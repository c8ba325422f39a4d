import Quench.Lib.Runs
import Quench.Runtime.GraphLoop

/-!
# The think budget on the host and on the device

A request may limit how much it thinks. The host asks `should_force_think_end` before each token; a
launch of the graph loop counts on the device against the limit it was given. A generation is cut
into bursts, and each burst is a fresh launch or a rearmed one with what is left of the budget.

`budgets_agree` says when both cut a think block at the same number of reasoning tokens. The host
also grants all but 256 tokens of the answer, while a launch only knows the fraction
(`reserve_parts`).
-/

namespace Quench

open Lib List Option GraphConfig

/-! ## Bursts -/

/-- A bounded burst: how it is launched and the tokens it samples. -/
structure Burst where
  rearm : Bool
  stepLimit : Int
  remaining : Int
  tokens : List Token

/-- A request between two bursts, and the runner an earlier burst has left. -/
structure Generation where
  req : Request
  parked : Option (GraphConfig × GraphState)

/-- The kernel step, answered by its budget test alone. -/
def GraphConfig.budgetStep (graph : GraphConfig) (state : GraphState) (token : Token) :
    Bool × GraphState :=
  (graph.budgetHit state.thinkLimit (graph.nextThink state token),
    (graph.postDecodeStep state token).2)

namespace StopConfig

variable (config : StopConfig) (eosId : Token) (penalized : Bool) (fracLimit : Int)

/-- `try_launch_async_graph_loop`: rearm the parked runner if it can be, or set up a fresh one. -/
def launch (gen : Generation) (burst : Burst) : GraphConfig × GraphState :=
  let graph := { config.buildGraphConfig eosId penalized fracLimit gen.req burst.remaining with
    stepLimit := burst.stepLimit }
  let rearmed :=
    if burst.rearm then
      gen.parked.bind fun parked =>
        (config.rearmLaunch parked.1 parked.2 fracLimit gen.req burst.stepLimit).map (parked.1, ·)
    else none
  rearmed.getD (graph, graph.setup)

/-- The tokens of a burst are handed to the request and the runner is parked. -/
def harvest (gen : Generation) (burst : Burst) : Generation :=
  let launched := config.launch eosId penalized fracLimit gen burst
  { req := runFrom (fun req token => (config.eagerStep req token).2) gen.req burst.tokens
    parked := some (launched.1,
      runFrom (fun state token => (launched.1.postDecodeStep state token).2) launched.2
        burst.tokens) }

/-- The output at which a launch breaks for a forced end of the block. -/
def breakOutput : Generation → List Burst → Option (List Token)
  | _, [] => none
  | gen, burst :: bursts =>
    let launched := config.launch eosId penalized fracLimit gen burst
    match firstAnswer launched.1.budgetStep launched.2 burst.tokens with
    | some index => some (gen.req.outputTokens ++ burst.tokens.take (index + 1))
    | none => breakOutput (config.harvest eosId penalized fracLimit gen burst) bursts

variable (req : Request)

/-- The reasoning tokens of an output. -/
def reasoning (output : List Token) : Int :=
  (countReasoningTokens config.thinkStartId config.thinkEndId req.startedInThink output).1

/-- Whether an output ends inside a think block. -/
def thinkingNow (output : List Token) : Bool :=
  (countReasoningTokens config.thinkStartId config.thinkEndId req.startedInThink output).2

/-- `should_force_think_end` as the sampler calls it for a request. -/
def forces (output : List Token) : Bool :=
  shouldForceThinkEnd req.thinkBudget config.thinkEndId req.maxTokens fracLimit output
    config.thinkStartId req.startedInThink

/-- One token of eager decode, answered by whether the next one is forced. -/
def forceStep (output : List Token) (token : Token) : Bool × List Token :=
  (config.forces fracLimit req (output ++ [token]), output ++ [token])

/-- The first output, from the request's own on, at which the end of the block is forced. -/
def forceOutput (stream : List Token) : Option (List Token) :=
  if config.forces fracLimit req req.outputTokens then some req.outputTokens
  else
    (firstAnswer (config.forceStep fracLimit req) req.outputTokens stream).map fun index =>
      req.outputTokens ++ stream.take (index + 1)

end StopConfig

/-! ## A launch -/

/-- A runner that was set up for these think markers. -/
structure Parked (config : StopConfig) (parked : GraphConfig × GraphState) : Prop where
  thinkStart : parked.1.thinkStartId = config.thinkStartId
  thinkEnd : parked.1.thinkEndId = config.thinkEndId
  think : parked.2.think.isSome

/-- Noting content leaves the block and its count. -/
theorem GraphConfig.noteContent_keeps (graph : GraphConfig) (step : Nat) (think : DeviceThink)
    (token : Token) : (graph.noteContent step think token).inThink = think.inThink ∧
      (graph.noteContent step think token).count = think.count := by
  unfold noteContent
  split <;> exact ⟨rfl, rfl⟩

namespace StopConfig

variable {config : StopConfig} {eosId : Token} {penalized : Bool} {fracLimit : Int}
  {gen : Generation} {burst : Burst}
variable {req : Request} {output : List Token}

/-- Either way of launching. -/
theorem launch_cases (config : StopConfig) (eosId : Token) (penalized : Bool) (fracLimit : Int)
    (gen : Generation) (burst : Burst) :
    (∃ graph, graph = { config.buildGraphConfig eosId penalized fracLimit gen.req burst.remaining
        with stepLimit := burst.stepLimit } ∧
      config.launch eosId penalized fracLimit gen burst = (graph, graph.setup)) ∨
    ∃ parked ∈ gen.parked, ∃ state,
      config.rearmLaunch parked.1 parked.2 fracLimit gen.req burst.stepLimit = some state ∧
      config.launch eosId penalized fracLimit gen burst = (parked.1, state) := by
  unfold launch
  cases burst.rearm with
  | false => exact .inl ⟨_, rfl, rfl⟩
  | true =>
    cases hparked : gen.parked with
    | none => exact .inl ⟨_, rfl, rfl⟩
    | some parked =>
      cases hrearm : config.rearmLaunch parked.1 parked.2 fracLimit gen.req burst.stepLimit with
      | none =>
        refine .inl ⟨_, rfl, ?_⟩
        simp [hrearm]
      | some state =>
        refine .inr ⟨parked, rfl, state, hrearm, ?_⟩
        simp [hrearm]

theorem rearmLaunch_eq {graph : GraphConfig} {state state' : GraphState} {stepLimit : Int}
    (h : config.rearmLaunch graph state fracLimit req stepLimit = some state') :
    state'.thinkLimit = config.launchThinkLimit req fracLimit ∧
      state'.think = state.think.map fun _ => { inThink := req.inThinkBlock } := by
  obtain ⟨-, hstate⟩ := ite_none_left_eq_some.mp h
  obtain rfl := some.inj hstate
  exact ⟨rfl, rfl⟩

/-- A launch may count up to what is left. -/
theorem launch_thinkLimit (config : StopConfig) (eosId : Token) (penalized : Bool) (fracLimit : Int)
    (gen : Generation) (burst : Burst) :
    (config.launch eosId penalized fracLimit gen burst).2.thinkLimit =
      config.launchThinkLimit gen.req fracLimit := by
  obtain ⟨graph, rfl, hlaunch⟩ | ⟨parked, -, state, hrearm, hlaunch⟩ :=
    config.launch_cases eosId penalized fracLimit gen burst
  · rw [hlaunch]
    simp only [buildGraphConfig, setup]
    split
    · rfl
    next hoff => exact (if_neg fun hon => hoff hon.2).symm
  · rw [hlaunch]
    exact (rearmLaunch_eq hrearm).1

/-- A launch starts to count at zero, inside the block the request is in. -/
theorem launch_spec (eosId : Token) (penalized : Bool) (fracLimit : Int) (burst : Burst)
    (htracks : 0 ≤ config.thinkEndId.toInt)
    (hparked : ∀ parked ∈ gen.parked, Parked config parked) :
    Parked config (config.launch eosId penalized fracLimit gen burst) ∧
      (config.launch eosId penalized fracLimit gen burst).2.think =
        some { inThink := gen.req.inThinkBlock } := by
  obtain ⟨graph, rfl, hlaunch⟩ | ⟨parked, hmem, state, hrearm, hlaunch⟩ :=
    config.launch_cases eosId penalized fracLimit gen burst
  · rw [hlaunch]
    simp only [buildGraphConfig, setup, if_pos htracks]
    exact ⟨⟨rfl, rfl, rfl⟩, trivial⟩
  · obtain ⟨-, hthink⟩ := rearmLaunch_eq hrearm
    have hfits := hparked parked hmem
    obtain ⟨think, hsome⟩ := isSome_iff_exists.mp hfits.think
    rw [hsome, map_some] at hthink
    rw [hlaunch]
    exact ⟨⟨hfits.thinkStart, hfits.thinkEnd, by rw [hthink]; rfl⟩, hthink⟩

/-! ## A burst -/

/-- The recount of one more token. -/
theorem countReasoningTokens_concat (config : StopConfig) (req : Request) (output : List Token)
    (token : Token) :
    countReasoningTokens config.thinkStartId config.thinkEndId req.startedInThink
        (output ++ [token]) =
      if token = config.thinkStartId then (config.reasoning req output, true)
      else if token = config.thinkEndId then (config.reasoning req output, false)
      else if config.thinkingNow req output then (config.reasoning req output + 1, true)
      else (config.reasoning req output, config.thinkingNow req output) := by
  unfold reasoning thinkingNow countReasoningTokens
  rw [foldl_append]
  rfl

/-- A token after which the output is outside of a block is not counted. -/
theorem reasoning_outside (config : StopConfig) {token : Token}
    (h : config.thinkingNow req (output ++ [token]) = false) :
    config.reasoning req (output ++ [token]) = config.reasoning req output := by
  rw [thinkingNow, countReasoningTokens_concat] at h
  rw [reasoning, countReasoningTokens_concat]
  split
  · rfl
  next hstart =>
    rw [if_neg hstart] at h
    split
    · rfl
    next hend =>
      rw [if_neg hend] at h
      split
      next hnow =>
        rw [if_pos hnow] at h
        cases h
      · rfl

/-- If the reserve for the answer is no more than what the fraction leaves, the fraction decides. -/
theorem forces_eq (hbudget : 0 < req.thinkBudget) (htracks : 0 ≤ config.thinkEndId.toInt)
    (hreserve : req.maxTokens - kMaxAnswerReserve ≤ fracLimit) (houtput : output ≠ []) :
    config.forces fracLimit req output =
      (config.thinkingNow req output && decide (fracLimit ≤ config.reasoning req output)) := by
  have hlimit : (if req.maxTokens - kMaxAnswerReserve < fracLimit then fracLimit
      else req.maxTokens - kMaxAnswerReserve) = fracLimit := by
    split <;> omega
  have hon : ¬ (¬ 0 < req.thinkBudget ∨ config.thinkEndId.toInt < 0 ∨ output.isEmpty = true) := by
    rw [List.isEmpty_iff]
    rintro (hoff | hoff | hoff)
    · exact hoff hbudget
    · omega
    · exact houtput hoff
  rw [forces, shouldForceThinkEnd, if_neg hon]
  dsimp only
  rw [hlimit]
  rfl

/-- Whether thinking is limited at all. -/
def Limited (config : StopConfig) (req : Request) : Prop :=
  0 < req.thinkBudget ∧ 0 ≤ config.thinkEndId.toInt

theorem forces_unlimited (hoff : ¬ Limited config req) :
    config.forces fracLimit req output = false := by
  refine if_pos ?_
  by_cases hbudget : 0 < req.thinkBudget
  · exact .inr (.inl (Int.not_le.mp fun htracks => hoff ⟨hbudget, htracks⟩))
  · exact .inl hbudget

/-- The device's counters against a recount of the output: `used` is what was thought before the
launch. -/
structure Counts (config : StopConfig) (req : Request) (fracLimit used : Int)
    (graph : GraphConfig) (state : GraphState) (output : List Token) : Prop where
  thinkStart : graph.thinkStartId = config.thinkStartId
  thinkEnd : graph.thinkEndId = config.thinkEndId
  limit : state.thinkLimit = fracLimit - used
  below : config.reasoning req output < fracLimit
  think : ∃ think, state.think = some think ∧ think.inThink = config.thinkingNow req output ∧
    think.count + used = config.reasoning req output

variable {used : Int} {graph : GraphConfig} {state : GraphState} {token : Token}
variable {req' : Request}

/-- The kernel follows one token as the recount does. -/
theorem Counts.nextThink (h : Counts config req fracLimit used graph state output) (token : Token)
    (htracks : 0 ≤ config.thinkEndId.toInt) (hused : used < fracLimit) :
    ∃ think, graph.nextThink state token = some think ∧
      think.inThink = config.thinkingNow req (output ++ [token]) ∧
      think.count + used = config.reasoning req (output ++ [token]) := by
  obtain ⟨think, hthink, hin, hcount⟩ := h.think
  have htracks' : graph.tracksThink = true := decide_eq_true (h.thinkEnd ▸ htracks)
  have hlimit : 0 < state.thinkLimit := by
    rw [h.limit]
    omega
  refine ⟨_, by rw [GraphConfig.nextThink, if_pos htracks', hthink, map_some], ?_⟩
  rw [(graph.noteContent_keeps ..).1, (graph.noteContent_keeps ..).2, thinkingNow, reasoning,
    config.countReasoningTokens_concat, GraphConfig.trackThink, h.thinkStart, h.thinkEnd, hin]
  split
  · exact ⟨rfl, hcount⟩
  split
  · exact ⟨rfl, hcount⟩
  cases hnow : config.thinkingNow req output with
  | true =>
    rw [if_pos ⟨rfl, hlimit⟩, if_pos rfl]
    refine ⟨rfl, ?_⟩
    dsimp only
    omega
  | false =>
    exact ⟨hin.trans hnow, hcount⟩

/-- One token: both count it alike, so they force the end at the same one. -/
theorem Counts.step (h : Counts config req fracLimit used graph state output) (token : Token)
    (hbudget : 0 < req.thinkBudget) (htracks : 0 ≤ config.thinkEndId.toInt)
    (hreserve : req.maxTokens - kMaxAnswerReserve ≤ fracLimit) (hused : used < fracLimit) :
    (graph.budgetStep state token).1 = (config.forceStep fracLimit req output token).1 ∧
      ((graph.budgetStep state token).1 = false →
        Counts config req fracLimit used graph (graph.budgetStep state token).2
          (config.forceStep fracLimit req output token).2) := by
  obtain ⟨think, hnext, hin, hcount⟩ := h.nextThink token htracks hused
  have htracks' : graph.tracksThink = true := decide_eq_true (h.thinkEnd ▸ htracks)
  have hhit : (graph.budgetStep state token).1 =
      (config.thinkingNow req (output ++ [token]) &&
        decide (fracLimit ≤ config.reasoning req (output ++ [token]))) := by
    have hopen : decide (0 < fracLimit - used) = true := decide_eq_true (by omega)
    have hreached : decide (fracLimit - used ≤ think.count) =
        decide (fracLimit ≤ config.reasoning req (output ++ [token])) :=
      decide_eq_decide.mpr (by omega)
    simp only [budgetStep, budgetHit, inThink, hnext, h.limit,
      htracks', any_some, hopen, hin, hreached, Bool.true_and]
  refine ⟨hhit.trans (forces_eq hbudget htracks hreserve (by simp)).symm, fun hno => ?_⟩
  refine ⟨h.thinkStart, h.thinkEnd, h.limit, ?_, think, hnext, hin, hcount⟩
  rw [hhit, Bool.and_eq_false_iff, decide_eq_false_iff_not, Int.not_le] at hno
  obtain hout | hbelow := hno
  · exact (config.reasoning_outside hout).trans_lt h.below
  · exact hbelow

/-- A request whose budget is not used up, and whose fraction leaves the reserve for the answer. -/
structure Within (config : StopConfig) (fracLimit : Int) (gen : Generation) : Prop where
  parked : ∀ parked ∈ gen.parked, Parked config parked
  reserve : gen.req.maxTokens - kMaxAnswerReserve ≤ fracLimit
  below : config.reasoning gen.req gen.req.outputTokens < fracLimit

/-- Two requests of one generation: the limits are those of the start. -/
structure SameLimits (req req' : Request) : Prop where
  thinkBudget : req'.thinkBudget = req.thinkBudget
  maxTokens : req'.maxTokens = req.maxTokens
  startedInThink : req'.startedInThink = req.startedInThink

theorem SameLimits.trans {req'' : Request} (h : SameLimits req req') (h' : SameLimits req' req'') :
    SameLimits req req'' :=
  ⟨h'.thinkBudget.trans h.thinkBudget, h'.maxTokens.trans h.maxTokens,
    h'.startedInThink.trans h.startedInThink⟩

theorem eagerStep_req (config : StopConfig) (req : Request) (token : Token) :
    SameLimits req (config.eagerStep req token).2 ∧
      (config.eagerStep req token).2.outputTokens = req.outputTokens ++ [token] := by
  obtain ⟨_, _, _, _, hstep⟩ := config.thinkOnly_eagerStep req token
  rw [hstep]
  exact ⟨⟨rfl, rfl, rfl⟩, rfl⟩

/-- What the host does with the tokens of a burst. -/
theorem harvest_req (eosId : Token) (penalized : Bool) (fracLimit : Int) (gen : Generation)
    (burst : Burst) :
    SameLimits gen.req (config.harvest eosId penalized fracLimit gen burst).req ∧
      (config.harvest eosId penalized fracLimit gen burst).req.outputTokens =
        gen.req.outputTokens ++ burst.tokens := by
  dsimp only [harvest]
  generalize gen.req = req
  induction burst.tokens generalizing req with
  | nil => exact ⟨⟨rfl, rfl, rfl⟩, (append_nil _).symm⟩
  | cons token tokens ih =>
    obtain ⟨hsame, houtput⟩ := ih (config.eagerStep req token).2
    obtain ⟨hone, hpush⟩ := config.eagerStep_req req token
    refine ⟨hone.trans hsame, houtput.trans ?_⟩
    rw [hpush, append_assoc, singleton_append]

theorem runFrom_forceStep (config : StopConfig) (fracLimit : Int) (req : Request)
    (output tokens : List Token) :
    runFrom (fun output token => (config.forceStep fracLimit req output token).2) output tokens =
      output ++ tokens := by
  simp [runFrom, forceStep, ← flatMap_def]

theorem SameLimits.forceStep_eq (h : SameLimits req req') :
    config.forceStep fracLimit req' = config.forceStep fracLimit req := by
  unfold forceStep forces
  rw [h.thinkBudget, h.maxTokens, h.startedInThink]

theorem SameLimits.limited_iff (h : SameLimits req req') :
    Limited config req' ↔ Limited config req := by
  unfold Limited
  rw [h.thinkBudget]

theorem SameLimits.reasoning_eq (h : SameLimits req req') :
    config.reasoning req' = config.reasoning req := by
  unfold reasoning
  rw [h.startedInThink]

/-- The tokens of a burst, from a state that counts. -/
theorem Counts.tokens_agree (h : Counts config req fracLimit used graph state output)
    (hbudget : 0 < req.thinkBudget) (htracks : 0 ≤ config.thinkEndId.toInt)
    (hreserve : req.maxTokens - kMaxAnswerReserve ≤ fracLimit) (hused : used < fracLimit)
    (tokens : List Token) :
    firstAnswer graph.budgetStep state tokens =
      firstAnswer (config.forceStep fracLimit req) output tokens ∧
    (firstAnswer graph.budgetStep state tokens = none →
      Counts config req fracLimit used graph
        (runFrom (fun state token => (graph.postDecodeStep state token).2) state tokens)
        (output ++ tokens)) := by
  have hstep := fun token (_ : List Token) state output
      (h : Counts config req fracLimit used graph state output) =>
    h.step token hbudget htracks hreserve hused
  refine ⟨firstAnswer_eq (R := fun _ => Counts config req fracLimit used graph) hstep h,
    fun hnone => ?_⟩
  have hend := related_of_firstAnswer (R := fun _ => Counts config req fracLimit used graph) hstep h
    hnone
  rw [runFrom_forceStep] at hend
  exact hend

/-- Without a limit neither side ever forces the end. -/
theorem unlimited_burst (hoff : ¬ Limited config req) (hlimit : state.thinkLimit = 0)
    (tokens : List Token) :
    firstAnswer graph.budgetStep state tokens =
      firstAnswer (config.forceStep fracLimit req) output tokens := by
  refine firstAnswer_eq (R := fun _ state _ => state.thinkLimit = 0) ?_ hlimit
  intro token rest state output hlimit
  refine ⟨?_, fun _ => hlimit⟩
  have hhit : (graph.budgetStep state token).1 = false := by
    simp [budgetStep, budgetHit, hlimit]
  rw [hhit]
  exact (forces_unlimited hoff).symm

/-- Within a burst, the launch breaks where eager decode forces the end. If neither does, some of
the budget is left. -/
theorem burst_agrees (eosId : Token) (penalized : Bool) (burst : Burst) (hwithin : Limited config
      gen.req → Within config fracLimit gen ∧ gen.req.inThinkBlock = config.thinkingNow gen.req
      gen.req.outputTokens) :
    firstAnswer (config.launch eosId penalized fracLimit gen burst).1.budgetStep
        (config.launch eosId penalized fracLimit gen burst).2 burst.tokens =
      firstAnswer (config.forceStep fracLimit gen.req) gen.req.outputTokens burst.tokens ∧
    (firstAnswer (config.launch eosId penalized fracLimit gen burst).1.budgetStep
        (config.launch eosId penalized fracLimit gen burst).2 burst.tokens = none →
      Limited config gen.req → Within config fracLimit
        (config.harvest eosId penalized fracLimit gen burst)) := by
  by_cases hlimited : Limited config gen.req
  · obtain ⟨⟨hparked, hreserve, hbelow⟩, hflag⟩ := hwithin hlimited
    obtain ⟨hbudget, htracks⟩ := hlimited
    obtain ⟨hlaunched, hthink⟩ := launch_spec eosId penalized fracLimit burst htracks hparked
    have hcounts : Counts config gen.req fracLimit (config.reasoning gen.req gen.req.outputTokens)
        (config.launch eosId penalized fracLimit gen burst).1
        (config.launch eosId penalized fracLimit gen burst).2 gen.req.outputTokens := by
      refine ⟨hlaunched.thinkStart, hlaunched.thinkEnd, ?_, hbelow, _, hthink, hflag,
        Int.zero_add _⟩
      rw [launch_thinkLimit, launchThinkLimit, if_pos ⟨hbudget, htracks⟩]
      change max 1 (fracLimit - config.reasoning gen.req gen.req.outputTokens) = _
      exact max_eq_right (by omega)
    obtain ⟨hagree, hkept⟩ := hcounts.tokens_agree hbudget htracks hreserve hbelow burst.tokens
    refine ⟨hagree, fun hnone _ => ?_⟩
    obtain ⟨hstart, hend, -, hbelow', think, hthink', -⟩ := hkept hnone
    obtain ⟨hsame, houtput⟩ := config.harvest_req eosId penalized fracLimit gen burst
    refine ⟨?_, hsame.maxTokens ▸ hreserve, ?_⟩
    · intro parked hmem
      obtain rfl := some.inj hmem
      exact ⟨hstart, hend, isSome_iff_exists.mpr ⟨think, hthink'⟩⟩
    · rw [hsame.reasoning_eq, houtput]
      exact hbelow'
  · have hnone := (config.launch_thinkLimit eosId penalized fracLimit gen burst).trans
      (if_neg hlimited)
    exact ⟨unlimited_burst hlimited hnone burst.tokens, fun _ hnot => absurd hnot hlimited⟩

variable {bursts : List Burst}

/-- The rest of a generation forces the end where its tokens do. -/
theorem breakOutput_eq
    (hwithin : Limited config gen.req → Within config fracLimit gen) (hflag : Limited config gen.req
      → Meets (config.harvest eosId penalized fracLimit) (fun gen _ => gen.req.inThinkBlock =
      config.thinkingNow gen.req gen.req.outputTokens) gen bursts) :
    config.breakOutput eosId penalized fracLimit gen bursts =
      (firstAnswer (config.forceStep fracLimit gen.req) gen.req.outputTokens
        (bursts.flatMap Burst.tokens)).map fun index =>
          gen.req.outputTokens ++ (bursts.flatMap Burst.tokens).take (index + 1) := by
  induction bursts generalizing gen with
  | nil => rfl
  | cons burst bursts ih =>
    obtain ⟨hagree, hkept⟩ := burst_agrees eosId penalized burst
      fun hlimited => ⟨hwithin hlimited, (hflag hlimited).1⟩
    obtain ⟨hsame, houtput⟩ := config.harvest_req eosId penalized fracLimit gen burst
    rw [breakOutput, flatMap_cons, firstAnswer_append, runFrom_forceStep, ← hagree]
    cases hfirst : firstAnswer (config.launch eosId penalized fracLimit gen burst).1.budgetStep
      (config.launch eosId penalized fracLimit gen burst).2 burst.tokens with
    | some index =>
      have hlt := firstAnswer_lt hfirst
      simp only [some_or, map_some]
      rw [take_append_of_le_length hlt]
    | none =>
      rw [ih (fun hlimited => hkept hfirst (hsame.limited_iff.mp hlimited))
        (fun hlimited => (hflag (hsame.limited_iff.mp hlimited)).2), hsame.forceStep_eq,
        houtput, Option.none_or, Option.map_map]
      change Option.map _ _ = Option.map _ _
      congr 1
      funext index
      rw [Function.comp_apply, append_assoc, Nat.add_right_comm,
        Nat.add_comm (index + 1), take_length_add_append]

/-- A generation of any bursts breaks for a forced end at the reasoning count at which eager decode
forces it, if thinking is not limited, or if the fraction leaves the reserve for the answer, is not
used up at the start, and the request's flag agrees with the recount at each launch. -/
theorem budgets_agree {gen : Generation} {bursts : List Burst}
    (h : Limited config gen.req → Within config fracLimit gen ∧
      Meets (config.harvest eosId penalized fracLimit)
        (fun gen _ => gen.req.inThinkBlock = config.thinkingNow gen.req gen.req.outputTokens)
        gen bursts) :
    (config.breakOutput eosId penalized fracLimit gen bursts).map (config.reasoning gen.req) =
      (config.forceOutput fracLimit gen.req (bursts.flatMap Burst.tokens)).map
        (config.reasoning gen.req) := by
  have hnot : config.forces fracLimit gen.req gen.req.outputTokens = false := by
    by_cases hlimited : Limited config gen.req
    · obtain ⟨⟨-, hreserve, hbelow⟩, -⟩ := h hlimited
      cases houtput : gen.req.outputTokens with
      | nil => exact if_pos (.inr (.inr rfl))
      | cons token tokens =>
        rw [houtput] at hbelow
        rw [forces_eq hlimited.1 hlimited.2 hreserve (cons_ne_nil _ _),
          decide_eq_false (by omega), Bool.and_false]
    · exact forces_unlimited hlimited
  rw [breakOutput_eq (fun hlimited => (h hlimited).1) (fun hlimited => (h hlimited).2), forceOutput,
    hnot, if_neg Bool.false_ne_true]

/-- Token 9 ends generation, 1 and 2 are the think markers. -/
def budgetStops : StopConfig where
  tokenizer := some (fun token => token == 9, fun _ => [97])
  stopTokenIds := []
  bannedTokenIds := []
  thinkStartId := 1
  thinkEndId := 2
  whitespaceTable := []

/-- A request that starts inside a think block and may think a part of `maxTokens`. -/
def budgeted (maxTokens : Int) (thinkBudget : Rat) : Generation where
  req := { maxTokens, thinkBudget, inThinkBlock := true, startedInThink := true }
  parked := none

/-- Three of 256 tokens, in a fresh burst and a rearmed one. -/
theorem budgets_agree_rearmed :
    (budgetStops.breakOutput 9 false 3 (budgeted 256 (3 / 256))
        [⟨false, 2, 100, [5, 6]⟩, ⟨true, 4, 98, [7, 5]⟩]).map (budgetStops.reasoning
          (budgeted 256 (3 / 256)).req) =
      (budgetStops.forceOutput 3 (budgeted 256 (3 / 256)).req [5, 6, 7, 5]).map
        (budgetStops.reasoning (budgeted 256 (3 / 256)).req) := by
  refine budgets_agree fun _ => ⟨⟨?_, by decide +kernel, by decide +kernel⟩, by decide +kernel⟩
  rintro parked hnone
  cases hnone

/-- With 260 tokens and a fraction of 1/256, a launch breaks after one reasoning token, while the
host would grant the four beyond the reserve for the answer. -/
theorem reserve_parts :
    (budgetStops.breakOutput 9 false 1 (budgeted 260 (1 / 256))
        [⟨false, 8, 100, [5, 5, 5, 5, 5]⟩]).map (budgetStops.reasoning
          (budgeted 260 (1 / 256)).req) = some 1 ∧
      (budgetStops.forceOutput 1 (budgeted 260 (1 / 256)).req [5, 5, 5, 5, 5]).map
        (budgetStops.reasoning (budgeted 260 (1 / 256)).req) = some 4 := by
  decide +kernel

end StopConfig

end Quench

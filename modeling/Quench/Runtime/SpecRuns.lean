import Quench.Runtime.SpecCoverage

/-!
# Runs of speculative decoding keep the context covered

The steps of a decoding request, plain ones and attempts to verify a draft, each from the state the
one before left (`specStep`). A verify attempt may decline at any of its exits, and then the plain
step runs on what it left behind. `run_covers` follows the model state along such a run.
-/

namespace Quench

open List

variable {req : Request} {total : Nat} {hybrid : Bool} {st : SeqState} {m : KVCacheManager}
  {added : List Int} {device : Device}

open Lib KVCacheManager

/-! ## The verify step -/

/-- Emitted tokens leave a request as it was or finish it. -/
theorem StopConfig.feed_status (config : StopConfig) (req : Request) (tokens : List Token) :
    (config.feed req tokens).status = .finished ∨ (config.feed req tokens).status = req.status := by
  induction tokens generalizing req with
  | nil => exact .inr rfl
  | cons token tokens ih =>
    obtain ⟨-, hstop, hgo⟩ := config.decodeToken_spec req token
    rcases ih (config.decodeToken req token) with hdone | hsame
    · exact .inl hdone
    · cases hverdict : (config.acceptToken req token).1 with
      | true => exact .inl (hsame.trans (hstop hverdict))
      | false => exact .inr (hsame.trans (hgo hverdict))

/-- Outside budgeted think blocks the accept loop leaves with a token behind the accepted draft. -/
theorem ThinkSafe.emitted_ne {config : StopConfig} {forward : VerifyForward} {call : VerifyCall}
    (h : ThinkSafe config forward call req) (hstatus : req.status = .decoding) {chunk : Chunk}
    (hchunk : call.chunk req = some chunk) (hmc : chunk.mcOn = false)
    (hlive : (chunk.accept config (forward req.context.dropLast chunk) req).req.status ≠
      .finished) :  (chunk.accept config (forward req.context.dropLast chunk) req).emitted ≠
      (chunk.accept config (forward req.context.dropLast chunk) req).matched := by
  obtain ⟨start, acc, -, -, hshape, hlinear, -⟩ :=
    (VerifyCall.chunk_fits hchunk).accept_shape config (forward req.context.dropLast chunk)
  generalize chunk.accept config (forward req.context.dropLast chunk) req = out at hshape hlive ⊢
  obtain ⟨rfl, hacc, hk⟩ := hlinear hmc
  intro hbreak
  obtain ⟨hpos, hreq, hbudget⟩ := hshape.think hbreak
  have hmatched := hshape.matched_le
  rw [hacc, take_take, min_eq_left (by omega)] at hreq
  rw [show out.matched = out.matched - 1 + 1 by omega] at hreq
  refine h chunk hchunk (out.matched - 1) (by omega) (fun i hi => ?_) ?_ ?_
  · have hconfirmed := hshape.confirmed i (by omega)
    rw [hacc, getElem?_take_of_lt (by omega), Nat.zero_add] at hconfirmed
    exact hconfirmed
  · rw [← hreq]
    rw [hreq] at hlive ⊢
    exact ((config.feed_status req _).resolve_left hlive).trans hstatus
  · rw [← hreq]
    exact hbudget

/-- A declined step that cut the table back to the last token and wrote to no position before it. -/
theorem SeqOk.declined (h : SeqOk total hybrid req st)
    (hgrown : Grown total req.id st.manager m added) {length : Nat}
    (hlength : length = req.contextLen - 1) {kv : Contents} (hkv : ∀ p < length, ∀ block, HasSlot m
      req.id (p / m.blockSize) block → kv block (p % m.blockSize) = st.kv block (p % m.blockSize)) :
    SeqOk total hybrid req { st with manager := m.rollback req.id length, kv } := by
  have hkept := (h.of_grown hgrown).covers
  subst hlength
  refine h.of_rollback hgrown rfl h.output (le_rfl) (le_rfl) hkept.reach
    (fun p hp block hslot => ?_) hkept.recurrent
  rw [hkv p hp block hslot]
  exact hkept.kv p hp block hslot

/-- What a verify step leaves: a declined one the request as covered as it was, one that accepts and
does not finish the request everything but the new last token, which the kept length reaches. -/
theorem SeqOk.verifyState (h : SeqOk total device.hybrid req st)
    (hstatus : req.status = .decoding) (config : StopConfig) (forward : VerifyForward)
    (call : SpecCall) (hsafe : device.hybrid = true → ThinkSafe config forward { call.toVerifyCall
      with candidates := [] } req) :
    let after := config.verifyState device forward call.toVerifyCall req st
    (after.1 = none → SeqOk total device.hybrid req after.2) ∧
      ∀ out, after.1 = some out → out.req.status ≠ .finished →
        SeqOk total device.hybrid out.req after.2 ∧
          out.req.contextLen - 1 ≤ req.contextLen + out.matched := by
  unfold StopConfig.verifyState
  dsimp only
  generalize hrouted : (if device.hybrid ∨ device.swaSizingActive then
    { call.toVerifyCall with candidates := [] } else call.toVerifyCall) = routed
  have hwidth : routed.candidates.length ≤ 8 ∧
      (∀ candidate ∈ routed.candidates, candidate.length ≤ 7) ∧
      (device.hybrid = true → routed = { call.toVerifyCall with candidates := [] }) := by
    rw [← hrouted]
    split
    · exact ⟨Nat.zero_le _, fun candidate hmem => absurd hmem not_mem_nil, fun _ => rfl⟩
    next hoff =>
      exact ⟨call.width, call.depth, fun hhybrid => absurd (.inl hhybrid) hoff⟩
  split
  next => exact ⟨fun _ => h, fun out hout => nomatch hout⟩
  next chunk hchunk =>
    have hfits := VerifyCall.chunk_fits hchunk
    have hcandidates := VerifyCall.chunk_candidates hchunk
    have hp0 := hfits.p0
    obtain ⟨added, hgrown, hadded⟩ := growTable_grown req.id
      (chunk.blocksTarget st.manager.blockSize - (st.manager.blockTable req.id).length) h.ok
    have hback : ∀ m added, Grown total req.id st.manager m added →
        SeqOk total device.hybrid req { st with manager := m.rollback req.id chunk.p0 } :=
      fun m added hgrown => h.declined hgrown hp0 fun _ _ _ _ => rfl
    split
    next m hgrow =>
      rw [hgrow] at hgrown
      exact ⟨fun _ => hback m added hgrown, fun out hout => nomatch hout⟩
    next m hgrow =>
      rw [hgrow] at hgrown hadded
      have hswa := hgrown.prepareSwa device req.id chunk.p0 (chunk.p0 + chunk.chunkPad)
      split
      next m' hprepare =>
        rw [hprepare] at hswa
        exact ⟨fun _ => hback m' added hswa, fun out hout => nomatch hout⟩
      next m' hprepare =>
        rw [hprepare] at hswa
        have htarget : chunk.blocksTarget m'.blockSize ≤ (m'.blockTable req.id).length := by
          have hlen := hadded rfl
          rw [hswa.table, hswa.blockSize, length_append, length_map]
          omega
        split
        next => exact ⟨fun _ => h.of_grown hswa, fun out hout => nomatch hout⟩
        next => exact ⟨fun _ => hback m' added hswa, fun out hout => nomatch hout⟩
        next =>
          rw [← hswa.blockSize]
          exact ⟨fun _ => h.declined hswa hp0 fun p hp block hslot =>
            h.kv_forwarded hswa hfits htarget hp hslot, fun out hout => nomatch hout⟩
        next =>
          refine ⟨fun hnone => (nomatch hnone), fun out hout hlive => ?_⟩
          obtain rfl := Option.some.inj hout
          rw [← hcandidates] at hwidth
          have hlinear : device.hybrid = true → chunk.mcOn = false := by
            intro hhybrid
            rw [Chunk.mcOn, hcandidates, hwidth.2.2 hhybrid]
            rfl
          refine ⟨h.settle hfits hswa htarget hwidth.1 hwidth.2.1 hlinear config _
            (fun hhybrid => ?_) hlive, ?_⟩
          · rw [hwidth.2.2 hhybrid] at hchunk
            exact (hsafe hhybrid).emitted_ne hstatus hchunk (hlinear hhybrid) hlive
          · obtain ⟨_, _, -, -, hshape, -, -⟩ :=
              hfits.accept_shape config (forward req.context.dropLast chunk)
            have hlen := hshape.contextLen_le
            omega

/-! ## The plain step -/

/-- The table reaches over the last token once the plain step has asked for its block. -/
theorem SeqOk.reach_plain (h : SeqOk total hybrid req st)
    (hgrown : Grown total req.id st.manager m added) (hadded : added.length = min 1 ((req.contextLen
      + st.manager.blockSize - 1) / st.manager.blockSize - (st.manager.blockTable req.id).length)) :
    req.contextLen ≤ (m.blockTable req.id).length * m.blockSize := by
  have hreach := h.covers.reach
  have hpos := h.ok.blockSize_pos
  rw [hgrown.table, hgrown.blockSize, length_append, length_map, Nat.add_mul]
  rcases Nat.eq_zero_or_pos added.length with hnone | hsome
  · have hneeded : (req.contextLen + st.manager.blockSize - 1) / st.manager.blockSize <
        (st.manager.blockTable req.id).length + 1 := by omega
    rw [Nat.div_lt_iff_lt_mul hpos, Nat.add_mul] at hneeded
    omega
  · have hblock : st.manager.blockSize ≤ added.length * st.manager.blockSize :=
      Nat.le_mul_of_pos_left _ hsome
    omega

/-- The forward pass of the last token covers it, and the token sampled from it is the next one to
be covered. -/
theorem SeqOk.plain_covers (h : SeqOk total hybrid req st)
    (hgrown : Grown total req.id st.manager m added)
    (hreach : req.contextLen ≤ (m.blockTable req.id).length * m.blockSize) (config : StopConfig)
    (token : Token) :
    SeqOk total hybrid (config.decodeToken req token)
      { manager := m.touch req.id
        kv := st.kv.writeAt st.manager.blockSize (m.blockTable req.id) (req.contextLen - 1)
          (req.visionContentHash, req.context)
        recurrent := if hybrid then st.recurrent ++ [req.outputTokens.getLastD 0]
          else st.recurrent } := by
  obtain ⟨hcontext, -, -⟩ := config.decodeToken_spec req token
  obtain ⟨hid, hsalt, hinput⟩ := config.decodeToken_fixed req token
  have hblocks := h.owns hgrown
  have hown := h.ownsFrom hgrown
  have hlen : (config.decodeToken req token).contextLen - 1 = req.contextLen := by
    rw [← Request.length_context, hcontext, length_append, Request.length_context]
    rfl
  refine ⟨hgrown.ok.of_swa m.swa _, ?_, ⟨?_, fun p hp block hslot => ?_, fun hhybrid => ?_⟩,
    fun i hfirst hlt => ?_⟩
  · have houtput := length_pos_of_ne_nil h.output
    rw [Request.contextLen, Request.contextLen, hinput] at hlen
    exact ne_nil_of_length_pos (by omega)
  · rw [hlen, hid]
    exact hreach
  · rw [hid] at hslot
    change HasSlot m req.id (p / m.blockSize) block at hslot
    have hplace := Contents.slot_eq_some.mpr ⟨hslot, rfl⟩
    change (st.kv.writeAt _ _ _ _) block (p % m.blockSize) = _
    rw [← hgrown.blockSize, Contents.writeAt_apply, hsalt, hcontext,
      take_append_of_le_length (by rw [Request.length_context]; omega)]
    by_cases hlast : p = req.contextLen - 1
    · rw [hlast] at hplace ⊢
      rw [if_pos hplace, take_of_length_le (by rw [Request.length_context]; omega)]
    · rw [if_neg fun hhere => hlast (hown.slot_inj (le_rfl) hhere hplace)]
      exact h.kv_grown hgrown (by omega) hslot
  · rw [hhybrid] at h
    rw [if_pos hhybrid, h.covers.recurrent rfl, ← Request.context_eq h.output, hcontext,
      dropLast_concat]
  · rw [hid] at hlt ⊢
    rw [hlen] at hfirst
    exact hblocks i ((Nat.div_le_div_right (Nat.sub_le _ _)).trans hfirst) hlt

/-- A plain step that does not end the request keeps it covered. -/
theorem SeqOk.plainState (h : SeqOk total device.hybrid req st)
    (config : StopConfig) (greedy : List Token → Token)
    (hlive : (config.plainState device greedy req st).1.status = .decoding) :
    SeqOk total device.hybrid (config.plainState device greedy req st).1
      (config.plainState device greedy req st).2 := by
  obtain ⟨added, hgrown, hadded⟩ := growTable_grown req.id
    (min 1 ((req.contextLen + st.manager.blockSize - 1) / st.manager.blockSize -
      (st.manager.blockTable req.id).length)) h.ok
  unfold StopConfig.plainState at hlive ⊢
  dsimp only at hlive ⊢
  split at hlive
  · cases hlive
  next m hgrow =>
    rw [hgrow] at hgrown hadded
    have hswa := hgrown.prepareSwa device req.id req.contextLen req.contextLen
    split at hlive
    · cases hlive
    next m' hprepare =>
      rw [hprepare] at hswa
      rw [if_neg (by rw [hlive]; decide)]
      exact h.plain_covers hswa (h.reach_plain hswa (hadded rfl)) config (greedy req.context)

/-! ## Runs -/

/-- One decode step: a plain one, or an attempt to verify a draft, with the fault that occurs in it
and what its padding leaves in the KV. -/
inductive SpecStep where
  | plain
  | verify (call : SpecCall) (fault : Option Fault) (junk : Nat → Written)

section Runs

variable (config : StopConfig) (device : Device) (greedy : List Token → Token)
  (forward : VerifyForward)

/-- The request and its model state after one decode step. Where speculation is gated off or
declines, the plain step runs. A request that is not decoding takes no step. -/
def StopConfig.specStep (here : Request × SeqState) (step : SpecStep) : Request × SeqState :=
  if here.1.status = .decoding then
    match step with
    | .plain => config.plainState device greedy here.1 here.2
    | .verify call fault junk =>
      if here.1.specGatesOk then
        match config.verifyState { device with fault, junk } forward call.toVerifyCall here.1
            here.2 with
        | (some out, st) => (out.req, st)
        | (none, st) => config.plainState device greedy here.1 st
      else config.plainState device greedy here.1 here.2
  else here

/-- In a hybrid model no verify attempt accepts a token into a budgeted think block. -/
def SpecSafe (here : Request × SeqState) : SpecStep → Prop
  | .plain => True
  | .verify call _ _ => device.hybrid = true →
      ThinkSafe config forward { call.toVerifyCall with candidates := [] } here.1

instance (here : Request × SeqState) (step : SpecStep) :
    Decidable (SpecSafe config device forward here step) :=
  match step with
  | .plain => inferInstanceAs (Decidable True)
  | .verify call _ _ => inferInstanceAs (Decidable (device.hybrid = true →
      ThinkSafe config forward { call.toVerifyCall with candidates := [] } here.1))

variable {config device forward}

theorem specStep_covers {here : Request × SeqState}
    (h : here.1.status = .decoding → SeqOk total device.hybrid here.1 here.2) {step : SpecStep}
    (hsafe : SpecSafe config device forward here step) :
    (config.specStep device greedy forward here step).1.status = .decoding →
      SeqOk total device.hybrid (config.specStep device greedy forward here step).1
        (config.specStep device greedy forward here step).2 := by
  unfold StopConfig.specStep
  split
  next hstatus =>
    cases step with
    | plain => exact (h hstatus).plainState config greedy
    | verify call fault junk =>
      dsimp only
      split
      next hgates =>
        have hcovered : SeqOk total ({ device with fault, junk } : Device).hybrid here.1 here.2 :=
          h hstatus
        obtain ⟨hnone, hsome⟩ := hcovered.verifyState hstatus config forward call hsafe
        split
        next out st hout =>
          rw [hout] at hsome
          exact fun hlive => (hsome out rfl (by rw [hlive]; decide)).1
        next st hout =>
          rw [hout] at hnone
          exact (hnone rfl).plainState config greedy
      next => exact (h hstatus).plainState config greedy
  next hstatus => exact fun hlive => absurd hlive hstatus

/-- Along every run whose verify attempts meet `SpecSafe`, the model state covers exactly the tokens
of a decoding request but the last. Each verify step that accepts and does not finish the request
leaves it so, and the length it cuts the table back to, the old context and the accepted draft,
reaches over them. -/
theorem run_covers (config : StopConfig) (device : Device) (greedy : List Token → Token)
    (forward : VerifyForward) {total : Nat} {req : Request} {st : SeqState}
    (hstart : SeqOk total device.hybrid req st) {steps : List SpecStep}
    (hsafe : Meets (config.specStep device greedy forward) (SpecSafe config device forward)
      (req, st) steps) : (∀ before after, steps = before ++ after →
      let here := runFrom (config.specStep device greedy forward) (req, st) before
      here.1.status = .decoding → Covers device.hybrid here.1 here.2) ∧
    ∀ before call fault junk after, steps = before ++ .verify call fault junk :: after →
      let here := runFrom (config.specStep device greedy forward) (req, st) before
      here.1.specGatesOk →
      ∀ out st', config.verifyState { device with fault, junk } forward call.toVerifyCall here.1
          here.2 = (some out, st') →
        out.req.status ≠ .finished →
          out.req.contextLen - 1 ≤ here.1.contextLen + out.matched ∧
            Covers device.hybrid out.req st' := by
  have hinvariant : ∀ before after, steps = before ++ after →
      let here := runFrom (config.specStep device greedy forward) (req, st) before
      here.1.status = .decoding → SeqOk total device.hybrid here.1 here.2 := by
    rintro before after rfl
    exact hsafe.invariant (fun here step hinv hsafe => specStep_covers greedy hinv hsafe)
      fun _ => hstart
  refine ⟨fun before after hsplit hstatus => (hinvariant before after hsplit hstatus).covers, ?_⟩
  rintro before call fault junk after rfl here hgates out st' hout hlive
  have hstatus : here.1.status = .decoding := by
    simp only [Request.specGatesOk, Bool.and_eq_true, beq_iff_eq] at hgates
    exact hgates.1.1
  have hcovered : SeqOk total ({ device with fault, junk } : Device).hybrid here.1 here.2 :=
    hinvariant before _ rfl hstatus
  have hverify := (hcovered.verifyState hstatus config forward call hsafe.at_event).2
  rw [hout] at hverify
  obtain ⟨hok, hlength⟩ := hverify out rfl hlive
  exact ⟨hlength, hok.covers⟩

end Runs

/-! ## A hybrid model that thinks -/

/-- Token `5` opens a think block. -/
def thinkAtFive : StopConfig :=
  { tokenizer := none, stopTokenIds := [9], bannedTokenIds := [], thinkStartId := 5
    thinkEndId := 6, whitespaceTable := [] }

def budgeted : Request :=
  { status := .decoding, inputTokens := [1], outputTokens := [2], thinkBudget := 1 / 2 }

/-- The state after the prompt was prefilled into the first block of a fresh cache. -/
def budgetedState : SeqState where
  manager := ((KVCacheManager.fresh 4 8 0).allocateBlocks 0 1).2
  kv := fun _ offset => some (0, budgeted.context.take (offset + 1))
  recurrent := [1]

theorem budgetedState_seqOk : SeqOk 8 true budgeted budgetedState := by
  have hfresh : ManagerOk 8 (KVCacheManager.fresh 4 8 0) := .fresh (by decide) 8 0
  have htable : budgetedState.manager.blockTable 0 = [some 0] := by decide +kernel
  refine ⟨hfresh.allocateBlocks 0 1, by decide, ⟨by decide +kernel, fun p hp block _ => ?_,
    fun _ => by decide⟩, fun i _ hlt => ?_⟩
  · obtain rfl : p = 0 := Nat.lt_one_iff.mp hp
    rfl
  · obtain rfl : i = 0 := by
      exact Nat.lt_one_iff.mp hlt
    have hslot : HasSlot budgetedState.manager 0 0 0 := by
      rfl
    refine ⟨0, hslot, ?_⟩
    rcases (Extends.allocateBlocks hfresh.filed 0 1).slots 0 0 hslot with ⟨hold, -⟩ | ⟨-, hown⟩
    · exact absurd hold (lt_irrefl 0)
    · exact hown

/-- A draft accepted in part, and an attempt that fails after its forward pass and leaves the step
to the plain path. -/
def outsideSteps : List SpecStep :=
  [.verify ⟨{ draft := [3, 9], candidates := [] }, by decide, by decide⟩ none fun _ => (0, []),
    .verify ⟨{ draft := [6], candidates := [] }, by decide, by decide⟩ (some .afterForward)
      fun _ => (0, [])]

theorem run_covers_outside :
    let after := runFrom (thinkAtFive.specStep { hybrid := true } countUp (exactForward countUp))
      (budgeted, budgetedState) outsideSteps
    after.1.context = [1, 2, 3, 4, 5] ∧ after.2.recurrent = [1, 2, 3, 4] ∧
      Covers true after.1 after.2 :=
  ⟨by decide +kernel, by decide +kernel, (run_covers thinkAtFive { hybrid := true } countUp
    (exactForward countUp) budgetedState_seqOk (by decide +kernel)).1 outsideSteps []
    (append_nil _).symm (by decide +kernel)⟩

/-- A draft that leads into the think block. -/
def intoThink : List SpecStep :=
  [.verify ⟨{ draft := [3, 4, 5, 6], candidates := [] }, by decide, by decide⟩ none
    fun _ => (0, [])]

/-- The accepted draft leaves a token that is covered already, and the next step advances the
recurrent state over it again. -/
theorem think_break_advances_twice :
    SeqOk 8 true budgeted budgetedState ∧
    (let step := thinkAtFive.specStep { hybrid := true } countUp (exactForward countUp)
     let after := runFrom step (budgeted, budgetedState) intoThink
     after.1.status = .decoding ∧ after.1.context = [1, 2, 3, 4, 5] ∧
       after.2.recurrent = [1, 2, 3, 4, 5] ∧
       (step after .plain).2.recurrent = [1, 2, 3, 4, 5, 5]) :=
  ⟨budgetedState_seqOk, by decide +kernel⟩

end Quench

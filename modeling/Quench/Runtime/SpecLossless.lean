import Quench.Lib.Runs
import Quench.Runtime.SpecVerify

/-!
# Speculation is lossless

If the forward pass returns greedy tokens at the real rows of a chunk, a verify step is a number of
plain greedy steps: at least one, and at most one more than the accepted draft tokens
(`Lossless`). Drafts, candidates, clamps and padding change how many, and nothing else.
`run_lossless` says so for every sequence of verify and plain steps.

The staging loops are read off once (`Staged`): the rows of a group are the last token followed by
the drafted ones, whatever group and chunk they stand in.
-/

namespace Quench

open Lib List Option VerifyCall

/-! ## Staged rows -/

/-- A loop over rows changes each row it visits once, and no other. -/
theorem getElem?_writeRows (base : Nat) (body : Nat → Row → Row) (n : Nat) (rows : List Row)
    (i : Nat) : (writeRows base body n rows)[i]? =
      if base ≤ i ∧ i < base + n then rows[i]?.map (body (i - base)) else rows[i]? := by
  induction n with
  | zero => rw [if_neg (by omega)]; rfl
  | succ n ih =>
    rw [writeRows, getElem?_modify, ih]
    by_cases heq : base + n = i
    · subst heq
      simp
    · by_cases hin : base ≤ i ∧ i < base + n
      · rw [if_pos hin, if_pos (by omega)]
        simp [heq]
      · rw [if_neg hin, if_neg (by omega)]
        simp [heq]

variable {candidate : List Token}

namespace Chunk

/-- The rows from `start` on are the last token and then these drafted ones, each attending to its
whole prefix. -/
def Staged (chunk : Chunk) (start : Nat) (acc : List Token) : Prop :=
  ∀ i ≤ acc.length, ∃ staged, chunk.rows[start + i]? = some staged ∧
    (chunk.t0 :: acc)[i]? = some staged.token ∧ staged.rowLen = staged.position + 1

variable {chunk : Chunk} {start : Nat} {acc : List Token} {i : Nat}

theorem Staged.real (h : chunk.Staged start acc) (hi : i ≤ acc.length)
    (hrow : start + i < chunk.chunkLen) : chunk.Real (start + i) := by
  obtain ⟨staged, hstaged, -, hlen⟩ := h i hi
  exact ⟨hrow, staged, hstaged, hlen⟩

/-- A row sees the last token and the drafted tokens before it. -/
theorem Staged.visible (h : chunk.Staged start acc) (hi : i ≤ acc.length)
    (hgroup : chunk.groupStart (start + i) = start) :
    chunk.visible (start + i) = chunk.t0 :: acc.take i := by
  unfold Chunk.visible
  rw [hgroup]
  apply ext_getElem?
  intro m
  rw [getElem?_map, getElem?_drop, getElem?_take]
  by_cases hm : m ≤ i
  · obtain ⟨staged, hstaged, htoken, -⟩ := h m (hm.trans hi)
    rw [if_pos (by omega), hstaged, map_some, ← htoken, ← take_succ_cons,
      getElem?_take_of_lt (by omega)]
  · rw [if_neg (by omega), map_none, ← take_succ_cons,
      getElem?_take_eq_none (by omega)]

theorem getElem?_blankRows (chunk : Chunk) (hi : i < chunk.chunkPad) :
    chunk.blankRows[i]? = some
      { token := chunk.t0, position := if chunk.mcOn then chunk.p0 else chunk.p0 + i
        rowLen := 1 } := by
  rw [blankRows, getElem?_map, getElem?_range hi, map_some]

/-- A linear chunk is staged as its clamped draft. -/
theorem staged_linear (hlinear : chunk.mcOn = false) (hk : chunk.k ≤ chunk.draft.length)
    (hlen : chunk.chunkLen = chunk.k + 1) (hpad : chunk.chunkLen ≤ chunk.chunkPad) :
    chunk.Staged 0 (chunk.draft.take chunk.k) := by
  intro i hi
  rw [length_take, min_eq_left hk] at hi
  have hrow : chunk.rows[i]? = some
      { token := if 1 ≤ i then chunk.draft.getD (i - 1) 0 else chunk.t0
        position := chunk.p0 + i, rowLen := chunk.p0 + i + 1 } := by
    rw [rows, hlinear, if_neg (by decide), stageDraft, getElem?_writeRows, if_pos (by omega),
      getElem?_writeRows, chunk.getElem?_blankRows (by omega), hlinear]
    by_cases hfirst : 1 ≤ i
    · rw [if_pos (by omega), if_pos hfirst]
      rfl
    · rw [if_neg (by omega), if_neg hfirst]
      rfl
  refine ⟨_, by rw [Nat.zero_add]; exact hrow, ?_, rfl⟩
  cases i with
  | zero => rfl
  | succ i =>
    rw [getElem?_cons_succ, getElem?_take_of_lt (by omega), if_pos (by omega),
      Nat.add_sub_cancel, getD_eq_getElem?_getD, getElem?_eq_getElem (by omega),
      getD_some]

/-- The loop over candidates leaves the rows outside its groups alone. -/
theorem getElem?_stageCandidates_outside (chunk : Chunk) (c : Nat) (candidates : List (List Token))
    (rows : List Row) (hi : i < c * chunk.rowsPerCand ∨
      (c + candidates.length) * chunk.rowsPerCand ≤ i) :
    (chunk.stageCandidates c candidates rows)[i]? = rows[i]? := by
  induction candidates generalizing c rows with
  | nil => rfl
  | cons candidate rest ih =>
    rw [length_cons, Nat.add_comm rest.length, ← Nat.add_assoc] at hi
    have hgroup := Nat.mul_le_mul_right chunk.rowsPerCand (Nat.le_add_right (c + 1) rest.length)
    have hsucc := Nat.add_one_mul c chunk.rowsPerCand
    rw [stageCandidates, ih (c + 1) _ (by omega), getElem?_writeRows, if_neg (by omega)]

/-- The group of a candidate is staged by the loop's body for it. -/
theorem getElem?_stageCandidates (chunk : Chunk) (c : Nat) (candidates : List (List Token))
    (rows : List Row) {m j : Nat} (hm : candidates[m]? = some candidate)
    (hj : j < chunk.rowsPerCand) :
    (chunk.stageCandidates c candidates rows)[(c + m) * chunk.rowsPerCand + j]? =
      rows[(c + m) * chunk.rowsPerCand + j]?.map (chunk.stageRow candidate j) := by
  induction candidates generalizing c rows m with
  | nil => simp at hm
  | cons first rest ih =>
    rw [stageCandidates]
    cases m with
    | zero =>
      obtain rfl : first = candidate := by simpa using hm
      have hsucc := Nat.add_one_mul c chunk.rowsPerCand
      rw [Nat.add_zero c, getElem?_stageCandidates_outside _ _ _ _ (.inl (by omega)),
        getElem?_writeRows, if_pos (by omega), Nat.add_sub_cancel_left]
    | succ m =>
      have hnext : c + (m + 1) = c + 1 + m := by omega
      have hbeyond : c * chunk.rowsPerCand + chunk.rowsPerCand ≤
          (c + 1 + m) * chunk.rowsPerCand := by
        rw [← Nat.succ_mul]
        exact Nat.mul_le_mul_right _ (by omega)
      rw [hnext, ih (c + 1) _ (by simpa using hm), getElem?_writeRows, if_neg (by omega)]

/-- Each group of a multi-candidate chunk is staged as its candidate. -/
theorem staged_candidate (hmc : chunk.mcOn = true) {c : Nat}
    (hc : chunk.candidates[c]? = some candidate) (hrows : candidate.length < chunk.rowsPerCand)
    (hpad : (c + 1) * chunk.rowsPerCand ≤ chunk.chunkPad) :
    chunk.Staged (c * chunk.rowsPerCand) candidate := by
  intro i hi
  have hin : c * chunk.rowsPerCand + i < chunk.chunkPad := by
    rw [Nat.succ_mul] at hpad
    omega
  have hstage := getElem?_stageCandidates chunk 0 chunk.candidates chunk.blankRows hc
    (show i < chunk.rowsPerCand by omega)
  rw [Nat.zero_add, chunk.getElem?_blankRows hin, map_some] at hstage
  refine ⟨_, by rw [rows, if_pos hmc]; exact hstage, ?_, ?_⟩
  · cases i with
    | zero => rfl
    | succ i =>
      rw [getElem?_cons_succ, stageRow, if_pos (by omega), Nat.add_sub_cancel,
        getD_eq_getElem?_getD, getElem?_eq_getElem (by omega), getD_some]
  · simp only [stageRow]
    rw [if_pos (by omega)]

end Chunk

/-! ## Emitted tokens -/

namespace StopConfig

variable (config : StopConfig)

/-- The two loops do the same bookkeeping for a token. -/
theorem acceptToken_eq (req : Request) (token : Token) :
    config.acceptToken req token =
      ((config.hardStop (config.trackThinkState (req.push token) token) token).1,
        config.decodeToken req token) := by
  unfold acceptToken decodeToken
  dsimp only
  rw [hardStop_updateConstraints]
  split
  next h => rw [h]
  next h => rw [Bool.not_eq_true] at h; rw [h]

/-- An emitted token extends the output, and the request goes on unless the stop test ended it. -/
theorem decodeToken_spec (req : Request) (token : Token) :
    (config.decodeToken req token).context = req.context ++ [token] ∧
      ((config.acceptToken req token).1 = true →
        (config.decodeToken req token).status = .finished) ∧
      ((config.acceptToken req token).1 = false →
        (config.decodeToken req token).status = req.status) := by
  obtain ⟨_, _, _, _, htrack⟩ := config.thinkOnly_trackThinkState (req.push token) token
  obtain ⟨_, _, _, _, hstop⟩ := config.thinkOnly_shouldStop
    ((config.trackThinkState (req.push token) token).updateConstraints token) token
  rw [acceptToken_eq]
  have hverdict := congrArg Prod.fst (config.hardStop_updateConstraints
    (config.trackThinkState (req.push token) token) token)
  rw [← hverdict]
  unfold decodeToken hardStop
  dsimp only
  rw [hstop, htrack]
  refine ⟨?_, fun h => ?_, fun h => ?_⟩
  · split <;> exact (append_assoc _ _ _).symm
  · rw [if_pos h]
    rfl
  · rw [if_neg (by rw [h]; decide)]
    rfl

end StopConfig

/-! ## The accept loop -/

/-- What a verify step does to a request is what a number of plain steps would do: at least one, at
most one more than the accepted draft tokens, and none of them on a request that has ended. -/
structure Lossless (config : StopConfig) (greedy : List Token → Token) (req : Request)
    (out : Accepted) : Prop where
  progress : 1 ≤ out.emitted
  bounded : out.emitted ≤ out.matched + 1
  plain : out.req = (config.plainStep greedy)^[out.emitted] req
  live : ∀ i < out.emitted, ((config.plainStep greedy)^[i] req).status = .decoding

section Accept

variable {config : StopConfig} {greedy : List Token → Token} {argmax : Nat → Token}
  {row0 accLen : Nat} {acc : List Token} {req : Request}

/-- From row `j` on, with `j` draft tokens accepted so far, the loop stays on the plain run. -/
theorem acceptLoop_lossless (mcOn : Bool)
    (hrows : ∀ j ≤ accLen, argmax (row0 + j) = greedy (req.context ++ acc.take j)) (n j : Nat)
    (state : Accepted) (hj : j ≤ accLen) (hpos : 0 < n + j) (hmatched : state.matched = j)
    (hemitted : state.emitted = j) (hplain : state.req = (config.plainStep greedy)^[j] req)
    (hcontext : state.req.context = req.context ++ acc.take j)
    (hlive : ∀ i ≤ j, ((config.plainStep greedy)^[i] req).status = .decoding) :
    Lossless config greedy req (acceptLoop config mcOn argmax row0 acc accLen n j state) := by
  induction n generalizing j state with
  | zero =>
    exact ⟨by rw [acceptLoop]; omega, by rw [acceptLoop]; omega,
      by rw [acceptLoop, hemitted, hplain], fun i hi => hlive i (by rw [acceptLoop] at hi; omega)⟩
  | succ n ih =>
    rw [acceptLoop, if_neg (fun h => absurd h.2 (by omega))]
    dsimp only
    have htoken : argmax (row0 + j) = greedy state.req.context := by rw [hrows j hj, hcontext]
    have hstatus : state.req.status = .decoding := by rw [hplain]; exact hlive j (le_refl j)
    have hnext : config.decodeToken state.req (argmax (row0 + j)) =
        (config.plainStep greedy)^[j + 1] req := by
      rw [Function.iterate_succ_apply', ← hplain, StopConfig.plainStep, if_pos hstatus, htoken]
    obtain ⟨hgrown, -, hgoes⟩ := config.decodeToken_spec state.req (argmax (row0 + j))
    -- the loop may leave here: `j + 1` tokens emitted, at least `j` of them accepted
    have hleave : ∀ matched, j ≤ matched → Lossless config greedy req
        { matched, emitted := state.emitted + 1
          req := config.decodeToken state.req (argmax (row0 + j)) } := by
      intro matched hge
      refine ⟨Nat.le_add_left 1 _, ?_, ?_, fun i hi => hlive i ?_⟩
      · dsimp only
        omega
      · rw [hnext, hemitted]
      · dsimp only at hi
        omega
    rw [StopConfig.acceptToken_eq] at hgoes ⊢
    generalize (config.hardStop _ _).1 = stop at hgoes ⊢
    cases stop with
    | true => exact hleave state.matched (by omega)
    | false =>
      dsimp only
      split
      · exact hleave state.matched (by omega)
      next hmore =>
        obtain ⟨hlt, haccept⟩ := not_or.mp hmore
        split
        · exact hleave (state.matched + 1) (by omega)
        · refine ih (j + 1) _ (by omega) (by omega) (by dsimp only; omega)
            (by dsimp only; omega) hnext ?_ fun i hi => ?_
          · rw [hgrown, hcontext, append_assoc, take_add_one,
              not_not.mp haccept, toList_some]
          · rcases lt_or_ge i (j + 1) with hold | hnew
            · exact hlive i (by omega)
            · rw [show i = j + 1 by omega, ← hnext, hgoes rfl, hstatus]

end Accept

variable {call : VerifyCall} {req : Request} {chunk : Chunk}

/-! ## The winning group -/

/-- The search returns the index of a candidate, if there is one. -/
theorem bestLoop_lt (argmax : Nat → Token) (rowsPerCand c : Nat) (candidates : List (List Token))
    (best : Nat × Int) (hbest : best.1 < c + candidates.length) :
    (bestLoop argmax rowsPerCand c candidates best).1 < c + candidates.length := by
  induction candidates generalizing c best with
  | nil => exact hbest
  | cons candidate rest ih =>
    rw [bestLoop, length_cons]
    have hrest := ih (c + 1)
      (if best.2 < matchLength argmax (c * rowsPerCand) candidate 0 then
        (c, (matchLength argmax (c * rowsPerCand) candidate 0 : Int)) else best) (by
      rw [length_cons] at hbest
      split
      · omega
      · omega)
    omega

/-! ## Verify steps -/

theorem mcDepth_le_iff {candidates : List (List Token)} {n : Nat} :
    mcDepth candidates ≤ n ↔ ∀ candidate ∈ candidates, candidate.length ≤ n := by
  have hfold : ∀ (rest : List (List Token)) (depth : Nat),
      rest.foldl (fun depth candidate => max depth candidate.length) depth ≤ n ↔
        depth ≤ n ∧ ∀ candidate ∈ rest, candidate.length ≤ n := by
    intro rest
    induction rest with
    | nil => simp
    | cons first rest ih => exact fun depth => by simp [ih, and_assoc]
  exact (hfold candidates 0).trans (and_iff_right (Nat.zero_le n))

theorem clampLoop_le (cap2 ctxEnd : Int) (k : Nat) : clampLoop cap2 ctxEnd k ≤ k := by
  induction k with
  | zero => exact le_refl 0
  | succ k ih =>
    rw [clampLoop]
    split
    · exact ih.trans (Nat.le_succ k)
    · exact le_rfl

theorem le_specCaptureBucket (bucketMax chunkLen : Nat) :
    chunkLen ≤ specCaptureBucket bucketMax chunkLen := by
  unfold specCaptureBucket
  dsimp only
  generalize hfound : [3, 4, 5, 9, 17, 33].find? _ = found
  cases found with
  | none => exact le_max_left _ _
  | some b =>
    have hb := find?_some hfound
    exact (of_decide_eq_true hb).1

theorem VerifyCall.le_padded (call : VerifyCall) (chunkLen : Nat) :
    chunkLen ≤ call.padded chunkLen := by
  unfold padded
  cases call.captureBucketMax with
  | none => exact le_rfl
  | some bucketMax => exact le_specCaptureBucket bucketMax chunkLen

/-- The chunks a verify step can build for a request. -/
structure Chunk.Fits (chunk : Chunk) (req : Request) : Prop where
  t0 : chunk.t0 = req.outputTokens.getLastD 0
  p0 : chunk.p0 = req.contextLen - 1
  pad : chunk.chunkLen ≤ chunk.chunkPad
  linear : chunk.mcOn = false →
    0 < chunk.k ∧ chunk.k ≤ chunk.draft.length ∧ chunk.chunkLen = chunk.k + 1 ∧
      chunk.rowsPerCand = 0
  grouped : chunk.mcOn = true →
    chunk.chunkLen = chunk.candidates.length * chunk.rowsPerCand ∧
      chunk.rowsPerCand = 1 + chunk.k ∧ chunk.k = mcDepth chunk.candidates

theorem VerifyCall.candidateChunk_fits (hmc : call.candidates.isEmpty = false)
    (h : call.candidateChunk (req.outputTokens.getLastD 0) (req.contextLen - 1) = some chunk) :
    chunk.Fits req := by
  unfold candidateChunk at h
  dsimp only at h
  split at h
  · cases h
  · cases h
    refine ⟨rfl, rfl, call.le_padded _, fun hoff => ?_, fun _ => ⟨rfl, rfl, rfl⟩⟩
    rw [Chunk.mcOn, hmc] at hoff
    cases hoff

theorem VerifyCall.linearChunk_fits
    (h : call.linearChunk (req.outputTokens.getLastD 0) (req.contextLen - 1) = some chunk) :
    chunk.Fits req := by
  unfold linearChunk at h
  dsimp only at h
  generalize hclamp : (if 0 < call.attnScoresCap then _ else call.draft.length) = k at h
  have hk : k ≤ call.draft.length := by
    rw [← hclamp]
    split
    · exact clampLoop_le _ _ _
    · exact le_rfl
  split at h
  · cases h
  next hpos =>
    cases h
    refine ⟨rfl, rfl, call.le_padded _, fun _ => ⟨Nat.pos_of_ne_zero hpos, hk, rfl, rfl⟩,
      fun hon => ?_⟩
    cases hon

section

variable (h : call.chunk req = some chunk)
include h

/-- A chunk is one of the two kinds. -/
theorem VerifyCall.chunk_cases :
    (call.candidates.isEmpty = false ∧
      call.candidateChunk (req.outputTokens.getLastD 0) (req.contextLen - 1) = some chunk) ∨
    (call.candidates.isEmpty = true ∧
      call.linearChunk (req.outputTokens.getLastD 0) (req.contextLen - 1) = some chunk) := by
  unfold VerifyCall.chunk at h
  cases hmc : call.candidates.isEmpty with
  | false =>
    simp only [hmc, Bool.not_false, Bool.not_true, Bool.and_false, Bool.false_eq_true,
      if_false, if_true] at h
    split at h
    · cases h
    · exact .inl ⟨rfl, h⟩
  | true =>
    simp only [hmc, Bool.not_false, Bool.not_true, Bool.and_true, Bool.false_eq_true, if_false] at h
    split at h
    · cases h
    · split at h
      · cases h
      · exact .inr ⟨rfl, h⟩

theorem VerifyCall.chunk_fits : chunk.Fits req := by
  rcases chunk_cases h with ⟨hmc, hcandidates⟩ | ⟨-, hlinear⟩
  · exact candidateChunk_fits hmc hcandidates
  · exact linearChunk_fits hlinear

/-- The candidates staged are those of the call. -/
theorem VerifyCall.chunk_candidates : chunk.candidates = call.candidates := by
  rcases chunk_cases h with ⟨-, hcandidates⟩ | ⟨hmc, hlinear⟩
  · unfold candidateChunk at hcandidates
    dsimp only at hcandidates
    split at hcandidates
    · cases hcandidates
    · cases hcandidates
      rfl
  · unfold linearChunk at hlinear
    dsimp only at hlinear
    generalize (if 0 < call.attnScoresCap then _ else call.draft.length) = k at hlinear
    split at hlinear
    · cases hlinear
    · cases hlinear
      exact (List.isEmpty_iff.mp hmc).symm

end

/-- The committed context is what the chunk's first token follows. -/
theorem Request.context_eq (h : req.outputTokens ≠ []) :
    req.context = req.context.dropLast ++ [req.outputTokens.getLastD 0] := by
  have hne : req.context ≠ [] := append_ne_nil_of_right_ne_nil _ h
  rw [getLastD_eq_getLast?, getLast?_eq_some_getLast h, getD_some]
  rw [← getLast_append_of_right_ne_nil req.inputTokens req.outputTokens h]
  exact (dropLast_append_getLast hne).symm

/-- What the accept loop runs on: the rows of one group, and the draft that was staged there. -/
theorem Chunk.Fits.group (hfits : chunk.Fits req) (argmax : Nat → Token) :
    ∃ start acc accLen n,
      (∀ config, chunk.accept config argmax req =
        acceptLoop config chunk.mcOn argmax start acc accLen n 0 ⟨0, 0, req⟩) ∧
      accLen ≤ acc.length ∧ accLen < n ∧ chunk.Staged start (acc.take accLen) ∧
      (∀ i ≤ accLen, chunk.groupStart (start + i) = start ∧ start + i < chunk.chunkLen) ∧
      (chunk.mcOn = false → start = 0 ∧ acc = chunk.draft ∧ accLen = chunk.k) ∧
      let best := (bestLoop argmax chunk.rowsPerCand 0 chunk.candidates (0, -1)).1
      (chunk.mcOn = true → start = best * chunk.rowsPerCand ∧ best < chunk.candidates.length ∧
        accLen < chunk.rowsPerCand) := by
  unfold Chunk.accept
  cases hmc : chunk.mcOn with
  | false =>
    obtain ⟨-, hk, hlen, hrows⟩ := hfits.linear hmc
    refine ⟨0, chunk.draft, chunk.k, chunk.chunkLen, fun _ => rfl, hk, by omega,
      Chunk.staged_linear hmc hk hlen hfits.pad, fun i hi => ⟨?_, by omega⟩,
      fun _ => ⟨rfl, rfl, rfl⟩, fun hon => absurd hon (by decide)⟩
    rw [Chunk.groupStart, hrows, Nat.mul_zero]
  | true =>
    obtain ⟨hlen, hrows, hdepth⟩ := hfits.grouped hmc
    have hsome : chunk.candidates ≠ [] := fun hnil => by
      rw [Chunk.mcOn, hnil] at hmc
      cases hmc
    have hbest := bestLoop_lt argmax chunk.rowsPerCand 0 chunk.candidates (0, -1) (by
      rw [Nat.zero_add]
      exact length_pos_of_ne_nil hsome)
    generalize (bestLoop argmax chunk.rowsPerCand 0 chunk.candidates (0, -1)).1 = best at hbest ⊢
    rw [Nat.zero_add] at hbest
    have hwinner : chunk.candidates[best]? = some (chunk.candidates.getD best []) := by
      rw [getD_eq_getElem?_getD, getElem?_eq_getElem hbest, getD_some]
    have hshort : (chunk.candidates.getD best []).length < chunk.rowsPerCand := by
      have := mcDepth_le_iff.mp le_rfl _ (mem_of_getElem? hwinner)
      omega
    have hend : (best + 1) * chunk.rowsPerCand ≤ chunk.chunkLen := by
      rw [hlen]
      exact Nat.mul_le_mul_right _ hbest
    have hstaged := Chunk.staged_candidate hmc hwinner hshort (hend.trans hfits.pad)
    rw [Nat.succ_mul] at hend
    refine ⟨_, _, _, _, fun _ => rfl, le_rfl, by omega, by rwa [take_length],
      fun i hi => ⟨?_, by omega⟩, fun hoff => absurd hoff (by decide),
      fun _ => ⟨rfl, hbest, hshort⟩⟩
    rw [Chunk.groupStart, Nat.mul_comm best, Nat.mul_add_div (by omega),
      Nat.div_eq_of_lt (by omega), Nat.add_zero, Nat.mul_comm]

/-- The accept loop on a staged chunk emits what plain steps would. -/
theorem Chunk.Fits.lossless (hfits : chunk.Fits req) {config : StopConfig}
    {greedy : List Token → Token} {forward : VerifyForward} (hforward : forward.Faithful greedy)
    (hstatus : req.status = .decoding) (houtput : req.outputTokens ≠ []) :
    Lossless config greedy req (chunk.accept config (forward req.context.dropLast chunk) req) := by
  obtain ⟨start, acc, accLen, n, haccept, hlen, hn, hstaged, hgroup, -⟩ :=
    hfits.group (forward req.context.dropLast chunk)
  rw [haccept]
  refine acceptLoop_lossless _ (fun j hj => ?_) n 0 _ (Nat.zero_le _) (by omega) rfl rfl rfl
    (append_nil _).symm fun i hi => ?_
  · -- what the rows of the group return
    have hdraft : j ≤ (acc.take accLen).length := by rwa [length_take, Nat.min_eq_left hlen]
    rw [hforward _ _ _ (hstaged.real hdraft (hgroup j hj).2), hstaged.visible hdraft
      (hgroup j hj).1, hfits.t0, append_cons, ← Request.context_eq houtput, take_take,
      Nat.min_eq_left hj]
  · rw [Nat.le_zero.mp hi]
    exact hstatus

/-! ## Runs of decode steps -/

/-- The part of `spec_ngram_gates_ok_` that reads the request: it is decoding, has emitted a token,
and is not inside a budgeted think block. -/
def Request.specGatesOk (req : Request) : Bool :=
  req.status == .decoding && !req.outputTokens.isEmpty &&
    !(decide (0 < req.thinkBudget) && req.inThinkBlock)

/-- One decode step of the engine: a plain one, or an attempt to verify a draft. -/
inductive DecodeStep where
  | plain
  | verify (call : VerifyCall)

/-- The request after one decode step. Where speculation is gated off or declines, the plain step
runs. -/
def StopConfig.decodeStep (config : StopConfig) (greedy : List Token → Token)
    (forward : VerifyForward) (req : Request) : DecodeStep → Request
  | .plain => config.plainStep greedy req
  | .verify call =>
    if req.specGatesOk then
      match config.stepSpecVerify forward call req with
      | some out => out.req
      | none => config.plainStep greedy req
    else config.plainStep greedy req

section Runs

variable {config : StopConfig} {greedy : List Token → Token} {forward : VerifyForward}

/-- A verify step that is not declined is lossless. -/
theorem stepSpecVerify_lossless (hforward : forward.Faithful greedy) (hgates : req.specGatesOk)
    {out : Accepted} (h : config.stepSpecVerify forward call req = some out) :
    Lossless config greedy req out := by
  simp only [Request.specGatesOk, Bool.and_eq_true, beq_iff_eq, Bool.not_eq_true',
    isEmpty_eq_false_iff] at hgates
  obtain ⟨chunk, hchunk, h⟩ := bind_eq_some_iff.mp h
  split at h
  · obtain rfl := some.inj h
    exact (chunk_fits hchunk).lossless hforward hgates.1.1 hgates.1.2
  · cases h

/-- One decode step is one or more plain steps. -/
theorem decodeStep_plain (hforward : forward.Faithful greedy) (req : Request)
    (step : DecodeStep) : ∃ n, 1 ≤ n ∧
      config.decodeStep greedy forward req step = (config.plainStep greedy)^[n] req := by
  cases step with
  | plain => exact ⟨1, le_refl 1, rfl⟩
  | verify call =>
    unfold StopConfig.decodeStep
    dsimp only
    split
    next hgates =>
      split
      next out hout =>
        have hlossless := stepSpecVerify_lossless hforward hgates hout
        exact ⟨out.emitted, hlossless.progress, hlossless.plain⟩
      · exact ⟨1, le_refl 1, rfl⟩
    · exact ⟨1, le_refl 1, rfl⟩

/-- Every run of verify and plain steps leaves the request where greedy decoding, one token at a
time, leaves it after some number of steps. Each verify step of the run emits at least one token and
at most one more than it accepts, all of them the tokens of plain steps, and ends the request at the
token where plain decoding ends it. -/
theorem run_lossless (config : StopConfig) (greedy : List Token → Token) (forward : VerifyForward)
    (hforward : forward.Faithful greedy) (req : Request) (steps : List DecodeStep) :
    (∃ n, steps.length ≤ n ∧ runFrom (config.decodeStep greedy forward) req steps =
      (config.plainStep greedy)^[n] req) ∧
    ∀ before call after out, steps = before ++ .verify call :: after →
      let here := runFrom (config.decodeStep greedy forward) req before
      here.specGatesOk → config.stepSpecVerify forward call here = some out →
        Lossless config greedy here out := by
  refine ⟨?_, fun before call after out _ hgates hout =>
    stepSpecVerify_lossless hforward hgates hout⟩
  induction steps generalizing req with
  | nil => exact ⟨0, le_refl 0, rfl⟩
  | cons step steps ih =>
    obtain ⟨first, hfirst, hstep⟩ := decodeStep_plain hforward req step
    obtain ⟨n, hn, hrest⟩ := ih (config.decodeStep greedy forward req step)
    refine ⟨n + first, by rw [length_cons]; omega, ?_⟩
    rw [Function.iterate_add_apply, ← hstep]
    exact hrest

end Runs

/-- A forward pass that returns greedy tokens at all rows. -/
def exactForward (greedy : List Token → Token) : VerifyForward :=
  fun past chunk row => greedy (past ++ chunk.visible row)

/-- A model that counts, stopped by the token `7`. -/
def countUp (context : List Token) : Token := context.getLastD 0 + 1

def stopAtSeven : StopConfig :=
  { tokenizer := none, stopTokenIds := [7], bannedTokenIds := [], thinkStartId := -1
    thinkEndId := -1, whitespaceTable := [] }

def counting : Request :=
  { status := .decoding, inputTokens := [1], outputTokens := [2] }

/-- A draft of which two tokens are right, two candidates of which the second one is, and a step
that finds the request finished. -/
def countingSteps : List DecodeStep :=
  [.verify { draft := [3, 4, 9], candidates := [] },
    .verify { draft := [], candidates := [[9], [6, 8]] }, .plain]

theorem run_lossless_counting :
    (runFrom (stopAtSeven.decodeStep countUp (exactForward countUp)) counting
      countingSteps).outputTokens = [2, 3, 4, 5, 6, 7] ∧
    ∃ n, countingSteps.length ≤ n ∧
      runFrom (stopAtSeven.decodeStep countUp (exactForward countUp)) counting countingSteps =
        (stopAtSeven.plainStep countUp)^[n] counting :=
  ⟨by decide +kernel, (run_lossless stopAtSeven countUp (exactForward countUp)
    (fun _ _ _ _ => rfl) counting countingSteps).1⟩

end Quench

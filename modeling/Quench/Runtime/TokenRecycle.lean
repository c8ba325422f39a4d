import Quench.Runtime.SpecState

/-!
# The token recycle table

How `token_recycle_draft.cpp` fills the rows of the table, and the drafts it reads from them. A row
is kept in place: one scan finds the slot to give up, which is that of the token itself, the first
empty one or the last one, and one shift moves the slots in front of it down.

`recycle_exact` says what the rows and the drafts are after every sequence of observations.
-/

namespace Quench

open Lib List

/-- The table with the streaks of its first slots, `streak_`. -/
structure RecycleState extends TokenRecycleTable where
  streak : Token → Nat

/-- A call that records successors. -/
inductive Observation where
  | pair (prev next : Token)
  | topk (token : Token) (ids : List Token)

namespace RecycleState

/-- The scan of `promote_` from slot `i` on: the slot to give up, and whether it holds the token.
The last slot is given up if the scan does not stop. -/
def scanRow (next : Token) (last : Nat) : Nat → List Token → Nat × Bool
  | _, [] => (last, false)
  | i, token :: row =>
    if token = next then (i, true)
    else if token = -1 then (i, false)
    else scanRow next last (i + 1) row

/-- The shift of `promote_`: slots `[0, pos)` move down by one, the last one first. -/
def shiftRow : Nat → List Token → List Token
  | 0, row => row
  | i + 1, row => shiftRow i (row.set (i + 1) (row.getD i (-1)))

/-- What `promote_` does to the row. -/
def promoteRow (slots : Nat) (row : List Token) (next : Token) : List Token :=
  (shiftRow (scanRow next (slots - 1) 0 row).1 row).set 0 next

/-- The constructor: no successors yet. -/
def fresh (vocab : Int) (slots : Nat) : RecycleState where
  vocab
  slots
  row _ := replicate slots (-1)
  streak _ := 0

variable (table : RecycleState)

/-- `promote_`: whether the token was recorded already, and the table with it in front. -/
def promote (prev next : Token) : Bool × RecycleState :=
  ((scanRow next (table.slots - 1) 0 (table.row prev)).2,
    { table with
      row := fun token =>
        if token = prev then promoteRow table.slots (table.row token) next else table.row token })

/-- A successor that was seen before adds to the streak, up to 255. A new one ends it. -/
def confirm (token : Token) (existed : Bool) : RecycleState :=
  { table with
    streak := fun other =>
      if other = token then if existed then min 255 (table.streak token + 1) else 0
      else table.streak other }

/-- `observe_pair`. -/
def observePair (prev next : Token) : RecycleState :=
  if table.valid prev && table.valid next then
    let (existed, promoted) := table.promote prev next
    promoted.confirm prev existed
  else table

/-- The loop of `observe_topk`, from the last id to the first. -/
def promoteAll (token : Token) (ids : List Token) : RecycleState :=
  ids.foldr (fun id table => if table.valid id then (table.promote token id).2 else table) table

/-- `observe_topk`, best id first. -/
def observeTopk (token : Token) (ids : List Token) : RecycleState :=
  match ids with
  | [] => table
  | best :: _ =>
    if table.valid token then
      (table.promoteAll token ids).confirm token
        (table.valid best && (table.row token).contains best)
    else table

def observe : Observation → RecycleState
  | .pair prev next => table.observePair prev next
  | .topk token ids => table.observeTopk token ids

/-- The loop of `draft_linear`. -/
def linearLoop (minStreak : Int) : Nat → Token → List Token
  | 0, _ => []
  | n + 1, cur =>
    let next := (table.row cur).headD (-1)
    if !table.valid cur || decide ((table.streak cur : Int) < minStreak) then []
    else if next.toInt < 0 then []
    else next :: linearLoop minStreak n next

/-- `draft_linear`. -/
def draftLinear (t0 : Token) (k minStreak : Int) : List Token :=
  table.linearLoop minStreak k.toNat t0

end RecycleState

/-! ## What the rows are for -/

/-- The distinct entries of a history, the latest one first. -/
def recent (history : List Token) : List Token := history.dedup.reverse

/-- The ids a call observes behind a token, in order. Those of a top-k list count in reverse rank
order. -/
def Observation.successors (token : Token) : Observation → List Token
  | .pair prev next => if token = prev then [next] else []
  | .topk prev ids => if token = prev then ids.reverse else []

/-- The valid successors of a token in a sequence of calls. -/
def observed (table : TokenRecycleTable) (calls : List Observation) (token : Token) : List Token :=
  (calls.flatMap (·.successors token)).filter table.valid

/-! ## One row -/

namespace RecycleState

/-- Without the slot that is given up, the row is that of the other entries, one slot shorter. -/
theorem scanRow_takeD {next : Token} (hnext : next ≠ -1) {entries : List Token}
    (hnodup : entries.Nodup) (hfull : -1 ∉ entries) (k i : Nat) :
    ∃ p ≤ k, (scanRow next (k + i) i (takeD (k + 1) entries (-1))).1 = i + p ∧
      (takeD (k + 1) entries (-1)).eraseIdx p = takeD k (entries.filter (· ≠ next)) (-1) := by
  induction entries generalizing k i with
  | nil =>
    refine ⟨0, Nat.zero_le k, ?_, rfl⟩
    rw [takeD_succ, head?_nil, Option.getD_none, scanRow, if_neg hnext.symm, if_pos rfl]
    rfl
  | cons token entries ih =>
    obtain ⟨hnot, hnodup⟩ := nodup_cons.mp hnodup
    obtain ⟨hhead, hfull⟩ := not_or.mp (mem_cons.not.mp hfull)
    rw [takeD_succ, head?_cons, Option.getD_some, tail_cons, scanRow]
    by_cases heq : token = next
    · have hkept : entries.filter (· ≠ next) = entries :=
        filter_eq_self.mpr fun other hother => decide_eq_true fun h => hnot (heq ▸ h ▸ hother)
      refine ⟨0, Nat.zero_le k, by rw [if_pos heq]; rfl, ?_⟩
      rw [filter_cons_of_neg (by simpa using heq), hkept]
      rfl
    · rw [if_neg heq, if_neg (Ne.symm hhead)]
      cases k with
      | zero => exact ⟨0, le_rfl, Nat.zero_add i, rfl⟩
      | succ k =>
        obtain ⟨p, hp, hscan, herase⟩ := ih hnodup hfull k (i + 1)
        refine ⟨p + 1, Nat.succ_le_succ hp, ?_, ?_⟩
        · rw [Nat.add_right_comm, Nat.add_assoc k i 1, hscan, Nat.add_right_comm, Nat.add_assoc]
        · rw [eraseIdx_cons_succ, herase, filter_cons_of_pos (by simpa using heq), takeD_succ]
          rfl

theorem shiftRow_set (next : Token) {p : Nat} {row : List Token} (hp : p < row.length) :
    (shiftRow p row).set 0 next = next :: row.eraseIdx p := by
  induction p generalizing row with
  | zero =>
    cases row with
    | nil => cases hp
    | cons token row => rfl
  | succ p ih =>
    rw [shiftRow, ih (by rw [length_set]; omega)]
    congr 1
    refine ext_getElem? fun n => ?_
    rw [getElem?_eraseIdx, getElem?_eraseIdx, getElem?_set, getElem?_set]
    grind

/-- Promoting one successor after the other keeps the most recent ones. -/
theorem foldl_promoteRow (k : Nat) {history : List Token} (hfull : -1 ∉ history) :
    history.foldl (promoteRow (k + 1)) (replicate (k + 1) (-1)) =
      takeD (k + 1) (recent history) (-1) := by
  induction history using reverseRecOn with
  | nil => exact (takeD_nil _ _).symm
  | append_singleton history next ih =>
    rw [mem_append, mem_singleton, not_or] at hfull
    have hrecent : recent (history ++ [next]) = next :: (recent history).filter (· ≠ next) := by
      rw [recent, dedup_concat, reverse_append, reverse_singleton, singleton_append, recent,
        filter_reverse]
    have hnodup : (recent history).Nodup := nodup_reverse.mpr (nodup_dedup history)
    have hempty : -1 ∉ recent history := fun hmem =>
      hfull.1 (mem_dedup.mp (mem_reverse.mp hmem))
    obtain ⟨p, hp, hscan, herase⟩ := scanRow_takeD (Ne.symm hfull.2) hnodup hempty k 0
    rw [Nat.zero_add, Nat.add_zero] at hscan
    rw [foldl_concat, ih hfull.1, promoteRow, Nat.add_sub_cancel, hscan,
      shiftRow_set next (by rw [takeD_length]; omega), herase, hrecent]
    rfl

/-! ## Whole sequences of calls -/

/-- The rows of the valid tokens take up the valid ones of these successors. -/
structure Feeds (table table' : RecycleState) (successors : Token → List Token) : Prop where
  vocab : table'.vocab = table.vocab
  slots : table'.slots = table.slots
  row : ∀ token, table.valid token = true → table'.row token =
    ((successors token).filter table.valid).foldl (promoteRow table.slots) (table.row token)

namespace Feeds

variable {table table' last : RecycleState} {first second : Token → List Token}

theorem trans (h : Feeds table table' first) (hnext : Feeds table' last second) :
    Feeds table last fun token => first token ++ second token where
  vocab := hnext.vocab.trans h.vocab
  slots := hnext.slots.trans h.slots
  row token htoken := by
    have hvalid : table'.valid = table.valid := by
      funext other
      rw [TokenRecycleTable.valid, h.vocab]
      rfl
    rw [hnext.row token (hvalid ▸ htoken), h.row token htoken, filter_append, foldl_append, hvalid,
      h.slots]

/-- One round of the loop of `observe_topk`. -/
theorem promote (table : RecycleState) (prev next : Token) :
    Feeds table (if table.valid next then (table.promote prev next).2 else table)
      fun token => if token = prev then [next] else [] := by
  split_ifs with hnext
  · refine ⟨rfl, rfl, fun token _ => ?_⟩
    change (if token = prev then _ else _) = _
    split_ifs
    · rw [filter_cons_of_pos hnext]
      rfl
    · rfl
  · refine ⟨rfl, rfl, fun token _ => ?_⟩
    split_ifs
    · rw [filter_cons_of_neg hnext]
      rfl
    · rfl

theorem promoteAll (prev : Token) (ids : List Token) :
    Feeds table (table.promoteAll prev ids)
      fun token => if token = prev then ids.reverse else [] := by
  induction ids with
  | nil => exact ⟨rfl, rfl, fun token _ => by rw [reverse_nil, ite_self]; rfl⟩
  | cons id ids ih =>
    have hround := ih.trans (promote _ prev id)
    refine { hround with row := fun token htoken => (hround.row token htoken).trans ?_ }
    split_ifs
    · rw [reverse_cons]
    · rfl

/-- A call behind a token that is not valid. -/
theorem skip {prev : Token} (hprev : table.valid prev ≠ true) (ids : List Token) :
    Feeds table table fun token => if token = prev then ids else [] := by
  refine ⟨rfl, rfl, fun token htoken => ?_⟩
  have hne : token ≠ prev := fun heq => hprev (heq ▸ htoken)
  rw [if_neg hne]
  rfl

theorem observe (table : RecycleState) (call : Observation) :
    Feeds table (table.observe call) (call.successors ·) := by
  cases call with
  | pair prev next =>
    by_cases hprev : table.valid prev = true
    · have hpromote := promote table prev next
      rw [RecycleState.observe, observePair, hprev, Bool.true_and]
      split_ifs at hpromote ⊢
      · exact { hpromote with }
      · exact hpromote
    · rw [RecycleState.observe, observePair, if_neg fun h => hprev (Bool.and_eq_true_iff.mp h).1]
      exact skip hprev [next]
  | topk prev ids =>
    cases ids with
    | nil => exact promoteAll prev []
    | cons best ids =>
      rw [RecycleState.observe, observeTopk]
      split_ifs with hprev
      · exact { promoteAll prev (best :: ids) with }
      · exact skip hprev _

theorem observeAll (table : RecycleState) (calls : List Observation) :
    Feeds table (calls.foldl RecycleState.observe table)
      fun token => calls.flatMap (·.successors token) := by
  induction calls generalizing table with
  | nil => exact ⟨rfl, rfl, fun _ _ => rfl⟩
  | cons call calls ih => exact (observe table call).trans (ih _)

end Feeds

/-! ## Drafts -/

/-- A token is in the first slot of another one. -/
def Follows (table : TokenRecycleTable) (token next : Token) : Prop :=
  (table.row token).headD (-1) = next

theorem chain_follows (table : TokenRecycleTable) (n : Nat) (cur : Token) :
    IsChain (Follows table) (cur :: table.chain n cur) ∧ (table.chain n cur).length ≤ n := by
  induction n generalizing cur with
  | zero => exact ⟨.singleton cur, le_rfl⟩
  | succ n ih =>
    rw [TokenRecycleTable.chain]
    split_ifs
    · exact ⟨.singleton cur, Nat.zero_le _⟩
    · obtain ⟨hchain, hlength⟩ := ih ((table.row cur).headD (-1))
      exact ⟨.cons_cons rfl hchain, Nat.succ_le_succ hlength⟩

/-- A linear draft is the chain up to the first token without a streak. -/
theorem linearLoop_chain (table : RecycleState) (minStreak : Int) (n : Nat) (cur : Token) :
    table.linearLoop minStreak n cur <+: table.chain n cur := by
  induction n generalizing cur with
  | zero => exact prefix_rfl
  | succ n ih =>
    rw [linearLoop, TokenRecycleTable.chain]
    split_ifs
    · exact prefix_rfl
    · exact nil_prefix
    · exact prefix_rfl
    · exact (prefix_cons_inj _).mpr (ih _)

end RecycleState

/-- After every sequence of observations, a row holds the valid successors that were observed behind
its token, the latest first and each of them once, cut to the slots or filled up with `-1`. A draft
is at most as long and as wide as asked for and goes from first slot to first slot. -/
theorem recycle_exact (vocab : Int) (slots : Nat) (hslots : 1 ≤ slots) (calls : List Observation) :
    let start := RecycleState.fresh vocab slots
    let table := calls.foldl RecycleState.observe start
    (∀ token, start.valid token = true → table.row token =
      takeD slots (recent (observed start.toTokenRecycleTable calls token)) (-1)) ∧
    (∀ t0 k minStreak, (table.draftLinear t0 k minStreak).length ≤ k.toNat ∧
      IsChain (RecycleState.Follows table.toTokenRecycleTable)
        (t0 :: table.draftLinear t0 k minStreak)) ∧
    ∀ t0 width depth, (table.draftCandidates t0 width depth).length ≤ width.toNat ∧
      ∀ candidate ∈ table.draftCandidates t0 width depth, candidate.length ≤ depth.toNat ∧
        IsChain (RecycleState.Follows table.toTokenRecycleTable) candidate := by
  intro start table
  refine ⟨fun token htoken => ?_, fun t0 k minStreak => ?_, fun t0 width depth => ?_⟩
  · obtain ⟨k, rfl⟩ := Nat.exists_eq_add_of_le' hslots
    rw [(RecycleState.Feeds.observeAll start calls).row token htoken]
    refine RecycleState.foldl_promoteRow k fun hmem => ?_
    cases (mem_filter.mp hmem).2
  · obtain ⟨hchain, hlength⟩ := RecycleState.chain_follows table.toTokenRecycleTable k.toNat t0
    have hdraft := RecycleState.linearLoop_chain table minStreak k.toNat t0
    refine ⟨hdraft.length_le.trans hlength, ?_⟩
    obtain ⟨rest, hrest⟩ := hdraft
    rw [← hrest, ← cons_append] at hchain
    exact hchain.left_of_append
  · rw [TokenRecycleTable.draftCandidates]
    split_ifs with hasked
    · refine ⟨?_, fun candidate hmem => ?_⟩
      · rw [length_map]
        refine ((takeWhile_sublist _).length_le).trans ?_
        rw [length_take]
        omega
      · obtain ⟨first, -, rfl⟩ := mem_map.mp hmem
        obtain ⟨hchain, hlength⟩ :=
          RecycleState.chain_follows table.toTokenRecycleTable (depth.toNat - 1) first
        refine ⟨?_, hchain⟩
        rw [length_cons]
        omega
    · exact ⟨Nat.zero_le _, fun _ hmem => (not_mem_nil hmem).elim⟩

/-- A repeat, an eviction and a top-k list with a repeat and an id that is not valid. -/
theorem recycle_exact_evicts :
    ([.pair 1 2, .pair 1 3, .topk 1 [4, 9, 2, 4]].foldl RecycleState.observe
      (.fresh 5 2)).row 1 = [4, 2] := by
  rw [(recycle_exact 5 2 (by decide) _).1 1 (by decide)]
  decide

end Quench

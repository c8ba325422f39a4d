import Quench.Memory.KVCacheManager

/-!
# Drafts from the history

The two prompt-lookup drafters. `ngram_draft` scans the history backwards for the end of an earlier
occurrence of its last tokens and proposes what followed it there. `SuffixDraftIndex` keeps the end
positions of all windows of the history under a hash, and lets the occurrences of the last tokens
vote on every drafted token.

`ngramDraft_best` says which occurrence the scan picks, and `suffixDraft_exact` what the index and
its drafts are, however the history was cut into `append` calls.

Positions are natural numbers. A window that would start before the history is cut short, so it is
never equal to a whole one.
-/

namespace Quench

open Lib List

/-! ## Windows of the history -/

variable (hist : List Token)

/-- `hist[e - len, e)`. -/
def window (e len : Nat) : List Token := (hist.take e).drop (e - len)

/-- The `len` tokens before `e` are the last `len` tokens of the history. -/
def Agrees (hist : List Token) (e len : Nat) : Prop :=
  len ≤ e ∧ window hist e len = window hist hist.length len

instance (hist : List Token) (e : Nat) : DecidablePred (Agrees hist e) := fun _ =>
  inferInstanceAs (Decidable (_ ∧ _))

/-- An earlier occurrence of the last `len` tokens ends at `e`. -/
def Recurs (len e : Nat) : Prop := Agrees hist e len ∧ e < hist.length

/-- How far the tokens before `e` are those at the end of the history, up to a cap. -/
def agreeLength (cap e : Nat) : Nat := Nat.findGreatest (Agrees hist e) cap

/-- The loop that extends a match of `len` tokens backwards, with `room` tokens in front of it. The
end of the history lies behind the match, so it has at least as many. -/
def extendMatch (hist : List Token) (maxMatch : Nat) : Nat → Nat → Nat
  | 0, len => len
  | room + 1, len =>
    if len < maxMatch ∧ hist[room]? = hist[hist.length - len - 1]? then
      extendMatch hist maxMatch room (len + 1)
    else len

variable {hist : List Token} {e len cap : Nat}

theorem window_succ (h : len < e) (he : e ≤ hist.length) :
    ∃ token, hist[e - len - 1]? = some token ∧
      window hist e (len + 1) = token :: window hist e len := by
  have hlt : e - (len + 1) < (hist.take e).length := by
    rw [length_take]
    omega
  refine ⟨(hist.take e)[e - (len + 1)], ?_, ?_⟩
  · rw [getElem_take, Nat.sub_sub]
    exact getElem?_eq_getElem _
  · rw [window, drop_eq_getElem_cons hlt, window, show e - (len + 1) + 1 = e - len by omega]

theorem window_append (more : List Token) (he : e ≤ hist.length) :
    window (hist ++ more) e len = window hist e len := by
  rw [window, window, take_append_of_le_length he]

/-- A match that is one token longer. -/
theorem agrees_succ (h : len < e) (he : e < hist.length) :
    Agrees hist e (len + 1) ↔
      hist[e - len - 1]? = hist[hist.length - len - 1]? ∧ Agrees hist e len := by
  obtain ⟨token, htoken, hwindow⟩ := window_succ h (le_of_lt he)
  obtain ⟨last, hlast, hend⟩ := window_succ (lt_trans h he) (le_refl hist.length)
  rw [Agrees, Agrees, hwindow, hend, htoken, hlast, List.cons.injEq, Option.some.injEq]
  constructor
  · rintro ⟨-, heq, hrest⟩
    exact ⟨heq, le_of_lt h, hrest⟩
  · rintro ⟨heq, -, hrest⟩
    exact ⟨h, heq, hrest⟩

theorem Agrees.mono {more : Nat} (h : Agrees hist e more) (hle : len ≤ more)
    (he : e ≤ hist.length) : Agrees hist e len := by
  obtain ⟨hmore, heq⟩ := h
  have hcut : ∀ p, more ≤ p → window hist p len = (window hist p more).drop (more - len) := by
    intro p hp
    rw [window, window, drop_drop, show p - more + (more - len) = p - len by omega]
  exact ⟨le_trans hle hmore, by rw [hcut e hmore, hcut _ (le_trans hmore he), heq]⟩

/-- The extension loop finds the greatest match. -/
theorem extendMatch_eq (room : Nat) (hlen : Agrees hist (room + len) len)
    (he : room + len < hist.length) (hcap : len ≤ cap) :
    extendMatch hist cap room len = agreeLength hist cap (room + len) := by
  induction room generalizing len with
  | zero =>
    refine (Nat.findGreatest_eq_iff.mpr ⟨hcap, fun _ => hlen, fun more hlt _ h => ?_⟩).symm
    have := h.1
    omega
  | succ room ih =>
    have hnext := agrees_succ (show len < room + 1 + len by omega) he
    rw [show room + 1 + len - len - 1 = room by omega] at hnext
    rw [extendMatch]
    split
    next hmore =>
      have hstep := hnext.mpr ⟨hmore.2, hlen⟩
      rw [show room + 1 + len = room + (len + 1) by omega] at hstep he ⊢
      exact ih hstep he hmore.1
    next hstop =>
      refine (Nat.findGreatest_eq_iff.mpr ⟨hcap, fun _ => hlen, fun more hlt hle h => ?_⟩).symm
      have hone := h.mono (Nat.succ_le_of_lt hlt) (le_of_lt he)
      exact hstop ⟨by omega, (hnext.mp hone).1⟩

/-! ## The backward scan -/

/-- The loop of `ngram_draft` over the `count` ends from `minMatch` on, with the best end and its
match length so far. -/
def scanEnds (hist : List Token) (minMatch maxMatch : Nat) : Nat → Int × Nat → Int × Nat
  | 0, best => best
  | count + 1, best =>
    let e := minMatch + count
    if window hist e minMatch = window hist hist.length minMatch then
      let len := extendMatch hist maxMatch count minMatch
      if best.2 < len then
        if maxMatch ≤ len then (e, len) else scanEnds hist minMatch maxMatch count (e, len)
      else scanEnds hist minMatch maxMatch count best
    else scanEnds hist minMatch maxMatch count best

/-- `ngram_draft`: the draft and `draft_start`. -/
def ngramDraft (hist : List Token) (k minMatch maxMatch : Int) : List Token × Int :=
  if k ≤ 0 ∨ minMatch < 1 ∨ hist.length < minMatch + 1 then ([], -1)
  else
    let maxMatch := if maxMatch < minMatch then minMatch else maxMatch
    let (bestEnd, _) := scanEnds hist minMatch.toNat maxMatch.toNat
      (hist.length - minMatch.toNat) (-1, 0)
    if bestEnd < 0 then ([], -1)
    else
      let take := min k (hist.length - bestEnd)
      if take ≤ 0 then ([], -1)
      else ((hist.drop bestEnd.toNat).take take.toNat, bestEnd)

/-- No end from `lo` on has a longer match than `e`, and none behind `e` one as long. -/
def Tops (hist : List Token) (minMatch cap lo e : Nat) : Prop :=
  ∀ e', lo ≤ e' → Recurs hist minMatch e' →
    agreeLength hist cap e' < agreeLength hist cap e ∨
      agreeLength hist cap e' = agreeLength hist cap e ∧ e' ≤ e

/-- The best end from `lo` on, or none. -/
def BestFrom (hist : List Token) (minMatch cap lo : Nat) (best : Int × Nat) : Prop :=
  (best = (-1, 0) ∧ ∀ e, lo ≤ e → ¬ Recurs hist minMatch e) ∨
    ∃ e : Nat, best = ((e : Int), agreeLength hist cap e) ∧ Recurs hist minMatch e ∧
      Tops hist minMatch cap lo e ∧ lo ≤ e

variable {minMatch lo : Nat} {best : Int × Nat}

/-- One end more that is no improvement. -/
theorem BestFrom.keep (h : BestFrom hist minMatch cap (lo + 1) best)
    (hworse : Recurs hist minMatch lo → 0 < agreeLength hist cap lo ∧
      agreeLength hist cap lo ≤ best.2) : BestFrom hist minMatch cap lo best := by
  rcases h with ⟨rfl, hnone⟩ | ⟨e, rfl, hrec, htops, hle⟩
  · refine .inl ⟨rfl, fun e hle hrec => ?_⟩
    rcases eq_or_lt_of_le hle with rfl | hlt
    · exact absurd (hworse hrec) (by omega)
    · exact hnone e hlt hrec
  · refine .inr ⟨e, rfl, hrec, fun e' hle' hrec' => ?_, by omega⟩
    rcases eq_or_lt_of_le hle' with rfl | hlt
    · have := (hworse hrec').2
      omega
    · exact htops e' hlt hrec'

/-- One end more that is better than all behind it. -/
theorem BestFrom.replace (h : BestFrom hist minMatch cap (lo + 1) best)
    (hrec : Recurs hist minMatch lo) (hbetter : best.2 < agreeLength hist cap lo) :
    BestFrom hist minMatch cap lo ((lo : Int), agreeLength hist cap lo) := by
  refine .inr ⟨lo, rfl, hrec, fun e hle hrec' => ?_, le_rfl⟩
  rcases eq_or_lt_of_le hle with rfl | hlt
  · exact .inr ⟨rfl, le_rfl⟩
  · rcases h with ⟨-, hnone⟩ | ⟨b, rfl, -, htops, -⟩
    · exact absurd hrec' (hnone e hlt)
    · have := htops e hlt hrec'
      omega

/-- Nothing in front of an end with the longest possible match is better. -/
theorem BestFrom.stop {first : Nat}
    (h : BestFrom hist minMatch cap lo ((lo : Int), agreeLength hist cap lo))
    (hmost : cap ≤ agreeLength hist cap lo) (hfirst : first ≤ lo) :
    BestFrom hist minMatch cap first ((lo : Int), agreeLength hist cap lo) := by
  rcases h with ⟨heq, -⟩ | ⟨e, heq, hrec, htops, -⟩
  · cases heq
  · obtain rfl : lo = e := Int.ofNat.inj (Prod.mk.inj heq).1
    refine .inr ⟨lo, rfl, hrec, fun e _ hrec' => ?_, hfirst⟩
    rcases lt_or_ge e lo with hlt | hge
    · have : agreeLength hist cap e ≤ cap := Nat.findGreatest_le cap
      omega
    · exact htops e hge hrec'

theorem scanEnds_best (hcap : minMatch ≤ cap) (hpos : 0 < minMatch) (count : Nat)
    (hcount : minMatch + count ≤ hist.length)
    (h : BestFrom hist minMatch cap (minMatch + count) best) :
    BestFrom hist minMatch cap minMatch (scanEnds hist minMatch cap count best) := by
  induction count generalizing best with
  | zero => exact h
  | succ count ih =>
    have hbehind : BestFrom hist minMatch cap (minMatch + count + 1) best := h
    rw [scanEnds]
    split
    next hwindow =>
      have hagrees : Agrees hist (count + minMatch) minMatch := by
        rw [Nat.add_comm]
        exact ⟨Nat.le_add_right _ _, hwindow⟩
      have hlen := extendMatch_eq count hagrees (by omega) hcap
      rw [Nat.add_comm count] at hagrees hlen
      have hreach : minMatch ≤ agreeLength hist cap (minMatch + count) :=
        Nat.le_findGreatest hcap hagrees
      dsimp only
      rw [hlen]
      split
      next hbetter =>
        have hnew := hbehind.replace ⟨hagrees, by omega⟩ hbetter
        split
        next hmost => exact hnew.stop hmost (Nat.le_add_right _ _)
        next => exact ih (by omega) hnew
      next hworse => exact ih (by omega) (hbehind.keep fun _ => by omega)
    next hwindow => exact ih (by omega) (hbehind.keep fun hrec => absurd hrec.1.2 hwindow)

/-- A cap below the length that every candidate has does not order them. -/
theorem Tops.of_cap {cap' : Nat} (hcap : cap' = cap ∨ cap ≤ minMatch ∧ cap' = minMatch)
    (hrec : Recurs hist minMatch e) (h : Tops hist minMatch cap' lo e) :
    Tops hist minMatch cap lo e := by
  rcases hcap with rfl | ⟨hlow, rfl⟩
  · exact h
  · intro e' hle hrec'
    have hfull : ∀ {p cap}, Recurs hist cap' p → cap ≤ cap' → agreeLength hist cap p = cap := by
      intro p cap hp hle
      have hagrees := hp.1.mono hle (le_of_lt hp.2)
      exact le_antisymm (Nat.findGreatest_le cap) (Nat.le_findGreatest (le_rfl) hagrees)
    have hboth := h e' hle hrec'
    rw [hfull hrec' (le_rfl), hfull hrec (le_rfl)] at hboth
    rw [hfull hrec' hlow, hfull hrec hlow]
    exact .inr ⟨rfl, by omega⟩

/-- With a positive length and a positive least match, the draft is what followed the occurrence
with the longest match, the last one of these; without an occurrence there is no draft. -/
theorem ngramDraft_best (hist : List Token) (k minMatch maxMatch : Int) :
    (k ≤ 0 ∨ minMatch < 1 → ngramDraft hist k minMatch maxMatch = ([], -1)) ∧
    (0 < k → 1 ≤ minMatch → (∀ e, ¬ Recurs hist minMatch.toNat e) →
      ngramDraft hist k minMatch maxMatch = ([], -1)) ∧
    (0 < k → 1 ≤ minMatch → (∃ e, Recurs hist minMatch.toNat e) →
      ∃ e, Recurs hist minMatch.toNat e ∧ Tops hist minMatch.toNat maxMatch.toNat 0 e ∧
        ngramDraft hist k minMatch maxMatch = ((hist.drop e).take k.toNat, (e : Int))) := by
  have hscan : ∀ cap, 1 ≤ minMatch → minMatch ≤ cap → minMatch + 1 ≤ hist.length →
      BestFrom hist minMatch.toNat cap.toNat minMatch.toNat (scanEnds hist minMatch.toNat cap.toNat
        (hist.length - minMatch.toNat) (-1, 0)) := by
    intro cap hmin hcap hlong
    refine scanEnds_best (by omega) (by omega) _ (by omega) (.inl ⟨rfl, fun e hle hrec => ?_⟩)
    have := hrec.2
    omega
  refine ⟨fun h => if_pos (h.imp_right .inl), fun hk hmin hnone => ?_, fun hk hmin hsome => ?_⟩
  · rw [ngramDraft]
    split
    · rfl
    next hlong =>
      dsimp only
      rcases hscan (if maxMatch < minMatch then minMatch else maxMatch) hmin (by split <;> omega)
        (by omega) with ⟨heq, -⟩ | ⟨e, -, hrec, -⟩
      · rw [heq]
        rfl
      · exact absurd hrec (hnone e)
  · obtain ⟨found, hfound⟩ := hsome
    have hlong : minMatch + 1 ≤ hist.length := by
      have := hfound.1.1
      have := hfound.2
      omega
    rcases hscan (if maxMatch < minMatch then minMatch else maxMatch) hmin (by split <;> omega)
      hlong with ⟨-, hnone⟩ | ⟨e, heq, hrec, htops, -⟩
    · exact absurd hfound (hnone found hfound.1.1)
    · refine ⟨e, hrec, fun e' _ hrec' => ?_, ?_⟩
      · refine htops.of_cap ?_ hrec e' hrec'.1.1 hrec'
        split <;> omega
      · have hlt := hrec.2
        rw [ngramDraft, if_neg (by omega)]
        dsimp only
        rw [heq, if_neg (by omega), if_neg (by omega), Int.toNat_natCast]
        congr 1
        refine take_eq_take_iff.mpr ?_
        rw [length_drop]
        omega

/-- A draft of no tokens has no start, although the last token occurred before. -/
theorem no_start_without_length :
    Recurs [7, 7] 1 1 ∧ ngramDraft [7, 7] 0 1 1 = ([], -1) := by
  refine ⟨⟨⟨le_rfl, by decide⟩, by decide⟩, by decide⟩

/-! ## The suffix index -/

/-- `SuffixDraftIndex`. The end positions of an entry are in the order in which they came. -/
structure SuffixDraftIndex where
  minMatch : Nat
  maxMatch : Nat
  hist : List Token := []
  index : Table Hash (List Nat) := ∅

namespace SuffixDraftIndex

/-- The constructor. -/
def new (minMatch maxMatch : Int) : SuffixDraftIndex where
  minMatch := (max 1 minMatch).toNat
  maxMatch := (max maxMatch (max 1 minMatch)).toNat

/-- `kMaxOccurrences`. -/
def kMaxOccurrences : Nat := 64

/-- `gram_hash_at_`: FNV-1a over a window, mixed once more. -/
def gramHashAt (minMatch : Nat) (hist : List Token) (e : Nat) : Hash :=
  let h := (window hist e minMatch).foldl
    (fun h token => (h ^^^ token.toUInt32.toUInt64) * 0x100000001b3) 0xcbf29ce484222325
  let h := (h ^^^ (h >>> 30)) * 0xbf58476d1ce4e5b9
  h ^^^ (h >>> 27)

/-- Put an end position under its hash. The oldest one of a full entry is dropped. -/
def record (index : Table Hash (List Nat)) (hash : Hash) (e : Nat) : Table Hash (List Nat) :=
  let occ := (index.lookup hash).getD []
  index.insert hash ((if kMaxOccurrences ≤ occ.length then occ.drop 1 else occ) ++ [e])

/-- The loop of `append` over the ends of new windows. -/
def recordEnds (minMatch : Nat) (hist : List Token) (ends : List Nat)
    (index : Table Hash (List Nat)) : Table Hash (List Nat) :=
  ends.foldl (fun index e => record index (gramHashAt minMatch hist e) e) index

/-- The ends of the windows that hold a token behind the first `source`. -/
def newEnds (minMatch source total : Nat) : List Nat :=
  List.range' (max minMatch (source + 1)) (total + 1 - max minMatch (source + 1))

variable (s : SuffixDraftIndex)

/-- `append`. -/
def append (toks : List Token) : SuffixDraftIndex :=
  if toks.isEmpty then s
  else
    let hist := s.hist ++ toks
    { s with
      hist
      index := recordEnds s.minMatch hist
        (newEnds s.minMatch (hist.length - toks.length) hist.length) s.index }

/-- An occurrence of the last tokens: one past its end, and its backward match length. -/
structure Candidate where
  last : Nat
  len : Nat

/-- The occurrences of the last tokens, of those under their hash. -/
def candidates : List Candidate :=
  let n := s.hist.length
  (((s.index.lookup (gramHashAt s.minMatch s.hist n)).getD []).filter fun e =>
    decide (e < n) && window s.hist e s.minMatch == window s.hist n s.minMatch).map fun e =>
      { last := e, len := extendMatch s.hist s.maxMatch (e - s.minMatch) s.minMatch }

/-- The winner of a vote so far. -/
structure Vote where
  tok : Token := -1
  votes : Nat := 0
  len : Nat := 0
  last : Int := -1

/-- The candidates whose continuation has this token at an offset. -/
def agreeing (cands : List Candidate) (i : Nat) (tok : Token) : List Candidate :=
  cands.filter fun d => s.hist[d.last + i]? == some tok

/-- One voter: its token wins with more votes, then with a longer match, then with a later one. -/
def ballot (cands : List Candidate) (i : Nat) (best : Vote) (c : Candidate) : Vote :=
  match s.hist[c.last + i]? with
  | none => best
  | some tok =>
    let same := s.agreeing cands i tok
    let votes := same.length
    let longest := same.foldl (fun longest d => max longest d.len) 0
    let recent := same.foldl (fun recent d => max recent (d.last : Int)) (-1)
    if best.votes < votes ∨ votes = best.votes ∧ best.len < longest ∨
        votes = best.votes ∧ longest = best.len ∧ best.last < recent then
      { tok, votes, len := longest, last := recent }
    else best

/-- The voted walk, with the draft so far and the end that its first token was copied from. -/
def walk (s : SuffixDraftIndex) (k : Nat) :
    Nat → Nat → List Candidate → List Token → Int → List Token × Int
  | 0, _, _, out, repEnd => (out, repEnd)
  | rounds + 1, i, cands, out, repEnd =>
    let voters := cands.countP fun c => decide (c.last + i < s.hist.length)
    let best := cands.foldl (s.ballot cands i) {}
    if voters = 0 then (out, repEnd)
    else if k ≤ i ∧ ¬ (best.votes = voters ∧ (2 ≤ best.votes ∨ s.maxMatch ≤ best.len)) then
      (out, repEnd)
    else
      walk s k rounds (i + 1) (s.agreeing cands i best.tok) (out ++ [best.tok])
        (if i = 0 then best.last else repEnd)

/-- `draft`, and `draft_start`. -/
def draft (k kMax : Int) : List Token × Int :=
  if k ≤ 0 ∨ s.hist.length < s.minMatch + 1 then ([], -1)
  else
    let (out, repEnd) := s.walk k.toNat (max k kMax).toNat 0 s.candidates [] (-1)
    if out.isEmpty then ([], -1) else (out, repEnd)

/-! ### Appending in pieces -/

theorem newEnds_split (minMatch : Nat) {source mid total : Nat} (hfirst : source ≤ mid)
    (hlast : mid ≤ total) :
    newEnds minMatch source mid ++ newEnds minMatch mid total = newEnds minMatch source total := by
  unfold newEnds
  rcases le_total minMatch (mid + 1) with hle | hle
  · rw [show max minMatch (mid + 1) =
      max minMatch (source + 1) + (mid + 1 - max minMatch (source + 1)) by omega,
      List.range'_append_1]
    congr 1
    omega
  · rw [show mid + 1 - max minMatch (source + 1) = 0 by omega, List.range'_zero, nil_append,
      show max minMatch (mid + 1) = max minMatch (source + 1) by omega]

/-- Tokens behind a window do not change its hash. -/
theorem recordEnds_append {more : List Token} {ends : List Nat}
    (hends : ∀ e ∈ ends, e ≤ hist.length) (index : Table Hash (List Nat)) :
    recordEnds minMatch (hist ++ more) ends index = recordEnds minMatch hist ends index := by
  refine foldl_ext _ _ _ fun index e he => ?_
  have hhash : gramHashAt minMatch (hist ++ more) e = gramHashAt minMatch hist e := by
    rw [gramHashAt, gramHashAt, window_append more (hends e he)]
  rw [hhash]

section

theorem append_nil : s.append [] = s := rfl

/-- Two `append` calls do what one does. The windows of the first are not changed by the second,
and a window that straddles the two is recorded by the second. -/
theorem append_append (toks more : List Token) :
    (s.append toks).append more = s.append (toks ++ more) := by
  by_cases htoks : toks = []
  · rw [htoks, append_nil, nil_append]
  by_cases hmore : more = []
  · rw [hmore, append_nil, List.append_nil]
  have hboth : toks ++ more ≠ [] := fun hnil => htoks (append_eq_nil_iff.mp hnil).1
  have hends : ∀ e ∈ newEnds s.minMatch s.hist.length (s.hist ++ toks).length,
      e ≤ (s.hist ++ toks).length := by
    intro e he
    rw [newEnds, mem_range'_1] at he
    omega
  have hsplit := newEnds_split s.minMatch (show s.hist.length ≤ (s.hist ++ toks).length by simp)
    (show (s.hist ++ toks).length ≤ (s.hist ++ toks ++ more).length by simp)
  simp only [append, List.isEmpty_iff, htoks, hmore, hboth, if_false, ← append_assoc,
    SuffixDraftIndex.mk.injEq, true_and]
  have hcut : ∀ front back : List Token, (front ++ back).length - back.length = front.length := by
    simp
  rw [hcut, hcut, append_assoc s.hist, hcut, ← append_assoc, ← hsplit,
    ← recordEnds_append hends, recordEnds, recordEnds, recordEnds, List.foldl_append]

/-- However the history is cut into pieces, the index is the one of the whole history. -/
theorem foldl_append (chunks : List (List Token)) :
    chunks.foldl append s = s.append chunks.flatten := by
  induction chunks generalizing s with
  | nil => rfl
  | cons chunk chunks ih => rw [foldl_cons, ih, append_append, flatten_cons]

theorem hist_append (toks : List Token) : (s.append toks).hist = s.hist ++ toks := by
  rw [append]
  split
  next hnil => rw [List.isEmpty_iff.mp hnil, List.append_nil]
  next => rfl

end

/-! ### The voted walk -/

variable {s : SuffixDraftIndex} {cands : List Candidate} {i : Nat} {c : Candidate}

theorem mem_agreeing {tok : Token} :
    c ∈ s.agreeing cands i tok ↔ c ∈ cands ∧ s.hist[c.last + i]? = some tok := by
  simp [agreeing]

/-- One voter: the winner has a vote if it had one or if the voter goes on, and a winner with a vote
is a token that some candidate goes on with. -/
theorem ballot_spec (hc : c ∈ cands) (best : Vote) :
    (0 < best.votes ∨ c.last + i < s.hist.length → 0 < (s.ballot cands i best c).votes) ∧
      ((0 < best.votes → s.agreeing cands i best.tok ≠ []) →
        0 < (s.ballot cands i best c).votes →
          s.agreeing cands i (s.ballot cands i best c).tok ≠ []) := by
  unfold ballot
  cases htok : s.hist[c.last + i]? with
  | none =>
    have := List.getElem?_eq_none_iff.mp htok
    exact ⟨fun hpos => by dsimp only; omega, id⟩
  | some tok =>
    have hmem : c ∈ s.agreeing cands i tok := mem_agreeing.mpr ⟨hc, htok⟩
    have hvotes := length_pos_of_mem hmem
    dsimp only
    split
    · exact ⟨fun _ => hvotes, fun _ _ => ne_nil_of_mem hmem⟩
    next hlost => exact ⟨fun _ => by omega, id⟩

/-- A vote with a voter is won by a token that some candidate goes on with. -/
theorem exists_agreeing (hvoter : ∃ c ∈ cands, c.last + i < s.hist.length) :
    s.agreeing cands i (cands.foldl (s.ballot cands i) {}).tok ≠ [] := by
  obtain ⟨c, hc, hlt⟩ := hvoter
  obtain ⟨before, after, hsplit⟩ := append_of_mem hc
  have hpos : 0 < (cands.foldl (s.ballot cands i) {}).votes := by
    rw [congrArg (foldl (s.ballot cands i) {}) hsplit, List.foldl_append, foldl_cons]
    refine foldlRecOn (motive := fun best : Vote => 0 < best.votes) after _
      ((ballot_spec hc _).1 (.inr hlt)) fun best hbest d hd => ?_
    exact (ballot_spec (by simp [hsplit, hd]) best).1 (.inl hbest)
  refine foldlRecOn (motive := fun best : Vote => 0 < best.votes →
    s.agreeing cands i best.tok ≠ []) cands _ (fun h => absurd h (lt_irrefl 0)) ?_ hpos
  exact fun best hbest d hd => (ballot_spec hd best).2 hbest

/-- What the walk has drafted stands behind every candidate that is left. -/
theorem walk_copied (k rounds : Nat) (out : List Token) (repEnd : Int) (hne : cands ≠ [])
    (hcopied : ∀ c ∈ cands, (s.hist.drop c.last).take i = out ∧ c.last + i ≤ s.hist.length)
    (hlength : out.length = i) : let result := (s.walk k rounds i cands out repEnd).1
    result.length ≤ i + rounds ∧ ∃ c ∈ cands, (s.hist.drop c.last).take result.length = result ∧
      c.last + result.length ≤ s.hist.length := by
  have hhere : out.length ≤ i + rounds ∧ ∃ c ∈ cands,
      (s.hist.drop c.last).take out.length = out ∧ c.last + out.length ≤ s.hist.length := by
    obtain ⟨c, hc⟩ := exists_mem_of_ne_nil cands hne
    exact ⟨by omega, c, hc, hlength.symm ▸ hcopied c hc⟩
  induction rounds generalizing i cands out repEnd with
  | zero => exact hhere
  | succ rounds ih =>
    unfold walk
    dsimp only
    split
    · exact hhere
    next hvoters =>
      split
      · exact hhere
      · have hvoter : ∃ c ∈ cands, c.last + i < s.hist.length := by
          obtain ⟨c, hc, hlt⟩ := countP_pos_iff.mp (Nat.pos_of_ne_zero hvoters)
          exact ⟨c, hc, of_decide_eq_true hlt⟩
        have hleft := exists_agreeing hvoter
        generalize cands.foldl (s.ballot cands i) {} = best at hleft ⊢
        have hcopied' : ∀ c ∈ s.agreeing cands i best.tok,
            (s.hist.drop c.last).take (i + 1) = out ++ [best.tok] ∧
              c.last + (i + 1) ≤ s.hist.length := by
          intro c hc
          obtain ⟨hmem, htok⟩ := mem_agreeing.mp hc
          obtain ⟨hlt, -⟩ := List.getElem?_eq_some_iff.mp htok
          rw [take_add_one, (hcopied c hmem).1, getElem?_drop, htok]
          exact ⟨rfl, by omega⟩
        have hlength' : (out ++ [best.tok]).length = i + 1 := by
          rw [length_append, hlength, length_singleton]
        obtain ⟨hle, c, hc, hresult⟩ := ih (out ++ [best.tok]) _ hleft hcopied' hlength' (by
          obtain ⟨c, hc⟩ := exists_mem_of_ne_nil _ hleft
          exact ⟨by omega, c, hc, hlength'.symm ▸ hcopied' c hc⟩)
        exact ⟨by omega, c, (mem_agreeing.mp hc).1, hresult⟩

/-- Only earlier occurrences of the last tokens are candidates. -/
theorem recurs_of_candidate (hlong : s.minMatch < s.hist.length) (h : c ∈ s.candidates) :
    Recurs s.hist s.minMatch c.last := by
  obtain ⟨e, he, rfl⟩ := mem_map.mp h
  obtain ⟨-, hcond⟩ := mem_filter.mp he
  obtain ⟨hlt, hwindow⟩ := Bool.and_eq_true_iff.mp hcond
  have hlt := of_decide_eq_true hlt
  have hwindow := eq_of_beq hwindow
  refine ⟨⟨?_, hwindow⟩, hlt⟩
  have hlength := congrArg List.length hwindow
  simp only [window, length_drop, length_take] at hlength
  dsimp only
  omega

/-- The index does not depend on how the history arrived, and a draft that is not empty stands in
the history behind an earlier occurrence of the last tokens. -/
theorem suffixDraft_exact (minMatch maxMatch : Int) (chunks : List (List Token)) (k kMax : Int) :
    let s := chunks.foldl append (new minMatch maxMatch)
    s = (new minMatch maxMatch).append chunks.flatten ∧ s.hist = chunks.flatten ∧
      ((s.draft k kMax).1 = [] ∨ (s.draft k kMax).1.length ≤ max k kMax ∧
        ∃ e, Recurs s.hist s.minMatch e ∧ e + (s.draft k kMax).1.length ≤ s.hist.length ∧
          (s.hist.drop e).take (s.draft k kMax).1.length = (s.draft k kMax).1) := by
  intro s
  refine ⟨foldl_append _ _, (congrArg hist (foldl_append _ _)).trans (hist_append _ _), ?_⟩
  generalize s = t
  unfold draft
  split
  · exact .inl rfl
  next hguard =>
    by_cases hnone : t.candidates = []
    · left
      cases hrounds : (max k kMax).toNat with
      | zero => simp [walk]
      | succ rounds => simp [walk, hnone]
    · obtain ⟨hle, c, hc, hcopied, hend⟩ := walk_copied (i := 0) k.toNat (max k kMax).toNat [] (-1)
        hnone (fun c hc => ⟨rfl, le_of_lt (recurs_of_candidate (by omega) hc).2⟩) rfl
      generalize t.walk k.toNat (max k kMax).toNat 0 t.candidates [] (-1) = result at *
      obtain ⟨out, repEnd⟩ := result
      dsimp only at hle hend hcopied ⊢
      split
      · exact .inl rfl
      · dsimp only
        exact .inr ⟨by omega, c.last, recurs_of_candidate (by omega) hc, hend, hcopied⟩

end SuffixDraftIndex

end Quench

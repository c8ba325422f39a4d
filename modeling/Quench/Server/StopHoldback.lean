import Mathlib.Data.List.Fold
import Mathlib.Data.List.MinMax
import Quench.Lib.Search
import Quench.Lib.Utf8

/-!
# Stop sequences in a stream

`utf8_complete_len` and `holdback_decision` of `tools/quench-server/stream_pipeline.h`, and the
plain-content path of `run_stream_loop_`. Text is held back as long as it may be the start of a stop
sequence. The decision sees only the text that is held.

`plainContent_exact` shows that this is enough: every stop that occurs later starts in the text that
is held (`starts_in_held`), so the output is cut where the whole text would be.
-/

namespace Quench.Stream

open Lib List

variable {rest s : List UInt8}

/-- The walk back from an index over continuation bytes. -/
def walkBack (s : List UInt8) : Nat → Nat
  | 0 => 0
  | i + 1 => if isContinuation (s.getD (i + 1) 0) then walkBack s i else i + 1

/-- `utf8_complete_len`. -/
def utf8CompleteLen (s : List UInt8) : Nat :=
  if s.length = 0 then 0
  else
    let i := walkBack s (s.length - 1)
    match charLength (s.getD i 0) with
    | none => i
    | some expected => if i + expected ≤ s.length then s.length else i

structure HoldbackDecision where
  completeMatch : Bool
  flushLen : Nat

/-- The position of the first listed stop that occurs. -/
def findStop (pending : List UInt8) : List (List UInt8) → Option Nat
  | [] => none
  | stop :: stops =>
    if stop = [] then findStop pending stops
    else
      match find stop pending with
      | some pos => some pos
      | none => findStop pending stops

/-- `holdback_decision`. -/
def holdbackDecision (pending : List UInt8) (maxStopLen : Nat) (stops : List (List UInt8)) :
    HoldbackDecision :=
  match findStop pending stops with
  | some pos => ⟨true, pos⟩
  | none =>
    if maxStopLen < pending.length then
      ⟨false, utf8CompleteLen (pending.take (min (pending.length - maxStopLen + 1) pending.length))⟩
    else ⟨false, 0⟩

variable (stops : List (List UInt8))

/-- `max_stop_len`. -/
def maxStopLen : Nat :=
  stops.foldl (fun len stop => max len stop.length) 0

/-- The texts that are emitted for some pieces, and the rest at the end. -/
def plainContent (stops : List (List UInt8)) : List UInt8 → List (List UInt8) → List (List UInt8)
  | pending, [] => [pending]
  | pending, piece :: pieces =>
    let decision := holdbackDecision (pending ++ piece) (maxStopLen stops) stops
    let sent := (pending ++ piece).take decision.flushLen
    if decision.completeMatch then [sent]
    else sent :: plainContent stops ((pending ++ piece).drop decision.flushLen) pieces

/-! ## What the output is -/

/-- A stop occurs in a text. -/
def Occurs (text : List UInt8) : Prop :=
  ∃ stop ∈ stops, stop ≠ [] ∧ ∃ q, OccursAt stop text q

/-- The text is cut at the first occurrence of the first listed stop that occurs in it. -/
def CutAt (text out : List UInt8) : Prop :=
  ∃ before stop after q, stops = before ++ stop :: after ∧ stop ≠ [] ∧
    (∀ other ∈ before, other ≠ [] → ∀ p, ¬ OccursAt other text p) ∧
    OccursAt stop text q ∧ (∀ p, OccursAt stop text p → q ≤ p) ∧ out = text.take q

variable {stops : List (List UInt8)} {pending piece sent text : List UInt8}
variable {pos q : Nat} {stop : List UInt8} {pieces : List (List UInt8)}

/-- The search in terms of the list's own. -/
theorem findStop_eq (pending : List UInt8) (stops : List (List UInt8)) : findStop pending stops =
    stops.findSome? fun stop => if stop = [] then none else find stop pending := by
  induction stops with
  | nil => rfl
  | cons stop stops ih =>
    rw [findStop, findSome?_cons, ih]
    split_ifs
    · rfl
    · cases find stop pending <;> rfl

theorem findStop_some (h : findStop pending stops = some pos) :
    ∃ before stop after, stops = before ++ stop :: after ∧ stop ≠ [] ∧
      find stop pending = some pos ∧ ∀ other ∈ before, other ≠ [] → find other pending = none := by
  rw [findStop_eq, findSome?_eq_some_iff] at h
  obtain ⟨before, stop, after, hstops, hfind, hbefore⟩ := h
  split_ifs at hfind with hne
  refine ⟨before, stop, after, hstops, hne, hfind, fun other hother hne => ?_⟩
  have hnone := hbefore other hother
  rwa [if_neg hne] at hnone

theorem findStop_none (h : findStop pending stops = none) :
    ∀ stop ∈ stops, stop ≠ [] → find stop pending = none := by
  rw [findStop_eq, findSome?_eq_none_iff] at h
  intro stop hstop hne
  have hnone := h stop hstop
  rwa [if_neg hne] at hnone

theorem length_le_maxStopLen (h : stop ∈ stops) : stop.length ≤ maxStopLen stops := by
  rw [maxStopLen, ← foldl_map, foldl_eq_foldr]
  exact le_max_of_le' 0 (mem_map_of_mem h) (le_refl stop.length)

/-! ## What is held is enough -/

/-- Enough is held for a stop that starts in it. -/
def Held (stops : List (List UInt8)) (sent pending : List UInt8) : Prop :=
  sent = [] ∨ maxStopLen stops ≤ pending.length + 1

/-- A stop that occurs only now starts in the text that is held. -/
theorem starts_in_held (hheld : Held stops sent pending) (hnone : ¬ Occurs stops (sent ++ pending))
    (hstop : stop ∈ stops) (hne : stop ≠ []) (h : OccursAt stop (sent ++ pending ++ piece) q) :
    sent.length ≤ q := by
  by_contra hlt
  have hmax := length_le_maxStopLen hstop
  rcases hheld with rfl | hheld
  · exact hlt (Nat.zero_le q)
  · refine hnone ⟨stop, hstop, hne, q, h.of_append ?_⟩
    rw [length_append]
    omega

theorem occursAt_held (hheld : Held stops sent pending) (hnone : ¬ Occurs stops (sent ++ pending))
    (hstop : stop ∈ stops) (hne : stop ≠ []) :
    OccursAt stop (sent ++ pending ++ piece) q ↔
      ∃ p, q = sent.length + p ∧ OccursAt stop (pending ++ piece) p := by
  constructor
  · intro h
    obtain ⟨p, rfl⟩ := Nat.exists_eq_add_of_le (starts_in_held hheld hnone hstop hne h)
    rw [append_assoc, occursAt_append_left] at h
    exact ⟨p, rfl, h⟩
  · rintro ⟨p, rfl, h⟩
    rw [append_assoc, occursAt_append_left]
    exact h

section

variable (s : List UInt8)

theorem walkBack_le (i : Nat) : walkBack s i ≤ i := by
  induction i with
  | zero => exact le_rfl
  | succ i ih =>
    rw [walkBack]
    split_ifs
    · omega
    · exact le_rfl

theorem utf8CompleteLen_le : utf8CompleteLen s ≤ s.length := by
  have := walkBack_le s (s.length - 1)
  unfold utf8CompleteLen
  dsimp only
  split
  · omega
  · split
    · omega
    · split_ifs <;> omega

/-- What is decided without a match. -/
theorem holdbackDecision_none (h : findStop pending stops = none) :
    (holdbackDecision pending (maxStopLen stops) stops).completeMatch = false ∧
      ∃ safe ≤ pending.length, (safe = 0 ∨ maxStopLen stops ≤ pending.length - safe + 1) ∧
        (holdbackDecision pending (maxStopLen stops) stops).flushLen =
          utf8CompleteLen (pending.take safe) := by
  unfold holdbackDecision
  rw [h]
  split_ifs with hlong
  · refine ⟨rfl, _, min_le_right _ _, .inr ?_, rfl⟩
    omega
  · exact ⟨rfl, 0, Nat.zero_le _, .inl rfl, rfl⟩

/-- The decision keeps enough. -/
theorem Held.flush {n safe : Nat} (hheld : Held stops sent pending)
    (hsafe : safe = 0 ∨ maxStopLen stops ≤ (pending ++ piece).length - safe + 1) (hn : n ≤ safe) :
    Held stops (sent ++ (pending ++ piece).take n) ((pending ++ piece).drop n) := by
  unfold Held at *
  rw [length_drop]
  rcases hsafe with rfl | hsafe
  · obtain rfl := Nat.le_zero.mp hn
    rw [take_zero, append_nil, length_append]
    exact hheld.imp_right fun h => by omega
  · exact .inr (by omega)

/-- A match in what is held is the cut of the whole text. -/
theorem cutAt_of_findStop (hheld : Held stops sent pending)
    (hnone : ¬ Occurs stops (sent ++ pending)) (h : findStop (pending ++ piece) stops = some pos) :
    CutAt stops (sent ++ pending ++ piece) (sent ++ (pending ++ piece).take pos) := by
  obtain ⟨before, stop, after, rfl, hne, hfind, hbefore⟩ := findStop_some h
  obtain ⟨hoccurs, hfirst⟩ := find_eq_some hfind
  have hstop : stop ∈ before ++ stop :: after := by simp
  refine ⟨before, stop, after, sent.length + pos, rfl, hne, ?_, ?_, ?_, ?_⟩
  · intro other hother hother_ne p hp
    obtain ⟨p', _, hp'⟩ :=
      (occursAt_held hheld hnone (mem_append_left _ hother) hother_ne).mp hp
    exact find_eq_none (hbefore other hother hother_ne) p' hp'
  · exact (occursAt_held hheld hnone hstop hne).mpr ⟨pos, rfl, hoccurs⟩
  · intro p hp
    obtain ⟨p', rfl, hp'⟩ := (occursAt_held hheld hnone hstop hne).mp hp
    exact Nat.add_le_add_left (hfirst p' hp') _
  · rw [append_assoc, take_length_add_append]

theorem not_occurs_of_none (h : findStop text stops = none) : ¬ Occurs stops text := by
  rintro ⟨stop, hstop, hne, q, hq⟩
  exact find_eq_none (findStop_none h stop hstop hne) q hq

/-- Without a match in what is held, there is none in the whole text. -/
theorem not_occurs_of_findStop (hheld : Held stops sent pending)
    (hnone : ¬ Occurs stops (sent ++ pending)) (h : findStop (pending ++ piece) stops = none) :
    ¬ Occurs stops (sent ++ pending ++ piece) := by
  rintro ⟨stop, hstop, hne, q, hq⟩
  obtain ⟨p, _, hp⟩ := (occursAt_held hheld hnone hstop hne).mp hq
  exact not_occurs_of_none h ⟨stop, hstop, hne, p, hp⟩

theorem CutAt.occurs {out : List UInt8} (h : CutAt stops text out) : Occurs stops text := by
  obtain ⟨before, stop, after, q, rfl, hne, _, hq, _⟩ := h
  exact ⟨stop, by simp, hne, q, hq⟩

/-- The round of a piece, in terms of the search. -/
theorem plainContent_match (h : findStop (pending ++ piece) stops = some pos) :
    plainContent stops pending (piece :: pieces) = [(pending ++ piece).take pos] := by
  rw [plainContent, holdbackDecision, h]
  rfl

/-- The round of a piece without a match: some text is sent, and enough is held. -/
theorem plainContent_flush (pieces : List (List UInt8))
    (h : findStop (pending ++ piece) stops = none) :
    ∃ safe ≤ (pending ++ piece).length,
      (safe = 0 ∨ maxStopLen stops ≤ (pending ++ piece).length - safe + 1) ∧
      plainContent stops pending (piece :: pieces) =
        (pending ++ piece).take (utf8CompleteLen ((pending ++ piece).take safe)) ::
          plainContent stops
            ((pending ++ piece).drop (utf8CompleteLen ((pending ++ piece).take safe))) pieces := by
  obtain ⟨hmatch, safe, hle, hsafe, hflush⟩ := holdbackDecision_none h
  refine ⟨safe, hle, hsafe, ?_⟩
  rw [plainContent, hmatch, hflush]
  rfl

theorem utf8CompleteLen_take_le (safe : Nat) : utf8CompleteLen (s.take safe) ≤ safe :=
  (utf8CompleteLen_le _).trans (length_take_le safe s)

/-- The output from a state in which nothing was found: the text up to the first piece with which a
stop occurs is cut, or all of it is sent. -/
theorem plainContent_output (pieces : List (List UInt8)) (hheld : Held stops sent pending)
    (hnone : ¬ Occurs stops (sent ++ pending)) :
    (∃ k < pieces.length,
      (∀ j ≤ k, ¬ Occurs stops (sent ++ pending ++ (pieces.take j).flatten)) ∧
      CutAt stops (sent ++ pending ++ (pieces.take (k + 1)).flatten)
        (sent ++ (plainContent stops pending pieces).flatten)) ∨
    (∀ k, ¬ Occurs stops (sent ++ pending ++ (pieces.take k).flatten)) ∧
      sent ++ (plainContent stops pending pieces).flatten = sent ++ pending ++ pieces.flatten := by
  induction pieces generalizing sent pending with
  | nil =>
    refine .inr ⟨fun k => ?_, ?_⟩
    · rwa [take_nil, flatten_nil, append_nil]
    · rw [plainContent, flatten_singleton, flatten_nil, append_nil]
  | cons piece pieces ih =>
    cases hfind : findStop (pending ++ piece) stops with
    | some pos =>
      refine .inl ⟨0, Nat.succ_pos _, fun j hj => ?_, ?_⟩
      · obtain rfl := Nat.le_zero.mp hj
        rwa [take_zero, flatten_nil, append_nil]
      · rw [plainContent_match hfind, take_succ_cons, take_zero, flatten_singleton,
          flatten_singleton]
        exact cutAt_of_findStop hheld hnone hfind
    | none =>
      obtain ⟨safe, _, hsafe, hround⟩ := plainContent_flush pieces hfind
      have hkeeps := hheld.flush hsafe (utf8CompleteLen_take_le (pending ++ piece) safe)
      generalize utf8CompleteLen ((pending ++ piece).take safe) = n at *
      have htext : sent ++ (pending ++ piece).take n ++ (pending ++ piece).drop n =
          sent ++ pending ++ piece := by
        rw [append_assoc, take_append_drop, append_assoc]
      have hrest := ih hkeeps (by
        rw [htext]
        exact not_occurs_of_findStop hheld hnone hfind)
      have hmore : ∀ k, (∀ j, j + 1 ≤ k → ¬ Occurs stops (sent ++ pending ++ piece ++
          (pieces.take j).flatten)) →
          ¬ Occurs stops (sent ++ pending ++ ((piece :: pieces).take k).flatten)
        | 0, _ => by rwa [take_zero, flatten_nil, append_nil]
        | k + 1, h => by
          rw [take_succ_cons, flatten_cons, ← append_assoc]
          exact h k (le_rfl)
      rw [htext] at hrest
      rw [hround, flatten_cons, ← append_assoc]
      refine hrest.imp ?_ ?_
      · rintro ⟨k, hk, hbefore, hcut⟩
        refine ⟨k + 1, Nat.succ_lt_succ hk, fun j hj => hmore j fun i hi => ?_, ?_⟩
        · exact hbefore i (Nat.le_of_succ_le_succ (hi.trans hj))
        · rw [take_succ_cons, flatten_cons, ← append_assoc]
          exact hcut
      · rintro ⟨hall, hwhole⟩
        refine ⟨fun k => hmore k fun j _ => hall j, ?_⟩
        rw [hwhole, flatten_cons, ← append_assoc]

/-! ## What is sent ends between characters -/

theorem walkBack_spec (i : Nat) :
    (∀ m, walkBack s i < m → m ≤ i → isContinuation (s.getD m 0) = true) ∧
      (walkBack s i = 0 ∨ isContinuation (s.getD (walkBack s i) 0) = false) := by
  induction i with
  | zero => exact ⟨fun m hm hle => absurd hm (Nat.not_lt.mpr hle), .inl rfl⟩
  | succ i ih =>
    rw [walkBack]
    split_ifs with hcontinuation
    · refine ⟨fun m hm hle => ?_, ih.2⟩
      rcases lt_or_ge i m with hlt | hge
      · obtain rfl : m = i + 1 := by omega
        exact hcontinuation
      · exact ih.1 m hm hge
    · refine ⟨fun m hm hle => absurd hm (Nat.not_lt.mpr hle), .inr ?_⟩
      exact Bool.not_eq_true _ ▸ hcontinuation

end

/-- A byte of a part of a text. -/
theorem getElem?_part (htext : text = sent ++ s ++ rest) {i : Nat}
    (hi : i < s.length) : text[sent.length + i]? = some (s.getD i 0) := by
  rw [htext, append_assoc, getElem?_append_right (by omega), Nat.add_sub_cancel_left,
    getElem?_append_left hi, getD_eq_getElem?_getD, getElem?_eq_getElem hi]
  rfl

/-- The end of the complete characters of a part is a boundary of the text. -/
theorem boundary_completeLen (htext : text = sent ++ s ++ rest)
    (hstart : Boundary text sent.length) : Boundary text (sent.length + utf8CompleteLen s) := by
  unfold utf8CompleteLen
  split_ifs with hempty
  · exact hstart
  · have hle := walkBack_le s (s.length - 1)
    obtain ⟨htail, hstop⟩ := walkBack_spec s (s.length - 1)
    dsimp only
    generalize walkBack s (s.length - 1) = i at *
    have hi : i < s.length := by omega
    have hbyte := getElem?_part htext hi
    have hback : Boundary text (sent.length + i) := by
      rcases hstop with rfl | hlead
      · exact hstart
      · exact boundary_of_not_continuation hbyte hlead
    split
    · exact hback
    · rename_i size hsize
      split_ifs with hcomplete
      · refine boundary_of_complete hbyte hsize (by omega) fun q hq hend => ?_
        obtain ⟨m, rfl⟩ := Nat.exists_eq_add_of_le (le_of_lt (lt_of_le_of_lt
          (Nat.le_add_right _ _) hq))
        exact ⟨_, getElem?_part htext (by omega), htail m (by omega) (by omega)⟩
      · exact hback

/-- A stop of whole characters starts at a boundary. -/
theorem boundary_of_occursAt (hne : stop ≠ []) (hchars : ∃ chars, stop = encode chars)
    (h : OccursAt stop text q) : Boundary text q := by
  obtain ⟨chars, rfl⟩ := hchars
  cases chars with
  | nil => exact absurd rfl hne
  | cons c chars =>
    obtain ⟨lead, tail, hchar, hsize, _⟩ := encodeChar_eq c
    obtain ⟨rest, hrest⟩ := h
    have hbyte : text[q]? = some lead := by
      rw [encode_cons, hchar, append_assoc, cons_append] at hrest
      rw [← Nat.add_zero q, ← getElem?_drop, ← hrest]
      rfl
    refine boundary_of_not_continuation hbyte ?_
    rw [← Bool.not_eq_true]
    intro hcontinuation
    rw [charLength_continuation hcontinuation] at hsize
    cases hsize

/-- A text in the middle is cut in two. -/
theorem append_take_drop (first middle last : List UInt8) (n : Nat) :
    first ++ middle ++ last = first ++ middle.take n ++ (middle.drop n ++ last) := by
  rw [append_assoc first, append_assoc first, ← append_assoc (middle.take n),
    take_append_drop]

/-- What is sent up to some emission is the start of the text, up to a boundary. -/
theorem plainContent_sent (hstops : ∀ stop ∈ stops, ∃ chars, stop = encode chars)
    (htext : text = sent ++ pending ++ pieces.flatten) (hstart : Boundary text sent.length)
    {out : List (List UInt8)} (hout : out <+: plainContent stops pending pieces) :
    sent ++ out.flatten <+: text ∧ Boundary text (sent ++ out.flatten).length := by
  -- before the first emission
  have hnothing : sent ++ ([] : List (List UInt8)).flatten <+: text ∧
      Boundary text (sent ++ ([] : List (List UInt8)).flatten).length := by
    rw [flatten_nil, append_nil]
    exact ⟨⟨pending ++ pieces.flatten, by rw [htext, append_assoc]⟩, hstart⟩
  induction pieces generalizing sent pending out with
  | nil =>
    rcases prefix_cons_iff.mp hout with rfl | ⟨tail, rfl, htail⟩
    · exact hnothing
    · obtain rfl := prefix_nil.mp htail
      obtain rfl : text = sent ++ [pending].flatten := by simp [htext]
      exact ⟨prefix_rfl, boundary_of_length_le (le_rfl)⟩
  | cons piece pieces ih =>
    rw [flatten_cons, ← append_assoc, append_assoc sent] at htext
    cases hfind : findStop (pending ++ piece) stops with
    | some pos =>
      rw [plainContent_match hfind] at hout
      rcases prefix_cons_iff.mp hout with rfl | ⟨tail, rfl, htail⟩
      · exact hnothing
      · obtain rfl := prefix_nil.mp htail
        obtain ⟨before, stop, after, rfl, hne, hpos, _⟩ := findStop_some hfind
        have hoccurs := (find_eq_some hpos).1
        have hle : pos ≤ (pending ++ piece).length := by
          by_contra hgt
          rw [OccursAt, drop_eq_nil_of_le (by omega)] at hoccurs
          exact hne (prefix_nil.mp hoccurs)
        have hwhole : OccursAt stop text (sent.length + pos) := by
          rw [htext, append_assoc sent, occursAt_append_left]
          exact hoccurs.append hle _
        rw [flatten_singleton]
        refine ⟨⟨_, (htext.trans (append_take_drop _ _ _ pos)).symm⟩, ?_⟩
        rw [length_append, length_take, min_eq_left hle]
        exact boundary_of_occursAt hne (hstops stop (by simp)) hwhole
    | none =>
      obtain ⟨safe, _, _, hround⟩ := plainContent_flush pieces hfind
      rw [hround] at hout
      rcases prefix_cons_iff.mp hout with rfl | ⟨tail, rfl, htail⟩
      · exact hnothing
      · have hnext :=
          boundary_completeLen (htext.trans (append_take_drop _ _ _ safe)) hstart
        have hle : utf8CompleteLen ((pending ++ piece).take safe) ≤ (pending ++ piece).length :=
          (utf8CompleteLen_le _).trans (length_take_le' _ _)
        generalize utf8CompleteLen ((pending ++ piece).take safe) = n at *
        have hsent : (sent ++ (pending ++ piece).take n).length = sent.length + n := by
          rw [length_append, length_take, min_eq_left hle]
        have hcut := htext.trans (append_take_drop _ _ _ n)
        rw [flatten_cons, ← append_assoc]
        refine ih (hcut.trans (append_assoc _ _ _).symm) (by rwa [hsent]) htail ⟨?_, ?_⟩
        · rw [flatten_nil, append_nil]
          exact ⟨_, hcut.symm⟩
        · rwa [flatten_nil, append_nil, hsent]

/-- The output is the text cut at the first stop that is found, or the whole text, and what is sent
on the way ends between characters. -/
theorem plainContent_exact (hstops : ∀ stop ∈ stops, ∃ chars, stop = encode chars)
    (pieces : List (List UInt8)) :
    (∀ k, Occurs stops (pieces.take k).flatten →
      (∀ j < k, ¬ Occurs stops (pieces.take j).flatten) →
      CutAt stops (pieces.take k).flatten (plainContent stops [] pieces).flatten) ∧
    ((∀ k ≤ pieces.length, ¬ Occurs stops (pieces.take k).flatten) →
      (plainContent stops [] pieces).flatten = pieces.flatten) ∧
    ∀ out, out <+: plainContent stops [] pieces →
      Boundary pieces.flatten out.flatten.length ∧
        ∀ chars, pieces.flatten = encode chars →
          ∃ count, out.flatten = encode (chars.take count) := by
  have hempty : ¬ Occurs stops ([] ++ []) := by
    rintro ⟨stop, _, hne, q, hq⟩
    rw [append_nil, OccursAt, drop_nil] at hq
    exact hne (prefix_nil.mp hq)
  have houtput := plainContent_output pieces (.inl rfl) hempty
  refine ⟨fun k hoccurs hfirst => ?_, fun hnone => ?_, fun out hout => ?_⟩
  · rcases houtput with ⟨k', _, hbefore, hcut⟩ | ⟨hall, _⟩
    · obtain rfl : k = k' + 1 := by
        by_contra hk
        rcases Nat.lt_or_gt_of_ne hk with hlt | hgt
        · exact hbefore k (Nat.le_of_lt_succ hlt) hoccurs
        · exact hfirst (k' + 1) hgt hcut.occurs
      exact hcut
    · exact absurd hoccurs (hall k)
  · rcases houtput with ⟨k, hk, _, hcut⟩ | ⟨_, hwhole⟩
    · exact absurd hcut.occurs (hnone (k + 1) hk)
    · exact hwhole
  · have htext : pieces.flatten = [] ++ [] ++ pieces.flatten := rfl
    obtain ⟨hsent, hboundary⟩ : out.flatten <+: pieces.flatten ∧
        Boundary pieces.flatten out.flatten.length :=
      plainContent_sent hstops htext (boundary_zero _) hout
    refine ⟨hboundary, fun chars hchars => ?_⟩
    have htake : out.flatten = pieces.flatten.take out.flatten.length :=
      prefix_iff_eq_take.mp hsent
    rw [hchars] at hboundary
    obtain ⟨count, hcount⟩ := take_encode hboundary
    exact ⟨count, by rw [htake, hchars, hcount]⟩

/-- The text `gröSTOPa` in three pieces: the umlaut is kept whole, and the stop is found across
pieces. -/
theorem plainContent_exact_umlaut :
    plainContent [encode ['S', 'T', 'O', 'P']] [] [encode ['g', 'r', 'ö', 'S'], encode ['T', 'O'],
        encode ['P', 'a']] = [encode ['g', 'r'], encode ['ö'], []] ∧
      CutAt [encode ['S', 'T', 'O', 'P']] (encode ['g', 'r', 'ö', 'S', 'T', 'O', 'P', 'a'])
        (encode ['g', 'r', 'ö']) := by
  have hstops : ∀ stop ∈ [encode ['S', 'T', 'O', 'P']], ∃ chars, stop = encode chars :=
    fun stop hstop => ⟨_, mem_singleton.mp hstop⟩
  have hnone : ∀ j < 3, ¬ Occurs [encode ['S', 'T', 'O', 'P']] (([encode ['g', 'r', 'ö', 'S'],
      encode ['T', 'O'], encode ['P', 'a']].take j).flatten) := by
    intro j hj
    refine not_occurs_of_none ?_
    revert j
    decide
  refine ⟨by decide, ?_⟩
  refine (plainContent_exact hstops [encode ['g', 'r', 'ö', 'S'], encode ['T', 'O'],
    encode ['P', 'a']]).1 3 ⟨_, mem_singleton_self _, by decide, 4, ?_⟩ hnone
  exact ⟨encode ['a'], by decide⟩

end Quench.Stream

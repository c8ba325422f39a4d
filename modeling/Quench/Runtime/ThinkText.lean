import Quench.Lib.Search
import Quench.Runtime.ThinkStop

/-!
# Think markers in text

`TextThinkState` of `think_stop_logic.h` reads the decoded pieces of the output through a window and
follows the markers `<think>` and `</think>` in it. `think_flag_of_text` says when the flag is the
one of the text after every piece, and `think_flag_of_pieces` shows that otherwise it depends on the
pieces.
-/

namespace Quench

open Lib List

variable {pieces : List Bytes}

theorem Bytes.has_iff {text marker : Bytes} : Bytes.has text marker = true ↔ marker <:+: text := by
  rw [Bytes.has, any_eq_true]
  constructor
  · rintro ⟨tail, htail, hmarker⟩
    exact (List.isPrefixOf_iff_prefix.mp hmarker).isInfix.trans
      ((mem_tails _ _).mp htail).isInfix
  · rintro ⟨before, after, rfl⟩
    refine ⟨marker ++ after, (mem_tails _ _).mpr ?_, ?_⟩
    · rw [append_assoc]
      exact suffix_append _ _
    · exact isPrefixOf_iff_prefix.mpr (prefix_append _ _)

/-! ## The text as a whole -/

/-- The flag once these bytes were seen: the end of a marker sets it. -/
def flagAt (flag : Bool) (seen : Bytes) : Bool :=
  if thinkOpen <:+ seen then true else if thinkClose <:+ seen then false else flag

/-- The flag after a text, read byte by byte behind what was seen. -/
def scanThink (flag : Bool) (seen : Bytes) : Bytes → Bool
  | [] => flag
  | c :: text => scanThink (flagAt flag (seen ++ [c])) (seen ++ [c]) text

namespace TextThinkState

variable {flag start after : Bool} {seen text more past behind piece w : Bytes}

theorem scanThink_append : scanThink flag seen (text ++ more) =
    scanThink (scanThink flag seen text) (seen ++ text) more := by
  induction text generalizing flag seen with
  | nil => rw [nil_append, append_nil, scanThink]
  | cons c text ih => rw [cons_append, scanThink, scanThink, ih, append_assoc, singleton_append]

/-- The end of an opener sets the flag. -/
theorem scanThink_open : scanThink flag [] (text ++ thinkOpen) = true := by
  have hsplit : thinkOpen = thinkOpen.dropLast ++ [62] := rfl
  rw [hsplit, ← append_assoc, scanThink_append, scanThink, scanThink, flagAt, if_pos]
  rw [nil_append, append_assoc]
  exact suffix_append _ _

/-- A flag that is set stays so unless a close marker ends. -/
theorem scanThink_stays (h : ∀ n < text.length, ¬ thinkClose <:+ seen ++ text.take (n + 1)) :
    scanThink true seen text = true := by
  induction text generalizing seen with
  | nil => rfl
  | cons c text ih =>
    have hfirst : ¬ thinkClose <:+ seen ++ [c] := h 0 (Nat.zero_lt_succ _)
    rw [scanThink, flagAt, if_neg hfirst, ite_self]
    refine ih fun n hn => ?_
    rw [append_assoc]
    exact h (n + 1) (Nat.succ_lt_succ hn)

/-- Where the flag is not set behind an opener, a close marker follows. -/
theorem close_of_scanThink (h : scanThink flag [] (text ++ thinkOpen ++ more) = false) :
    thinkClose <:+: thinkOpen ++ more := by
  rw [scanThink_append, scanThink_open, nil_append] at h
  by_contra hnone
  rw [scanThink_stays fun n hn hend => hnone ?_] at h
  · cases h
  · have hlength : thinkClose.length ≤ (thinkOpen ++ more.take (n + 1)).length := by
      rw [length_append, length_take]
      have : thinkClose.length = thinkOpen.length + 1 := rfl
      omega
    rw [append_assoc] at hend
    have hwithin := suffix_of_suffix_length_le hend (suffix_append _ _) hlength
    exact hwithin.isInfix.trans (prefix_append_right_inj _ |>.mpr ( take_prefix _ _)).isInfix

/-! ## What the window shows -/

/-- The window is cleared, and the flag changes. -/
def turns (flag : Bool) (w : Bytes) : Bool :=
  if flag then Bytes.has w thinkClose else Bytes.has w thinkOpen && !Bytes.has w thinkClose

/-- What the window has to show, for the flags of the text before and after a piece. -/
def Shown (w : Bytes) : (before after : Bool) → Prop
  | true, true => ¬ thinkClose <:+: w
  | true, false => thinkClose <:+: w
  | false, true => thinkOpen <:+: w ∧ ¬ thinkClose <:+: w
  | false, false => True

/-- Behind every piece, the window shows what it has to. It has the text behind the last piece over
which the flag changed. -/
def AllShown : Bool → Bytes → Bytes → List Bytes → Prop
  | _, _, _, [] => True
  | flag, past, behind, piece :: pieces =>
    let after := scanThink flag past piece
    Shown (Lib.window kWindow (behind ++ piece)) flag after ∧
      AllShown after (past ++ piece) (if after = flag then behind ++ piece else []) pieces

/-- In a text that leaves the flag unset, an opener in the window is followed by a close marker. -/
theorem shown_iff (hwithin : w <:+ past ++ piece) (hflag : scanThink start [] past = flag)
    (hafter : scanThink flag past piece = after) :
    Shown w flag after ↔ (turns flag w = true ↔ after ≠ flag) := by
  have hscan : scanThink start [] (past ++ piece) = after := by
    rw [scanThink_append, hflag, nil_append, hafter]
  cases flag <;> cases after
  · refine iff_of_true trivial (iff_of_false ?_ (not_not.mpr rfl))
    simp only [turns, Bool.false_eq_true, if_false, Bool.and_eq_true, Bool.not_eq_true',
      ← Bool.not_eq_true, Bytes.has_iff]
    rintro ⟨⟨first, rest, hopen⟩, hclose⟩
    obtain ⟨early, hearly⟩ := hwithin
    rw [← hearly, ← hopen, append_assoc first, ← append_assoc, ← append_assoc] at hscan
    refine hclose ((close_of_scanThink hscan).trans ⟨first, [], ?_⟩)
    rw [append_nil, ← append_assoc, hopen]
  all_goals simp [Shown, turns, Bytes.has_iff, ← Bool.not_eq_true]

/-- The pieces one after the other. -/
def feedPieces (ts : TextThinkState) (pieces : List Bytes) : TextThinkState :=
  pieces.foldl (fun ts piece => (ts.feedPiece piece).2) ts

theorem feedPiece_eq (hne : piece ≠ []) :
    (feedPiece ⟨flag, Lib.window kWindow behind⟩ piece).2 =
      if turns flag (Lib.window kWindow (behind ++ piece)) then ⟨!flag, []⟩
      else ⟨flag, Lib.window kWindow (behind ++ piece)⟩ := by
  have hempty : ¬ piece.isEmpty = true := fun hnil => hne (isEmpty_iff.mp hnil)
  rw [feedPiece, if_neg hempty, ← Lib.window_append]
  unfold turns
  cases flag <;> simp only [Bool.false_eq_true, if_false, if_true] <;>
    exact apply_ite Prod.snd _ _ _

/-- One piece: the flag is the one of the text if and only if the window shows what it has to, and
then the window goes on with it. -/
theorem feedPiece_flag (hwithin : behind <:+ past) (hflag : scanThink start [] past = flag)
    (hopen : flag = true → ¬ thinkClose <:+: Lib.window kWindow behind)
    (hafter : scanThink flag past piece = after) :
    ((feedPiece ⟨flag, Lib.window kWindow behind⟩ piece).2.inThinkBlock = after ↔
        Shown (Lib.window kWindow (behind ++ piece)) flag after) ∧
      ((feedPiece ⟨flag, Lib.window kWindow behind⟩ piece).2.inThinkBlock = after →
        (feedPiece ⟨flag, Lib.window kWindow behind⟩ piece).2 =
          ⟨after, Lib.window kWindow (if after = flag then behind ++ piece else [])⟩) := by
  by_cases hne : piece = []
  · subst hne
    obtain rfl : flag = after := hafter
    rw [append_nil, if_pos rfl]
    refine ⟨iff_of_true rfl ?_, fun _ => rfl⟩
    cases flag
    · trivial
    · exact hopen rfl
  · have hw : Lib.window kWindow (behind ++ piece) <:+ past ++ piece :=
      (drop_suffix _ _).trans (suffix_append_self_iff.mpr hwithin)
    rw [shown_iff hw hflag hafter, feedPiece_eq hne]
    cases turns flag (Lib.window kWindow (behind ++ piece)) <;> cases flag <;> cases after <;>
      simp [Lib.window]

/-- The flag is the one of the text after every piece. -/
def Follows (ts : TextThinkState) (past : Bytes) (pieces : List Bytes) : Prop :=
  ∀ seen, seen <+: pieces →
    (ts.feedPieces seen).inThinkBlock = scanThink ts.inThinkBlock past seen.flatten

theorem follows_cons {ts : TextThinkState} :
    Follows ts past (piece :: pieces) ↔
      (ts.feedPiece piece).2.inThinkBlock = scanThink ts.inThinkBlock past piece ∧
        Follows (ts.feedPiece piece).2 (past ++ piece) pieces := by
  constructor
  · intro h
    have hfirst : (ts.feedPiece piece).2.inThinkBlock = scanThink ts.inThinkBlock past piece := by
      have hone := h [piece] (prefix_append [piece] pieces)
      rwa [flatten_singleton] at hone
    refine ⟨hfirst, fun seen hseen => ?_⟩
    have hall := h (piece :: seen) (cons_prefix_cons.mpr ⟨rfl, hseen⟩)
    rwa [flatten_cons, scanThink_append, ← hfirst] at hall
  · rintro ⟨hfirst, hrest⟩ seen hseen
    rcases prefix_cons_iff.mp hseen with rfl | ⟨rest, rfl, hprefix⟩
    · rfl
    · rw [flatten_cons, scanThink_append, ← hfirst]
      exact hrest rest hprefix

theorem follows_iff (hwithin : behind <:+ past) (hflag : scanThink start [] past = flag)
    (hopen : flag = true → ¬ thinkClose <:+: Lib.window kWindow behind) :
    Follows ⟨flag, Lib.window kWindow behind⟩ past pieces ↔ AllShown flag past behind pieces := by
  induction pieces generalizing flag past behind with
  | nil => exact iff_of_true (fun seen hseen => by rw [prefix_nil.mp hseen]; rfl) trivial
  | cons piece pieces ih =>
    obtain ⟨hiff, hts⟩ := feedPiece_flag hwithin hflag hopen (rfl : scanThink flag past piece = _)
    rw [follows_cons, AllShown, ← hiff]
    refine and_congr_right fun hright => ?_
    rw [hts hright]
    have hscan : scanThink start [] (past ++ piece) = scanThink flag past piece := by
      rw [scanThink_append, hflag, nil_append]
    have hshown := hiff.mp hright
    generalize scanThink flag past piece = after at *
    split_ifs with hsame
    · refine ih (suffix_append_self_iff.mpr hwithin) hscan fun hset => ?_
      rw [← hsame, hset] at hshown
      exact hshown
    · exact ih nil_suffix hscan fun _ => (by decide : ¬ thinkClose <:+: [])

end TextThinkState

open TextThinkState

/-- The flag is the one of the text read from left to right, after every piece, if and only if the
window shows the markers as it has to. So two cuts of one text end with the same flag. -/
theorem think_flag_of_text (flag : Bool) (pieces : List Bytes) :
    (Follows ⟨flag, []⟩ [] pieces ↔ AllShown flag [] [] pieces) ∧
      ∀ pieces', pieces'.flatten = pieces.flatten → AllShown flag [] [] pieces →
        AllShown flag [] [] pieces' → (feedPieces ⟨flag, []⟩ pieces).inThinkBlock =
          (feedPieces ⟨flag, []⟩ pieces').inThinkBlock := by
  have hiff : ∀ pieces, Follows ⟨flag, []⟩ [] pieces ↔ AllShown flag [] [] pieces := fun pieces =>
    follows_iff nil_suffix (rfl : scanThink flag [] [] = flag)
      fun _ => (by decide : ¬ thinkClose <:+: [])
  refine ⟨hiff pieces, fun pieces' htext hshown hshown' => ?_⟩
  rw [(hiff pieces).mpr hshown pieces prefix_rfl, (hiff pieces').mpr hshown' pieces' prefix_rfl,
    htext]

/-- Flags that are not those of the text: a block opened behind a closing marker in the same piece
is missed, and so is a marker that a long piece moves out of the window; a marker that closes
nothing hides the next one that opens a block. -/
theorem think_flag_of_pieces :
    ((feedPieces ⟨true, []⟩ [thinkClose ++ thinkOpen]).inThinkBlock = false ∧
      (feedPieces ⟨true, []⟩ [thinkClose, thinkOpen]).inThinkBlock = true) ∧
    ((feedPieces ⟨true, []⟩ [thinkClose ++ replicate 32 97]).inThinkBlock = true ∧
      (feedPieces ⟨true, []⟩ [thinkClose, replicate 32 97]).inThinkBlock = false) ∧
    (feedPieces ⟨false, []⟩ [thinkClose, thinkOpen]).inThinkBlock = false ∧
      scanThink false [] (thinkClose ++ thinkOpen) = true := by
  decide

end Quench

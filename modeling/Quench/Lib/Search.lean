import Mathlib.Data.List.Infix
import Mathlib.Data.List.TakeWhile

/-!
# Searching a text

`find` is the first position at which a text occurs in another one. `find_eq_some` and
`find_eq_none` are its specification in terms of `OccursAt`, and `OccursAt.of_append` the window
lemma: what ends inside a text does not depend on what follows it. `trimBy` takes a kind of elements
away from both ends, and `trimBy_filter_iff` says when leaving out elements makes no difference to
what remains.
-/

namespace Quench.Lib

open List

variable {α : Type} {needle hay : List α} {q : Nat} {first more : List α}

/-- A text occurs at a position. -/
def OccursAt (needle hay : List α) (q : Nat) : Prop := needle <+: hay.drop q

/-- What occurs stays where it is when the text goes on. -/
theorem OccursAt.append (h : OccursAt needle hay q) (hq : q ≤ hay.length) (more : List α) :
    OccursAt needle (hay ++ more) q := by
  rw [OccursAt, drop_append_of_le_length hq]
  exact List.IsPrefix.trans h (prefix_append _ _)

/-- What ends inside a text occurs in it, whatever follows. -/
theorem OccursAt.of_append (h : OccursAt needle (hay ++ more) q)
    (hend : q + needle.length ≤ hay.length) : OccursAt needle hay q := by
  rw [OccursAt, drop_append_of_le_length (by omega)] at h
  exact prefix_of_prefix_length_le h (prefix_append _ _) (by rw [length_drop]; omega)

/-- Positions behind a text that comes first. -/
theorem occursAt_append_left (first : List α) :
    OccursAt needle (first ++ hay) (first.length + q) ↔ OccursAt needle hay q := by
  rw [OccursAt, OccursAt, drop_length_add_append]

theorem OccursAt.le_length (h : OccursAt needle hay q) (hne : needle ≠ []) :
    q + needle.length ≤ hay.length := by
  have hlength := List.IsPrefix.length_le h
  have hpos := length_pos_iff.mpr hne
  rw [length_drop] at hlength
  omega

/-- What starts with an element does not start in a text without it. -/
theorem not_occursAt_of_notMem {c : α} (hc : c ∉ first) (hq : q < first.length)
    (hay : List α) : ¬ OccursAt (c :: needle) (first ++ hay) q := by
  rw [OccursAt, drop_append_of_le_length hq.le, drop_eq_getElem_cons hq, cons_append,
    cons_prefix_cons]
  exact fun h => hc (h.1 ▸ getElem_mem hq)

section Find

variable [BEq α] [LawfulBEq α]

/-- The first position of a text in another one. -/
def find (needle : List α) : List α → Option Nat
  | [] => if needle.isPrefixOf [] then some 0 else none
  | c :: hay =>
    if needle.isPrefixOf (c :: hay) then some 0 else (find needle hay).map (· + 1)

theorem find_eq_some (h : find needle hay = some q) :
    OccursAt needle hay q ∧ ∀ p, OccursAt needle hay p → q ≤ p := by
  induction hay generalizing q with
  | nil =>
    rw [find] at h
    split_ifs at h with hhere
    cases h
    exact ⟨List.isPrefixOf_iff_prefix.mp hhere, fun p _ => Nat.zero_le p⟩
  | cons c hay ih =>
    rw [find] at h
    split_ifs at h with hhere
    · cases h
      exact ⟨List.isPrefixOf_iff_prefix.mp hhere, fun p _ => Nat.zero_le p⟩
    · obtain ⟨q', hq', rfl⟩ := Option.map_eq_some_iff.mp h
      obtain ⟨hoccurs, hfirst⟩ := ih hq'
      refine ⟨hoccurs, fun p hp => ?_⟩
      cases p with
      | zero => exact absurd (List.isPrefixOf_iff_prefix.mpr hp) hhere
      | succ p => exact Nat.succ_le_succ (hfirst p hp)

theorem find_eq_none (h : find needle hay = none) (q : Nat) : ¬ OccursAt needle hay q := by
  induction hay generalizing q with
  | nil =>
    rw [find] at h
    split_ifs at h with hhere
    rw [OccursAt, drop_nil]
    exact fun hp => hhere (List.isPrefixOf_iff_prefix.mpr hp)
  | cons c hay ih =>
    rw [find] at h
    split_ifs at h with hhere
    cases q with
    | zero => exact fun hp => hhere (List.isPrefixOf_iff_prefix.mpr hp)
    | succ q => exact ih (Option.map_eq_none_iff.mp h) q

/-- The first position stays the first one when the text goes on. -/
theorem find_append_left (hne : needle ≠ []) (h : find needle hay = some q) (more : List α) :
    find needle (hay ++ more) = some q := by
  obtain ⟨hoccurs, hfirst⟩ := find_eq_some h
  have hend := hoccurs.le_length hne
  have hstays := hoccurs.append (by omega) more
  cases hfind : find needle (hay ++ more) with
  | none => exact absurd hstays (find_eq_none hfind q)
  | some p =>
    obtain ⟨hp, hle⟩ := find_eq_some hfind
    have hqp := hle q hstays
    have hpq := hfirst p (hp.of_append (by omega))
    rw [le_antisymm hqp hpq]

/-- What is found only when the text goes on ends behind the text. -/
theorem find_append_late (h : find needle hay = none)
    (hlate : find needle (hay ++ more) = some q) : hay.length < q + needle.length := by
  by_contra hend
  exact find_eq_none h q ((find_eq_some hlate).1.of_append (not_lt.mp hend))

/-- A first part in which nothing starts only moves the position. -/
theorem find_append_right (h : ∀ p < first.length, ¬ OccursAt needle (first ++ hay) p) :
    find needle (first ++ hay) = (find needle hay).map (first.length + ·) := by
  induction first with
  | nil => simp
  | cons c first ih =>
    have hhere : ¬ needle.isPrefixOf (c :: (first ++ hay)) = true := fun hp =>
      h 0 (Nat.succ_pos _) (List.isPrefixOf_iff_prefix.mp hp)
    rw [cons_append, find, if_neg hhere, ih fun p hp => h (p + 1) (Nat.succ_lt_succ hp),
      Option.map_map]
    congr 1
    funext p
    simp only [Function.comp_apply, length_cons]
    omega

theorem isSome_find : (find needle hay).isSome = true ↔ needle <:+: hay := by
  constructor
  · intro h
    obtain ⟨q, hq⟩ := Option.isSome_iff_exists.mp h
    exact (find_eq_some hq).1.isInfix.trans (drop_suffix q hay).isInfix
  · rintro ⟨first, rest, rfl⟩
    by_contra hnone
    refine find_eq_none (Option.not_isSome_iff_eq_none.mp hnone) first.length ?_
    rw [OccursAt, append_assoc, drop_left]
    exact prefix_append needle rest

end Find

/-! ## The end of a text -/

/-- The last bytes of a text. -/
def window (n : Nat) (text : List α) : List α := text.drop (text.length - n)

variable {n : Nat} {past text : List α}

theorem window_append : window n (window n past ++ text) = window n (past ++ text) := by
  rw [window, window, window, ← drop_append_of_le_length (Nat.sub_le _ _), drop_drop]
  congr 1
  simp only [length_drop, length_append]
  omega

/-! ## Trimming a text -/

variable {β : Type} {p : α → Bool} {before after : List α}

/-- A text without the elements of a kind at its ends. -/
def trimBy (p : α → Bool) (text : List α) : List α :=
  ((text.dropWhile p).reverse.dropWhile p).reverse

theorem exists_trimBy (p : α → Bool) (text : List α) : ∃ before after,
    text = before ++ trimBy p text ++ after ∧ (∀ x ∈ before, p x) ∧ ∀ x ∈ after, p x := by
  refine ⟨text.takeWhile p, ((text.dropWhile p).reverse.takeWhile p).reverse, ?_,
    fun x hx => mem_takeWhile_imp hx, fun x hx => mem_takeWhile_imp (mem_reverse.mp hx)⟩
  rw [trimBy, append_assoc, ← reverse_append, takeWhile_append_dropWhile, reverse_reverse,
    takeWhile_append_dropWhile]

theorem trimBy_between (hbefore : ∀ x ∈ before, p x) (hafter : ∀ x ∈ after, p x)
    (text : List α) : trimBy p (before ++ text ++ after) = trimBy p text := by
  rw [trimBy, append_assoc, dropWhile_append_of_pos hbefore, dropWhile_append]
  split_ifs with hnil
  · rw [dropWhile_eq_nil_iff.mpr hafter, trimBy, isEmpty_iff.mp hnil]
  · rw [reverse_append, dropWhile_append_of_pos fun x hx => hafter x (mem_reverse.mp hx), trimBy]

theorem trimBy_trimBy (p : α → Bool) (text : List α) :
    trimBy p (trimBy p text) = trimBy p text := by
  obtain ⟨before, after, htext, hbefore, hafter⟩ := exists_trimBy p text
  conv_rhs => rw [htext]
  exact (trimBy_between hbefore hafter _).symm

theorem map_trimBy (f : α → β) (p : β → Bool) (text : List α) :
    (trimBy (p ∘ f) text).map f = trimBy p (text.map f) := by
  rw [trimBy, trimBy, map_reverse, ← dropWhile_map, map_reverse, ← dropWhile_map]

/-- Elements may be left out if and only if they stand in front of or behind what is trimmed. -/
theorem trimBy_filter_iff (f : α → β) (p : β → Bool) (q : α → Bool) (text : List α) :
    trimBy p (text.map f) = trimBy p ((text.filter q).map f) ↔
      ∀ x ∈ trimBy (p ∘ f) text, q x = true := by
  obtain ⟨before, after, htext, hbefore, hafter⟩ := exists_trimBy (p ∘ f) text
  have hcut : trimBy (p ∘ f) (text.filter q) = trimBy (p ∘ f) ((trimBy (p ∘ f) text).filter q) := by
    conv_lhs => rw [htext, filter_append, filter_append]
    exact trimBy_between (fun x hx => hbefore x (mem_of_mem_filter hx))
      (fun x hx => hafter x (mem_of_mem_filter hx)) _
  rw [← map_trimBy, ← map_trimBy, hcut, ← length_filter_eq_length_iff]
  constructor
  · intro heq
    have hlength := congrArg length heq
    rw [length_map, length_map] at hlength
    refine le_antisymm (length_filter_le _ _) (hlength.trans_le ?_)
    obtain ⟨_, _, hsplit, -⟩ := exists_trimBy (p ∘ f) ((trimBy (p ∘ f) text).filter q)
    conv_rhs => rw [hsplit]
    simp only [length_append]
    omega
  · intro hall
    rw [filter_eq_self.mpr (length_filter_eq_length_iff.mp hall), trimBy_trimBy]

end Quench.Lib

import Mathlib.Data.Set.Finite.List
import Quench.Lib.Pushdown

/-!
# Grammars without left recursion

A rule opens another one on the left if one of its alternatives comes to that rule without reading
anything (`Opens`). Where this relation is well founded, the stack machine cannot move forever, no
matter how deep its stack may grow: `acc_steps` bounds the moves from any stack, and `finite_steps`
the stacks they lead to.
-/

namespace Quench.Lib.Grammar

open Relation (ReflTransGen)
open List

variable {Frame Class Rule Letter : Type} {g : Grammar Frame Class Rule Letter}

/-- Symbols that derive the empty string. -/
def Erases (g : Grammar Frame Class Rule Letter) (items : List (Item Class Rule)) : Prop :=
  ∃ n, g.Derives n items []

/-- A rule comes to another one before it has read anything. -/
def Opens (g : Grammar Frame Class Rule Letter) (a b : Rule) : Prop :=
  ∃ frame ∈ g.enter a, ∃ pre post, g.items frame = pre ++ .rule b :: post ∧ g.Erases pre

/-- A move under no limit. -/
def Step (g : Grammar Frame Class Rule Letter) (s t : List Frame) : Prop :=
  ∃ limit, g.Move limit s t

/-- No moves go on forever from a stack. -/
def Ends (g : Grammar Frame Class Rule Letter) (s : List Frame) : Prop :=
  Acc (fun t s => g.Step s t) s

/-! ## The empty string -/

variable {items : List (Item Class Rule)} {r : Rule} {s : List Frame}

theorem Derives.mono {n m : Nat} {w : List Letter} (h : g.Derives n items w) (hle : n ≤ m) :
    g.Derives m items w := by
  induction h generalizing m with
  | nil => exact .nil m
  | letter hadmits _ ih => exact .letter hadmits (ih hle)
  | rule hframe _ _ ihsub ihrest =>
    obtain ⟨k, rfl⟩ : ∃ k, m = k + 1 := ⟨m - 1, by omega⟩
    exact .rule hframe (ihsub (by omega)) (ihrest hle)

theorem erases_nil : g.Erases [] := ⟨0, .nil 0⟩

theorem erases_cons {item : Item Class Rule} :
    g.Erases (item :: items) ↔
      (∃ r, item = .rule r ∧ ∃ frame ∈ g.enter r, g.Erases (g.items frame)) ∧ g.Erases items := by
  constructor
  · rintro ⟨n, h⟩
    cases item with
    | letter c =>
      obtain ⟨a, v, hw, -⟩ := h.of_letter
      cases hw
    | rule r =>
      obtain ⟨k, frame, u, v, -, hw, hframe, hsub, hrest⟩ := h.of_rule
      obtain ⟨rfl, rfl⟩ := append_eq_nil_iff.mp hw.symm
      exact ⟨⟨r, rfl, frame, hframe, k, hsub⟩, n, hrest⟩
  · rintro ⟨⟨r, rfl, frame, hframe, n, hsub⟩, m, hrest⟩
    refine ⟨max n m + 1, ?_⟩
    exact .rule hframe (hsub.mono (le_max_left n m))
      (hrest.mono (Nat.le_succ_of_le (le_max_right n m)))

/-- A rule derives the empty string if one of its alternatives does. -/
theorem erases_rule : g.Erases [.rule r] ↔ ∃ frame ∈ g.enter r, g.Erases (g.items frame) := by
  rw [erases_cons]
  constructor
  · rintro ⟨⟨_, hr, hframe⟩, -⟩
    cases hr
    exact hframe
  · intro hframe
    exact ⟨⟨r, rfl, hframe⟩, erases_nil⟩

/-! ## Moves end -/

/-- What is asked of a rule: from its alternatives the moves end, if they do below those that read
nothing. -/
def Safe (g : Grammar Frame Class Rule Letter) (r : Rule) : Prop :=
  ∀ next ∈ g.enter r, ∀ rest, (g.Erases (g.items next) → g.Ends (g.resume rest)) →
    g.Ends (next :: rest)

/-- The moves from a frame end if those of the rules it opens do. -/
theorem ends_cons (items : List (Item Class Rule)) (frame : Frame) (rest : List Frame)
    (hitems : g.items frame = items)
    (hopen : ∀ pre b post, items = pre ++ .rule b :: post → g.Erases pre → g.Safe b)
    (hrest : g.Erases items → g.Ends (g.resume rest)) : g.Ends (frame :: rest) := by
  induction items generalizing frame with
  | nil =>
    refine .intro _ fun t ⟨limit, hmove⟩ => ?_
    rw [hmove.of_end hitems]
    exact hrest erases_nil
  | cons item items ih =>
    cases item with
    | letter c => exact .intro _ fun t ⟨limit, hmove⟩ => absurd hmove (Move.not_of_letter hitems)
    | rule r =>
      refine .intro _ fun t ⟨limit, hmove⟩ => ?_
      obtain ⟨-, next, hnext, rfl⟩ := hmove.of_rule hitems
      refine hopen [] r items rfl erases_nil next hnext (frame :: rest) fun hsub => ?_
      -- the alternative reads nothing, so the frame goes on behind the rule
      have hcons : ∀ more, g.Erases more → g.Erases (.rule r :: more) := fun more hmore =>
        erases_cons.mpr ⟨⟨r, rfl, next, hnext, hsub⟩, hmore⟩
      refine ih (g.advance frame) ?_ ?_ fun hend => hrest (hcons _ hend)
      · rw [g.items_advance, hitems, tail_cons]
      · intro pre b post heq hpre
        exact hopen (.rule r :: pre) b post (by rw [heq, cons_append]) (hcons _ hpre)

theorem safe_of_acc (h : Acc (fun b a => g.Opens a b) r) : g.Safe r := by
  induction h with
  | intro r _ ih =>
    intro next hnext rest hrest
    exact ends_cons _ next rest rfl
      (fun pre b post heq hpre => ih b ⟨next, hnext, pre, post, heq, hpre⟩) hrest

/-- Without left recursion there is no infinite sequence of moves, from any stack. -/
theorem acc_steps (h : ∀ r, Acc (fun b a => g.Opens a b) r) (s : List Frame) : g.Ends s := by
  induction hlen : s.length generalizing s with
  | zero =>
    obtain rfl := length_eq_zero_iff.mp hlen
    exact .intro _ fun t ⟨limit, hmove⟩ => by cases hmove
  | succ n ih =>
    obtain ⟨frame, rest, rfl⟩ := exists_cons_of_length_eq_add_one hlen
    refine ends_cons _ frame rest rfl (fun _ b _ _ _ => safe_of_acc (h b)) fun _ => ?_
    exact ih _ (by rw [length_resume]; exact Nat.succ.inj hlen)

theorem finite_step (s : List Frame) : {t | g.Step s t}.Finite := by
  cases s with
  | nil => exact Set.finite_empty.subset fun t ⟨limit, hmove⟩ => by cases hmove
  | cons frame rest =>
    rcases hitems : g.items frame with _ | ⟨_ | r, tail⟩
    · exact (Set.finite_singleton (g.resume rest)).subset fun t ⟨limit, hmove⟩ =>
        hmove.of_end hitems
    · exact Set.finite_empty.subset fun t ⟨limit, hmove⟩ =>
        absurd hmove (Move.not_of_letter hitems)
    · refine ((g.enter r).map (· :: frame :: rest)).finite_toSet.subset ?_
      intro t ⟨limit, hmove⟩
      obtain ⟨-, next, hnext, rfl⟩ := hmove.of_rule hitems
      exact mem_map.mpr ⟨next, hnext, rfl⟩

theorem finite_steps (h : g.Ends s) : {t | ReflTransGen g.Step s t}.Finite := by
  induction h with
  | intro s _ ih =>
    refine ((Set.finite_singleton s).union ((finite_step s).biUnion ih)).subset ?_
    intro t ht
    rcases ht.cases_head with rfl | ⟨next, hnext, htail⟩
    · exact .inl rfl
    · exact .inr (Set.mem_biUnion hnext htail)

/-- The stacks that moves lead to, whatever the limit, are finitely many. -/
theorem finite_reaches (h : g.Ends s) : {t | ∃ limit, g.Reaches limit s t}.Finite :=
  (finite_steps h).subset fun _ ⟨limit, hreach⟩ =>
    ReflTransGen.mono (fun _ _ hmove => ⟨limit, hmove⟩) _ _ hreach

end Quench.Lib.Grammar

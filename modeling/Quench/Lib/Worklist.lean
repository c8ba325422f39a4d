import Mathlib.Data.Finset.Card

/-!
# Closure by a worklist

`close` marks everything that can be reached from some start marks: it takes a state from a stack
and pushes its successors that are not marked yet. Each state is pushed once, so a fuel that counts
the stack and the unmarked states is enough, and `mem_close` says that what is marked in the end is
what can be reached.
-/

namespace Quench.Lib

open Relation (ReflTransGen)
open List

variable {σ : Type} [DecidableEq σ]

/-- Mark the states of a list that are not marked yet, and push them on the stack. -/
def mark : List σ → List σ → List σ → List σ × List σ
  | [], stack, marks => (stack, marks)
  | y :: ys, stack, marks =>
    if y ∈ marks then mark ys stack marks else mark ys (y :: stack) (marks ++ [y])

/-- Take states from the stack until it is empty. -/
def close (next : σ → List σ) : Nat → List σ → List σ → List σ
  | 0, _, marks => marks
  | _ + 1, [], marks => marks
  | fuel + 1, x :: stack, marks =>
    close next fuel (mark (next x) stack marks).1 (mark (next x) stack marks).2

/-- How many steps there can still be. -/
def pending (states : Finset σ) (stack marks : List σ) : Nat :=
  stack.length + (states \ marks.toFinset).card

variable {states : Finset σ} {ys stack marks : List σ} {x z : σ}

theorem mem_mark : z ∈ (mark ys stack marks).2 ↔ z ∈ marks ∨ z ∈ ys := by
  induction ys generalizing stack marks with
  | nil => simp [mark]
  | cons y ys ih =>
    rw [mark]
    split_ifs with hy
    · rw [ih, mem_cons]
      constructor
      · rintro (h | h)
        · exact .inl h
        · exact .inr (.inr h)
      · rintro (h | rfl | h)
        · exact .inl h
        · exact .inl hy
        · exact .inr h
    · rw [ih, mem_append, mem_singleton, mem_cons, or_assoc]

theorem mem_mark_stack : z ∈ (mark ys stack marks).1 ↔ z ∈ stack ∨ z ∈ ys ∧ z ∉ marks := by
  induction ys generalizing stack marks with
  | nil => simp [mark]
  | cons y ys ih =>
    rw [mark]
    split_ifs with hy
    · rw [ih, mem_cons]
      constructor
      · rintro (h | ⟨h, hz⟩)
        · exact .inl h
        · exact .inr ⟨.inr h, hz⟩
      · rintro (h | ⟨rfl | h, hz⟩)
        · exact .inl h
        · exact absurd hy hz
        · exact .inr ⟨h, hz⟩
    · rw [ih, mem_append, mem_singleton, mem_cons, mem_cons]
      by_cases hz : z = y
      · subst hz
        simp [hy]
      · simp [hz]

theorem pending_mark (hys : ∀ y ∈ ys, y ∈ states) :
    pending states (mark ys stack marks).1 (mark ys stack marks).2 =
      pending states stack marks := by
  induction ys generalizing stack marks with
  | nil => rfl
  | cons y ys ih =>
    have hrest : ∀ y ∈ ys, y ∈ states := fun z hz => hys z (mem_cons_of_mem _ hz)
    rw [mark]
    split_ifs with hy
    · exact ih hrest
    · rw [ih hrest]
      have hin : y ∈ states \ marks.toFinset :=
        Finset.mem_sdiff.mpr ⟨hys y mem_cons_self, fun h => hy (mem_toFinset.mp h)⟩
      have herase : states \ (marks ++ [y]).toFinset = (states \ marks.toFinset).erase y := by
        ext z
        simp only [Finset.mem_sdiff, mem_toFinset, mem_append, mem_singleton,
          Finset.mem_erase, not_or]
        tauto
      have hcard := Finset.card_erase_add_one hin
      rw [pending, pending, herase, length_cons]
      omega

/-- What is marked in the end is what can be reached from the marks. -/
theorem mem_close {next : σ → List σ} {fuel : Nat}
    (hstates : ∀ x ∈ states, ∀ y ∈ next x, y ∈ states) (hmarks : ∀ x ∈ marks, x ∈ states)
    (hstack : ∀ x ∈ stack, x ∈ marks) (hdone : ∀ x ∈ marks, x ∉ stack → ∀ y ∈ next x, y ∈ marks)
    (hfuel : pending states stack marks < fuel) :
    z ∈ close next fuel stack marks ↔ ∃ x ∈ marks, ReflTransGen (fun a b => b ∈ next a) x z := by
  induction fuel generalizing stack marks with
  | zero => exact absurd hfuel (Nat.not_lt_zero _)
  | succ fuel ih =>
    cases stack with
    | nil =>
      -- with an empty stack the marks are closed
      constructor
      · intro hz
        exact ⟨z, hz, .refl⟩
      · rintro ⟨x, hx, hreach⟩
        clear ih
        induction hreach with
        | refl => exact hx
        | tail _ hstep hmid => exact hdone _ hmid not_mem_nil _ hstep
    | cons x stack =>
      have hx : x ∈ marks := hstack x mem_cons_self
      have hnext : ∀ y ∈ next x, y ∈ states := hstates x (hmarks x hx)
      rw [close, ih]
      · constructor
        · rintro ⟨y, hy, hreach⟩
          rcases mem_mark.mp hy with hy | hy
          · exact ⟨y, hy, hreach⟩
          · exact ⟨x, hx, .head hy hreach⟩
        · rintro ⟨y, hy, hreach⟩
          exact ⟨y, mem_mark.mpr (.inl hy), hreach⟩
      · intro y hy
        rcases mem_mark.mp hy with hy | hy
        · exact hmarks y hy
        · exact hnext y hy
      · intro y hy
        rcases mem_mark_stack.mp hy with hy | ⟨hy, _⟩
        · exact mem_mark.mpr (.inl (hstack y (mem_cons_of_mem _ hy)))
        · exact mem_mark.mpr (.inr hy)
      · intro y hy hout w hw
        rw [mem_mark_stack, not_or] at hout
        obtain ⟨hout, hnew⟩ := hout
        refine mem_mark.mpr ?_
        by_cases hmarked : y ∈ marks
        · by_cases hyx : y = x
          · subst hyx
            exact .inr hw
          · refine .inl (hdone y hmarked ?_ w hw)
            rw [mem_cons, not_or]
            exact ⟨hyx, hout⟩
        · exact absurd ⟨(mem_mark.mp hy).resolve_left hmarked, hmarked⟩ hnew
      · rw [pending_mark hnext]
        rw [pending, length_cons] at hfuel
        rw [pending]
        omega

end Quench.Lib

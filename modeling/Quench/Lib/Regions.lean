import Mathlib.Data.Nat.Basic

/-!
# Regions of a memory

A memory has several address spaces. A region is a range of addresses of one of them. A `Layout`
packs stacks of rows behind each other. Its rows are regions that do not overlap (`Layout.apart`),
and they fill it up to its end (`Layout.exists_last_row`).
-/

namespace Quench.Lib

variable (layout : Layout)

/-- A range of addresses of one address space. -/
structure Region (Space : Type) where
  space : Space
  start : Nat
  length : Nat
  deriving DecidableEq, Repr

namespace Region

variable {Space : Type}

/-- An address lies in a region. -/
def Covers (region : Region Space) (space : Space) (addr : Nat) : Prop :=
  space = region.space ∧ region.start ≤ addr ∧ addr < region.start + region.length

/-- No address lies in both regions. -/
def Apart (a b : Region Space) : Prop := ∀ space addr, a.Covers space addr → ¬ b.Covers space addr

variable {a b : Region Space}

theorem Apart.symm (h : a.Apart b) : b.Apart a :=
  fun space addr hb ha => h space addr ha hb

theorem apart_of_space (h : a.space ≠ b.space) : a.Apart b :=
  fun _ _ ha hb => h (ha.1.symm.trans hb.1)

theorem apart_of_le (h : a.start + a.length ≤ b.start) : a.Apart b :=
  fun _ _ ha hb => absurd (Nat.lt_of_lt_of_le ha.2.2 h) (Nat.not_lt.mpr hb.2.1)

end Region

/-! ## Stacked rows -/

/-- A pool of several stacks of rows behind each other. The rows of one stack have one size. -/
structure Layout where
  stride : Nat → Nat
  rows : Nat → Nat
  start : Nat → Nat
  zero : start 0 = 0
  next : ∀ stack, start stack + rows stack * stride stack = start (stack + 1)

namespace Layout

/-- The first address of a row. -/
def addr (layout : Layout) (stack row : Nat) : Nat := layout.start stack + row * layout.stride stack

variable {stack stack' row row' : Nat}

theorem start_le (h : stack ≤ stack') : layout.start stack ≤ layout.start stack' := by
  induction h with
  | refl => exact Nat.le_refl _
  | step _ ih => exact Nat.le_trans ih (Nat.le_trans (Nat.le_add_right _ _)
      (Nat.le_of_eq (layout.next _)))

/-- A row ends where the next one begins, and the last row of a stack before the next stack. -/
theorem addr_end_le (hrow : row < layout.rows stack)
    (h : stack < stack' ∨ stack = stack' ∧ row < row') :
    layout.addr stack row + layout.stride stack ≤ layout.addr stack' row' := by
  have hsucc : layout.addr stack row + layout.stride stack =
      layout.start stack + (row + 1) * layout.stride stack := by
    rw [addr, Nat.succ_mul, Nat.add_assoc]
  rw [hsucc]
  rcases h with hstack | ⟨rfl, hlt⟩
  · calc layout.start stack + (row + 1) * layout.stride stack
        ≤ layout.start stack + layout.rows stack * layout.stride stack :=
          Nat.add_le_add_left (Nat.mul_le_mul_right _ hrow) _
      _ = layout.start (stack + 1) := layout.next stack
      _ ≤ layout.start stack' := layout.start_le hstack
      _ ≤ layout.addr stack' row' := Nat.le_add_right _ _
  · exact Nat.add_le_add_left (Nat.mul_le_mul_right _ hlt) _

/-- Stacks that take any room end with one of their rows. -/
theorem exists_last_row {n : Nat} (h : 0 < layout.start n) :
    ∃ stack < n, ∃ row < layout.rows stack,
      layout.addr stack row + layout.stride stack = layout.start n := by
  induction n with
  | zero => exact absurd layout.zero (Nat.ne_of_gt h)
  | succ n ih =>
    have hnext := layout.next n
    by_cases hrows : layout.rows n * layout.stride n = 0
    · -- the last stack is empty, so the stacks before it end in the same place
      rw [hrows, Nat.add_zero] at hnext
      obtain ⟨stack, hstack, hlast⟩ := ih (hnext ▸ h)
      exact ⟨stack, Nat.lt_succ_of_lt hstack, hnext ▸ hlast⟩
    · have hpos : 0 < layout.rows n := Nat.pos_of_mul_pos_right (Nat.pos_of_ne_zero hrows)
      refine ⟨n, Nat.lt_succ_self n, layout.rows n - 1, Nat.sub_lt hpos Nat.one_pos, ?_⟩
      rw [← hnext, addr, Nat.add_assoc, ← Nat.succ_mul, Nat.succ_eq_add_one,
        Nat.sub_add_cancel hpos]

/-- Different rows do not overlap. -/
theorem apart {Space : Type} {space : Space} (hrow : row < layout.rows stack)
    (hrow' : row' < layout.rows stack') (hne : (stack, row) ≠ (stack', row')) :
    Region.Apart ⟨space, layout.addr stack row, layout.stride stack⟩
      ⟨space, layout.addr stack' row', layout.stride stack'⟩ := by
  rcases Nat.lt_trichotomy stack stack' with hlt | rfl | hgt
  · exact Region.apart_of_le (layout.addr_end_le hrow (.inl hlt))
  · rcases Nat.lt_trichotomy row row' with hlt | rfl | hgt
    · exact Region.apart_of_le (layout.addr_end_le hrow (.inr ⟨rfl, hlt⟩))
    · exact absurd rfl hne
    · exact (Region.apart_of_le (layout.addr_end_le hrow' (.inr ⟨rfl, hgt⟩))).symm
  · exact (Region.apart_of_le (layout.addr_end_le hrow' (.inl hgt))).symm

end Layout

end Quench.Lib

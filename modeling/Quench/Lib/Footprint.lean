import Mathlib.Logic.Basic

/-!
# What an update of a state may touch

A footprint is a part of a state: `paste` puts that part of one state into another one. A state
differs from another one only there (`Only`) if pasting the old part back gives the old state. Then
everything that does not read the part is the same (`Only.keeps`).
-/

namespace Quench.Lib

/-- A part of a state that can be copied over. -/
structure Footprint (σ : Type) where
  paste : σ → σ → σ
  paste_self : ∀ s, paste s s = s
  paste_paste : ∀ s t u, paste s (paste t u) = paste s u

namespace Footprint

variable {σ : Type} {p q : Footprint σ} {s t u : σ}

/-- A state differs from the first one only in this part. -/
def Only (p : Footprint σ) (s t : σ) : Prop := p.paste s t = s

namespace Only

theorem rfl' (p : Footprint σ) (s : σ) : p.Only s s := p.paste_self s

theorem trans (h : p.Only s t) (h' : p.Only t u) : p.Only s u := by
  unfold Only at h h' ⊢
  rw [← p.paste_paste s t u, h', h]

/-- A loop whose body touches only this part touches only this part. -/
theorem foldl {α : Type} {body : σ → α → σ} (hbody : ∀ s a, p.Only s (body s a)) (items : List α)
    (s : σ) : p.Only s (items.foldl body s) := by
  induction items generalizing s with
  | nil => exact rfl' p s
  | cons item items ih => exact (hbody s item).trans (ih (body s item))

/-- What does not read the part is the same. -/
theorem keeps {β : Type} (h : p.Only s t) (f : σ → β)
    (hf : ∀ s t, f (p.paste s t) = f t) : f t = f s := by
  rw [← hf s t, h]

/-- A larger part may be touched as well. -/
theorem mono (h : p.Only s t) (hq : ∀ s t, q.paste s (p.paste s t) = q.paste s t) :
    q.Only s t := by
  unfold Only at h ⊢
  rw [← hq, h, q.paste_self]

end Only

end Footprint

end Quench.Lib

import Mathlib.Data.List.Basic

/-!
# Readers and their languages

A reader takes a text letter by letter and may refuse a letter. `Reader.sound` and `Reader.complete`
compare what it reads with a language given for each of its states: one lemma about a single letter,
in each direction, settles whole texts. `Guarded` is a condition on each letter read, for a reader
that accepts more than the language.
-/

namespace Quench.Lib

/-- A step for each letter, or a refusal. -/
structure Reader (State Letter : Type) where
  step : Letter → State → Option State

namespace Reader

variable {State Letter : Type} (reader : Reader State Letter)

/-- Read a text as long as each letter is accepted. -/
def read : List Letter → State → Option State
  | [], s => some s
  | c :: w, s => (reader.step c s).bind (read w)

/-- A condition on the state before each letter of a text, the letter and what follows it. -/
def Guarded (guard : State → Letter → List Letter → Prop) : List Letter → State → Prop
  | [], _ => True
  | c :: w, s =>
    guard s c w ∧
      match reader.step c s with
      | some s' => Guarded guard w s'
      | none => True

variable {reader} {guard : State → Letter → List Letter → Prop}
  {invariant : State → Prop} {w : List Letter} {s s' : State}

theorem guarded_cons {c : Letter} (hstep : reader.step c s = some s') :
    reader.Guarded guard (c :: w) s ↔ guard s c w ∧ reader.Guarded guard w s' := by
  rw [Guarded, hstep]

instance decidableGuarded [∀ s c w, Decidable (guard s c w)] :
    ∀ w s, Decidable (reader.Guarded guard w s)
  | [], _ => .isTrue trivial
  | c :: w, s =>
    match h : reader.step c s with
    | some s' =>
      have := decidableGuarded w s'
      decidable_of_iff _ (guarded_cons h).symm
    | none => decidable_of_iff (guard s c w) (by rw [Guarded, h, and_true])

variable (hstep : ∀ s c s', invariant s → reader.step c s = some s' → invariant s')
include hstep

/-- An invariant of every step holds after a text. -/
theorem read_invariant (hs : invariant s) (hread : reader.read w s = some s') : invariant s' := by
  induction w generalizing s with
  | nil =>
    cases hread
    exact hs
  | cons c w ih =>
    obtain ⟨t, ht, hrest⟩ := Option.bind_eq_some_iff.mp hread
    exact ih (hstep s c t hs ht) hrest

/-- What is read under the guard up to a final state is in the language. -/
theorem sound (language : State → List Letter → Prop) (final : State → Prop)
    (hfinal : ∀ s, invariant s → final s → language s [])
    (hcons : ∀ s c w s', invariant s → reader.step c s = some s' → guard s c w →
      language s' w → language s (c :: w)) (hs : invariant s) (hguard : reader.Guarded guard w s)
    (hread : reader.read w s = some s') (hend : final s') : language s w := by
  induction w generalizing s with
  | nil =>
    cases hread
    exact hfinal _ hs hend
  | cons c w ih =>
    obtain ⟨t, ht, hrest⟩ := Option.bind_eq_some_iff.mp hread
    obtain ⟨hg, hguard⟩ := (guarded_cons ht).mp hguard
    exact hcons s c w t hs ht hg (ih (hstep s c t hs ht) hguard hrest)

/-- What is in the language is read up to a final state, and the guard holds all along. -/
theorem complete (language : State → List Letter → Prop) (final : State → Prop)
    (hnil : ∀ s, invariant s → language s [] → final s)
    (hcons : ∀ s c w, invariant s → language s (c :: w) →
      ∃ s', reader.step c s = some s' ∧ guard s c w ∧ language s' w)
    (hs : invariant s) (hw : language s w) :
    reader.Guarded guard w s ∧ ∃ s', reader.read w s = some s' ∧ final s' := by
  induction w generalizing s with
  | nil => exact ⟨trivial, s, rfl, hnil s hs hw⟩
  | cons c w ih =>
    obtain ⟨t, ht, hg, hrest⟩ := hcons s c w hs hw
    obtain ⟨hguard, s', hread, hend⟩ := ih (hstep s c t hs ht) hrest
    refine ⟨(guarded_cons ht).mpr ⟨hg, hguard⟩, s', ?_, hend⟩
    rw [read, ht]
    exact hread

end Reader

end Quench.Lib

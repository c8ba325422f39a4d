import Mathlib.Data.List.Dedup

/-!
# Runs of a deterministic machine

A machine is a step function on states and events; a run folds it over a list of events. `Meets`
requires a condition of every event in the state the event happens in, and `Meets.at_event` gives
the condition back at any one of them. `Meets.invariant` is the rule for what such events preserve.

A machine may also answer each event. `firstAnswer` is the first event answered with yes, and two
machines in lockstep agree on it (`firstAnswer_eq`). A log of events keeps the last entry of each
(`dedup_concat`).
-/

namespace Quench.Lib

variable {State Event : Type} (step : State → Event → State)

/-- The state after a list of events. -/
def runFrom (s : State) (events : List Event) : State := events.foldl step s

/-- Every event of a run meets a condition in the state it happens in. -/
def Meets (Safe : State → Event → Prop) : State → List Event → Prop
  | _, [] => True
  | s, event :: events => Safe s event ∧ Meets Safe (step s event) events

instance Meets.decidable (Safe : State → Event → Prop) [∀ s event, Decidable (Safe s event)] :
    (s : State) → (events : List Event) → Decidable (Meets step Safe s events)
  | _, [] => inferInstanceAs (Decidable True)
  | s, event :: events =>
    have := Meets.decidable Safe (step s event) events
    inferInstanceAs (Decidable (Safe s event ∧ Meets step Safe (step s event) events))

variable {step} {Safe : State → Event → Prop} {s : State} {early late : List Event}

/-- The condition holds at each event of the run, in the state reached by the events before it. -/
theorem Meets.at_event {event : Event} (h : Meets step Safe s (early ++ event :: late)) :
    Safe (runFrom step s early) event := by
  induction early generalizing s with
  | nil => exact h.1
  | cons first early ih => exact ih h.2

/-- The events before any one of them meet the condition by themselves. -/
theorem Meets.before (h : Meets step Safe s (early ++ late)) : Meets step Safe s early := by
  induction early generalizing s with
  | nil => trivial
  | cons first early ih => exact ⟨h.1, ih h.2⟩

/-- What every event that meets the condition preserves holds at each state of the run. -/
theorem Meets.invariant {Inv : State → Prop}
    (hstep : ∀ s event, Inv s → Safe s event → Inv (step s event))
    (h : Meets step Safe s (early ++ late)) (hinv : Inv s) : Inv (runFrom step s early) := by
  induction early generalizing s with
  | nil => exact hinv
  | cons first early ih => exact ih h.2 (hstep s first hinv h.1)

/-! ## First answers -/

section Answers

variable {State' : Type}

/-- The index of the first event that is answered with yes. -/
def firstAnswer (step : State → Event → Bool × State) : State → List Event → Option Nat
  | _, [] => none
  | s, event :: events =>
    if (step s event).1 then some 0
    else (firstAnswer step (step s event).2 events).map (· + 1)

variable {step : State → Event → Bool × State} {step' : State' → Event → Bool × State'}

section Related

/- Machines that give the same answer and stay related after a no. The relation may depend on the
events that are still to come. -/
variable {R : List Event → State → State' → Prop}
  (hstep : ∀ event events s s', R (event :: events) s s' →
    (step s event).1 = (step' s' event).1 ∧
      ((step s event).1 = false → R events (step s event).2 (step' s' event).2))
  {events : List Event} {s : State} {s' : State'} (h : R events s s')

include hstep h

/-- Such machines have the same first yes. -/
theorem firstAnswer_eq : firstAnswer step s events = firstAnswer step' s' events := by
  induction events generalizing s s' with
  | nil => rfl
  | cons event events ih =>
    obtain ⟨hsame, hnext⟩ := hstep event events s s' h
    rw [firstAnswer, firstAnswer, ← hsame]
    cases hanswer : (step s event).1 with
    | true => rfl
    | false =>
      have hrest := ih (hnext hanswer)
      simp [hrest]

/-- As long as every answer is no, such machines stay related. -/
theorem related_of_firstAnswer (hnone : firstAnswer step s events = none) :
    R [] (runFrom (fun s event => (step s event).2) s events)
      (runFrom (fun s event => (step' s event).2) s' events) := by
  induction events generalizing s s' with
  | nil => exact h
  | cons event events ih =>
    rw [firstAnswer] at hnone
    cases hanswer : (step s event).1 with
    | true =>
      rw [hanswer] at hnone
      cases hnone
    | false =>
      rw [hanswer, if_neg Bool.false_ne_true, Option.map_eq_none_iff] at hnone
      exact ih ((hstep event events s s' h).2 hanswer) hnone

end Related

theorem firstAnswer_lt {events : List Event} {index : Nat}
    (h : firstAnswer step s events = some index) : index < events.length := by
  induction events generalizing s index with
  | nil => cases h
  | cons event events ih =>
    rw [firstAnswer] at h
    split at h
    · obtain rfl := Option.some.inj h
      exact Nat.zero_lt_succ _
    · obtain ⟨index', hindex, rfl⟩ := Option.map_eq_some_iff.mp h
      exact Nat.succ_lt_succ (ih hindex)

/-- The first yes in two lists of events, one after the other. -/
theorem firstAnswer_append (s : State) (events events' : List Event) :
    firstAnswer step s (events ++ events') =
      (firstAnswer step s events).or
        ((firstAnswer step (runFrom (fun s event => (step s event).2) s events) events').map
          (· + events.length)) := by
  induction events generalizing s with
  | nil => simp [firstAnswer, runFrom]
  | cons event events ih =>
    rw [List.cons_append, firstAnswer, firstAnswer]
    cases (step s event).1 with
    | true => rfl
    | false =>
      rw [if_neg Bool.false_ne_true, if_neg Bool.false_ne_true, ih]
      cases firstAnswer step (step s event).2 events with
      | some index => rfl
      | none =>
        simp only [Option.map_none, Option.none_or, Option.map_map]
        congr 1

end Answers

/-- A new last entry of a log takes the place of the earlier ones. -/
theorem dedup_concat [DecidableEq Event] (log : List Event) (last : Event) :
    (log ++ [last]).dedup = log.dedup.filter (· ≠ last) ++ [last] := by
  induction log with
  | nil => rfl
  | cons first log ih =>
    rw [List.cons_append]
    by_cases hmem : first ∈ log
    · rw [List.dedup_cons_of_mem (List.mem_append_left _ hmem), ih, List.dedup_cons_of_mem hmem]
    · rw [List.dedup_cons_of_notMem hmem]
      by_cases hlast : first = last
      · rw [List.dedup_cons_of_mem (by simp [hlast]), ih]
        simp [hlast]
      · rw [List.dedup_cons_of_notMem (by simp [hmem, hlast]), ih]
        simp [hlast]

end Quench.Lib

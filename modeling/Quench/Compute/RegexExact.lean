import Quench.Compute.RegexReads
import Quench.Compute.RegexWalk

/-!
# The automaton is exact

`start_set`, `step` and `accepts` run a compiled automaton on sets of states. `accepts_run_iff`
shows that this decides the language of the automaton, and `compile_exact` that for the text of a
syntax tree this is the language of the tree. `escaped_range_misread` is a tree outside the
condition of the latter: a range that ends in a bracket, which `parse_class` closes the class with.
-/

namespace Quench.RegexNfa

open Lib Regex Computability Relation List

/-- The state set after a text. -/
def run (nfa : RegexNfa) (w : List UInt8) : List Nat := w.foldl nfa.step nfa.startSet

/-- The automaton that the state sets run. -/
def toεNFA (nfa : RegexNfa) : εNFA UInt8 Nat where
  step := (graph nfa.states).step
  start := {nfa.start}
  accept := {s | nfa.accepts [s] = true}

/-- Every edge leads to a state. -/
structure WellFormed (nfa : RegexNfa) : Prop where
  start_lt : nfa.start < nfa.states.length
  edges_lt : ∀ x o y, y ∈ (graph nfa.states).step x o → y < nfa.states.length

variable {nfa : RegexNfa} {x : Nat}

/-! ## Sets of states -/

variable {set : Set Nat}

theorem mem_εClosure_iff {M : εNFA UInt8 Nat} :
    x ∈ M.εClosure set ↔ ∃ s ∈ set, ReflTransGen (fun a b => b ∈ M.step a none) s x := by
  constructor
  · intro h
    induction h with
    | base s hs => exact ⟨s, hs, .refl⟩
    | step s t ht _ ih =>
      obtain ⟨r, hr, hreach⟩ := ih
      exact ⟨r, hr, hreach.tail ht⟩
  · rintro ⟨s, hs, hreach⟩
    induction hreach with
    | refl => exact εNFA.εClosure.base s hs
    | tail _ hstep ih => exact εNFA.εClosure.step _ _ hstep ih

section

variable (hwf : nfa.WellFormed)
include hwf

/-- `epsilon_closure` computes the closure. -/
theorem mem_epsilonClosure {set : List Nat} (hset : ∀ s ∈ set, s < nfa.states.length) :
    x ∈ nfa.epsilonClosure set ↔ x ∈ nfa.toεNFA.εClosure {s | s ∈ set} := by
  have hstates : ∀ s ∈ Finset.range nfa.states.length, ∀ y ∈ silentEdges nfa.states s,
      y ∈ Finset.range nfa.states.length := by
    intro s _ y hy
    exact Finset.mem_range.mpr (hwf.edges_lt s none y hy)
  rw [epsilonClosure, mem_insertionSort, mem_εClosure_iff, mem_close hstates]
  · rfl
  · intro s hs
    exact Finset.mem_range.mpr (hset s hs)
  · intro s hs
    exact mem_reverse.mp hs
  · intro s hs hout
    exact absurd (mem_reverse.mpr hs) hout
  · have hcard : (Finset.range nfa.states.length \ set.toFinset).card ≤ nfa.states.length := by
      rw [← Finset.card_range nfa.states.length]
      exact Finset.card_le_card (by rw [Finset.card_range]; exact Finset.sdiff_subset)
    rw [pending, length_reverse]
    omega

theorem lt_of_mem_closure (hset : ∀ s ∈ set, s < nfa.states.length)
    (hx : x ∈ nfa.toεNFA.εClosure set) : x < nfa.states.length := by
  induction hx with
  | base s hs => exact hset s hs
  | step s t ht _ _ => exact hwf.edges_lt s none t ht

theorem mem_run (w : List UInt8) :
    (∀ x, x ∈ nfa.run w ↔ x ∈ nfa.toεNFA.eval w) ∧ ∀ x ∈ nfa.run w, x < nfa.states.length := by
  induction w using List.reverseRecOn with
  | nil =>
    have hstart : ∀ s ∈ [nfa.start], s < nfa.states.length := by
      intro s hs
      rw [mem_singleton] at hs
      exact hs ▸ hwf.start_lt
    have hmem : ∀ x, x ∈ nfa.run [] ↔ x ∈ nfa.toεNFA.εClosure {nfa.start} := by
      intro x
      change x ∈ nfa.epsilonClosure [nfa.start] ↔ _
      rw [mem_epsilonClosure hwf hstart]
      simp only [mem_singleton, Set.ofPred_eq_eq_singleton]
    refine ⟨hmem, fun x hx => lt_of_mem_closure hwf ?_ ((hmem x).mp hx)⟩
    intro s hs
    exact hs ▸ hwf.start_lt
  | append_singleton w c ih =>
    obtain ⟨hmem, hlt⟩ := ih
    have htargets : ∀ s, s ∈ (mark ((nfa.run w).flatMap (letterEdges nfa.states c)) [] []).2 ↔
        ∃ t ∈ nfa.run w, s ∈ (graph nfa.states).step t (some c) := by
      intro s
      rw [mem_mark, mem_flatMap]
      simp only [not_mem_nil, false_or]
      rfl
    have hbound : ∀ s ∈ (mark ((nfa.run w).flatMap (letterEdges nfa.states c)) [] []).2,
        s < nfa.states.length := by
      intro s hs
      obtain ⟨t, _, ht⟩ := (htargets s).mp hs
      exact hwf.edges_lt t (some c) s ht
    have hstep : ∀ x, x ∈ nfa.run (w ++ [c]) ↔ x ∈ nfa.toεNFA.εClosure
        {s | s ∈ (mark ((nfa.run w).flatMap (letterEdges nfa.states c)) [] []).2} := by
      intro x
      rw [run, foldl_append]
      exact mem_epsilonClosure hwf hbound
    refine ⟨fun x => ?_, fun x hx => lt_of_mem_closure hwf hbound ((hstep x).mp hx)⟩
    rw [hstep, εNFA.eval_append_singleton, εNFA.mem_stepSet_iff, mem_εClosure_iff]
    constructor
    · rintro ⟨s, hs, hreach⟩
      obtain ⟨t, ht, hedge⟩ := (htargets s).mp hs
      exact ⟨t, (hmem t).mp ht, mem_εClosure_iff.mpr ⟨s, hedge, hreach⟩⟩
    · rintro ⟨t, ht, hclosure⟩
      obtain ⟨s, hedge, hreach⟩ := mem_εClosure_iff.mp hclosure
      exact ⟨s, (htargets s).mpr ⟨t, (hmem t).mpr ht, hedge⟩, hreach⟩

/-- Running the state sets decides the language of the automaton. -/
theorem accepts_run_iff (w : List UInt8) :
    nfa.accepts (nfa.run w) = true ↔ w ∈ nfa.toεNFA.accepts := by
  rw [accepts, any_eq_true]
  constructor
  · rintro ⟨s, hs, haccepting⟩
    refine ⟨s, ?_, ((mem_run hwf w).1 s).mp hs⟩
    change nfa.accepts [s] = true
    rw [accepts, any_cons, any_nil, Bool.or_false]
    exact haccepting
  · rintro ⟨s, haccepting, hs⟩
    refine ⟨s, ((mem_run hwf w).1 s).mpr hs, ?_⟩
    change nfa.accepts [s] = true at haccepting
    rwa [accepts, any_cons, any_nil, Bool.or_false] at haccepting

end

/-! ## Compiled patterns -/

/-- The automaton `compile` makes of the states it built. -/
def finished (states : List NfaState) (root : Frag) : RegexNfa where
  states := states.modify root.accept fun s => { s with accepting := true }
  start := root.start
  accept := root.accept

variable {states : List NfaState} {root : Frag} {l : Language UInt8}

theorem edgesOf_finished : edgesOf (finished states root).states x = edgesOf states x := by
  rw [finished, edgesOf, edgesOf, getElem?_modify]
  cases states[x]? with
  | none => rfl
  | some s => by_cases h : root.accept = x <;> simp [h]

/-- No state is accepting before the end. -/
def NoneAccepting (states : List NfaState) : Prop :=
  ∀ s ∈ states, s.accepting = false

theorem accepts_finished (hnone : NoneAccepting states) (hroot : root.accept < states.length) :
    (finished states root).accepts [x] = true ↔ x = root.accept := by
  rw [accepts, any_cons, any_nil, Bool.or_false, finished]
  rw [getElem?_modify]
  by_cases h : root.accept = x
  · subst h
    rw [getElem?_eq_getElem hroot]
    simp
  · cases hx : states[x]? with
    | none => simp [Ne.symm h]
    | some s => simp [h, Ne.symm h, hnone s (mem_of_getElem? hx)]

theorem toεNFA_accepts_finished (hbuilt : Built [] states root l) (hnone : NoneAccepting states) :
    (finished states root).WellFormed ∧ (finished states root).toεNFA.accepts = l := by
  obtain ⟨_, haccept⟩ := hbuilt.accept_bounds
  have hlength : (finished states root).states.length = states.length := by
    simp [finished]
  have hstep : ∀ x, (graph (finished states root).states).step x = (graph states).step x :=
    fun x => graph_step_congr edgesOf_finished
  refine ⟨⟨hlength ▸ hbuilt.start_bounds.2, ?_⟩, ?_⟩
  · intro x o y hy
    rw [hstep] at hy
    exact hlength ▸ (hbuilt.closed (Nat.zero_le x) hy).2
  · have hfinal : (finished states root).toεNFA.accept = {root.accept} := by
      ext s
      exact accepts_finished hnone haccept
    have hfragment : Fragment (finished states root).toεNFA
        (Set.Ico ([] : List NfaState).length states.length) root.start root.accept l :=
      hbuilt.fragment.transfer fun x _ _ => hstep x
    refine (accepts_eq_words rfl hfinal ?_).trans hfragment.words_eq
    intro o y hy
    change y ∈ (graph (finished states root).states).step root.accept o at hy
    rw [hstep] at hy
    exact not_step_of_edges_nil hbuilt.dead o y hy

theorem noneAccepting_walk : Walk fun _ p q => NoneAccepting p.1 → NoneAccepting q.1 where
  refl := id
  trans hpq hqr h := hqr (hpq h)
  weaken hpq := hpq
  newState h s hs := by
    rcases mem_append.mp hs with hs | hs
    · exact h s hs
    · rw [mem_singleton] at hs
      rw [hs]
  addEdge {states _ source target cls} h s hs := by
    obtain ⟨i, hi⟩ := mem_iff_getElem?.mp hs
    rw [addEdge, getElem?_modify] at hi
    obtain ⟨old, hold, rfl⟩ := Option.map_eq_some_iff.mp hi
    have hquiet := h old (mem_of_getElem? hold)
    by_cases heq : source = i <;> simp [heq, hquiet]
  copy hcopy := hcopy
  group hinner := hinner
  charClass _ := id
  escape := id
  plain _ := id

/-! ## Exactness -/

/-- The text of a tree compiles, and the state sets of the automaton decide its language. -/
theorem compile_language (t : Pattern) (hplain : t.Plain) :
    ∃ nfa, compile t.text = some nfa ∧ ∀ w, nfa.accepts (nfa.run w) = true ↔ w ∈ t.language := by
  obtain ⟨states, root, hparse, hbuilt⟩ := (patternReads t hplain).1 (t.text.length + 1) [] rfl rfl
    (by rw [append_nil]; omega) []
  rw [append_nil] at hparse
  have hnone : NoneAccepting states :=
    noneAccepting_walk.parseAlt (noneAccepting_walk.parseConcat (noneAccepting_walk.parseRepeat _))
      hparse fun _ hs => absurd hs not_mem_nil
  obtain ⟨hwf, hlanguage⟩ := toεNFA_accepts_finished hbuilt hnone
  refine ⟨finished states root, ?_, fun w => ?_⟩
  · rw [compile, hparse]
    rfl
  · rw [← hlanguage]
    exact accepts_run_iff hwf w

/-- The automaton compiled from the text of a tree decides the language of the tree. -/
theorem compile_exact (t : Pattern) (hplain : t.Plain) :
    ∃ nfa, compile t.text = some nfa ∧
      ∀ w, nfa.accepts (w.foldl nfa.step nfa.startSet) = true ↔ w ∈ t.language :=
  compile_language t hplain

/-- `(a|bc){2,3}\.` in the condition of the theorem. -/
def sampleTree : Pattern :=
  .last (.cons
    (.group true (.or (.cons (.byte 'a'.toUInt8) none .nil)
      (.last (.cons (.byte 'b'.toUInt8) none (.cons (.byte 'c'.toUInt8) none .nil)))))
    (some (.between 2 3 (by decide))) (.cons (.byte '.'.toUInt8) none .nil))

theorem compile_exact_repeated :
    sampleTree.text = ascii "(a|bc)\x7b2,3\x7d\\." ∧ sampleTree.Plain ∧
      ∃ nfa, compile sampleTree.text = some nfa ∧
        ∀ w, nfa.accepts (w.foldl nfa.step nfa.startSet) = true ↔ w ∈ sampleTree.language := by
  have hplain : sampleTree.Plain := by
    simp [sampleTree, Pattern.Plain, Branch.Plain, Atom.Plain, Quantifier.Fits, Quantifier.least,
      Quantifier.most]
  exact ⟨by decide +kernel, hplain, compile_exact sampleTree hplain⟩

/-- The class of the bytes from `A` to `]`, whose upper end needs a backslash. -/
def escapedRange : Pattern :=
  .last (.cons (.charClass false (.range 'A'.toUInt8 ']'.toUInt8 (by decide)) []) none .nil)

/-- Two to the power of 64 times the letter `a`. -/
def hugeRepeat : Pattern :=
  .last (.cons (.byte 'a'.toUInt8) (some (.exactly (2 ^ 64))) .nil)

/-- A range whose end is escaped is closed early, and a bound of 64 bits counts from zero again. -/
theorem escaped_range_misread :
    (escapedRange.text = ascii "[A-\\]]" ∧ ascii "]" ∈ escapedRange.language ∧
      ∃ nfa, compile escapedRange.text = some nfa ∧
        nfa.accepts ((ascii "]").foldl nfa.step nfa.startSet) = false ∧
        nfa.accepts ((ascii "A]").foldl nfa.step nfa.startSet) = true) ∧
    ([] ∉ hugeRepeat.language ∧
      ∃ nfa, compile hugeRepeat.text = some nfa ∧ nfa.accepts nfa.startSet = true) := by
  refine ⟨⟨by decide +kernel, ?_, ?_⟩, ?_, ?_⟩
  · refine ⟨ascii "]", ⟨']'.toUInt8, ?_, rfl⟩, [], rfl, rfl⟩
    decide
  · have hsome : (compile escapedRange.text).isSome = true := by decide +kernel
    obtain ⟨nfa, hnfa⟩ := Option.isSome_iff_exists.mp hsome
    have hruns : (compile escapedRange.text).all (fun nfa =>
        !nfa.accepts ((ascii "]").foldl nfa.step nfa.startSet) &&
          nfa.accepts ((ascii "A]").foldl nfa.step nfa.startSet)) = true := by decide +kernel
    rw [hnfa, Option.all_some, Bool.and_eq_true, Bool.not_eq_true'] at hruns
    exact ⟨nfa, hnfa, hruns⟩
  · rintro ⟨u, ⟨k, ⟨hk, _⟩, hu⟩, v, hv, heq⟩
    obtain ⟨rfl, rfl⟩ := append_eq_nil_iff.mp heq
    obtain ⟨k, rfl⟩ := Nat.exists_eq_succ_of_ne_zero (n := k) (by
      change 2 ^ 64 ≤ k at hk
      omega)
    rw [pow_succ'] at hu
    obtain ⟨a, ⟨b, _, rfl⟩, c, _, hnil⟩ := hu
    cases hnil
  · have hsome : (compile hugeRepeat.text).isSome = true := by decide +kernel
    obtain ⟨nfa, hnfa⟩ := Option.isSome_iff_exists.mp hsome
    have hruns : (compile hugeRepeat.text).all (fun nfa => nfa.accepts nfa.startSet) = true := by
      decide +kernel
    rw [hnfa, Option.all_some] at hruns
    exact ⟨nfa, hnfa, hruns⟩

end Quench.RegexNfa

import Mathlib.Algebra.BigOperators.Ring.Finset
import Quench.Compute.RegexNfa
import Quench.Compute.RegexSyntax
import Quench.Lib.Fragments

/-!
# What the compiler builds

The states built so far are the graph of an automaton. `Built` says of one parsing step that it only
added states, and that they form a fragment with a given language whose accepting state has no edges
yet. `Grown` says the same of what was appended behind a state. The theorems `built_*` and `Grown.*`
follow the constructions of the parser, for whatever the atom is.
-/

namespace Quench.RegexNfa

open Lib Regex Computability List

/-- The states as an automaton. -/
def graph (states : List NfaState) : εNFA UInt8 Nat where
  step x o :=
    match o with
    | none => {y | y ∈ silentEdges states x}
    | some c => {y | y ∈ letterEdges states c x}
  start := ∅
  accept := ∅

/-- Epsilon edges to the states of a list. -/
def epsilons (ys : List Nat) : List NfaEdge := ys.map fun y => { target := y, charClass := none }

variable {states states' states'' : List NfaState} {source target x : Nat}
  {cls : Option CharClass} {f : Frag} {l l' : Language UInt8}

/-! ## Edges -/

@[simp]
theorem length_newState : (newState states).length = states.length + 1 := by
  simp [newState]

@[simp]
theorem length_addEdge : (addEdge states source target cls).length = states.length := by
  simp [addEdge]

@[simp]
theorem length_addEpsilon : (addEpsilon states source target).length = states.length :=
  length_addEdge

theorem edgesOf_of_le (h : states.length ≤ x) : edgesOf states x = [] := by
  rw [edgesOf, getElem?_eq_none h]

@[simp]
theorem edgesOf_newState : edgesOf (newState states) x = edgesOf states x := by
  rw [edgesOf, edgesOf, newState]
  rcases lt_trichotomy x states.length with h | h | h
  · rw [getElem?_append_left h]
  · subst h
    simp
  · rw [getElem?_eq_none (by simp; omega), getElem?_eq_none (by omega)]

section

variable (hsource : source < states.length)
include hsource

theorem edgesOf_addEdge :
    edgesOf (addEdge states source target cls) x =
      if x = source then edgesOf states x ++ [⟨target, cls⟩] else edgesOf states x := by
  rw [edgesOf, edgesOf, addEdge, getElem?_modify]
  by_cases h : x = source
  · subst h
    simp [getElem?_eq_getElem hsource]
  · rw [if_neg h]
    simp [Ne.symm h]

theorem edgesOf_addEpsilon :
    edgesOf (addEpsilon states source target) x =
      if x = source then edgesOf states x ++ epsilons [target] else edgesOf states x :=
  edgesOf_addEdge hsource

theorem edgesOf_addEpsilon_same :
    edgesOf (addEpsilon states source target) source =
      edgesOf states source ++ epsilons [target] := by
  rw [edgesOf_addEpsilon hsource, if_pos rfl]

end

theorem edgesOf_addEpsilon_ne (hne : x ≠ source) :
    edgesOf (addEpsilon states source target) x = edgesOf states x := by
  rw [addEpsilon, addEdge, edgesOf, edgesOf, getElem?_modify]
  simp [Ne.symm hne]

theorem graph_step_congr (h : edgesOf states' x = edgesOf states x) :
    (graph states').step x = (graph states).step x := by
  ext o y
  cases o with
  | none => simp only [graph, silentEdges, h]
  | some c => simp only [graph, letterEdges, h]

variable {ys : List Nat} {atom : Frag} {n m : Int}

theorem silentTo_of_edges (h : edgesOf states x = epsilons ys) : SilentTo (graph states) x ys := by
  constructor
  · intro y
    simp [graph, silentEdges, h, epsilons]
  · intro c y
    simp [graph, letterEdges, h, epsilons]

theorem not_step_of_edges_nil (h : edgesOf states x = []) (o : Option UInt8) (y : Nat) :
    y ∉ (graph states).step x o := by
  cases o with
  | none => simp [graph, silentEdges, h]
  | some c => simp [graph, letterEdges, h]

/-! ## What one parsing step builds -/

/-- New states that form a fragment with a dead end. -/
structure Built (states states' : List NfaState) (f : Frag) (l : Language UInt8) : Prop where
  keeps : ∀ x < states.length, edgesOf states' x = edgesOf states x
  fragment : Fragment (graph states') (Set.Ico states.length states'.length) f.start f.accept l
  dead : edgesOf states' f.accept = []

namespace Built

variable (h : Built states states' f l)
include h

theorem start_bounds : states.length ≤ f.start ∧ f.start < states'.length :=
  h.fragment.start_mem

theorem accept_bounds : states.length ≤ f.accept ∧ f.accept < states'.length :=
  h.fragment.last_mem

/-- No edge leaves what was built. -/
theorem closed {o : Option UInt8} {y : Nat} (hx : states.length ≤ x)
    (hy : y ∈ (graph states').step x o) : states.length ≤ y ∧ y < states'.length := by
  by_cases hin : x < states'.length
  · by_cases hlast : x = f.accept
    · subst hlast
      exact absurd hy (not_step_of_edges_nil h.dead o y)
    · exact h.fragment.closed x ⟨hx, hin⟩ hlast o y hy
  · exact absurd hy (not_step_of_edges_nil (edgesOf_of_le (Nat.le_of_not_lt hin)) o y)

/-- The fragment is still there after edges were added at its end and elsewhere. -/
theorem fragment_in (hkeeps : ∀ x, states.length ≤ x → x < states'.length → x ≠ f.accept → edgesOf
      states'' x = edgesOf states' x) :
    Fragment (graph states'') (Set.Ico states.length states'.length) f.start f.accept l :=
  h.fragment.transfer fun x hx hne => graph_step_congr (hkeeps x hx.1 hx.2 hne)

end Built

theorem edgesOf_joined :
    edgesOf (joined states cls).1 x =
      if x = states.length then [⟨states.length + 1, cls⟩] else edgesOf states x := by
  rw [joined, edgesOf_addEdge (by simp only [length_newState]; omega)]
  by_cases h : x = states.length
  · subst h
    simp [edgesOf_of_le]
  · simp [h]

theorem length_joined : (joined states cls).1.length = states.length + 2 := by
  simp [joined]

theorem keeps_joined (hx : x < states.length) :
    edgesOf (joined states cls).1 x = edgesOf states x := by
  rw [edgesOf_joined, if_neg (by omega)]

theorem dead_joined : edgesOf (joined states cls).1 (states.length + 1) = [] := by
  rw [edgesOf_joined, if_neg (by omega), edgesOf_of_le (by omega)]

/-- An atom that takes one byte. -/
theorem built_joined_class (states : List NfaState) (cls : CharClass) :
    Built states (joined states (some cls)).1 (joined states (some cls)).2
      (oneByte fun b => cls b = true) where
  keeps _ hx := keeps_joined hx
  dead := dead_joined
  fragment := by
    have hsilent : ∀ y, y ∉ (graph (joined states (some cls)).1).step states.length none := by
      intro y
      simp [graph, silentEdges, edgesOf_joined]
    have hletter : ∀ c y, y ∈ (graph (joined states (some cls)).1).step states.length (some c) ↔
        cls c = true ∧ y = states.length + 1 := by
      intro c y
      change y ∈ letterEdges _ c states.length ↔ _
      rw [letterEdges, edgesOf_joined, if_pos rfl]
      by_cases hc : cls c = true <;> simp [hc]
    refine ⟨?_, ?_, ?_, words_letters (ne_of_lt (Nat.lt_succ_self _)) hsilent hletter⟩
    · rw [length_joined]
      exact ⟨le_rfl, Nat.lt_add_of_pos_right (by decide)⟩
    · rw [length_joined]
      exact ⟨Nat.le_succ _, Nat.lt_succ_self _⟩
    · rw [length_joined]
      rintro x ⟨hlo, hhi⟩ hne o y hy
      have hx : x = states.length := by
        change x ≠ states.length + 1 at hne
        omega
      subst hx
      cases o with
      | none => exact absurd hy (hsilent y)
      | some c =>
        obtain ⟨_, rfl⟩ := (hletter c y).mp hy
        exact ⟨Nat.le_succ _, Nat.lt_succ_self _⟩

/-- An atom that takes nothing. -/
theorem built_joined_epsilon (states : List NfaState) :
    Built states (joined states none).1 (joined states none).2 1 where
  keeps _ hx := keeps_joined hx
  dead := dead_joined
  fragment := by
    have hedges : edgesOf (joined states none).1 states.length = epsilons [states.length + 1] := by
      rw [edgesOf_joined, if_pos rfl]
      rfl
    have hregion : Set.Ico states.length (joined states none).1.length =
        insert states.length {states.length + 1} := by
      ext x
      simp only [length_joined, Set.mem_Ico, Set.mem_insert_iff, Set.mem_singleton_iff]
      omega
    rw [hregion]
    exact (Fragment.single (states.length + 1)).prepend (by simp) (silentTo_of_edges hedges)

/-! ## What is appended behind a state -/

/-- New states behind the state `cur`, which form a fragment with it. -/
structure Grown (states states' : List NfaState) (cur cur' : Nat) (l : Language UInt8) : Prop where
  le : states.length ≤ states'.length
  keeps : ∀ x < states.length, x ≠ cur → edgesOf states' x = edgesOf states x
  fragment : Fragment (graph states') (insert cur (Set.Ico states.length states'.length)) cur cur' l
  dead : edgesOf states' cur' = []

variable {cur cur' last : Nat}

/-- A fragment is appended with one edge. -/
theorem Built.attach (h : Built states states' f l) (hcur : cur < states.length)
    (hdead : edgesOf states cur = []) :
    Grown states (addEpsilon states' cur f.start) cur f.accept l := by
  obtain ⟨hstart, hstart'⟩ := h.start_bounds
  obtain ⟨haccept, haccept'⟩ := h.accept_bounds
  have hcur' : cur < states'.length := by omega
  refine ⟨by rw [length_addEpsilon]; omega, ?_, ?_, ?_⟩
  · intro x hx hne
    rw [edgesOf_addEpsilon_ne hne, h.keeps x hx]
  · rw [length_addEpsilon]
    refine (h.fragment_in ?_).prepend ?_ (silentTo_of_edges ?_)
    · intro x hx _ _
      exact edgesOf_addEpsilon_ne (by omega)
    · intro hin
      exact absurd hin.1 (by omega)
    · rw [edgesOf_addEpsilon_same hcur', h.keeps cur hcur, hdead, nil_append]
  · rw [edgesOf_addEpsilon_ne (by omega), h.dead]

namespace Grown

theorem refl (hcur : edgesOf states cur = []) : Grown states states cur cur 1 where
  le := le_rfl
  keeps _ _ _ := rfl
  fragment := by
    rw [Set.Ico_self, insert_empty_eq]
    exact .single cur
  dead := hcur

section

variable (h : Grown states states' cur cur' l)
include h

theorem last_cases : cur' = cur ∨ states.length ≤ cur' ∧ cur' < states'.length :=
  h.fragment.last_mem

theorem last_lt (hcur : cur < states.length) : cur' < states'.length := by
  have hle := h.le
  rcases h.last_cases with rfl | ⟨_, hlt⟩
  · omega
  · exact hlt

/-- What is appended behind what was appended. -/
theorem trans (h' : Grown states' states'' cur' last l') (hcur : cur < states.length) :
    Grown states states'' cur last (l * l') := by
  have hle := h.le
  have hle' := h'.le
  have hend := h.last_cases
  refine ⟨le_trans hle hle', ?_, ?_, h'.dead⟩
  · intro x hx hne
    rw [h'.keeps x (by omega) (by omega), h.keeps x hx hne]
  · have hfirst : Fragment (graph states'')
        (insert cur (Set.Ico states.length states'.length)) cur cur' l := by
      refine h.fragment.transfer fun x hx hne => graph_step_congr (h'.keeps x ?_ hne)
      rcases hx with rfl | hx
      · omega
      · exact hx.2
    have hcommon : ∀ y ∈ insert cur (Set.Ico states.length states'.length),
        y ∈ insert cur' (Set.Ico states'.length states''.length) → y = cur' := by
      rintro y hy (rfl | hy')
      · rfl
      · have := hy'.1
        rcases hy with rfl | hy
        · omega
        · exact absurd hy.2 (by omega)
    have hregion : insert cur (Set.Ico states.length states''.length) =
        insert cur (Set.Ico states.length states'.length) ∪
          insert cur' (Set.Ico states'.length states''.length) := by
      ext y
      simp only [Set.mem_insert_iff, Set.mem_union, Set.mem_Ico]
      omega
    rw [hregion]
    exact hfirst.chain h'.fragment hcommon

end

/-- What was appended behind a new state. -/
theorem built (h : Grown (newState states) states' states.length cur' l) :
    Built states states' ⟨states.length, cur'⟩ l where
  keeps x hx := by
    rw [h.keeps x (by rw [length_newState]; omega) (by omega), edgesOf_newState]
  fragment := by
    have hle := h.le
    rw [length_newState] at hle
    have hregion : Set.Ico states.length states'.length =
        insert states.length (Set.Ico (newState states).length states'.length) := by
      ext x
      simp only [length_newState, Set.mem_Ico, Set.mem_insert_iff]
      omega
    rw [hregion]
    exact h.fragment
  dead := h.dead

end Grown

/-! ## Quantifiers of one character -/

/-- The atom between two new states, with the edges that a quantifier adds. -/
theorem Built.around {zs : List Nat} (h : Built states states' f l)
    (hlength : states''.length = states'.length + 2)
    (hkeeps : ∀ x < states'.length, x ≠ f.accept → edgesOf states'' x = edgesOf states' x)
    (hfirst : edgesOf states'' states'.length = epsilons ys)
    (hlast : edgesOf states'' f.accept = epsilons zs)
    (hfinal : edgesOf states'' (states'.length + 1) = [])
    (hys : ∀ y ∈ ys, y = f.start ∨ y = states'.length + 1)
    (hzs : ∀ z ∈ zs, z = f.start ∨ z = states'.length + 1) :
    Built states states'' ⟨states'.length, states'.length + 1⟩
      (words (graph states'') (states'.length + 1) states'.length) where
  keeps x hx := by
    obtain ⟨haccept, haccept'⟩ := h.accept_bounds
    rw [hkeeps x (by omega) (by omega), h.keeps x hx]
  fragment := by
    obtain ⟨haccept, haccept'⟩ := h.accept_bounds
    have hregion : Set.Ico states.length states''.length =
        insert states'.length (insert (states'.length + 1)
          (Set.Ico states.length states'.length)) := by
      ext x
      simp only [hlength, Set.mem_Ico, Set.mem_insert_iff]
      omega
    rw [hregion]
    exact (h.fragment_in fun x _ hx hne => hkeeps x hx hne).around
      (silentTo_of_edges hfirst) (silentTo_of_edges hlast) hys hzs
  dead := hfinal

variable (q : UInt8)

/-- How often the quantifiers of one character repeat, as languages. -/
def shortLanguage (l : Language UInt8) : Language UInt8 :=
  if q = '*'.toUInt8 then l∗ else if q = '+'.toUInt8 then l * l∗ else l + 1

theorem length_quantified (atom : Frag) :
    (quantified q states atom).1.length = states.length + 2 := by
  unfold quantified
  split_ifs <;> simp

theorem quantified_frag (atom : Frag) :
    (quantified q states atom).2 = ⟨states.length, states.length + 1⟩ := by
  unfold quantified
  split_ifs <;> rfl

/-- The edges of the first new state. -/
def firstEdges (start final : Nat) : List Nat :=
  if q = '+'.toUInt8 then [start] else [start, final]

/-- The edges of the atom's last state. -/
def lastEdges (start final : Nat) : List Nat :=
  if q = '*'.toUInt8 ∨ q = '+'.toUInt8 then [start, final] else [final]

theorem edgesOf_quantified {q : UInt8} (haccept : atom.accept < states.length) :
    edgesOf (quantified q states atom).1 x =
      if x = states.length then epsilons (firstEdges q atom.start (states.length + 1))
      else if x = atom.accept then
        edgesOf states x ++ epsilons (lastEdges q atom.start (states.length + 1))
      else edgesOf states x := by
  have hplus : ('*'.toUInt8 : UInt8) ≠ '+'.toUInt8 := by decide
  have hnew : edgesOf states states.length = [] := edgesOf_of_le (le_rfl)
  have hne : states.length ≠ atom.accept := by omega
  have hlt : states.length < states.length + 2 := by omega
  have hlt' : atom.accept < states.length + 2 := by omega
  unfold quantified firstEdges lastEdges
  by_cases hstar : q = '*'.toUInt8
  · subst hstar
    by_cases hs : x = states.length
    · subst hs
      simp [edgesOf_addEpsilon, epsilons, hlt, hlt', hne, hnew, hplus]
    · by_cases ha : x = atom.accept <;>
        simp [edgesOf_addEpsilon, epsilons, hlt, hlt', hs, ha, Ne.symm hne]
  · by_cases hq : q = '+'.toUInt8
    · subst hq
      by_cases hs : x = states.length
      · subst hs
        simp [edgesOf_addEpsilon, epsilons, hlt, hlt', hne, hnew, Ne.symm hplus]
      · by_cases ha : x = atom.accept <;>
          simp [edgesOf_addEpsilon, epsilons, hlt, hlt', hs, ha, Ne.symm hne, Ne.symm hplus]
    · by_cases hs : x = states.length
      · subst hs
        simp [edgesOf_addEpsilon, epsilons, hlt, hlt', hne, hnew, hstar, hq]
      · by_cases ha : x = atom.accept <;>
          simp [edgesOf_addEpsilon, epsilons, hlt, hlt', hs, ha, Ne.symm hne, hstar, hq]

theorem built_quantified (h : Built states states' f l) :
    Built states (quantified q states' f).1 (quantified q states' f).2 (shortLanguage q l) := by
  obtain ⟨haccept, haccept'⟩ := h.accept_bounds
  have hne : f.accept ≠ states'.length := by omega
  have hfirst : edgesOf (quantified q states' f).1 states'.length =
      epsilons (firstEdges q f.start (states'.length + 1)) := by
    rw [edgesOf_quantified haccept', if_pos rfl]
  have hlast : edgesOf (quantified q states' f).1 f.accept =
      epsilons (lastEdges q f.start (states'.length + 1)) := by
    rw [edgesOf_quantified haccept', if_neg hne, if_pos rfl, h.dead, nil_append]
  have hkeeps : ∀ x < states'.length, x ≠ f.accept →
      edgesOf (quantified q states' f).1 x = edgesOf states' x := by
    intro x hx hx'
    rw [edgesOf_quantified haccept', if_neg (by omega), if_neg hx']
  have hbuilt := h.around (length_quantified q f) hkeeps hfirst hlast
    (by rw [edgesOf_quantified haccept', if_neg (by omega), if_neg (by omega),
      edgesOf_of_le (by omega)])
    (by unfold firstEdges; split_ifs <;> simp)
    (by unfold lastEdges; split_ifs <;> simp)
  rw [quantified_frag]
  convert hbuilt using 1
  -- the words through the fragment, from its inner fragment and the new edges
  have hinner := h.fragment_in fun x _ hx hne => hkeeps x hx hne
  have hout : states'.length + 1 ∉ Set.Ico states.length states'.length := by
    rintro ⟨_, hlt⟩
    omega
  have hthrough := hinner.words_through fun hin => absurd hin hout
  rw [words_silentTo (silentTo_of_edges hfirst) (by omega)]
  unfold shortLanguage firstEdges
  unfold lastEdges at hlast
  by_cases hstar : q = '*'.toUInt8
  · have hplus : q ≠ '+'.toUInt8 := by
      rw [hstar]
      decide
    rw [if_pos (.inl hstar)] at hlast
    have hloop := hinner.words_loop hout (silentTo_of_edges hlast)
    rw [if_pos hstar, if_neg hplus, map_cons, map_singleton, sum_cons,
      sum_singleton, words_goal, hthrough, hloop, add_comm,
      Language.one_add_self_mul_kstar_eq_kstar]
  · by_cases hplus : q = '+'.toUInt8
    · rw [if_pos (.inr hplus)] at hlast
      have hloop := hinner.words_loop hout (silentTo_of_edges hlast)
      rw [if_neg hstar, if_pos hplus, if_pos hplus, map_singleton, sum_singleton,
        hthrough, hloop]
    · rw [if_neg (by simp [hstar, hplus])] at hlast
      have hexit : words (graph (quantified q states' f).1) (states'.length + 1) f.accept = 1 := by
        rw [words_silentTo (silentTo_of_edges hlast) (by omega), map_singleton,
          sum_singleton, words_goal]
      rw [if_neg hstar, if_neg hplus, if_neg hplus, map_cons, map_singleton,
        sum_cons, sum_singleton, words_goal, hthrough, hexit, mul_one]

/-! ## Bounded repetition -/

/-- Reading the atom again builds a fragment for it. -/
def Clones (cloneAtom : List NfaState → Option (List NfaState × Frag)) (l : Language UInt8) :
    Prop :=
  ∀ states, ∃ states' f, cloneAtom states = some (states', f) ∧ Built states states' f l

variable {cloneAtom : List NfaState → Option (List NfaState × Frag)}

theorem grown_mandatory (hclone : Clones cloneAtom l) (count : Nat) (hcur : cur < states.length)
    (hdead : edgesOf states cur = []) :
    ∃ states' cur', mandatoryCopies cloneAtom count states cur = some (states', cur') ∧
      Grown states states' cur cur' (l ^ count) := by
  induction count generalizing states cur with
  | zero => exact ⟨states, cur, rfl, by simpa using Grown.refl hdead⟩
  | succ count ih =>
    obtain ⟨built, f, heq, hbuilt⟩ := hclone states
    have hattach := hbuilt.attach hcur hdead
    obtain ⟨states', cur', hrest, hgrown⟩ := ih (hattach.last_lt hcur) hattach.dead
    refine ⟨states', cur', ?_, ?_⟩
    · rw [mandatoryCopies, heq]
      exact hrest
    · rw [pow_succ']
      exact hattach.trans hgrown hcur

/-- Copies that may be left for the state `a` at any time. -/
structure Exits (states states' : List NfaState) (cur a : Nat) (l : Language UInt8) : Prop where
  le : states.length ≤ states'.length
  keeps : ∀ x < states.length, x ≠ cur → edgesOf states' x = edgesOf states x
  closed : ∀ x, x = cur ∨ states.length ≤ x → ∀ o y, y ∈ (graph states').step x o →
    y = a ∨ states.length ≤ y ∧ y < states'.length
  words_eq : words (graph states') a cur = l

theorem exits_optional (hclone : Clones cloneAtom l) {a : Nat} (count : Nat)
    (hcur : cur < states.length) (ha : a < states.length) (hne : cur ≠ a)
    (hdead : edgesOf states cur = []) :
    ∃ states' cur', optionalCopies cloneAtom a count states cur = some (states', cur') ∧
      Exits states (addEpsilon states' cur' a) cur a (∑ i ∈ Finset.range (count + 1), l ^ i) := by
  induction count generalizing states cur with
  | zero =>
    refine ⟨states, cur, rfl, ?_⟩
    have hedges : edgesOf (addEpsilon states cur a) cur = epsilons [a] := by
      rw [edgesOf_addEpsilon_same hcur, hdead, nil_append]
    refine ⟨by rw [length_addEpsilon], fun x _ hx => edgesOf_addEpsilon_ne hx, ?_, ?_⟩
    · rintro x (rfl | hx) o y hy
      · exact .inl (mem_singleton.mp ((silentTo_of_edges hedges).mem hy))
      · refine absurd hy (not_step_of_edges_nil ?_ o y)
        rw [edgesOf_addEpsilon_ne (by omega), edgesOf_of_le hx]
    · rw [words_silentTo (silentTo_of_edges hedges) hne]
      simp
  | succ count ih =>
    obtain ⟨built, f, heq, hbuilt⟩ := hclone states
    obtain ⟨hstart, hstart'⟩ := hbuilt.start_bounds
    obtain ⟨haccept, haccept'⟩ := hbuilt.accept_bounds
    have hcur' : cur < built.length := by omega
    have hlinked : edgesOf (addEpsilon (addEpsilon built cur f.start) cur a) cur =
        epsilons [f.start, a] := by
      rw [edgesOf_addEpsilon_same (by rw [length_addEpsilon]; exact hcur'),
        edgesOf_addEpsilon_same hcur', hbuilt.keeps cur hcur, hdead]
      rfl
    have hothers : ∀ x, x ≠ cur →
        edgesOf (addEpsilon (addEpsilon built cur f.start) cur a) x = edgesOf built x := by
      intro x hx
      rw [edgesOf_addEpsilon_ne hx, edgesOf_addEpsilon_ne hx]
    obtain ⟨states', cur', hrest, hexits⟩ :=
      @ih (addEpsilon (addEpsilon built cur f.start) cur a) f.accept
        (by simpa using haccept') (by simp; omega) (by omega)
        (by rw [hothers _ (by omega), hbuilt.dead])
    have hle : built.length ≤ (addEpsilon states' cur' a).length := by
      simpa using hexits.le
    have hkept : ∀ x < built.length, x ≠ f.accept → x ≠ cur →
        edgesOf (addEpsilon states' cur' a) x = edgesOf built x := by
      intro x hx hx' hx''
      rw [hexits.keeps x (by simpa using hx) hx', hothers x hx'']
    have hedges : edgesOf (addEpsilon states' cur' a) cur = epsilons [f.start, a] := by
      rw [hexits.keeps cur (by simpa using hcur') (by omega), hlinked]
    refine ⟨states', cur', ?_, ?_, ?_, ?_, ?_⟩
    · rw [optionalCopies, heq]
      exact hrest
    · omega
    · intro x hx hx'
      rw [hkept x (by omega) (by omega) hx', hbuilt.keeps x hx]
    · intro x hx o y hy
      by_cases hxcur : x = cur
      · subst hxcur
        have := mem_pair.mp ((silentTo_of_edges hedges).mem hy)
        omega
      · have hx' : states.length ≤ x := hx.resolve_left hxcur
        by_cases hin : x < built.length ∧ x ≠ f.accept
        · rw [graph_step_congr (hkept x hin.1 hin.2 hxcur)] at hy
          have := hbuilt.closed hx' hy
          omega
        · have := hexits.closed x (by rw [length_addEpsilon, length_addEpsilon]; omega) o y hy
          rw [length_addEpsilon, length_addEpsilon] at this
          omega
    · have hinner : Fragment (graph (addEpsilon states' cur' a))
          (Set.Ico states.length built.length) f.start f.accept l :=
        hbuilt.fragment_in fun x hx hx' hx'' => hkept x hx' hx'' (by omega)
      rw [words_silentTo (silentTo_of_edges hedges) hne, map_cons, map_singleton,
        sum_cons, sum_singleton, words_goal,
        hinner.words_through fun hin => absurd hin.1 (by omega), hexits.words_eq,
        Finset.sum_range_succ' _ (count + 1), Finset.mul_sum, pow_zero]
      simp_rw [pow_succ']

/-- The language behind the mandatory copies. -/
def tailLanguage (n m : Int) (l : Language UInt8) : Language UInt8 :=
  if m < 0 then l∗ else ∑ i ∈ Finset.range ((m - n).toNat + 1), l ^ i

/-- The loop behind the mandatory copies, around a fragment that was just built. -/
def loopTail (built : List NfaState) (cur a : Nat) (f : Frag) : List NfaState :=
  let ls := built.length
  let states := addEpsilon (newState built) cur ls
  let states := addEpsilon (addEpsilon states ls f.start) ls a
  addEpsilon (addEpsilon states f.accept f.start) f.accept a

variable {built : List NfaState} {a : Nat}

theorem length_loopTail : (loopTail built cur a f).length = built.length + 1 := by
  simp [loopTail]

theorem edgesOf_loopTail (hcur : cur < built.length) (haccept : f.accept < built.length)
    (hne : f.accept ≠ cur) (hdead : edgesOf built cur = []) (hdead' : edgesOf built f.accept = []) :
    edgesOf (loopTail built cur a f) x =
      if x = cur then epsilons [built.length]
      else if x = built.length then epsilons [f.start, a]
      else if x = f.accept then epsilons [f.start, a]
      else edgesOf built x := by
  have hls : built.length < built.length + 1 := by omega
  have hcur' : cur < built.length + 1 := by omega
  have haccept' : f.accept < built.length + 1 := by omega
  have hnew : edgesOf built built.length = [] := edgesOf_of_le (le_rfl)
  unfold loopTail
  by_cases hx : x = cur
  · subst hx
    have h1 : x ≠ built.length := by omega
    simp [edgesOf_addEpsilon, epsilons, hls, hcur', haccept', hdead, h1, Ne.symm hne]
  · by_cases hx' : x = built.length
    · subst hx'
      have h1 : built.length ≠ f.accept := by omega
      simp [edgesOf_addEpsilon, epsilons, hls, hcur', haccept', hnew, hx, h1]
    · by_cases hx'' : x = f.accept
      · subst hx''
        simp [edgesOf_addEpsilon, epsilons, hls, hcur', haccept', hdead', hx, hx']
      · simp [edgesOf_addEpsilon, hls, hcur', haccept', hx, hx', hx'']

theorem grown_loopTail (hbuilt : Built (newState states) built f l) (hcur : cur < states.length)
    (hdead : edgesOf states cur = []) :
    Grown states (loopTail built cur states.length f) cur states.length (l∗) := by
  obtain ⟨hstart, hstart'⟩ := hbuilt.start_bounds
  obtain ⟨haccept, haccept'⟩ := hbuilt.accept_bounds
  rw [length_newState] at hstart haccept
  have hkept : ∀ x ≤ states.length, edgesOf built x = edgesOf states x := by
    intro x hx
    rw [hbuilt.keeps x (by rw [length_newState]; omega), edgesOf_newState]
  have hedges : ∀ x, edgesOf (loopTail built cur states.length f) x = _ := fun x =>
    edgesOf_loopTail (by omega) haccept' (by omega) (by rw [hkept cur (by omega), hdead])
      hbuilt.dead
  have hcurTo := silentTo_of_edges ((hedges cur).trans (if_pos rfl))
  have hlsTo : SilentTo (graph (loopTail built cur states.length f)) built.length
      [f.start, states.length] := by
    refine silentTo_of_edges ?_
    rw [hedges, if_neg (by omega), if_pos rfl]
  have hlastTo : SilentTo (graph (loopTail built cur states.length f)) f.accept
      [f.start, states.length] := by
    refine silentTo_of_edges ?_
    rw [hedges, if_neg (by omega), if_neg (by omega), if_pos rfl]
  have hinner : Fragment (graph (loopTail built cur states.length f))
      (Set.Ico (states.length + 1) built.length) f.start f.accept l := by
    rw [← length_newState]
    refine hbuilt.fragment_in fun x hx hx' hne => ?_
    rw [length_newState] at hx
    rw [hedges, if_neg (by omega), if_neg (by omega), if_neg hne]
  have hout : states.length ∉ Set.Ico (states.length + 1) built.length := by
    rintro ⟨hlt, _⟩
    omega
  have hround : Fragment (graph (loopTail built cur states.length f))
      (insert built.length (insert states.length (Set.Ico (states.length + 1) built.length)))
      built.length states.length (l∗) := by
    have hwords : words (graph (loopTail built cur states.length f)) states.length built.length =
        l∗ := by
      rw [words_silentTo hlsTo (by omega), map_cons, map_singleton, sum_cons,
        sum_singleton, words_goal, hinner.words_through fun hin => absurd hin hout,
        hinner.words_loop hout hlastTo, add_comm, Language.one_add_self_mul_kstar_eq_kstar]
    rw [← hwords]
    exact hinner.around hlsTo hlastTo (by simp) (by simp)
  refine ⟨by rw [length_loopTail]; omega, ?_, ?_, ?_⟩
  · intro x hx hne
    rw [hedges, if_neg hne, if_neg (by omega), if_neg (by omega), hkept x (by omega)]
  · have hregion : insert cur (Set.Ico states.length (loopTail built cur states.length f).length) =
        insert cur (insert built.length (insert states.length
          (Set.Ico (states.length + 1) built.length))) := by
      ext x
      simp only [length_loopTail, Set.mem_insert_iff, Set.mem_Ico]
      omega
    rw [hregion]
    refine hround.prepend ?_ hcurTo
    simp only [Set.mem_insert_iff, Set.mem_Ico]
    omega
  · rw [hedges, if_neg (by omega), if_neg (by omega), if_neg (by omega), hkept _ (le_rfl),
      edgesOf_of_le (le_rfl)]

theorem Exits.grown (h : Exits (newState states) states' cur states.length l)
    (hcur : cur < states.length) : Grown states states' cur states.length l := by
  have hle := h.le
  rw [length_newState] at hle
  refine ⟨by omega, ?_, ⟨.inl rfl, .inr ⟨le_rfl, by omega⟩, ?_, h.words_eq⟩, ?_⟩
  · intro x hx hne
    rw [h.keeps x (by rw [length_newState]; omega) hne, edgesOf_newState]
  · intro x hx hne o y hy
    have hin : x = cur ∨ (newState states).length ≤ x := by
      rcases hx with rfl | hx
      · exact .inl rfl
      · have := hx.1
        rw [length_newState]
        omega
    rcases h.closed x hin o y hy with rfl | ⟨hlo, hhi⟩
    · exact .inr ⟨le_rfl, by omega⟩
    · rw [length_newState] at hlo
      exact .inr ⟨by omega, hhi⟩
  · rw [h.keeps _ (by rw [length_newState]; omega) (by omega), edgesOf_newState,
      edgesOf_of_le (le_rfl)]

/-- What `finishBounded` builds behind the mandatory copies. -/
theorem grown_finish (hclone : Clones cloneAtom l) (n m : Int) (hcur : cur < states.length)
    (hdead : edgesOf states cur = []) :
    ∃ states' a, finishBounded cloneAtom n m states cur = some (states', a) ∧
      Grown states states' cur a (tailLanguage n m l) := by
  unfold finishBounded tailLanguage
  by_cases hm : m < 0
  · rw [if_pos hm, if_pos hm]
    obtain ⟨built, f, heq, hbuilt⟩ := hclone (newState states)
    exact ⟨_, _, by rw [heq]; rfl, grown_loopTail hbuilt hcur hdead⟩
  · rw [if_neg hm, if_neg hm]
    obtain ⟨states', cur', heq, hexits⟩ := exits_optional hclone (m - n).toNat
      (show cur < (newState states).length by rw [length_newState]; omega)
      (show states.length < (newState states).length by rw [length_newState]; omega)
      (by omega) (by rw [edgesOf_newState, hdead])
    exact ⟨_, _, by rw [heq]; rfl, hexits.grown hcur⟩

theorem bounded_pos (h : 1 ≤ n) :
    bounded cloneAtom n m states atom =
      (mandatoryCopies cloneAtom (n - 1).toNat
        (addEpsilon (newState states) states.length atom.start) atom.accept).bind fun copied =>
          (finishBounded cloneAtom n m copied.1 copied.2).map fun done =>
            (done.1, ⟨states.length, done.2⟩) := by
  simp only [bounded, if_pos h]

theorem bounded_zero :
    bounded cloneAtom 0 m states atom =
      (finishBounded cloneAtom 0 m (newState states) states.length).map fun done =>
        (done.1, ⟨states.length, done.2⟩) := by
  simp [bounded, mandatoryCopies]

/-- What is built behind a fragment that stays unused. -/
theorem Built.skip (h : Built states states' f l) (h' : Built states' states'' atom l') :
    Built states states'' atom l' := by
  obtain ⟨haccept, haccept'⟩ := h.accept_bounds
  obtain ⟨hstart, hstart'⟩ := h'.start_bounds
  refine ⟨fun x hx => by rw [h'.keeps x (by omega), h.keeps x hx], ?_, h'.dead⟩
  refine h'.fragment.enlarge (Set.Ico_subset_Ico_left (by omega)) fun x hx hout o y hy => ?_
  have hlt : x < states'.length := by
    by_contra hge
    exact hout ⟨Nat.le_of_not_lt hge, hx.2⟩
  rw [graph_step_congr (h'.keeps x hlt)] at hy
  obtain ⟨hle, hlt'⟩ := h.closed hx.1 hy
  exact ⟨hle, by omega⟩

/-- What a bounded repetition builds around an atom. -/
theorem built_bounded (hclone : Clones cloneAtom l) (hn : 0 ≤ n) (h : Built states states' f l) :
    ∃ states'' g, bounded cloneAtom n m states' f = some (states'', g) ∧
      Built states states'' g (l ^ n.toNat * tailLanguage n m l) := by
  obtain ⟨haccept, haccept'⟩ := h.accept_bounds
  obtain ⟨hstart, hstart'⟩ := h.start_bounds
  by_cases hpos : 1 ≤ n
  · -- the atom itself is the first mandatory copy
    rw [bounded_pos hpos]
    set linked := addEpsilon (newState states') states'.length f.start with hlinked
    have hedges : ∀ x, x ≠ states'.length → edgesOf linked x = edgesOf states' x := by
      intro x hx
      rw [hlinked, edgesOf_addEpsilon_ne hx, edgesOf_newState]
    have hlength : linked.length = states'.length + 1 := by
      rw [hlinked, length_addEpsilon, length_newState]
    obtain ⟨copied, cur, hcopies, hmandatory⟩ := grown_mandatory hclone (n - 1).toNat
      (show f.accept < linked.length by omega) (by rw [hedges _ (by omega), h.dead])
    obtain ⟨final, a, hfinish, htail⟩ := grown_finish hclone n m
      (hmandatory.last_lt (by omega)) hmandatory.dead
    have hgrown := hmandatory.trans htail (by omega)
    have hle := hgrown.le
    have hkept : ∀ x < linked.length, x ≠ f.accept → edgesOf final x = edgesOf linked x :=
      hgrown.keeps
    refine ⟨final, ⟨states'.length, a⟩, by rw [hcopies, Option.bind_some, hfinish]; rfl, ?_, ?_, ?_⟩
    · intro x hx
      rw [hkept x (by omega) (by omega), hedges x (by omega), h.keeps x hx]
    · have hfirst : Fragment (graph final)
          (insert states'.length (Set.Ico states.length states'.length)) states'.length f.accept
          l := by
        refine (h.fragment_in fun x _ hx hne => ?_).prepend ?_ (silentTo_of_edges ?_)
        · rw [hkept x (by omega) hne, hedges x (by omega)]
        · rintro ⟨_, hlt⟩
          omega
        · rw [hkept _ (by omega) (by omega), hlinked, edgesOf_addEpsilon_same (by simp),
            edgesOf_newState, edgesOf_of_le (le_rfl), nil_append]
      have hregion : Set.Ico states.length final.length =
          insert states'.length (Set.Ico states.length states'.length) ∪
            insert f.accept (Set.Ico linked.length final.length) := by
        ext x
        simp only [hlength, Set.mem_union, Set.mem_insert_iff, Set.mem_Ico]
        omega
      have hpow : l ^ n.toNat * tailLanguage n m l =
          l * (l ^ (n - 1).toNat * tailLanguage n m l) := by
        rw [← mul_assoc, ← pow_succ', show (n - 1).toNat + 1 = n.toNat by omega]
      rw [hregion, hpow]
      refine hfirst.chain hgrown.fragment ?_
      intro y hy hy'
      simp only [hlength, Set.mem_insert_iff, Set.mem_Ico] at hy hy'
      omega
    · exact hgrown.dead
  · -- without a mandatory copy the atom that was read stays unused
    have hzero : n = 0 := by omega
    subst hzero
    rw [bounded_zero]
    obtain ⟨final, a, hfinish, htail⟩ := grown_finish hclone 0 m
      (show states'.length < (newState states').length by rw [length_newState]; omega)
      (by rw [edgesOf_newState, edgesOf_of_le (le_rfl)])
    refine ⟨final, ⟨states'.length, a⟩, by rw [hfinish]; rfl, ?_⟩
    rw [show (0 : Int).toNat = 0 from rfl, pow_zero, one_mul]
    exact h.skip htail.built

/-! ## Alternation -/

/-- New branches between the states `s` and `a`. -/
structure Branches (states states' : List NfaState) (s a : Nat) (l : Language UInt8) : Prop where
  le : states.length ≤ states'.length
  keeps : ∀ x < states.length, x ≠ s → edgesOf states' x = edgesOf states x
  starts : ∃ zs, edgesOf states' s = edgesOf states s ++ epsilons zs ∧
    (zs.map (words (graph states') a)).sum = l ∧
    ∀ z ∈ zs, states.length ≤ z ∧ z < states'.length
  closed : ∀ x, states.length ≤ x → ∀ o y, y ∈ (graph states').step x o →
    y = a ∨ states.length ≤ y ∧ y < states'.length

variable {s : Nat} {next : Frag}

theorem Branches.refl : Branches states states s a 0 where
  le := le_rfl
  keeps _ _ _ := rfl
  starts := ⟨[], by simp [epsilons], rfl, by simp⟩
  closed x hx o y hy := absurd hy (not_step_of_edges_nil (edgesOf_of_le hx) o y)

section

variable (hbuilt : Built states built next l)
include hbuilt

/-- The edges of the end of a branch. -/
theorem silentTo_exit
    (hkept : edgesOf states' next.accept = edgesOf (addEpsilon built next.accept a) next.accept) :
    SilentTo (graph states') next.accept [a] := by
  refine silentTo_of_edges ?_
  rw [hkept, edgesOf_addEpsilon_same hbuilt.accept_bounds.2, hbuilt.dead, nil_append]

/-- The words of a branch whose end leads to the state `a`. -/
theorem words_branch (hinner : ∀ x, states.length ≤ x → x < built.length → x ≠ next.accept → edgesOf
      states' x = edgesOf built x) (hexit : SilentTo (graph states') next.accept [a])
    (ha : a < states.length ∨ built.length ≤ a) : words (graph states') a next.start = l := by
  obtain ⟨haccept, haccept'⟩ := hbuilt.accept_bounds
  have hout : a ∉ Set.Ico states.length built.length := by
    rintro ⟨hlo, hhi⟩
    omega
  rw [(hbuilt.fragment_in hinner).words_through fun hin => absurd hin hout,
    words_silentTo hexit (by omega), map_singleton, sum_singleton, words_goal, mul_one]

theorem Branches.cons (hs : s < states.length) (ha : a < states.length)
    (h : Branches (addEpsilon (addEpsilon built s next.start) next.accept a) states' s a l') :
    Branches states states' s a (l + l') := by
  obtain ⟨haccept, haccept'⟩ := hbuilt.accept_bounds
  obtain ⟨hstart, hstart'⟩ := hbuilt.start_bounds
  have hle := h.le
  rw [length_addEpsilon, length_addEpsilon] at hle
  obtain ⟨zs, hzs, hsum, hbounds⟩ := h.starts
  rw [length_addEpsilon, length_addEpsilon] at hbounds
  have hkept : ∀ x < built.length, x ≠ s →
      edgesOf states' x = edgesOf (addEpsilon built next.accept a) x := by
    intro x hx hx'
    rw [h.keeps x (by simpa using hx) hx', edgesOf_addEpsilon (by simpa using haccept'),
      edgesOf_addEpsilon haccept', edgesOf_addEpsilon_ne hx']
  have hinner : ∀ x, states.length ≤ x → x < built.length → x ≠ next.accept →
      edgesOf states' x = edgesOf built x := by
    intro x hx hx' hx''
    rw [hkept x hx' (by omega), edgesOf_addEpsilon_ne hx'']
  have hexit := silentTo_exit hbuilt (hkept _ haccept' (by omega))
  refine ⟨by omega, ?_, ⟨next.start :: zs, ?_, ?_, ?_⟩, ?_⟩
  · intro x hx hx'
    rw [hkept x (by omega) hx', edgesOf_addEpsilon_ne (by omega), hbuilt.keeps x hx]
  · rw [hzs, edgesOf_addEpsilon_ne (by omega), edgesOf_addEpsilon_same (by omega),
      hbuilt.keeps s hs, append_assoc]
    rfl
  · rw [map_cons, sum_cons, hsum, words_branch hbuilt hinner hexit (.inl ha)]
  · intro z hz
    rcases mem_cons.mp hz with rfl | hz
    · omega
    · have := hbounds z hz
      omega
  · intro x hx o y hy
    by_cases hin : x < built.length
    · by_cases hlast : x = next.accept
      · subst hlast
        exact .inl (mem_singleton.mp (hexit.mem hy))
      · rw [graph_step_congr (hinner x hx hin hlast)] at hy
        have := hbuilt.closed hx hy
        omega
    · have := h.closed x (by simp; omega) o y hy
      simp only [length_addEpsilon] at this
      omega

end

/-- The states before the loop of `parse_alt`. -/
def altHead (states : List NfaState) (first : Frag) : List NfaState :=
  addEpsilon (addEpsilon (newState (newState states)) states.length first.start) first.accept
    (states.length + 1)

theorem built_alt (h : Built states built f l)
    (hmore : Branches (altHead built f) states' built.length (built.length + 1) l') :
    Built states states' ⟨built.length, built.length + 1⟩ (l + l') := by
  obtain ⟨haccept, haccept'⟩ := h.accept_bounds
  obtain ⟨hstart, hstart'⟩ := h.start_bounds
  have hlength : (altHead built f).length = built.length + 2 := by simp [altHead]
  have hle := hmore.le
  obtain ⟨zs, hzs, hsum, hbounds⟩ := hmore.starts
  have hhead : ∀ x, x ≠ built.length →
      edgesOf (altHead built f) x = edgesOf (addEpsilon built f.accept (built.length + 1)) x := by
    intro x hx
    rw [altHead, edgesOf_addEpsilon (by simp; omega), edgesOf_addEpsilon haccept',
      edgesOf_addEpsilon_ne hx, edgesOf_newState, edgesOf_newState]
  have hkept : ∀ x < built.length,
      edgesOf states' x = edgesOf (addEpsilon built f.accept (built.length + 1)) x := by
    intro x hx
    rw [hmore.keeps x (by omega) (by omega), hhead x (by omega)]
  have hinner : ∀ x, states.length ≤ x → x < built.length → x ≠ f.accept →
      edgesOf states' x = edgesOf built x := by
    intro x _ hx hx'
    rw [hkept x hx, edgesOf_addEpsilon_ne hx']
  have hexit := silentTo_exit h (hkept _ haccept')
  have hfirst : edgesOf states' built.length = epsilons (f.start :: zs) := by
    rw [hzs, altHead, edgesOf_addEpsilon_ne (by omega),
      edgesOf_addEpsilon_same (by rw [length_newState, length_newState]; omega), edgesOf_newState,
      edgesOf_newState, edgesOf_of_le (le_rfl)]
    rfl
  have hfinal : edgesOf states' (built.length + 1) = [] := by
    rw [hmore.keeps _ (by omega) (by omega), hhead _ (by omega), edgesOf_addEpsilon_ne (by omega),
      edgesOf_of_le (by omega)]
  refine ⟨?_, ⟨⟨by change states.length ≤ built.length; omega,
    by change built.length < states'.length; omega⟩,
    ⟨by change states.length ≤ built.length + 1; omega,
    by change built.length + 1 < states'.length; omega⟩, ?_, ?_⟩, hfinal⟩
  · intro x hx
    rw [hkept x (by omega), edgesOf_addEpsilon_ne (by omega), h.keeps x hx]
  · intro x hx hne o y hy
    change x ≠ built.length + 1 at hne
    rw [Set.mem_Ico] at hx ⊢
    rcases lt_trichotomy x built.length with hlt | rfl | hgt
    · by_cases hlast : x = f.accept
      · subst hlast
        have := mem_singleton.mp (hexit.mem hy)
        omega
      · rw [graph_step_congr (hinner x hx.1 hlt hlast)] at hy
        have := h.closed hx.1 hy
        omega
    · rcases mem_cons.mp ((silentTo_of_edges hfirst).mem hy) with rfl | hz
      · omega
      · have := hbounds y hz
        omega
    · have := hmore.closed x (by omega) o y hy
      omega
  · have hne : built.length ≠ built.length + 1 := by omega
    rw [words_silentTo (silentTo_of_edges hfirst) hne, map_cons, sum_cons, hsum,
      words_branch h hinner hexit (.inr (by omega))]

end Quench.RegexNfa

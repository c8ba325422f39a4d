import Mathlib.Algebra.Order.BigOperators.Group.Finset
import Mathlib.Data.List.GetD
import Quench.Compute.GbnfArena
import Quench.Lib.LeftRecursion

/-!
# The check for left recursion

`compute_nullable` marks a rule once one of its alternatives consists of marked rules, until a pass
marks nothing: then the marks are the rules that derive the empty string (`nullable_iff`).
`check_left_recursion` searches the rules that rules open on the left, depth first and with three
colors. `Searching` is what its loop keeps: rules that are done open nothing forever, and the rules
on the stack open one another. So it finds a cycle if and only if there is one
(`left_recursion_exact`).
-/

namespace Quench.Gbnf

open Lib List Grammar
open Relation (TransGen)

variable {rules : List GbnfRule} {nullable : List Bool} {color : List Color}

/-! ## Rules that derive the empty string -/

variable {r b q i : Nat} {alt : List GbnfItem} {c : Color} {above : Option Nat}

/-- The frames that a rule opens stand at the start of its alternatives. -/
theorem exists_enter {P : List GbnfItem → Prop} :
    (∃ frame ∈ (gbnf rules).enter r, P ((gbnf rules).items frame)) ↔
      ∃ alt ∈ altsOf rules r, P alt := by
  have hitems : ∀ i (hi : i < (altsOf rules r).length),
      (gbnf rules).items { rule := r, alt := i, idx := 0 } = (altsOf rules r)[i] := by
    intro i hi
    change ((altsOf rules r).getD i []).drop 0 = _
    rw [drop_zero, getD_eq_getElem _ _ hi]
  constructor
  · rintro ⟨frame, hframe, hp⟩
    obtain ⟨i, hi, rfl⟩ := mem_map.mp hframe
    rw [hitems i (mem_range.mp hi)] at hp
    exact ⟨_, getElem_mem _, hp⟩
  · rintro ⟨alt, halt, hp⟩
    obtain ⟨i, hi, rfl⟩ := getElem_of_mem halt
    exact ⟨_, mem_map.mpr ⟨i, mem_range.mpr hi, rfl⟩, by rwa [hitems i hi]⟩

/-- One rule of a pass. -/
def nullableRound (rules : List GbnfRule) (nullable : List Bool) (r : Nat) : List Bool :=
  if nullable.getD r false then nullable
  else if (altsOf rules r).any (altNullable nullable) then nullable.set r true
  else nullable

/-- Marks that are all right. -/
def Sound (rules : List GbnfRule) (nullable : List Bool) : Prop :=
  ∀ r, nullable.getD r false = true → (gbnf rules).Erases [.rule r]

theorem altNullable_cons (item : GbnfItem) (alt : List GbnfItem) :
    altNullable nullable (item :: alt) = true ↔
      (∃ r, item = .rule r ∧ nullable.getD r false = true) ∧ altNullable nullable alt = true := by
  cases item <;> simp [altNullable]

theorem Sound.erases (h : Sound rules nullable) (halt : altNullable nullable alt = true) :
    (gbnf rules).Erases alt := by
  induction alt with
  | nil => exact erases_nil
  | cons item alt ih =>
    obtain ⟨⟨r, rfl, hr⟩, hrest⟩ := (altNullable_cons item alt).mp halt
    exact erases_cons.mpr ⟨⟨r, rfl, erases_rule.mp (h r hr)⟩, ih hrest⟩

/-- What one rule adds to the marks: nothing, or itself where it was not marked. -/
theorem nullableRound_cases (rules : List GbnfRule) (nullable : List Bool) (r : Nat) :
    nullableRound rules nullable r = nullable ∧
        ((altsOf rules r).any (altNullable nullable) = true → nullable.getD r false = true) ∨
      nullableRound rules nullable r = nullable.set r true ∧ nullable.getD r false = false ∧
        ∃ alt ∈ altsOf rules r, altNullable nullable alt = true := by
  unfold nullableRound
  split_ifs with hmarked hany
  · exact .inl ⟨rfl, fun _ => hmarked⟩
  · exact .inr ⟨rfl, Bool.eq_false_iff.mpr hmarked, any_eq_true.mp hany⟩
  · exact .inl ⟨rfl, fun h => absurd h hany⟩

theorem Sound.round (h : Sound rules nullable) (r : Nat) :
    Sound rules (nullableRound rules nullable r) := by
  rcases nullableRound_cases rules nullable r with ⟨hsame, -⟩ | ⟨hset, -, alt, halt, hnull⟩
  · rwa [hsame]
  · rw [hset]
    intro q hq
    by_cases hqr : r = q
    · subst hqr
      exact erases_rule.mpr (exists_enter.mpr ⟨alt, halt, h.erases hnull⟩)
    · refine h q ?_
      rwa [getD_eq_getElem?_getD, getElem?_set_ne hqr, ← getD_eq_getElem?_getD] at hq

/-- A pass keeps the number of marks only where no rule was left to mark. -/
theorem count_pass (rules : List GbnfRule) (rs : List Nat) (nullable : List Bool)
    (hrs : ∀ r ∈ rs, r < nullable.length) : let found := rs.foldl (nullableRound rules) nullable
    found.length = nullable.length ∧ nullable.count true ≤ found.count true ∧
      (found.count true = nullable.count true → found = nullable ∧ ∀ r ∈ rs,
        (altsOf rules r).any (altNullable nullable) = true → nullable.getD r false = true) := by
  induction rs generalizing nullable with
  | nil => exact ⟨rfl, le_rfl, fun _ => ⟨rfl, fun r hr => absurd hr not_mem_nil⟩⟩
  | cons r rs ih =>
    have hr := hrs r mem_cons_self
    have hlater : ∀ q ∈ rs, q < nullable.length := fun q hq => hrs q (mem_cons_of_mem _ hq)
    rw [foldl_cons]
    rcases nullableRound_cases rules nullable r with ⟨hsame, hno⟩ | ⟨hset, hfresh, -⟩
    · rw [hsame]
      obtain ⟨hlen, hle, heq⟩ := ih nullable hlater
      refine ⟨hlen, hle, fun hcount => ⟨(heq hcount).1, fun q hq => ?_⟩⟩
      rcases mem_cons.mp hq with rfl | hq
      · exact hno
      · exact (heq hcount).2 q hq
    · rw [hset]
      obtain ⟨hlen, hle, -⟩ := ih (nullable.set r true) (by rwa [length_set])
      rw [getD_eq_getElem _ _ hr] at hfresh
      rw [length_set] at hlen
      rw [count_set hr, hfresh] at hle
      change nullable.count true - 0 + 1 ≤ _ at hle
      refine ⟨hlen, by omega, fun hcount => by omega⟩

theorem nullablePass_eq (rules : List GbnfRule) (nullable : List Bool) :
    nullablePass rules nullable =
      (List.range rules.length).foldl (nullableRound rules) nullable := rfl

theorem Sound.pass (h : Sound rules nullable) : Sound rules (nullablePass rules nullable) :=
  (List.range rules.length).foldlRecOn _ h fun _ hmarks r _ => hmarks.round r

/-- Every pass but the last one marks a rule, so the marks are closed in the end. -/
theorem nullableLoop_spec (n : Nat) (h : Sound rules nullable)
    (hlen : nullable.length = rules.length) (hfuel : rules.length < nullable.count true + n) :
    Sound rules (nullableLoop rules n nullable) ∧ ∀ r < rules.length,
      (altsOf rules r).any (altNullable (nullableLoop rules n nullable)) = true →
        (nullableLoop rules n nullable).getD r false = true := by
  induction n generalizing nullable with
  | zero =>
    have hle := count_le_length (a := true) (l := nullable)
    omega
  | succ n ih =>
    obtain ⟨hlen', hle, heq⟩ := count_pass rules (List.range rules.length) nullable
      fun r hr => by rw [hlen]; exact mem_range.mp hr
    rw [← nullablePass_eq] at hlen' hle heq
    rw [nullableLoop]
    split_ifs with hsame
    · exact ⟨h, fun r hr => (heq (by rw [hsame])).2 r (mem_range.mpr hr)⟩
    · refine ih h.pass (hlen'.trans hlen) ?_
      have hne : (nullablePass rules nullable).count true ≠ nullable.count true :=
        fun hcount => hsame (heq hcount).1
      omega

theorem computeNullable_spec (rules : List GbnfRule) :
    Sound rules (computeNullable rules) ∧ ∀ r < rules.length,
      (altsOf rules r).any (altNullable (computeNullable rules)) = true →
        (computeNullable rules).getD r false = true := by
  refine nullableLoop_spec _ (fun r hr => ?_) length_replicate (by omega)
  rw [getD_eq_getElem?_getD, getElem?_replicate] at hr
  split at hr <;> cases hr

theorem lt_of_mem_altsOf (h : alt ∈ altsOf rules r) : r < rules.length := by
  by_contra hout
  rw [altsOf, getElem?_eq_none (Nat.le_of_not_lt hout)] at h
  cases h

theorem altNullable_of_erases (h : (gbnf rules).Erases alt) :
    altNullable (computeNullable rules) alt = true := by
  obtain ⟨n, h⟩ := h
  generalize hw : ([] : List Nat) = w at h
  induction h with
  | nil => rfl
  | letter => cases hw
  | @rule n r frame rest u v hframe _ _ ihsub ihrest =>
    obtain ⟨rfl, rfl⟩ := append_eq_nil_iff.mp hw.symm
    obtain ⟨alt, halt, hnull⟩ := (exists_enter
      (P := fun alt => altNullable (computeNullable rules) alt = true)).mp
      ⟨frame, hframe, ihsub rfl⟩
    refine (altNullable_cons _ rest).mpr ⟨⟨r, rfl, ?_⟩, ihrest rfl⟩
    exact (computeNullable_spec rules).2 r (lt_of_mem_altsOf halt)
      (any_eq_true.mpr ⟨alt, halt, hnull⟩)

/-- The rules marked are those that derive the empty string. -/
theorem nullable_iff (rules : List GbnfRule) (r : Nat) :
    (computeNullable rules).getD r false = true ↔ (gbnf rules).Erases [.rule r] := by
  refine ⟨(computeNullable_spec rules).1 r, fun h => ?_⟩
  obtain ⟨⟨_, hr, hmarked⟩, -⟩ := (altNullable_cons _ _).mp (altNullable_of_erases h)
  cases hr
  exact hmarked

/-! ## Rules opened on the left -/

theorem mem_firstRules :
    b ∈ firstRules (computeNullable rules) alt ↔
      ∃ pre post, alt = pre ++ .rule b :: post ∧ (gbnf rules).Erases pre := by
  induction alt with
  | nil => simp [firstRules]
  | cons item alt ih =>
    cases item with
    | letter c =>
      refine ⟨fun h => absurd h not_mem_nil, ?_⟩
      rintro ⟨_ | ⟨_, pre⟩, post, heq, hpre⟩
      · cases heq
      · obtain ⟨rfl, -⟩ := List.cons.inj heq
        obtain ⟨⟨_, hr, -⟩, -⟩ := erases_cons.mp hpre
        cases hr
    | rule r =>
      rw [firstRules, mem_cons]
      constructor
      · rintro (rfl | hb)
        · exact ⟨[], alt, rfl, erases_nil⟩
        · split_ifs at hb with hnull
          · obtain ⟨pre, post, rfl, hpre⟩ := ih.mp hb
            refine ⟨.rule r :: pre, post, rfl, erases_cons.mpr ⟨⟨r, rfl, ?_⟩, hpre⟩⟩
            exact erases_rule.mp ((nullable_iff rules r).mp hnull)
          · cases hb
      · rintro ⟨_ | ⟨_, pre⟩, post, heq, hpre⟩
        · cases heq
          exact .inl rfl
        · obtain ⟨rfl, rfl⟩ := List.cons.inj heq
          obtain ⟨⟨_, hr, hframe⟩, hpre⟩ := erases_cons.mp hpre
          cases hr
          rw [if_pos ((nullable_iff rules r).mpr (erases_rule.mpr hframe))]
          exact .inr (ih.mpr ⟨pre, post, rfl, hpre⟩)

theorem mem_leftEdges {a : Nat} :
    b ∈ leftEdges rules (computeNullable rules) a ↔ (gbnf rules).Opens a b := by
  rw [leftEdges, mem_flatMap]
  simp only [mem_firstRules]
  exact exists_enter.symm

/-! ## The search -/

variable (edges : Nat → List Nat)

/-- An edge of the search. -/
def Edge (a b : Nat) : Prop := b ∈ edges a

/-- The color of a rule. What is not in the table opens nothing, like a rule that is done. -/
def colorOf (color : List Color) (r : Nat) : Color := color.getD r .done

theorem colorOf_set :
    colorOf (color.set r c) q = if r = q ∧ r < color.length then c else colorOf color q := by
  rw [colorOf, colorOf, getD_eq_getElem?_getD, getElem?_set, getD_eq_getElem?_getD]
  by_cases hrq : r = q
  · subst hrq
    by_cases hr : r < color.length
    · simp [hr]
    · simp [hr]
  · simp [hrq]

theorem colorOf_set_of_lt (hr : r < color.length) (c : Color) (q : Nat) :
    colorOf (color.set r c) q = if r = q then c else colorOf color q := by
  simp only [colorOf_set, hr, and_true]

/-- The stack of the search, below a rule that the frame under it has come to: what a frame has
looked at is done, or is the rule above it. -/
def Trail (edges : Nat → List Nat) (color : List Color) : Option Nat → List (Nat × Nat) → Prop
  | _, [] => True
  | above, (r, i) :: stack =>
    colorOf color r = .onStack ∧ i ≤ (edges r).length ∧
      (∀ b ∈ (edges r).take i, colorOf color b = .done ∨ above = some b) ∧
      (∀ b ∈ above, Edge edges r b) ∧ Trail edges color (some r) stack

/-- What the search keeps, below a rule that it has come to. -/
structure Searching (edges : Nat → List Nat) (color : List Color) (above : Option Nat)
    (stack : List (Nat × Nat)) : Prop where
  done : ∀ r, colorOf color r = .done → Acc (fun b a => Edge edges a b) r
  nodup : (stack.map Prod.fst).Nodup
  onStack : ∀ r, colorOf color r = .onStack → r ∈ stack.map Prod.fst
  trail : Trail edges color above stack

/-- The rules not visited yet. -/
def unvisited (color : List Color) : Finset Nat :=
  {r ∈ Finset.range color.length | colorOf color r = .unvisited}

/-- The steps a search can still take. -/
def pendingSteps (color : List Color) (stack : List (Nat × Nat)) : Nat :=
  ∑ r ∈ unvisited color, ((edges r).length + 2) +
    (stack.map fun frame => (edges frame.1).length + 1 - frame.2).sum

variable {edges : Nat → List Nat} {color : List Color} {stack : List (Nat × Nat)}

/-- A trail only depends on the colors of its own rules and of those that are done. -/
theorem Trail.recolor {color' : List Color} (h : Trail edges color above stack)
    (hdone : ∀ r, colorOf color r = .done → colorOf color' r = .done)
    (hon : ∀ r ∈ stack.map Prod.fst, colorOf color' r = .onStack) :
    Trail edges color' above stack := by
  induction stack generalizing above with
  | nil => trivial
  | cons frame stack ih =>
    obtain ⟨-, hi, hseen, habove, hbelow⟩ := h
    refine ⟨hon _ mem_cons_self, hi, fun b hb => ?_, habove,
      ih hbelow fun r hr => hon r (mem_cons_of_mem _ hr)⟩
    exact (hseen b hb).imp_left (hdone b)

/-- The rules below a frame lead to it. -/
theorem Trail.reaches (h : Trail edges color (some r) stack) (hq : q ∈ stack.map Prod.fst) :
    TransGen (Edge edges) q r := by
  induction stack generalizing r with
  | nil => cases hq
  | cons frame stack ih =>
    obtain ⟨-, -, -, habove, hbelow⟩ := h
    have hstep : Edge edges frame.1 r := habove r rfl
    rcases mem_cons.mp hq with rfl | hq
    · exact .single hstep
    · exact (ih hbelow hq).tail hstep

/-- A frame that has looked at one more edge, to a rule that is done or is put above it. -/
theorem Trail.next (h : Trail edges color none ((r, i) :: stack)) (hb : (edges r)[i]? = some b)
    (hcolor : colorOf color b = .done ∧ above = none ∨ above = some b) :
    Trail edges color above ((r, i + 1) :: stack) := by
  obtain ⟨hon, -, hseen, -, hbelow⟩ := h
  have hlt := (List.getElem?_eq_some_iff.mp hb).1
  refine ⟨hon, hlt, fun q hq => ?_, fun q hq => ?_, hbelow⟩
  · rw [take_add_one, hb, mem_append] at hq
    rcases hq with hq | hq
    · exact (hseen q hq).imp_right fun hnone => (by cases hnone)
    · obtain rfl := mem_singleton.mp hq
      exact hcolor.imp And.left id
  · rcases hcolor with ⟨-, rfl⟩ | rfl
    · cases hq
    · cases hq
      exact mem_of_getElem? hb

/-- The rule above a frame is done, so the frame goes on. -/
theorem Trail.pop (h : Trail edges color (some r) stack) (hr : colorOf color r = .done) :
    Trail edges color none stack := by
  cases stack with
  | nil => trivial
  | cons frame stack =>
    obtain ⟨hon, hi, hseen, -, hbelow⟩ := h
    refine ⟨hon, hi, fun b hb => .inl ?_, fun b hb => (by cases hb), hbelow⟩
    rcases hseen b hb with hdone | hsome
    · exact hdone
    · cases hsome
      exact hr

theorem Trail.on (h : Trail edges color above stack) (hq : q ∈ stack.map Prod.fst) :
    colorOf color q = .onStack := by
  induction stack generalizing above with
  | nil => cases hq
  | cons frame stack ih =>
    obtain ⟨hon, -, -, -, hbelow⟩ := h
    rcases mem_cons.mp hq with rfl | hq
    · exact hon
    · exact ih hbelow hq

theorem lt_of_colorOf (h : colorOf color r = c) (hc : c ≠ .done) : r < color.length := by
  by_contra hout
  rw [colorOf, getD_eq_default _ _ (Nat.le_of_not_lt hout)] at h
  exact hc h.symm

/-- A rule that was not visited is put on the stack. -/
theorem Searching.push {next : Nat} (h : Searching edges color (some next) stack)
    (hnext : colorOf color next = .unvisited) :
    Searching edges (color.set next .onStack) none ((next, 0) :: stack) := by
  have hset := colorOf_set_of_lt (lt_of_colorOf hnext (by decide)) .onStack
  have hout : ∀ q ∈ stack.map Prod.fst, next ≠ q := by
    rintro q hq rfl
    rw [h.trail.on hq] at hnext
    cases hnext
  refine ⟨fun q hq => ?_, nodup_cons.mpr ⟨fun hmem => hout _ hmem rfl, h.nodup⟩,
    fun q hq => ?_, ?_, Nat.zero_le _, fun b hb => ?_, fun b hb => (by cases hb), ?_⟩
  · rw [hset] at hq
    split_ifs at hq
    exact h.done q hq
  · rw [hset] at hq
    split_ifs at hq with hnq
    · exact mem_cons.mpr (.inl hnq.symm)
    · exact mem_cons_of_mem _ (h.onStack q hq)
  · rw [hset, if_pos rfl]
  · cases hb
  · refine h.trail.recolor (fun q hq => ?_) fun q hq => ?_
    · rw [hset, if_neg, hq]
      rintro rfl
      rw [hnext] at hq
      cases hq
    · rw [hset, if_neg (hout q hq), h.trail.on hq]

/-- A rule all of whose edges were looked at is done. -/
theorem Searching.pop (h : Searching edges color none ((r, i) :: stack))
    (hend : (edges r)[i]? = none) : Searching edges (color.set r .done) none stack := by
  obtain ⟨hon, -, hseen, -, hbelow⟩ := h.trail
  have hset := colorOf_set_of_lt (lt_of_colorOf hon (by decide)) .done
  obtain ⟨hout, hnodup⟩ := nodup_cons.mp h.nodup
  refine ⟨fun q hq => ?_, hnodup, fun q hq => ?_, ?_⟩
  · rw [hset] at hq
    split_ifs at hq with hrq
    · subst hrq
      refine .intro _ fun b hb => h.done b ?_
      rw [take_of_length_le (List.getElem?_eq_none_iff.mp hend)] at hseen
      exact (hseen b hb).resolve_right fun hnone => (by cases hnone)
    · exact h.done q hq
  · rw [hset] at hq
    split_ifs at hq with hrq
    exact (mem_cons.mp (h.onStack q hq)).resolve_left fun heq => hrq heq.symm
  · refine (hbelow.recolor (fun q hq => ?_) fun q hq => ?_).pop (by rw [hset, if_pos rfl])
    · rw [hset, hq, ite_self]
    · rw [hset, if_neg, hbelow.on hq]
      rintro rfl
      exact hout hq

/-! ## Its fuel -/

theorem unvisited_set (hc : c ≠ .unvisited) :
    unvisited (color.set r c) = (unvisited color).erase r := by
  ext q
  rw [unvisited, unvisited, Finset.mem_erase, Finset.mem_filter, Finset.mem_filter,
    length_set, colorOf_set]
  split_ifs with hrq
  · obtain ⟨rfl, -⟩ := hrq
    simp [hc]
  · refine ⟨fun hq => ⟨?_, hq⟩, And.right⟩
    rintro rfl
    exact hrq ⟨rfl, Finset.mem_range.mp hq.1⟩

theorem pendingSteps_push {next : Nat} (hnext : colorOf color next = .unvisited) :
    pendingSteps edges (color.set next .onStack) ((next, 0) :: stack) <
      pendingSteps edges color stack := by
  have hmem : next ∈ unvisited color := by
    rw [unvisited, Finset.mem_filter, Finset.mem_range]
    exact ⟨lt_of_colorOf hnext (by decide), hnext⟩
  have hsum := Finset.sum_erase_add (unvisited color) (fun r => (edges r).length + 2) hmem
  rw [pendingSteps, pendingSteps, unvisited_set (by decide)]
  simp only [map_cons, sum_cons]
  omega

theorem pendingSteps_next {next : Nat} (hb : (edges r)[i]? = some next) :
    pendingSteps edges color ((r, i + 1) :: stack) <
      pendingSteps edges color ((r, i) :: stack) := by
  have hlt := (List.getElem?_eq_some_iff.mp hb).1
  rw [pendingSteps, pendingSteps]
  simp only [map_cons, sum_cons]
  omega

theorem pendingSteps_pop (h : Trail edges color none ((r, i) :: stack)) :
    pendingSteps edges (color.set r .done) stack < pendingSteps edges color ((r, i) :: stack) := by
  obtain ⟨-, hi, -⟩ := h
  have hle : ∑ q ∈ (unvisited color).erase r, ((edges q).length + 2) ≤
      ∑ q ∈ unvisited color, ((edges q).length + 2) :=
    Finset.sum_le_sum_of_subset (Finset.erase_subset _ _)
  rw [pendingSteps, pendingSteps, unvisited_set (by decide)]
  simp only [map_cons, sum_cons]
  omega

/-! ## Its result -/

/-- What a search says: either a rule leads back to itself, or what was visited is done. -/
def Settles (edges : Nat → List Nat) (color : List Color) : Except Nat (List Color) → Prop
  | .error _ => ∃ r, TransGen (Edge edges) r r
  | .ok found => Searching edges found none [] ∧ found.length = color.length ∧
      ∀ r, colorOf found r = .unvisited → colorOf color r = .unvisited

theorem Settles.of_set {result : Except Nat (List Color)} (h : Settles edges (color.set r c) result)
    (hc : c ≠ .unvisited) : Settles edges color result := by
  cases result with
  | error _ => exact h
  | ok found =>
    obtain ⟨hdone, hlen, hold⟩ := h
    refine ⟨hdone, by rw [hlen, length_set], fun q hq => ?_⟩
    have hq := hold q hq
    rw [colorOf_set] at hq
    split_ifs at hq
    · exact absurd hq hc
    · exact hq

theorem leftSearch_settles (n : Nat) (h : Searching edges color none stack)
    (hfuel : pendingSteps edges color stack < n) :
    Settles edges color (leftSearch edges n stack color) := by
  induction n generalizing color stack with
  | zero => exact absurd hfuel (Nat.not_lt_zero _)
  | succ n ih =>
    cases stack with
    | nil => exact ⟨h, rfl, fun r hr => hr⟩
    | cons frame stack =>
      obtain ⟨r, i⟩ := frame
      rw [leftSearch]
      cases hb : (edges r)[i]? with
      | none =>
        refine Settles.of_set (ih (h.pop hb) ?_) (by decide : Color.done ≠ .unvisited)
        exact lt_of_lt_of_le (pendingSteps_pop h.trail) (Nat.le_of_lt_succ hfuel)
      | some next =>
        dsimp only
        cases hcolor : color.getD next .done with
        | onStack =>
          -- the stack leads from this rule to the top, and the edge leads back
          have hedge : Edge edges r next := mem_of_getElem? hb
          rcases mem_cons.mp (h.onStack next hcolor) with heq | hmem
          · rw [heq] at hedge
            exact ⟨r, .single hedge⟩
          · exact ⟨next, (h.trail.2.2.2.2.reaches hmem).tail hedge⟩
        | unvisited =>
          have hstep : Searching edges color (some next) ((r, i + 1) :: stack) :=
            ⟨h.done, h.nodup, h.onStack, h.trail.next hb (.inr rfl)⟩
          refine Settles.of_set (ih (hstep.push hcolor) ?_) Color.noConfusion
          exact ((pendingSteps_push hcolor).trans (pendingSteps_next hb)).trans_le
            (Nat.le_of_lt_succ hfuel)
        | done =>
          refine ih ⟨h.done, h.nodup, h.onStack, h.trail.next hb (.inl ⟨hcolor, rfl⟩)⟩ ?_
          exact lt_of_lt_of_le (pendingSteps_next hb) (Nat.le_of_lt_succ hfuel)

/-- The search from one rule of the table. -/
def searchRound (edges : Nat → List Nat) (n : Nat) (color : List Color) (start : Nat) :
    Except Nat (List Color) :=
  if color.getD start .done = .unvisited then
    leftSearch edges n [(start, 0)] (color.set start .onStack)
  else .ok color

/-- A bound on the steps of one search. -/
def searchFuel (edges : Nat → List Nat) (size : Nat) : Nat :=
  ((List.range size).map fun r => (edges r).length + 2).sum + 1

theorem searchRound_settles (h : Searching edges color none []) (start : Nat) :
    let result := searchRound edges (searchFuel edges color.length) color start
    Settles edges color result ∧
      ∀ found, result = .ok found → colorOf found start ≠ .unvisited := by
  unfold searchRound
  split_ifs with hstart
  · have hbelow : Searching edges color (some start) [] := ⟨h.done, h.nodup, h.onStack, trivial⟩
    have hle : ∑ r ∈ unvisited color, ((edges r).length + 2) ≤
        ∑ r ∈ Finset.range color.length, ((edges r).length + 2) :=
      Finset.sum_le_sum_of_subset (Finset.filter_subset _ _)
    have hsettles := leftSearch_settles (searchFuel edges color.length) (hbelow.push hstart)
      ((pendingSteps_push hstart).trans (Nat.lt_succ_of_le hle))
    refine ⟨hsettles.of_set (by decide), fun found hfound hcolor => ?_⟩
    rw [hfound] at hsettles
    have hset := hsettles.2.2 start hcolor
    rw [colorOf_set_of_lt (lt_of_colorOf hstart (by decide)), if_pos rfl] at hset
    cases hset
  · refine ⟨⟨h, rfl, fun r hr => hr⟩, fun found hfound => ?_⟩
    cases hfound
    exact hstart

/-- The searches from one rule after the other. -/
theorem searches_settle (starts : List Nat) (h : Searching edges color none []) :
    let result := starts.foldlM (searchRound edges (searchFuel edges color.length)) color
    Settles edges color result ∧
      ∀ found, result = .ok found → ∀ r ∈ starts, colorOf found r ≠ .unvisited := by
  induction starts generalizing color with
  | nil => exact ⟨⟨h, rfl, fun r hr => hr⟩, fun _ _ r hr => absurd hr not_mem_nil⟩
  | cons start starts ih =>
    obtain ⟨hround, hstart⟩ := searchRound_settles h start
    rw [foldlM_cons]
    cases hresult : searchRound edges (searchFuel edges color.length) color start with
    | error r =>
      rw [hresult] at hround
      exact ⟨hround, fun found hfound => by cases hfound⟩
    | ok after =>
      rw [hresult] at hround hstart
      obtain ⟨hsearching, hlen, hold⟩ := hround
      obtain ⟨hsettles, hrest⟩ := ih hsearching
      rw [hlen] at hsettles hrest
      dsimp only [bind, Except.bind]
      generalize starts.foldlM (searchRound edges (searchFuel edges color.length)) after =
        result at hsettles hrest ⊢
      cases result with
      | error r => exact ⟨hsettles, fun found hfound => by cases hfound⟩
      | ok found =>
        obtain ⟨hdone, hlen', hold'⟩ := hsettles
        refine ⟨⟨hdone, hlen'.trans hlen, fun r hr => hold r (hold' r hr)⟩, ?_⟩
        intro _ hfound r hr hcolor
        cases hfound
        rcases mem_cons.mp hr with rfl | hr
        · exact hstart after rfl (hold' r hcolor)
        · exact hrest found rfl r hr hcolor

/-- Either the check passes and edges can be followed from no rule forever, or it does not and some
rule leads back to itself. -/
theorem checkLeftRecursion_cases (rules : List GbnfRule) (nullable : List Bool) :
    (checkLeftRecursion rules nullable = none ∧
        ∀ r, Acc (fun b a => Edge (leftEdges rules nullable) a b) r) ∨
      (checkLeftRecursion rules nullable ≠ none ∧
        ∃ r, TransGen (Edge (leftEdges rules nullable)) r r) := by
  have hout : ∀ r, ¬ r < rules.length → leftEdges rules nullable r = [] := by
    intro r hr
    rw [leftEdges, altsOf, getElem?_eq_none (Nat.le_of_not_lt hr)]
    rfl
  -- at the start only what is not in the table is done
  have hstart : Searching (leftEdges rules nullable)
      (List.replicate rules.length Color.unvisited) none [] := by
    have hcolor : ∀ r, colorOf (List.replicate rules.length Color.unvisited) r =
        if r < rules.length then .unvisited else .done := by
      intro r
      rw [colorOf, getD_eq_getElem?_getD, getElem?_replicate]
      split_ifs <;> rfl
    refine ⟨fun r hr => .intro _ fun b hb => ?_, nodup_nil, fun r hr => ?_, trivial⟩
    · rw [hcolor] at hr
      split_ifs at hr with hlt
      rw [Edge, hout r hlt] at hb
      cases hb
    · rw [hcolor] at hr
      split_ifs at hr
  obtain ⟨hsettles, hall⟩ := searches_settle (List.range rules.length) hstart
  rw [length_replicate] at hsettles hall
  have hcheck : checkLeftRecursion rules nullable =
      match (List.range rules.length).foldlM
        (searchRound (leftEdges rules nullable)
          (searchFuel (leftEdges rules nullable) rules.length))
        (List.replicate rules.length Color.unvisited) with
      | .error r => some r
      | .ok _ => none := rfl
  rw [hcheck]
  generalize List.foldlM (m := Except Nat) _ _ (List.range rules.length) = result at hsettles hall ⊢
  cases result with
  | error r => exact .inr ⟨Option.some_ne_none r, hsettles⟩
  | ok found =>
    obtain ⟨hdone, hlen, -⟩ := hsettles
    refine .inl ⟨rfl, fun r => hdone.done r ?_⟩
    cases hcolor : colorOf found r with
    | done => rfl
    | onStack => exact absurd (hdone.onStack r hcolor) not_mem_nil
    | unvisited =>
      have hlt := lt_of_colorOf hcolor (by decide)
      rw [hlen, length_replicate] at hlt
      exact absurd hcolor (hall found rfl r (mem_range.mpr hlt))

/-! ## Exactness -/

theorem edge_eq_opens (rules : List GbnfRule) :
    Edge (leftEdges rules (computeNullable rules)) = (gbnf rules).Opens := by
  funext a b
  exact propext mem_leftEdges

/-- In a table that passes the check, rules open rules on the left only so far. -/
theorem acc_opens (h : checkLeftRecursion rules (computeNullable rules) = none) (r : Nat) :
    Acc (fun b a => (gbnf rules).Opens a b) r := by
  rcases checkLeftRecursion_cases rules (computeNullable rules) with ⟨-, hacc⟩ | ⟨hne, -⟩
  · rw [edge_eq_opens] at hacc
    exact hacc r
  · exact absurd h hne

theorem not_opens_self (h : Acc (fun b a => (gbnf rules).Opens a b) r) :
    ¬ TransGen (gbnf rules).Opens r r := by
  induction h with
  | intro r _ ih =>
    intro hcycle
    obtain ⟨next, hnext, hback⟩ := TransGen.head'_iff.mp hcycle
    exact ih next hnext (.tail' hback hnext)

/-- **The check for left recursion is exact.** For every rule table, the rules marked as nullable
are those that derive the empty string, and the check passes exactly if no rule comes back to itself
behind symbols that derive the empty string. In a table that passes, and with no bound on the depth
of stacks, no moves of `expand` go on forever and they lead to finitely many stacks. -/
theorem left_recursion_exact (rules : List GbnfRule) :
    (∀ r, (computeNullable rules).getD r false = true ↔ ∃ n, (gbnf rules).Derives n [.rule r] []) ∧
    (checkLeftRecursion rules (computeNullable rules) = none ↔
      ∀ r, ¬ TransGen (gbnf rules).Opens r r) ∧
    (checkLeftRecursion rules (computeNullable rules) = none → ∀ stack : List GbnfPos,
      Acc (fun t s => ∃ limit, (gbnf rules).Move limit s t) stack ∧
        {t | ∃ limit, (gbnf rules).Reaches limit stack t}.Finite) := by
  refine ⟨nullable_iff rules, ⟨fun h r => not_opens_self (acc_opens h r), fun hno => ?_⟩, ?_⟩
  · rcases checkLeftRecursion_cases rules (computeNullable rules) with ⟨h, -⟩ | ⟨-, r, hcycle⟩
    · exact h
    · rw [edge_eq_opens] at hcycle
      exact absurd hcycle (hno r)
  · intro h stack
    have hends := Grammar.acc_steps (acc_opens h) stack
    exact ⟨hends, Grammar.finite_reaches hends⟩

end Quench.Gbnf

import Quench.Compute.GbnfExpand

/-!
# Live stack sets

A list of ids holds a set of stacks if its ids stand for stacks of the set and, where nothing had to
be dropped, for all of them (`Holds`). The sets that `successors`, `start_set` and `step_into`
compute hold the stacks of the pushdown machine (`stepInto_spec`). Dropping ids never adds a stack,
and drops none of a set of at most `kMaxStacks`.
-/

namespace Quench.Gbnf

open Lib List

variable {rules : List GbnfRule}

/-! ## Sorted ids -/

theorem mem_dedupIds {ids : List Int} {s : Int} : s ∈ dedupIds ids ↔ s ∈ ids := by
  rw [dedupIds, mem_dedup, mem_insertionSort]

theorem dedupIds_sorted (ids : List Int) : (dedupIds ids).Pairwise (· < ·) := by
  have hle : (dedupIds ids).Pairwise (· ≤ ·) :=
    (pairwise_insertionSort _ ids).sublist (dedup_sublist _)
  have hne : (dedupIds ids).Pairwise (· ≠ ·) := nodup_dedup _
  exact (hle.and hne).imp fun h => lt_of_le_of_ne h.1 h.2

/-- A list of ids holds a set of stacks, all of it where it is exact. -/
structure Holds (nodes : List StackNode) (S : Set (List GbnfPos)) (Exact : Prop)
    (out : List Int) : Prop where
  sound : ∀ s ∈ out, ∃ stack ∈ S, Denotes nodes s stack
  sorted : out.Pairwise (· < ·)
  complete : Exact → ∀ stack ∈ S, ∃ s ∈ out, Denotes nodes s stack

namespace Holds

variable {nodes nodes' : List StackNode} {S : Set (List GbnfPos)} {Exact : Prop} {out : List Int}
  (h : Holds nodes S Exact out)
include h

theorem mono (hgrown : nodes <+: nodes') : Holds nodes' S Exact out where
  sound s hs := by
    obtain ⟨stack, hmem, hdenotes⟩ := h.sound s hs
    exact ⟨stack, hmem, hdenotes.mono hgrown⟩
  sorted := h.sorted
  complete hexact stack hmem := by
    obtain ⟨s, hs, hdenotes⟩ := h.complete hexact stack hmem
    exact ⟨s, hs, hdenotes.mono hgrown⟩

/-- A list of ids holds exactly the stacks of its ids. -/
theorem self : Holds nodes { stack | ∃ s ∈ out, Denotes nodes s stack } True out where
  sound s hs := by
    obtain ⟨stack, -, hdenotes⟩ := h.sound s hs
    exact ⟨stack, ⟨s, hs, hdenotes⟩, hdenotes⟩
  sorted := h.sorted
  complete _ stack hstack := hstack

theorem neg_one_mem (hmem : -1 ∈ out) : [] ∈ S := by
  obtain ⟨stack, hstack, hdenotes⟩ := h.sound _ hmem
  rwa [(hdenotes.neg_one (by decide)).2] at hstack

theorem mem_neg_one (hexact : Exact) (hmem : [] ∈ S) : -1 ∈ out := by
  obtain ⟨s, hs, hdenotes⟩ := h.complete hexact _ hmem
  cases hdenotes
  exact hs

/-- The id of the empty stack is below all others, so it is enough to look at the first. -/
theorem accepts_iff : GbnfStackSet.accepts out = true ↔ -1 ∈ out := by
  rw [GbnfStackSet.accepts, beq_iff_eq]
  refine ⟨mem_of_mem_head?, fun hmem => ?_⟩
  cases out with
  | nil => exact absurd hmem not_mem_nil
  | cons s rest =>
    rcases mem_cons.mp hmem with rfl | hlater
    · rfl
    · have hlt := (pairwise_cons.mp h.sorted).1 _ hlater
      obtain ⟨stack, -, hdenotes⟩ := h.sound s mem_cons_self
      have hneg := (hdenotes.neg_one (by omega)).1
      omega

end Holds

variable {a : GbnfArena} {S : Set (List GbnfPos)} {Exact : Prop} {out : List Int} {s : Int}

/-- Ids stand for different stacks, so there are no more of them than stacks. -/
theorem Holds.length_le (hok : ArenaOk rules a) (h : Holds a.nodes S Exact out) :
    (out.length : ℕ∞) ≤ S.encard := by
  have hnodup : out.Nodup := h.sorted.imp fun hlt => ne_of_lt hlt
  have hstack : ∀ s, ∃ stack, s ∈ out → stack ∈ S ∧ Denotes a.nodes s stack := by
    intro s
    by_cases hs : s ∈ out
    · obtain ⟨stack, hmem, hdenotes⟩ := h.sound s hs
      exact ⟨stack, fun _ => ⟨hmem, hdenotes⟩⟩
    · exact ⟨[], fun hin => absurd hin hs⟩
  choose stackAt hstackAt using hstack
  rw [← toFinset_card_of_nodup hnodup, ← Set.encard_coe_eq_coe_finsetCard]
  refine Set.encard_le_encard_of_injOn (f := stackAt) (fun s hs => ?_) fun s hs s' hs' heq => ?_
  · rw [Finset.mem_coe, mem_toFinset] at hs
    exact (hstackAt s hs).1
  · rw [Finset.mem_coe, mem_toFinset] at hs hs'
    exact hok.denotes_inj (heq ▸ (hstackAt s hs).2) (hstackAt s' hs').2

/-- Dropping all but the first ids drops nothing of a set that is small enough. -/
theorem Holds.take (hok : ArenaOk rules a) (h : Holds a.nodes S Exact out) :
    Holds a.nodes S (Exact ∧ S.encard ≤ kMaxStacks) (out.take kMaxStacks) where
  sound s hs := h.sound s (mem_of_mem_take hs)
  sorted := h.sorted.sublist (take_sublist _ _)
  complete hexact := by
    have hle : out.length ≤ kMaxStacks := by
      exact_mod_cast (h.length_le hok).trans hexact.2
    rw [take_of_length_le hle]
    exact h.complete hexact.1

/-! ## Successors -/

/-- The waiting stacks behind the item a stack waits at. -/
def behind (rules : List GbnfRule) (stack : List GbnfPos) : Set (List GbnfPos) :=
  { next | GbnfReaches rules ((gbnf rules).resume stack) next ∧ (gbnf rules).Waiting next }

/-- The invariant of the arena with its memo. -/
structure GrammarOk (rules : List GbnfRule) (a : GbnfArena) : Prop where
  arena : ArenaOk rules a
  cache : ∀ s out, a.nextCache.lookup s = some out → ∃ stack, Denotes a.nodes s stack ∧
    Holds a.nodes (behind rules stack) ((behind rules stack).encard ≤ kMaxStacks) out

theorem grammarOk_empty (rules : List GbnfRule) : GrammarOk rules {} where
  arena :=
    { denotes := fun i node hnode => by cases hnode
      interned := fun pos parent id => by simp
      visited := rfl
      marks := fun mark hmem => absurd hmem not_mem_nil }
  cache s out hfound := by
    cases hfound

/-- A new visit starts without marks. -/
theorem ArenaOk.beginVisit (h : ArenaOk rules a) :
    ArenaOk rules a.beginVisit ∧ a.beginVisit.visitEpoch ≠ 0 ∧
      (∀ i, ¬ Marked a.beginVisit i) ∧ a.beginVisit.nodes = a.nodes ∧
      a.beginVisit.nextCache = a.nextCache := by
  unfold GbnfArena.beginVisit
  split
  next hwrap =>
    refine ⟨⟨h.denotes, h.interned, by rw [length_map, h.visited], fun mark hmem => ?_⟩,
      (by decide : (1 : UInt32) ≠ 0), fun i hmarked => ?_, rfl, rfl⟩
    · obtain ⟨_, -, rfl⟩ := mem_map.mp hmem
      exact UInt32.zero_le
    · unfold Marked at hmarked
      dsimp only at hmarked
      obtain ⟨_, -, hmark⟩ := mem_map.mp (mem_of_getElem? hmarked)
      exact absurd hmark (by decide)
  next hnext =>
    have hlt : a.visitEpoch < a.visitEpoch + 1 := by
      rw [UInt32.lt_iff_toNat_lt, UInt32.toNat_add]
      have hne : (a.visitEpoch + 1).toNat ≠ 0 := fun hzero => hnext (UInt32.toNat_inj.mp hzero)
      rw [UInt32.toNat_add] at hne
      have := a.visitEpoch.toNat_lt
      simp only [UInt32.toNat_one] at hne ⊢
      omega
    refine ⟨⟨h.denotes, h.interned, h.visited, fun mark hmem =>
      UInt32.le_trans (h.marks mark hmem) (UInt32.le_of_lt hlt)⟩, hnext, fun i hmarked => ?_,
      rfl, rfl⟩
    have hle := h.marks _ (mem_of_getElem? hmarked)
    exact absurd hlt (UInt32.not_lt.mpr hle)

/-- The result of a visit, sorted. -/
theorem Expanding.holds {Root : List GbnfPos → Prop} (h : Expanding rules Root a [] out) :
    Holds a.nodes { stack | FromRoot rules Root stack ∧ (gbnf rules).Waiting stack } True
      (dedupIds out) where
  sound s hs := by
    obtain ⟨stack, hdenotes, hwaiting, hfrom⟩ := h.found s (mem_dedupIds.mp hs)
    exact ⟨stack, ⟨hfrom, hwaiting⟩, hdenotes⟩
  sorted := dedupIds_sorted out
  complete _ stack hmem := by
    obtain ⟨s, hs, hdenotes⟩ := h.complete hmem.1 hmem.2
    exact ⟨s, mem_dedupIds.mpr hs, hdenotes⟩

variable {p : GbnfPos} {rest : List GbnfPos}

/-- `successors` holds the stacks behind the one it is asked for, whether it computes or recalls
them. -/
theorem successors_spec (h : GrammarOk rules a) (hs : Denotes a.nodes s (p :: rest))
    (hitem : p.idx < (altItems rules p).length) : let after := a.successors rules s
    GrammarOk rules after.1 ∧ a.nodes <+: after.1.nodes ∧
      Holds after.1.nodes (behind rules (p :: rest))
        ((behind rules (p :: rest)).encard ≤ kMaxStacks) after.2 ∧
      (∀ (i : Nat) stack, Denotes after.1.nodes i stack → Denotes a.nodes i stack ∨
        GbnfReaches rules (p.next :: rest) stack) := by
  have hnonneg : ¬ s < 0 := fun hneg => by cases (hs.neg_one hneg).2
  obtain ⟨i, rfl, node, rest', hnode, hcons, hparent⟩ := hs.exists_node hnonneg
  obtain ⟨rfl, rfl⟩ := List.cons.inj hcons
  unfold GbnfArena.successors
  rw [Int.toNat_natCast]
  cases hcached : a.nextCache.lookup i with
  | some out =>
    obtain ⟨stack, hstack, hholds⟩ := h.cache i out hcached
    obtain rfl := hstack.unique hs
    exact ⟨h, prefix_rfl, hholds, fun _ _ hstack => .inl hstack⟩
  | none =>
    rw [hnode]
    dsimp only
    obtain ⟨hbegin, hepoch, hnone, hnodes, hcache⟩ := h.arena.beginVisit
    obtain ⟨hlength, hfits⟩ := h.arena.stack_ok hs
    have hinterned := hbegin.intern (hnodes ▸ hparent)
      (show rest.length < kMaxStackDepth from hlength) (hfits.advance hitem)
    obtain ⟨hdone, hlater, hadds⟩ := expand_spec
      ((expanding_fresh hbegin hepoch hnone).grow hinterned.ok hinterned.grows)
      hinterned.denotes
    have hgrown : a.nodes <+: _ := hnodes ▸ hinterned.grows.nodes.trans hlater.nodes
    have hset : { stack | FromRoot rules (fun stack => False ∨ stack = node.pos.next :: rest)
        stack ∧ (gbnf rules).Waiting stack } = behind rules (node.pos :: rest) := by
      ext stack
      constructor
      · rintro ⟨⟨root, hroot | rfl, hreach⟩, hwaiting⟩
        · exact hroot.elim
        · exact ⟨hreach, hwaiting⟩
      · rintro ⟨hreach, hwaiting⟩
        exact ⟨⟨_, .inr rfl, hreach⟩, hwaiting⟩
    have hholds := hdone.holds.take hdone.ok
    rw [hset] at hholds
    have hexact : Holds _ (behind rules (node.pos :: rest))
        ((behind rules (node.pos :: rest)).encard ≤ kMaxStacks) _ :=
      ⟨hholds.sound, hholds.sorted, fun hsmall => hholds.complete ⟨trivial, hsmall⟩⟩
    refine ⟨⟨⟨hdone.ok.denotes, hdone.ok.interned, hdone.ok.visited, hdone.ok.marks⟩,
      fun s' out hfound => ?_⟩, hgrown, hexact, fun j stack hstack => ?_⟩
    · rw [Table.lookup_insert_ite] at hfound
      split at hfound
      next heq =>
        obtain rfl := Option.some.inj hfound
        rw [heq]
        exact ⟨_, hs.mono hgrown, hexact⟩
      next =>
        rw [hlater.cache, hinterned.grows.cache, hcache] at hfound
        obtain ⟨stack, hstack, hstackHolds⟩ := h.cache s' out hfound
        exact ⟨stack, hstack.mono hgrown, hstackHolds.mono hgrown⟩
    · rcases hadds j stack hstack with hbefore | ⟨root, hroot | rfl, hreach⟩
      · rcases hinterned.fresh j stack hbefore with hold | rfl
        · exact .inl (hnodes ▸ hold)
        · exact .inr .refl
      · exact hroot.elim
      · exact .inr hreach

/-! ## The start and a step -/

/-- The live stacks after a string. -/
def liveStacks (rules : List GbnfRule) (root : Nat) (u : List Nat) : Set (List GbnfPos) :=
  { stack | (gbnf rules).Live kMaxStackDepth root u stack }

theorem kMaxStackDepth_pos : 0 < kMaxStackDepth := by decide

theorem startSet_spec (h : GrammarOk rules a) (root : Nat) : let after := a.startSet rules root
    GrammarOk rules after.1 ∧ a.nodes <+: after.1.nodes ∧
      Holds after.1.nodes (liveStacks rules root []) True after.2 := by
  obtain ⟨hbegin, hepoch, hnone, hnodes, hcache⟩ := h.arena.beginVisit
  have hfold : ∀ n ≤ (altsOf rules root).length,
      let after := (List.range n).foldl (GbnfArena.startRound rules root) (a.beginVisit, [])
      Expanding rules (fun stack => ∃ alt < n, stack = [{ rule := root, alt, idx := 0 }]) after.1 []
        after.2 ∧ Later a.beginVisit after.1 := by
    intro n hn
    induction n with
    | zero =>
      have hfresh := expanding_fresh hbegin hepoch hnone
      have hempty : (fun stack : List GbnfPos => ∃ alt < 0,
          stack = [{ rule := root, alt, idx := 0 }]) = fun _ => False := by
        funext stack
        simp
      rw [hempty]
      exact ⟨hfresh, .refl _⟩
    | succ n ih =>
      obtain ⟨hbefore, hlater⟩ := ih (by omega)
      rw [range_succ, foldl_append, foldl_cons, foldl_nil]
      generalize (List.range n).foldl _ (a.beginVisit, []) = before at hbefore hlater ⊢
      have hinterned := hbefore.ok.intern .bottom kMaxStackDepth_pos
        (Fits.call ⟨fun p hmem => absurd hmem not_mem_nil,
          fun p hmem => absurd hmem not_mem_nil⟩ (fun p hp => by cases hp)
          (show n < (altsOf rules root).length by omega))
      obtain ⟨hdone, hafter, -⟩ := expand_spec (hbefore.grow hinterned.ok hinterned.grows)
        hinterned.denotes
      refine ⟨?_, hlater.trans ((Later.of_grows hinterned.grows).trans hafter)⟩
      have hroots : (fun stack : List GbnfPos =>
          (∃ alt < n, stack = [{ rule := root, alt, idx := 0 }]) ∨
            stack = [{ rule := root, alt := n, idx := 0 }]) =
          fun stack => ∃ alt < n + 1, stack = [{ rule := root, alt, idx := 0 }] := by
        funext stack
        exact propext Nat.exists_lt_succ_right.symm
      rw [hroots] at hdone
      exact hdone
  obtain ⟨hdone, hlater⟩ := hfold _ (le_rfl)
  unfold GbnfArena.startSet
  generalize (List.range (altsOf rules root).length).foldl _ (a.beginVisit, []) = after
    at hdone hlater
  have hgrown : a.nodes <+: after.1.nodes := hnodes ▸ hlater.nodes
  refine ⟨⟨hdone.ok, fun s out hfound => ?_⟩, hgrown, ?_⟩
  · rw [hlater.cache, hcache] at hfound
    obtain ⟨stack, hstack, hholds⟩ := h.cache s out hfound
    exact ⟨stack, hstack.mono hgrown, hholds.mono hgrown⟩
  · have hset : { stack | FromRoot rules (fun stack => ∃ alt < (altsOf rules root).length,
        stack = [{ rule := root, alt, idx := 0 }]) stack ∧ (gbnf rules).Waiting stack } =
        liveStacks rules root [] := by
      ext stack
      constructor
      · rintro ⟨⟨_, ⟨alt, hlt, rfl⟩, hreach⟩, hwaiting⟩
        exact .start (mem_map_of_mem (mem_range.mpr hlt)) hreach hwaiting
      · intro hlive
        obtain ⟨frame, hframe, hreach, hwaiting⟩ := hlive.of_nil
        obtain ⟨alt, hlt, rfl⟩ := mem_map.mp hframe
        exact ⟨⟨_, ⟨alt, mem_range.mp hlt, rfl⟩, hreach⟩, hwaiting⟩
    rw [← hset]
    exact hdone.holds

/-- The waiting stacks of a set of stacks that read a codepoint. -/
def readBy (rules : List GbnfRule) (S : Set (List GbnfPos)) (cp : Nat) : Set (List GbnfPos) :=
  { next | ∃ p rest chars, p :: rest ∈ S ∧ itemAt rules p = some (.letter chars) ∧
    chars.matchesCp cp = true ∧ next ∈ behind rules (p :: rest) }

theorem liveStacks_concat (root : Nat) (u : List Nat) (cp : Nat) :
    liveStacks rules root (u ++ [cp]) = readBy rules (liveStacks rules root u) cp := by
  ext stack
  constructor
  · intro hlive
    obtain ⟨frame, rest, c, tail, hbefore, hitems, hadmits, hreach, hwaiting⟩ := hlive.of_concat
    refine ⟨frame, rest, c, hbefore, ?_, hadmits, hreach, hwaiting⟩
    rw [itemAt_eq, hitems, head?_cons]
  · rintro ⟨p, rest, chars, hbefore, hitem, hadmits, hreach, hwaiting⟩
    exact .read hbefore (items_of_itemAt hitem) hadmits hreach hwaiting

/-- What the rounds of `step_into` have gathered from the ids they went through. -/
structure Gathered (rules : List GbnfRule) (S : Set (List GbnfPos)) (cp : Nat) (a : GbnfArena)
    (done : List Int) (state : GbnfArena × GbnfStackSet) : Prop where
  ok : GrammarOk rules state.1
  nodes : a.nodes <+: state.1.nodes
  sound : ∀ s ∈ state.2, ∃ stack ∈ readBy rules S cp, Denotes state.1.nodes s stack
  complete : ∀ s ∈ done, ∀ p rest chars, Denotes a.nodes s (p :: rest) →
    itemAt rules p = some (.letter chars) → chars.matchesCp cp = true →
    (behind rules (p :: rest)).encard ≤ kMaxStacks →
      ∀ stack ∈ behind rules (p :: rest), ∃ id ∈ state.2, Denotes state.1.nodes id stack

theorem topItem_eq (hs : Denotes a.nodes s (p :: rest)) : a.topItem rules s = itemAt rules p := by
  have hnonneg : ¬ s < 0 := fun hneg => by cases (hs.neg_one hneg).2
  obtain ⟨i, rfl, node, rest', hnode, hcons, -⟩ := hs.exists_node hnonneg
  obtain ⟨rfl, rfl⟩ := List.cons.inj hcons
  rw [GbnfArena.topItem, if_neg hnonneg, Int.toNat_natCast, hnode]
  rfl

theorem topItem_neg : a.topItem rules (-1) = none := rfl

theorem Gathered.round {cp : Nat} {done : List Int} {state : GbnfArena × GbnfStackSet}
    (h : Gathered rules S cp a done state) {stack : List GbnfPos} (hs : Denotes a.nodes s stack)
    (hmem : stack ∈ S) :
    Gathered rules S cp a (done ++ [s]) (GbnfArena.stepRound rules cp state s) := by
  -- nothing is read by this stack
  have hskip : (∀ p rest chars, stack = p :: rest → itemAt rules p = some (.letter chars) →
      chars.matchesCp cp ≠ true) → Gathered rules S cp a (done ++ [s]) state := by
    intro hno
    refine ⟨h.ok, h.nodes, h.sound, fun s' hs' p rest chars hdenotes hitem hmatch => ?_⟩
    rcases mem_append.mp hs' with hold | hnew
    · exact h.complete s' hold p rest chars hdenotes hitem hmatch
    · rw [mem_singleton.mp hnew] at hdenotes
      exact absurd hmatch (hno p rest chars (hs.unique hdenotes) hitem)
  unfold GbnfArena.stepRound
  cases stack with
  | nil =>
    have hneg : s = -1 := by
      cases hs
      rfl
    rw [hneg, topItem_neg]
    rw [← hneg]
    exact hskip fun p rest chars hcons => by cases hcons
  | cons p rest =>
    have hnow := hs.mono h.nodes
    rw [topItem_eq hnow]
    split
    next chars hitem =>
      split
      next hmatch =>
        obtain ⟨hok, hgrown, hholds, -⟩ :=
          successors_spec h.ok hnow (idx_lt_of_itemAt hitem)
        refine ⟨hok, h.nodes.trans hgrown, fun id hid => ?_, ?_⟩
        · rcases mem_append.mp hid with hold | hnew
          · obtain ⟨stack, hstack, hdenotes⟩ := h.sound id hold
            exact ⟨stack, hstack, hdenotes.mono hgrown⟩
          · obtain ⟨stack, hstack, hdenotes⟩ := hholds.sound id hnew
            exact ⟨stack, ⟨p, rest, chars, hmem, hitem, hmatch, hstack⟩, hdenotes⟩
        · intro s' hs' p' rest' chars' hdenotes hitem' hmatch' hsmall stack hstack
          rcases mem_append.mp hs' with hold | hnew
          · obtain ⟨id, hid, hdenotes⟩ := h.complete s' hold p' rest' chars' hdenotes hitem'
              hmatch' hsmall stack hstack
            exact ⟨id, mem_append_left _ hid, hdenotes.mono hgrown⟩
          · rw [mem_singleton.mp hnew] at hdenotes
            obtain ⟨rfl, rfl⟩ := List.cons.inj (hs.unique hdenotes)
            obtain ⟨id, hid, hdenotes⟩ := hholds.complete hsmall stack hstack
            exact ⟨id, mem_append_right _ hid, hdenotes⟩
      next hmatch =>
        refine hskip fun p' rest' chars' hcons hitem' => ?_
        obtain ⟨rfl, rfl⟩ := List.cons.inj hcons
        obtain ⟨rfl⟩ := Item.letter.inj (Option.some.inj (hitem.symm.trans hitem'))
        exact hmatch
    next hother =>
      refine hskip fun p' rest' chars' hcons hitem' => ?_
      obtain ⟨rfl, rfl⟩ := List.cons.inj hcons
      exact absurd hitem' (hother chars')

/-- `step_into` holds the stacks that read the codepoint. -/
theorem stepInto_spec (h : GrammarOk rules a) {live : GbnfStackSet}
    (hlive : Holds a.nodes S Exact live) (cp : Nat) : let after := a.stepInto rules live cp
    GrammarOk rules after.1 ∧ a.nodes <+: after.1.nodes ∧
      Holds after.1.nodes (readBy rules S cp)
        (Exact ∧ (readBy rules S cp).encard ≤ kMaxStacks) after.2 := by
  have hfold : ∀ done rest, live = done ++ rest →
      Gathered rules S cp a done (done.foldl (GbnfArena.stepRound rules cp) (a, [])) := by
    intro done
    induction done using List.reverseRecOn with
    | nil =>
      intro rest _
      exact ⟨h, prefix_rfl, fun s hs => absurd hs not_mem_nil,
        fun s hs => absurd hs not_mem_nil⟩
    | append_singleton done s ih =>
      intro rest hsplit
      obtain ⟨stack, hmem, hs⟩ := hlive.sound s (by rw [hsplit]; simp)
      rw [foldl_append]
      exact (ih (s :: rest) (by rw [hsplit, append_assoc]; rfl)).round hs hmem
  have hgathered := hfold live [] (append_nil _).symm
  unfold GbnfArena.stepInto
  generalize live.foldl (GbnfArena.stepRound rules cp) (a, []) = state at hgathered ⊢
  refine ⟨hgathered.ok, hgathered.nodes, ?_⟩
  have hsmall : ∀ p rest chars, p :: rest ∈ S → itemAt rules p = some (.letter chars) →
      chars.matchesCp cp = true → behind rules (p :: rest) ⊆ readBy rules S cp :=
    fun p rest chars hmem hitem hmatch stack hstack =>
      ⟨p, rest, chars, hmem, hitem, hmatch, hstack⟩
  have hall : Holds state.1.nodes (readBy rules S cp)
      (Exact ∧ (readBy rules S cp).encard ≤ kMaxStacks) (dedupIds state.2) := by
    refine ⟨fun s hs => hgathered.sound s (mem_dedupIds.mp hs), dedupIds_sorted _, ?_⟩
    rintro ⟨hexact, hle⟩ stack ⟨p, rest, chars, hmem, hitem, hmatch, hstack⟩
    obtain ⟨s, hs, hdenotes⟩ := hlive.complete hexact _ hmem
    obtain ⟨id, hid, hid'⟩ := hgathered.complete s hs p rest chars hdenotes hitem hmatch
      ((Set.encard_le_encard (hsmall p rest chars hmem hitem hmatch)).trans hle) stack hstack
    exact ⟨id, mem_dedupIds.mpr hid, hid'⟩
  have htaken := hall.take hgathered.ok.arena
  exact ⟨htaken.sound, htaken.sorted, fun hexact => htaken.complete ⟨hexact, hexact.2⟩⟩

end Quench.Gbnf

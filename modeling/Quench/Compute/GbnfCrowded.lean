import Quench.Compute.GbnfChunks

/-!
# A trial that changes a later answer

A live set of more than `kMaxStacks` stacks loses those with the greatest ids, and a stack gets its
id when it is first interned. In the grammar of `crowdedSource` the codepoint `y` leads to 4096
stacks that wait for `w` and to one that waits for `z`. That one is interned last, so `yz` is
refused; a trial of `x` interns it first, and then `yz` is accepted: `trial_changes_answer`.
-/

namespace Quench.Gbnf

open Lib GbnfMatcher List

/-! ## The grammar -/

/-- The rule `b` has 64 alternatives `c`, and `c` has 64 alternatives `"w"`. -/
def crowdedSource : List UInt8 :=
  ascii "root ::= p | q t\np ::= \"y\" b\nb ::= c" ++ (List.replicate 63 (ascii "|c")).flatten ++
    ascii "\nc ::= \"w\"" ++ (List.replicate 63 (ascii "|\"w\"")).flatten ++
    ascii "\nq ::= \"y\" | \"x\"\nt ::= \"z\"\n"

/-- The set of one codepoint. -/
def oneOf (cp : Nat) : GbnfCharSet := { ranges := [(cp, cp)] }

/-- Its rule table. -/
def crowdedRules : List GbnfRule :=
  [{ name := rootName, alts := [[.rule 1], [.rule 2, .rule 3]] },
    { name := ascii "p", alts := [[.letter (oneOf 0x79), .rule 4]] },
    { name := ascii "q", alts := [[.letter (oneOf 0x79)], [.letter (oneOf 0x78)]] },
    { name := ascii "t", alts := [[.letter (oneOf 0x7A)]] },
    { name := ascii "b", alts := List.replicate 64 [.rule 5] },
    { name := ascii "c", alts := List.replicate 64 [.letter (oneOf 0x77)] }]

/-- The arena after the start set was computed. -/
def crowdedStart : List StackNode :=
  [⟨⟨0, 0, 0⟩, -1, 1⟩, ⟨⟨1, 0, 0⟩, 0, 2⟩, ⟨⟨0, 1, 0⟩, -1, 1⟩, ⟨⟨2, 0, 0⟩, 2, 2⟩, ⟨⟨2, 1, 0⟩, 2, 2⟩]

/-- The arena after the trial of `x`. -/
def crowdedTried : List StackNode :=
  crowdedStart ++ [⟨⟨2, 1, 1⟩, 2, 2⟩, ⟨⟨0, 1, 1⟩, -1, 1⟩, ⟨⟨3, 0, 0⟩, 6, 2⟩]

theorem oneOf_matches {cp cp' : Nat} : (oneOf cp).matchesCp cp' = true ↔ cp' = cp := by
  simp only [oneOf, GbnfCharSet.matchesCp, any_cons, any_nil, Bool.or_false,
    Bool.false_eq_true, if_false, Bool.and_eq_true, decide_eq_true_eq]
  omega

variable {i : Nat} {p : GbnfPos} {stack : List GbnfPos} {nodes : List StackNode} {z : Int}
  {live : GbnfStackSet} {half : GbnfPartial} {b : UInt8}

theorem items_choice (hi : i < 64) : (gbnf crowdedRules).items ⟨4, i, 0⟩ = [.rule 5] := by
  change ((List.replicate 64 [Item.rule 5])[i]?.getD []).drop 0 = _
  rw [getElem?_replicate, if_pos hi]
  rfl

theorem items_leaf {j : Nat} (hj : j < 64) :
    (gbnf crowdedRules).items ⟨5, j, 0⟩ = [.letter (oneOf 0x77)] := by
  change ((List.replicate 64 [Item.letter (oneOf 0x77)])[j]?.getD []).drop 0 = _
  rw [getElem?_replicate, if_pos hj]
  rfl

theorem mem_enter {r : Nat} (h : p ∈ (gbnf crowdedRules).enter r) :
    ∃ alt < (altsOf crowdedRules r).length, p = ⟨r, alt, 0⟩ := by
  obtain ⟨alt, halt, rfl⟩ := mem_map.mp h
  exact ⟨alt, mem_range.mp halt, rfl⟩

/-! ## Where the codepoints lead -/

/-- The stacks that wait for `w`. -/
def crowd (x : Fin 64 × Fin 64) : List GbnfPos :=
  [⟨5, x.2, 0⟩, ⟨4, x.1, 0⟩, ⟨1, 0, 1⟩, ⟨0, 0, 0⟩]

/-- The stack that waits for `z`. -/
def straggler : List GbnfPos := [⟨3, 0, 0⟩, ⟨0, 1, 1⟩]

theorem crowd_injective : Function.Injective crowd := by
  rintro ⟨i, j⟩ ⟨i', j'⟩ h
  simp only [crowd, List.cons.injEq, GbnfPos.mk.injEq] at h
  exact Prod.ext (Fin.ext h.2.1.2.1) (Fin.ext h.1.2.1)

/-- The stacks on the way to those that wait for `w`. -/
def CrowdWay (stack : List GbnfPos) : Prop :=
  stack = [⟨1, 0, 1⟩, ⟨0, 0, 0⟩] ∨ (∃ i < 64, stack = [⟨4, i, 0⟩, ⟨1, 0, 1⟩, ⟨0, 0, 0⟩]) ∨
    ∃ x, stack = crowd x

theorem crowdWay_of_reaches (h : GbnfReaches crowdedRules [⟨1, 0, 1⟩, ⟨0, 0, 0⟩] stack) :
    CrowdWay stack := by
  refine h.mem (C := { stack | CrowdWay stack }) (.inl rfl) fun t ht t' hmove => ?_
  rcases ht with rfl | ⟨i, hi, rfl⟩ | ⟨x, rfl⟩
  · have hitems : (gbnf crowdedRules).items ⟨1, 0, 1⟩ = [.rule 4] := rfl
    obtain ⟨-, p, hp, rfl⟩ := hmove.of_rule hitems
    obtain ⟨i, hi, rfl⟩ := mem_enter hp
    exact .inr (.inl ⟨i, hi, rfl⟩)
  · obtain ⟨-, p, hp, rfl⟩ := hmove.of_rule (items_choice hi)
    obtain ⟨j, hj, rfl⟩ := mem_enter hp
    exact .inr (.inr ⟨(⟨i, hi⟩, ⟨j, hj⟩), rfl⟩)
  · exact absurd hmove (Grammar.Move.not_of_letter (items_leaf x.2.isLt))

theorem behind_y : behind crowdedRules [⟨1, 0, 0⟩, ⟨0, 0, 0⟩] = Set.range crowd := by
  ext stack
  constructor
  · rintro ⟨hreach, hwaiting⟩
    rcases crowdWay_of_reaches hreach with rfl | ⟨i, hi, rfl⟩ | ⟨x, rfl⟩
    · cases hwaiting with
      | letter hitems => cases hitems
    · cases hwaiting with
      | letter hitems =>
        rw [items_choice hi] at hitems
        cases hitems
    · exact ⟨x, rfl⟩
  · rintro ⟨⟨i, j⟩, rfl⟩
    have hchoice : (⟨4, i, 0⟩ : GbnfPos) ∈ (gbnf crowdedRules).enter 4 :=
      mem_map_of_mem (mem_range.mpr i.isLt)
    have hleaf : (⟨5, j, 0⟩ : GbnfPos) ∈ (gbnf crowdedRules).enter 5 :=
      mem_map_of_mem (mem_range.mpr j.isLt)
    refine ⟨.tail (.single (.call rfl (by decide) hchoice)) ?_, .letter (items_leaf j.isLt)⟩
    exact .call (items_choice i.isLt) (show 3 < 128 by decide) hleaf

/-- Both alternatives of `q` lead to the stack that waits for `z`. -/
theorem behind_q {alt : Nat} (halt : alt < 2) :
    behind crowdedRules [⟨2, alt, 0⟩, ⟨0, 1, 0⟩] = { straggler } := by
  have hend : (gbnf crowdedRules).items ⟨2, alt, 1⟩ = [] := by
    rcases Nat.le_one_iff_eq_zero_or_eq_one.mp (Nat.le_of_lt_succ halt) with rfl | rfl <;> rfl
  have hcall : (gbnf crowdedRules).items ⟨0, 1, 1⟩ = [.rule 3] := rfl
  have henter : (gbnf crowdedRules).Move 128 [⟨0, 1, 1⟩] straggler :=
    .call hcall (by decide) mem_cons_self
  have hwait : (gbnf crowdedRules).Waiting straggler := .letter rfl
  ext stack
  constructor
  · rintro ⟨hreach, hwaiting⟩
    have hret := hreach.of_move hwaiting (.ret hend) fun _ hmove => hmove.of_end hend
    refine hwait.eq_of_reaches (hret.of_move hwaiting henter fun t hmove => ?_)
    obtain ⟨-, p, hp, rfl⟩ := hmove.of_rule hcall
    rw [mem_singleton.mp hp]
    rfl
  · rintro rfl
    exact ⟨.tail (.single (.ret hend)) henter, hwait⟩

theorem behind_z : behind crowdedRules straggler = { [] } := by
  have hend : (gbnf crowdedRules).items ⟨3, 0, 1⟩ = [] := rfl
  have hlast : (gbnf crowdedRules).items ⟨0, 1, 2⟩ = [] := rfl
  ext stack
  constructor
  · rintro ⟨hreach, hwaiting⟩
    have hret := hreach.of_move hwaiting (.ret hend) fun _ hmove => hmove.of_end hend
    exact Grammar.eq_nil_of_reaches hlast hret hwaiting
  · rintro rfl
    exact ⟨.tail (.single (.ret hend)) (.ret hlast), .done⟩

/-! ## The step on `y` -/

theorem crowd_encard : (Set.range crowd).encard ≤ kMaxStacks := by
  rw [← Set.image_univ]
  refine (Set.encard_image_le crowd Set.univ).trans ?_
  simp [kMaxStacks]

/-- A list that holds the stacks that wait for `w` is as long as a live set may be. -/
theorem crowd_length {ids : List Int} (h : Holds nodes (Set.range crowd) True ids) :
    kMaxStacks ≤ ids.length := by
  choose id hid hdenotes using fun x => h.complete trivial (crowd x) ⟨x, rfl⟩
  have hinj : Function.Injective id := fun x y hxy =>
    crowd_injective ((hdenotes x).unique (hxy ▸ hdenotes y))
  have hcard := Finset.card_le_card_of_injOn id
    (s := Finset.univ) (t := ids.toFinset) (fun x _ => mem_toFinset.mpr (hid x)) hinj.injOn
  calc kMaxStacks = (Finset.univ : Finset (Fin 64 × Fin 64)).card := by simp [kMaxStacks]
    _ ≤ ids.toFinset.card := hcard
    _ ≤ ids.length := ids.toFinset_card_le

/-- What the step on `y` does from a live set with both readings of `y`: the arena in between, the
stacks that wait for `w`, and the one that waits for `z`. -/
structure Crowded (a between : GbnfArena) (ids ids' : List Int)
    (after : GbnfArena × GbnfStackSet) : Prop where
  ok : GrammarOk crowdedRules after.1
  betweenOk : GrammarOk crowdedRules between
  before : a.nodes <+: between.nodes
  nodes : between.nodes <+: after.1.nodes
  first : Holds between.nodes (Set.range crowd) True ids
  second : Holds after.1.nodes { straggler } True ids'
  live : after.2 = (dedupIds (ids ++ ids')).take kMaxStacks
  fresh : ∀ (i : Nat) stack, Denotes between.nodes i stack → Denotes a.nodes i stack ∨
    CrowdWay stack

section StepRound

variable {rules : List GbnfRule} {a : GbnfArena} {out : GbnfStackSet} {s : Int}
  {chars : GbnfCharSet} {cp : Nat}

theorem stepRound_letter (hitem : a.topItem rules s = some (.letter chars)) :
    GbnfArena.stepRound rules cp (a, out) s = if chars.matchesCp cp then
      ((a.successors rules s).1, out ++ (a.successors rules s).2) else (a, out) := by
  rw [GbnfArena.stepRound, hitem]

end StepRound

/-- The stacks of the start set. -/
theorem start_denotes (h : crowdedStart <+: nodes) :
    Denotes nodes (1 : Nat) [⟨1, 0, 0⟩, ⟨0, 0, 0⟩] ∧
      Denotes nodes (3 : Nat) [⟨2, 0, 0⟩, ⟨0, 1, 0⟩] ∧
      Denotes nodes (4 : Nat) [⟨2, 1, 0⟩, ⟨0, 1, 0⟩] := by
  have hnode0 : crowdedStart[0]? = some ⟨⟨0, 0, 0⟩, -1, 1⟩ := rfl
  have hnode1 : crowdedStart[1]? = some ⟨⟨1, 0, 0⟩, (0 : Nat), 2⟩ := rfl
  have hnode2 : crowdedStart[2]? = some ⟨⟨0, 1, 0⟩, -1, 1⟩ := rfl
  have hnode3 : crowdedStart[3]? = some ⟨⟨2, 0, 0⟩, (2 : Nat), 2⟩ := rfl
  have hnode4 : crowdedStart[4]? = some ⟨⟨2, 1, 0⟩, (2 : Nat), 2⟩ := rfl
  have hroot : Denotes crowdedStart (2 : Nat) [⟨0, 1, 0⟩] := .frame hnode2 .bottom
  exact ⟨(Denotes.frame hnode1 (.frame hnode0 .bottom)).mono h, (Denotes.frame hnode3 hroot).mono h,
    (Denotes.frame hnode4 hroot).mono h⟩

theorem step_y {a : GbnfArena} (hok : GrammarOk crowdedRules a)
    (hstart : crowdedStart <+: a.nodes) :
    ∃ between ids ids', Crowded a between ids ids' (a.stepInto crowdedRules [1, 3, 4] 0x79) := by
  obtain ⟨h1, -, -⟩ := start_denotes hstart
  obtain ⟨hok1, hgrown1, hholds1, hfresh1⟩ := successors_spec hok h1 (by decide)
  obtain ⟨-, h3, -⟩ := start_denotes (hstart.trans hgrown1)
  obtain ⟨hok2, hgrown2, hholds2, -⟩ := successors_spec hok1 h3 (by decide)
  obtain ⟨-, -, h4⟩ := start_denotes (hstart.trans (hgrown1.trans hgrown2))
  have hitem1 : itemAt crowdedRules ⟨1, 0, 0⟩ = some (.letter (oneOf 0x79)) := rfl
  have hitem3 : itemAt crowdedRules ⟨2, 0, 0⟩ = some (.letter (oneOf 0x79)) := rfl
  have hitem4 : itemAt crowdedRules ⟨2, 1, 0⟩ = some (.letter (oneOf 0x78)) := rfl
  generalize hafter1 : a.successors crowdedRules (1 : Nat) = after1 at *
  generalize hafter2 : after1.1.successors crowdedRules (3 : Nat) = after2 at *
  have hstep : a.stepInto crowdedRules [1, 3, 4] 0x79 =
      (after2.1, (dedupIds (after1.2 ++ after2.2)).take kMaxStacks) := by
    have hfold : [((1 : Nat) : Int), (3 : Nat), (4 : Nat)].foldl
        (GbnfArena.stepRound crowdedRules 0x79) (a, []) = (after2.1, after1.2 ++ after2.2) := by
      rw [foldl_cons, stepRound_letter ((topItem_eq h1).trans hitem1),
        if_pos (oneOf_matches.mpr rfl), hafter1, foldl_cons,
        stepRound_letter ((topItem_eq h3).trans hitem3), if_pos (oneOf_matches.mpr rfl), hafter2,
        foldl_cons, stepRound_letter ((topItem_eq h4).trans hitem4),
        if_neg (mt oneOf_matches.mp (by decide)), foldl_nil, nil_append]
    rw [show ([1, 3, 4] : List Int) = [((1 : Nat) : Int), (3 : Nat), (4 : Nat)] from rfl,
      GbnfArena.stepInto, hfold]
  rw [hstep]
  rw [behind_y] at hholds1
  rw [behind_q (by decide)] at hholds2
  refine ⟨after1.1, after1.2, after2.2, hok2, hok1, hgrown1, hgrown2, ?_, ?_, rfl,
    fun i stack hstack => (hfresh1 i stack hstack).imp id crowdWay_of_reaches⟩
  · exact ⟨hholds1.sound, hholds1.sorted, fun _ => hholds1.complete crowd_encard⟩
  · exact ⟨hholds2.sound, hholds2.sorted, fun _ => hholds2.complete (by simp [kMaxStacks])⟩

/-! ## The step on `z` -/

/-- Ids below all others come first. -/
theorem dedupIds_append {ids ids' : List Int} (hids : ids.Pairwise (· < ·))
    (hids' : ids'.Pairwise (· < ·)) (hlt : ∀ s ∈ ids, ∀ s' ∈ ids', s < s') :
    dedupIds (ids ++ ids') = ids ++ ids' := by
  refine List.Subset.antisymm_of_sortedLT (fun s hs => mem_dedupIds.mp hs)
    (fun s hs => mem_dedupIds.mpr hs) (dedupIds_sorted _).sortedLT ?_
  exact (pairwise_append.mpr ⟨hids, hids', hlt⟩).sortedLT

variable {a between : GbnfArena} {ids ids' : List Int} {after : GbnfArena × GbnfStackSet}

/-- The least id is kept. -/
theorem mem_take_of_least {l : List Int} (hsorted : l.Pairwise (· < ·)) (hz : z ∈ l)
    (hleast : ∀ s ∈ l, z ≤ s) {n : Nat} : z ∈ l.take (n + 1) := by
  cases l with
  | nil => exact absurd hz not_mem_nil
  | cons s rest =>
    rcases mem_cons.mp hz with rfl | hlater
    · exact mem_cons_self
    · have hlt := (pairwise_cons.mp hsorted).1 z hlater
      have hle := hleast s mem_cons_self
      omega

/-- The ids of an arena are below those of what it does not know. -/
theorem lt_of_not_denotes (hok : ArenaOk crowdedRules a) (hgrown : a.nodes <+: nodes) {s s' : Int}
    {stack' : List GbnfPos} (hs : Denotes a.nodes s stack) (hs' : Denotes nodes s' stack')
    (hne : stack' ≠ []) (hnew : ∀ i : Nat, ¬ Denotes a.nodes i stack') : s < s' := by
  obtain ⟨j, rfl, -⟩ := hs'.exists_node fun hneg => hne (hs'.neg_one hneg).2
  have hge : a.nodes.length ≤ j := by
    by_contra hlt
    exact hnew j (hok.denotes_old hgrown (by omega) hs')
  rcases lt_or_ge s 0 with hneg | hnonneg
  · omega
  · obtain ⟨i, rfl, node, -, hnode, -⟩ := hs.exists_node (by omega)
    have hlt := (List.getElem?_eq_some_iff.mp hnode).1
    omega

theorem readBy_crowd : readBy crowdedRules (Set.range crowd) 0x7A = ∅ := by
  refine Set.eq_empty_of_forall_notMem fun next => ?_
  rintro ⟨p, rest, chars, ⟨x, hx⟩, hitem, hmatches, -⟩
  obtain ⟨rfl, -⟩ := List.cons.inj hx
  rw [itemAt_eq, items_leaf x.2.isLt] at hitem
  obtain rfl := Item.letter.inj (Option.some.inj hitem)
  exact absurd (oneOf_matches.mp hmatches) (by decide)

section

variable (h : Crowded a between ids ids' after)
include h

theorem Crowded.ne_nil : after.2 ≠ [] := by
  obtain ⟨s, hs, -⟩ := h.first.complete trivial (crowd (0, 0)) ⟨_, rfl⟩
  have hmem : s ∈ dedupIds (ids ++ ids') := mem_dedupIds.mpr (mem_append_left _ hs)
  rw [h.live, Ne, take_eq_nil_iff, not_or]
  exact ⟨by decide, ne_nil_of_mem hmem⟩

/-- In an arena that does not know the stack that waits for `z`, it comes last and is dropped. -/
theorem Crowded.refuses (hnew : ∀ i : Nat, ¬ Denotes a.nodes i straggler) :
    (after.1.stepInto crowdedRules after.2 0x7A).2 = [] := by
  have hunknown : ∀ i : Nat, ¬ Denotes between.nodes i straggler := by
    intro i hi
    rcases h.fresh i _ hi with hold | hway | ⟨i, -, hway⟩ | ⟨x, hway⟩
    · exact hnew _ hold
    · cases hway
    · cases hway
    · cases hway
  have hlt : ∀ s ∈ ids, ∀ s' ∈ ids', s < s' := by
    intro s hs s' hs'
    obtain ⟨stack, -, hdenotes⟩ := h.first.sound s hs
    obtain ⟨_, rfl, hdenotes'⟩ := h.second.sound s' hs'
    exact lt_of_not_denotes h.betweenOk.arena h.nodes hdenotes hdenotes' (cons_ne_nil _ _)
      hunknown
  have hlive : after.2 = ids.take kMaxStacks := by
    rw [h.live, dedupIds_append h.first.sorted h.second.sorted hlt,
      take_append_of_le_length (crowd_length h.first)]
  have hholds : Holds after.1.nodes (Set.range crowd) False after.2 := by
    rw [hlive]
    exact ⟨fun s hs => (h.first.mono h.nodes).sound s (mem_of_mem_take hs),
      h.first.sorted.sublist (take_sublist _ _), False.elim⟩
  obtain ⟨-, -, hnext⟩ := stepInto_spec h.ok hholds 0x7A
  rw [readBy_crowd] at hnext
  refine eq_nil_iff_forall_not_mem.mpr fun s hs => ?_
  obtain ⟨stack, hstack, -⟩ := hnext.sound s hs
  exact hstack

/-- In an arena that knows it, but none of those that wait for `w`, it comes first and is kept. -/
theorem Crowded.accepts (hok : ArenaOk crowdedRules a) (hz : Denotes a.nodes z straggler)
    (hnew : ∀ (i : Nat) x, ¬ Denotes a.nodes i (crowd x)) :
    (after.1.stepInto crowdedRules after.2 0x7A).2 ≠ [] := by
  have hz' := hz.mono (h.before.trans h.nodes)
  have hmem : z ∈ ids' := by
    obtain ⟨s, hs, hdenotes⟩ := h.second.complete trivial straggler rfl
    rwa [h.ok.arena.denotes_inj hz' hdenotes]
  have hleast : ∀ s ∈ dedupIds (ids ++ ids'), z ≤ s := by
    intro s hs
    rcases mem_append.mp (mem_dedupIds.mp hs) with hfirst | hsecond
    · obtain ⟨_, ⟨x, rfl⟩, hdenotes⟩ := h.first.sound s hfirst
      exact (lt_of_not_denotes hok h.before hz hdenotes (cons_ne_nil _ _) fun i => hnew i x).le
    · obtain ⟨_, rfl, hdenotes⟩ := h.second.sound s hsecond
      exact (h.ok.arena.denotes_inj hz' hdenotes).le
  have hlive : z ∈ after.2 := by
    rw [h.live]
    exact mem_take_of_least (dedupIds_sorted _)
      (mem_dedupIds.mpr (mem_append_right _ hmem)) hleast
  have hholds : Holds after.1.nodes (Set.range crowd ∪ { straggler }) False after.2 := by
    refine ⟨fun s hs => ?_, ?_, False.elim⟩
    · rw [h.live] at hs
      rcases mem_append.mp (mem_dedupIds.mp (mem_of_mem_take hs)) with hfirst | hsecond
      · obtain ⟨stack, hstack, hdenotes⟩ := (h.first.mono h.nodes).sound s hfirst
        exact ⟨stack, .inl hstack, hdenotes⟩
      · obtain ⟨stack, hstack, hdenotes⟩ := h.second.sound s hsecond
        exact ⟨stack, .inr hstack, hdenotes⟩
    · rw [h.live]
      exact (dedupIds_sorted _).sublist (take_sublist _ _)
  obtain ⟨-, -, hnext⟩ := stepInto_spec h.ok hholds.self 0x7A
  -- only the stack that waits for `z` reads it, and then the grammar is done
  have honly : readBy crowdedRules { stack | ∃ s ∈ after.2, Denotes after.1.nodes s stack } 0x7A ⊆
      { [] } := by
    rintro next ⟨p, rest, chars, ⟨s, hs, hdenotes⟩, hitem, hmatches, hbehind⟩
    obtain ⟨stack, hstack, hdenotes'⟩ := hholds.sound s hs
    obtain rfl := hdenotes.unique hdenotes'
    rcases hstack with hcrowd | hstraggler
    · have hread : next ∈ readBy crowdedRules (Set.range crowd) 0x7A :=
        ⟨p, rest, chars, hcrowd, hitem, hmatches, hbehind⟩
      rw [readBy_crowd] at hread
      exact hread.elim
    · rwa [hstraggler, behind_z] at hbehind
  have hempty : [] ∈ readBy crowdedRules
      { stack | ∃ s ∈ after.2, Denotes after.1.nodes s stack } 0x7A :=
    ⟨⟨3, 0, 0⟩, [⟨0, 1, 1⟩], oneOf 0x7A, ⟨z, hlive, hz'⟩, rfl, oneOf_matches.mpr rfl,
      by rw [← straggler, behind_z]; rfl⟩
  obtain ⟨s, hs, -⟩ := hnext.complete ⟨trivial, (Set.encard_le_encard honly).trans
    (by simp [kMaxStacks])⟩ [] hempty
  exact ne_nil_of_mem hs

end

/-! ## The two answers -/

/-- An ASCII byte is read if it leaves live stacks. -/
theorem runLoop_ascii {rules : List GbnfRule} (text : List UInt8) (hhalf : half.remaining = 0)
    (hb : b.toNat < 0x80) :
    runLoop rules (b :: text) a live half =
      if (a.stepInto rules live b.toNat).2 = [] then ((a.stepInto rules live b.toNat).1, none)
      else runLoop rules text (a.stepInto rules live b.toNat).1 (a.stepInto rules live b.toNat).2
        half := by
  rw [runLoop_cp (decodeByte_ascii hhalf hb), runCp]
  dsimp only
  by_cases hnil : (a.stepInto rules live b.toNat).2 = []
  · rw [if_pos hnil, if_pos (List.isEmpty_iff.mpr hnil)]
  · rw [if_neg hnil, if_neg (mt List.isEmpty_iff.mp hnil)]

/-- The answer to `yz`, from a matcher that has read nothing. -/
theorem updateText_yz {m : GbnfMatcher} (htracks : Tracks m [] [])
    (hrules : m.grammar.rules = crowdedRules) (hlive : m.live = [1, 3, 4])
    (hy : (m.grammar.arena.stepInto crowdedRules [1, 3, 4] 0x79).2 ≠ []) :
    (m.updateText (ascii "yz")).1 = true ↔
      let after := m.grammar.arena.stepInto crowdedRules [1, 3, 4] 0x79
      (after.1.stepInto crowdedRules after.2 0x7A).2 ≠ [] := by
  have hhalf := htracks.reading.zero_of_nil
  have hy' : (0x79 : UInt8).toNat < 0x80 := by decide
  have hz' : (0x7A : UInt8).toNat < 0x80 := by decide
  have hfirst := (runLoop_ascii [0x7A] hhalf hy').trans (if_neg hy)
  rw [show ascii "yz" = [0x79, 0x7A] by decide]
  by_cases hz : ((m.grammar.arena.stepInto crowdedRules [1, 3, 4] 0x79).1.stepInto crowdedRules
      (m.grammar.arena.stepInto crowdedRules [1, 3, 4] 0x79).2 0x7A).2 = []
  · have hsecond := hfirst.trans ((runLoop_ascii [] hhalf hz').trans (if_pos hz))
    rw [← hrules, ← hlive] at hsecond
    rw [updateText_refused hsecond]
    simp [hz]
  · have hsecond := hfirst.trans ((runLoop_ascii [] hhalf hz').trans (if_neg hz))
    rw [← hrules, ← hlive] at hsecond
    rw [updateText_accepted hsecond (canComplete_of_zero hhalf)]
    simp [hz]

theorem Denotes.exists_pos {rest : List GbnfPos} (h : Denotes nodes i (p :: rest)) :
    ∃ node ∈ nodes, node.pos = p := by
  obtain ⟨_, -, node, _, hnode, hcons, -⟩ := h.exists_node (by omega)
  exact ⟨node, mem_of_getElem? hnode, (List.cons.inj hcons).1.symm⟩

/-- A trial of `x` changes the answer to `yz`. -/
theorem trial_changes_answer : ∃ m, compile crowdedSource = .ok m ∧
    (m.updateText (ascii "yz")).1 = false ∧
    ((m.wouldAccept (ascii "x")).2.updateText (ascii "yz")).1 = true := by
  have hstart : compiledTo crowdedSource (fun m => decide (m.live = [1, 3, 4] ∧
      m.grammar.rules = crowdedRules ∧ m.grammar.arena.nodes = crowdedStart ∧
      (m.wouldAccept (ascii "x")).2.grammar.arena.nodes = crowdedTried)) = true := by
    decide +kernel
  obtain ⟨m, hcompile, htest⟩ := exists_of_compiledTo hstart
  obtain ⟨hlive, hrules, hnodes, htried⟩ := of_decide_eq_true htest
  obtain ⟨-, htracks⟩ := compile_tracks hcompile
  refine ⟨m, hcompile, ?_, ?_⟩
  · have hok := htracks.reads.ok
    rw [hrules] at hok
    obtain ⟨between, ids, ids', hcrowded⟩ := step_y hok (by rw [hnodes])
    have hrefuses := hcrowded.refuses fun i hi => by
      rw [hnodes] at hi
      obtain ⟨node, hnode, hpos⟩ := hi.exists_pos
      have hother : ∀ node ∈ crowdedStart, node.pos ≠ ⟨3, 0, 0⟩ := by decide
      exact hother node hnode hpos
    rw [← Bool.not_eq_true, updateText_yz htracks hrules hlive hcrowded.ne_nil]
    exact fun hne => hne hrefuses
  · have htracks' := htracks.wouldAccept (ascii "x")
    have hok := htracks'.reads.ok
    change GrammarOk m.grammar.rules _ at hok
    rw [hrules] at hok
    obtain ⟨between, ids, ids', hcrowded⟩ :=
      step_y hok (by rw [htried]; exact prefix_append _ _)
    have hnode6 : crowdedTried[6]? = some ⟨⟨0, 1, 1⟩, -1, 1⟩ := rfl
    have hnode7 : crowdedTried[7]? = some ⟨⟨3, 0, 0⟩, (6 : Nat), 2⟩ := rfl
    have hz : Denotes crowdedTried (7 : Nat) straggler := .frame hnode7 (.frame hnode6 .bottom)
    rw [← htried] at hz
    rw [updateText_yz htracks' hrules hlive hcrowded.ne_nil]
    refine hcrowded.accepts hok.arena hz fun i x hi => ?_
    rw [htried] at hi
    obtain ⟨node, hnode, hpos⟩ := hi.exists_pos
    have hother : ∀ node ∈ crowdedTried, node.pos.rule ≠ 5 := by decide
    exact hother node hnode (congrArg GbnfPos.rule hpos)

end Quench.Gbnf

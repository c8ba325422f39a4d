import Mathlib.Algebra.Order.BigOperators.Group.List
import Mathlib.Data.Set.Card
import Quench.Compute.GbnfGrammar

/-!
# Interned stacks

What an id of the arena stands for is the list of positions on its stack (`Denotes`). Interning
makes this one to one, whatever order the stacks came in, and ids keep their meaning as the arena
grows.
-/

namespace Quench.Gbnf

open Lib List Option

variable {p : GbnfPos} {s : Int}

/-- The rule table as a grammar on positions. -/
def gbnf (rules : List GbnfRule) : Grammar GbnfPos GbnfCharSet Nat Nat where
  items p := (altItems rules p).drop p.idx
  advance := GbnfPos.next
  items_advance p := by
    change (altItems rules p).drop (p.idx + 1) = _
    rw [tail_drop]
  enter r := (List.range (altsOf rules r).length).map fun alt => { rule := r, alt, idx := 0 }
  admits := GbnfCharSet.matchesCp

variable {rules : List GbnfRule}

/-- The item a position stands at is the first of those still to be read. -/
theorem itemAt_eq (p : GbnfPos) : itemAt rules p = ((gbnf rules).items p).head? := by
  change (altItems rules p)[p.idx]? = ((altItems rules p).drop p.idx).head?
  rw [head?_drop]

variable {item : GbnfItem}

theorem items_of_itemAt (h : itemAt rules p = some item) :
    (gbnf rules).items p = item :: ((gbnf rules).items p).tail := by
  rw [itemAt_eq] at h
  exact (cons_head?_tail h).symm

theorem items_of_itemAt_none (h : itemAt rules p = none) : (gbnf rules).items p = [] := by
  rw [itemAt_eq] at h
  exact head?_eq_none_iff.mp h

/-! ## What an id stands for -/

/-- The stack of an id. -/
inductive Denotes (nodes : List StackNode) : Int → List GbnfPos → Prop where
  | bottom : Denotes nodes (-1) []
  | frame {i : Nat} {node : StackNode} {rest : List GbnfPos} : nodes[i]? = some node →
      Denotes nodes node.parent rest → Denotes nodes i (node.pos :: rest)

namespace Denotes

variable {nodes nodes' : List StackNode} {s : Int} {stack stack' : List GbnfPos}
  (h : Denotes nodes s stack)
include h

theorem mono (hgrown : nodes <+: nodes') : Denotes nodes' s stack := by
  induction h with
  | bottom => exact .bottom
  | @frame i node rest hnode _ ih =>
    obtain ⟨more, rfl⟩ := hgrown
    have hlt := (List.getElem?_eq_some_iff.mp hnode).1
    exact .frame (by rw [getElem?_append_left hlt]; exact hnode) ih

theorem neg_one (hneg : s < 0) : s = -1 ∧ stack = [] := by
  cases h with
  | bottom => exact ⟨rfl, rfl⟩
  | frame => omega

theorem exists_node (hnonneg : ¬ s < 0) :
    ∃ i : Nat, s = i ∧ ∃ node rest, nodes[i]? = some node ∧ stack = node.pos :: rest ∧
      Denotes nodes node.parent rest := by
  cases h with
  | bottom => exact absurd (by decide) hnonneg
  | @frame i node rest hnode hparent => exact ⟨i, rfl, node, rest, hnode, rfl, hparent⟩

theorem unique (h' : Denotes nodes s stack') : stack = stack' := by
  induction h generalizing stack' with
  | bottom => exact (h'.neg_one (by decide)).2.symm
  | @frame i node rest hnode _ ih =>
    obtain ⟨j, hj, node', rest', hnode', rfl, hparent'⟩ := h'.exists_node (by omega)
    obtain rfl : i = j := by omega
    obtain rfl : node = node' := some.inj (hnode.symm.trans hnode')
    rw [ih hparent']

end Denotes

variable {a : GbnfArena} {stack : List GbnfPos}

/-- The positions of a table, for which there is a bound. -/
structure InTable (rules : List GbnfRule) (p : GbnfPos) : Prop where
  rule : p.rule < GbnfArena.tableSize rules
  alt : p.alt < GbnfArena.tableSize rules
  idx : p.idx ≤ (altItems rules p).length

/-- A stack whose positions are in the table. Below the top, each stands at an item. -/
structure Fits (rules : List GbnfRule) (stack : List GbnfPos) : Prop where
  inTable : ∀ p ∈ stack, InTable rules p
  below : ∀ p ∈ stack.tail, p.idx < (altItems rules p).length

/-- The invariant of the arena. -/
structure ArenaOk (rules : List GbnfRule) (a : GbnfArena) : Prop where
  denotes : ∀ (i : Nat) node, a.nodes[i]? = some node → ∃ stack, Denotes a.nodes i stack ∧
    stack.length = node.depth ∧ node.depth ≤ kMaxStackDepth ∧ Fits rules stack
  interned : ∀ pos parent id, a.interned.lookup (pos, parent) = some id ↔
    ∃ node, a.nodes[id]? = some node ∧ node.pos = pos ∧ node.parent = parent
  visited : a.visited.length = a.nodes.length
  marks : ∀ mark ∈ a.visited, mark ≤ a.visitEpoch

/-- A stack is interned once. -/
theorem ArenaOk.denotes_inj (h : ArenaOk rules a) {s' : Int} (hs : Denotes a.nodes s stack)
    (hs' : Denotes a.nodes s' stack) : s = s' := by
  induction hs generalizing s' with
  | bottom =>
    by_contra hne
    obtain ⟨_, rfl, _, _, -, hcons, -⟩ := hs'.exists_node fun hneg =>
      hne (hs'.neg_one hneg).1.symm
    cases hcons
  | @frame i node rest hnode _ ih =>
    obtain ⟨j, rfl, node', rest', hnode', hcons, hparent'⟩ := hs'.exists_node fun hneg => by
      cases (hs'.neg_one hneg).2
    obtain ⟨hpos, rfl⟩ := List.cons.inj hcons
    have hparent := ih hparent'
    have hi := (h.interned node.pos node.parent i).mpr ⟨node, hnode, rfl, rfl⟩
    have hj := (h.interned node.pos node.parent j).mpr ⟨node', hnode', hpos.symm, hparent.symm⟩
    rw [some.inj (hi.symm.trans hj)]

/-- The stack of an id in an arena. -/
theorem ArenaOk.stack_ok (h : ArenaOk rules a) (hs : Denotes a.nodes s stack) :
    stack.length ≤ kMaxStackDepth ∧ Fits rules stack := by
  cases hs with
  | bottom =>
    exact ⟨Nat.zero_le _, ⟨fun p hmem => absurd hmem not_mem_nil,
      fun p hmem => absurd hmem not_mem_nil⟩⟩
  | @frame i node rest hnode hparent =>
    obtain ⟨stack, hstack, hlen, hdepth, hfits⟩ := h.denotes i node hnode
    obtain rfl := hstack.unique (.frame hnode hparent)
    exact ⟨hlen.trans_le hdepth, hfits⟩

/-- An id keeps its meaning when the arena grows. -/
theorem ArenaOk.denotes_old (h : ArenaOk rules a) {nodes : List StackNode}
    (hgrown : a.nodes <+: nodes) {i : Nat} (hlt : i < a.nodes.length) (hs : Denotes nodes i stack) :
    Denotes a.nodes i stack := by
  obtain ⟨before, hbefore, -⟩ := h.denotes i _ (getElem?_eq_getElem hlt)
  rwa [← (hbefore.mono hgrown).unique hs]

/-! ## Interning -/

/-- An arena that has grown by stacks that are not visited yet. -/
structure Grows (a a' : GbnfArena) : Prop where
  nodes : a.nodes <+: a'.nodes
  epoch : a'.visitEpoch = a.visitEpoch
  cache : a'.nextCache = a.nextCache
  visited : ∃ n, a'.visited = a.visited ++ List.replicate n 0

namespace Grows

variable {a' a'' : GbnfArena}

theorem refl (a : GbnfArena) : Grows a a :=
  ⟨prefix_rfl, rfl, rfl, 0, (append_nil _).symm⟩

theorem trans (h : Grows a a') (h' : Grows a' a'') : Grows a a'' where
  nodes := h.nodes.trans h'.nodes
  epoch := h'.epoch.trans h.epoch
  cache := h'.cache.trans h.cache
  visited := by
    obtain ⟨n, hn⟩ := h.visited
    obtain ⟨n', hn'⟩ := h'.visited
    exact ⟨n + n', by rw [hn', hn, append_assoc, replicate_append_replicate]⟩

end Grows

variable {rest : List GbnfPos} {p : GbnfPos}

/-- What `intern` returns. -/
structure Interned (rules : List GbnfRule) (a : GbnfArena) (stack : List GbnfPos) (id : Int)
    (a' : GbnfArena) : Prop where
  ok : ArenaOk rules a'
  grows : Grows a a'
  denotes : Denotes a'.nodes id stack
  fresh : ∀ (i : Nat) other, Denotes a'.nodes i other → Denotes a.nodes i other ∨ other = stack

theorem getElem?_concat {α : Type} (l : List α) (x : α) (i : Nat) :
    (l ++ [x])[i]? = if i = l.length then some x else l[i]? := by
  rcases lt_trichotomy i l.length with hlt | heq | hgt
  · rw [getElem?_append_left hlt, if_neg (by omega)]
  · rw [heq, if_pos rfl, getElem?_concat_length]
  · rw [getElem?_eq_none (by simp; omega), if_neg (by omega), getElem?_eq_none (by omega)]

theorem ArenaOk.intern (h : ArenaOk rules a) {parent : Int} (hparent : Denotes a.nodes parent rest)
    {pos : GbnfPos} (hdepth : rest.length < kMaxStackDepth) (hfits : Fits rules (pos :: rest)) :
    Interned rules a (pos :: rest) (a.intern pos parent).1 (a.intern pos parent).2 := by
  unfold GbnfArena.intern
  cases hfound : a.interned.lookup (pos, parent) with
  | some id =>
    obtain ⟨node, hnode, rfl, rfl⟩ := (h.interned pos parent id).mp hfound
    exact ⟨h, .refl a, .frame hnode hparent, fun _ _ hother => .inl hother⟩
  | none =>
    have hgrown : ∀ node, a.nodes <+: a.nodes ++ [node] := fun node => prefix_append _ _
    -- the depth kept in the node is the length of its stack
    have hlength : (if parent < 0 then 1
        else (a.nodes[parent.toNat]?.map StackNode.depth).getD 0 + 1) = rest.length + 1 := by
      split
      next hneg => rw [(hparent.neg_one hneg).2, length_nil]
      next hnonneg =>
        obtain ⟨i, rfl, node, below, hnode, rfl, hbelow⟩ := hparent.exists_node hnonneg
        obtain ⟨stack, hstack, hlen, -⟩ := h.denotes i node hnode
        rw [Int.toNat_natCast, hnode, map_some, getD_some, ← hlen,
          hstack.unique (.frame hnode hbelow)]
    rw [hlength]
    have hnew := getElem?_concat a.nodes { pos, parent, depth := rest.length + 1 } a.nodes.length
    rw [if_pos rfl] at hnew
    have hdenotes := Denotes.frame hnew (hparent.mono (hgrown _))
    refine ⟨⟨fun i node hnode => ?_, fun pos' parent' id => ?_, ?_, fun mark hmem => ?_⟩,
      ⟨hgrown _, rfl, rfl, 1, rfl⟩, hdenotes, fun i other hother => ?_⟩
    · rw [getElem?_concat] at hnode
      split at hnode
      next heq =>
        obtain rfl := some.inj hnode
        refine ⟨pos :: rest, .frame (by rw [getElem?_concat, if_pos heq])
          (hparent.mono (hgrown _)), rfl, hdepth, hfits⟩
      next =>
        obtain ⟨stack, hstack, hrest⟩ := h.denotes i node hnode
        exact ⟨stack, hstack.mono (hgrown _), hrest⟩
    · rw [Table.lookup_insert_ite]
      split
      next heq =>
        obtain ⟨rfl, rfl⟩ := Prod.mk.inj heq
        constructor
        · intro hid
          obtain rfl := some.inj hid
          exact ⟨_, by rw [getElem?_concat, if_pos rfl], rfl, rfl⟩
        · rintro ⟨node, hnode, rfl, rfl⟩
          rw [getElem?_concat] at hnode
          split at hnode
          next hlast => rw [hlast]
          next =>
            rw [(h.interned node.pos node.parent id).mpr ⟨node, hnode, rfl, rfl⟩] at hfound
            cases hfound
      next hne =>
        rw [h.interned]
        refine exists_congr fun node => and_congr_left fun ⟨hpos, hpar⟩ => ?_
        rw [getElem?_concat]
        split
        next heq =>
          constructor
          · intro hnode
            have := (List.getElem?_eq_some_iff.mp hnode).1
            omega
          · intro hnode
            obtain rfl := some.inj hnode
            exact absurd (Prod.ext hpos.symm hpar.symm) hne
        · rfl
    · simp [h.visited]
    · rcases mem_append.mp hmem with hold | hnew
      · exact h.marks mark hold
      · rw [mem_singleton.mp hnew]
        exact UInt32.zero_le
    · rcases lt_or_ge i a.nodes.length with hlt | hge
      · exact .inl (h.denotes_old (hgrown _) hlt hother)
      · obtain ⟨j, hj, node, -, hnode, -⟩ := hother.exists_node (by omega)
        have hlen := (List.getElem?_eq_some_iff.mp hnode).1
        rw [length_append, length_singleton] at hlen
        obtain rfl : i = a.nodes.length := by omega
        exact .inr (hother.unique hdenotes)

/-! ## Positions in the table -/

theorem altsOf_length_lt (r : Nat) :
    (altsOf rules r).length < GbnfArena.tableSize rules ∧
      (r < rules.length ∨ altsOf rules r = []) := by
  unfold altsOf GbnfArena.tableSize
  cases hrule : rules[r]? with
  | none => exact ⟨Nat.succ_pos _, .inr rfl⟩
  | some rule =>
    have hle := le_sum_of_mem (mem_map_of_mem
      (f := fun rule => rule.alts.length + (rule.alts.map List.length).sum)
      (mem_of_getElem? hrule))
    refine ⟨?_, .inl (List.getElem?_eq_some_iff.mp hrule).1⟩
    simp only [map_some, getD_some]
    omega

theorem altItems_length_lt (p : GbnfPos) :
    (altItems rules p).length < GbnfArena.tableSize rules := by
  unfold altItems altsOf GbnfArena.tableSize
  cases hrule : rules[p.rule]? with
  | none => exact Nat.succ_pos _
  | some rule =>
    rw [map_some, getD_some, getD_eq_getElem?_getD]
    cases halt : rule.alts[p.alt]? with
    | none => exact Nat.succ_pos _
    | some alt =>
      have hle := le_sum_of_mem (mem_map_of_mem
        (f := fun rule => rule.alts.length + (rule.alts.map List.length).sum)
        (mem_of_getElem? hrule))
      have hitems := le_sum_of_mem (mem_map_of_mem (f := List.length)
        (mem_of_getElem? halt))
      rw [getD_some]
      omega

theorem idx_lt_of_itemAt (h : itemAt rules p = some item) :
    p.idx < (altItems rules p).length := (List.getElem?_eq_some_iff.mp h).1

/-- Stepping past an item stays in the table. -/
theorem Fits.advance (h : Fits rules (p :: rest)) (hitem : p.idx < (altItems rules p).length) :
    Fits rules (p.next :: rest) := by
  have hp := h.inTable p mem_cons_self
  refine ⟨fun q hmem => ?_, h.below⟩
  rcases mem_cons.mp hmem with rfl | hrest
  · exact ⟨hp.rule, hp.alt, hitem⟩
  · exact h.inTable q (mem_cons_of_mem _ hrest)

/-- Returning from a frame stays in the table. -/
theorem Fits.resume {q : GbnfPos} (h : Fits rules (p :: q :: rest)) :
    Fits rules (q.next :: rest) := by
  have hbelow : Fits rules (q :: rest) :=
    ⟨fun r hmem => h.inTable r (mem_cons_of_mem _ hmem),
      fun r hmem => h.below r (mem_cons_of_mem _ hmem)⟩
  exact hbelow.advance (h.below q mem_cons_self)

/-- Opening an alternative stays in the table. -/
theorem Fits.call (h : Fits rules stack)
    (hitem : ∀ p ∈ stack.head?, p.idx < (altItems rules p).length) {target alt : Nat}
    (halt : alt < (altsOf rules target).length) :
    Fits rules ({ rule := target, alt, idx := 0 } :: stack) := by
  obtain ⟨hlt, htarget⟩ := altsOf_length_lt target
  have hrule : target < rules.length := htarget.resolve_right fun hnil => by
    rw [hnil] at halt
    exact absurd halt (Nat.not_lt_zero alt)
  refine ⟨fun p hmem => ?_, fun p hmem => ?_⟩
  · rcases mem_cons.mp hmem with rfl | hold
    · refine ⟨?_, halt.trans hlt, Nat.zero_le _⟩
      unfold GbnfArena.tableSize
      dsimp only
      omega
    · exact h.inTable p hold
  · cases stack with
    | nil => exact absurd hmem not_mem_nil
    | cons q rest =>
      rcases mem_cons.mp hmem with rfl | hold
      · exact hitem p rfl
      · exact h.below p hold

end Quench.Gbnf

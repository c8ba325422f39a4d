import Mathlib.Tactic.Ring
import Quench.Compute.GbnfArena

/-!
# The search of `expand`

`expand` looks at each stack once in a visit, which the marks of the current epoch record. `Opened`
is what it does with one stack, `Expanding` what the loop over the work list keeps: each stack that
was looked at is in the result if it waits, and its moves lead to stacks that were looked at or are
on the work list. `expandLoop_spec` runs it to the end of the work list; the number of stacks of
bounded depth gives the fuel.
-/

namespace Quench.Gbnf

open Lib List GbnfArena

variable {rules : List GbnfRule} {a a' : GbnfArena} {s : Int} {work : List Int} {i : Nat}

/-- Moves of the machine under the depth limit of the simulator. -/
abbrev GbnfMove (rules : List GbnfRule) := (gbnf rules).Move kMaxStackDepth

/-- The stacks a stack reaches without reading. -/
abbrev GbnfReaches (rules : List GbnfRule) := (gbnf rules).Reaches kMaxStackDepth

/-- A stack that was looked at in the current visit. -/
def Marked (a : GbnfArena) (i : Nat) : Prop := a.visited[i]? = some a.visitEpoch

theorem Grows.marked_iff (h : Grows a a') (hepoch : a.visitEpoch ≠ 0)
    (i : Nat) : Marked a' i ↔ Marked a i := by
  obtain ⟨n, hvisited⟩ := h.visited
  unfold Marked
  rw [hvisited, h.epoch]
  rcases lt_or_ge i a.visited.length with hlt | hge
  · rw [getElem?_append_left hlt]
  · rw [getElem?_append_right hge, getElem?_eq_none hge]
    constructor
    · intro hmark
      exact absurd (eq_of_mem_replicate (mem_of_getElem? hmark)) hepoch
    · intro hmark
      cases hmark

theorem Grows.count_eq (h : Grows a a') (hepoch : a.visitEpoch ≠ 0) :
    a'.visited.count a'.visitEpoch = a.visited.count a.visitEpoch := by
  obtain ⟨n, hvisited⟩ := h.visited
  rw [hvisited, h.epoch, count_append, count_replicate,
    if_neg (by simpa using hepoch.symm), add_zero]

/-! ## One stack -/

variable {stack : List GbnfPos}

/-- The alternatives of a rule, interned on top of a stack. -/
theorem pushAlts_spec (h : ArenaOk rules a) (hs : Denotes a.nodes s stack)
    (hdepth : stack.length < kMaxStackDepth)
    (hitem : ∀ p ∈ stack.head?, p.idx < (altItems rules p).length) (target : Nat) :
    let after := a.pushAlts rules target s
    ArenaOk rules after.1 ∧ Grows a after.1 ∧
      (∀ id ∈ after.2, ∃ next ∈ (gbnf rules).enter target,
        Denotes after.1.nodes id (next :: stack)) ∧
      (∀ next ∈ (gbnf rules).enter target, ∃ id ∈ after.2,
        Denotes after.1.nodes id (next :: stack)) ∧
      after.2.length = (altsOf rules target).length ∧
      (∀ (i : Nat) other, Denotes after.1.nodes i other → Denotes a.nodes i other ∨
        ∃ next ∈ (gbnf rules).enter target, other = next :: stack) := by
  have hfits := (h.stack_ok hs).2
  suffices hfold : ∀ n ≤ (altsOf rules target).length,
      let after := (List.range n).foldl (pushRound target s) (a, [])
      let frames := (List.range n).map fun alt => ({ rule := target, alt, idx := 0 } : GbnfPos)
      ArenaOk rules after.1 ∧ Grows a after.1 ∧
        (∀ id ∈ after.2, ∃ next ∈ frames, Denotes after.1.nodes id (next :: stack)) ∧
        (∀ next ∈ frames, ∃ id ∈ after.2, Denotes after.1.nodes id (next :: stack)) ∧
        after.2.length = n ∧
        ∀ (i : Nat) other, Denotes after.1.nodes i other → Denotes a.nodes i other ∨
          ∃ next ∈ frames, other = next :: stack from hfold _ le_rfl
  intro n hn
  induction n with
  | zero =>
    exact ⟨h, .refl a, fun id hid => absurd hid not_mem_nil,
      fun next hnext => absurd hnext not_mem_nil, rfl, fun _ _ hother => .inl hother⟩
  | succ n ih =>
    obtain ⟨hok, hgrows, hsound, hall, hlen, hfresh⟩ := ih (by omega)
    rw [range_succ, foldl_append, map_append]
    generalize (List.range n).foldl _ (a, []) = before at hok hgrows hsound hall hlen hfresh ⊢
    generalize (List.range n).map _ = frames at hsound hall hfresh ⊢
    have hinterned := hok.intern (hs.mono hgrows.nodes) hdepth
      (hfits.call hitem (show n < (altsOf rules target).length by omega))
    refine ⟨hinterned.ok, hgrows.trans hinterned.grows, fun id hid => ?_, fun next hnext => ?_,
      congrArg Nat.succ hlen, fun i other hother => ?_⟩
    · rcases mem_cons.mp hid with rfl | hold
      · exact ⟨_, mem_append_right _ (mem_singleton_self _), hinterned.denotes⟩
      · obtain ⟨next, hnext, hdenotes⟩ := hsound id hold
        exact ⟨next, mem_append_left _ hnext, hdenotes.mono hinterned.grows.nodes⟩
    · rcases mem_append.mp hnext with hold | hnew
      · obtain ⟨id, hid, hdenotes⟩ := hall next hold
        exact ⟨id, mem_cons_of_mem _ hid, hdenotes.mono hinterned.grows.nodes⟩
      · rw [mem_singleton.mp hnew]
        exact ⟨_, mem_cons_self, hinterned.denotes⟩
    · rcases hinterned.fresh i other hother with hbefore | rfl
      · rcases hfresh i other hbefore with hold | ⟨next, hnext, heq⟩
        · exact .inl hold
        · exact .inr ⟨next, mem_append_left _ hnext, heq⟩
      · exact .inr ⟨_, mem_append_right _ (mem_singleton_self _), rfl⟩

/-- What a round does with a stack that was not looked at before: it reports it if it waits, and
pushes the stacks its moves lead to. -/
structure Opened (rules : List GbnfRule) (a : GbnfArena) (i : Nat) (stack : List GbnfPos)
    (after : GbnfArena × List Int × List Int) : Prop where
  ok : ArenaOk rules after.1
  grows : Grows a after.1
  pushed : ∀ s ∈ after.2.1, ∃ stack', Denotes after.1.nodes s stack' ∧ GbnfMove rules stack stack'
  moves : ∀ stack', GbnfMove rules stack stack' → ∃ s ∈ after.2.1, Denotes after.1.nodes s stack'
  found : ∀ s ∈ after.2.2, s = i ∧ (gbnf rules).Waiting stack
  waiting : (gbnf rules).Waiting stack → (i : Int) ∈ after.2.2
  length : after.2.1.length ≤ tableSize rules
  fresh : ∀ (j : Nat) other, Denotes after.1.nodes j other → Denotes a.nodes j other ∨
    GbnfMove rules stack other

theorem expandNode_spec (h : ArenaOk rules a) {node : StackNode}
    {rest : List GbnfPos} (hnode : a.nodes[i]? = some node)
    (hparent : Denotes a.nodes node.parent rest) :
    Opened rules a i (node.pos :: rest) (a.expandNode rules i node) := by
  have hstack : Denotes a.nodes i (node.pos :: rest) := .frame hnode hparent
  obtain ⟨hlength, hfits⟩ := h.stack_ok hstack
  have hdepth : node.depth = rest.length + 1 := by
    obtain ⟨stack, hsame, hlen, -⟩ := h.denotes i node hnode
    rw [← hlen, hsame.unique hstack, length_cons]
  have hsize : 0 < tableSize rules := Nat.succ_pos _
  have hwaits (hitems : ∀ chars tail, (gbnf rules).items node.pos ≠ .letter chars :: tail) :
      ¬ (gbnf rules).Waiting (node.pos :: rest) := by
    rintro (_ | hletter)
    exact hitems _ _ hletter
  unfold expandNode
  split
  next hitem =>
    have hitems := items_of_itemAt_none hitem
    have hnotWaiting := hwaits (hitems ▸ nofun)
    have hmoves : ∀ stack', GbnfMove rules (node.pos :: rest) stack' →
        stack' = (gbnf rules).resume rest := fun stack' hmove => hmove.of_end hitems
    have hret : GbnfMove rules (node.pos :: rest) ((gbnf rules).resume rest) := .ret hitems
    split
    next hneg =>
      obtain rfl := (hparent.neg_one hneg).2
      refine ⟨h, .refl a, fun s hs => ?_, fun stack' hmove => ?_,
        fun s hs => absurd hs not_mem_nil, fun hw => absurd hw hnotWaiting, hsize,
        fun _ _ hother => .inl hother⟩
      · rw [mem_singleton.mp hs]
        exact ⟨[], .bottom, hret⟩
      · rw [hmoves stack' hmove]
        exact ⟨-1, mem_singleton_self _, .bottom⟩
    next hnonneg =>
      obtain ⟨j, hj, below, rest', hbelow, rfl, hgrand⟩ := hparent.exists_node hnonneg
      rw [hj, Int.toNat_natCast, hbelow]
      rw [length_cons, length_cons] at hlength
      have hinterned := h.intern hgrand (by omega) hfits.resume
      refine ⟨hinterned.ok, hinterned.grows, fun s hs => ?_, fun stack' hmove => ?_,
        fun s hs => absurd hs not_mem_nil, fun hw => absurd hw hnotWaiting, hsize,
        fun j other hother => ?_⟩
      · rw [mem_singleton.mp hs]
        exact ⟨_, hinterned.denotes, hret⟩
      · rw [hmoves stack' hmove]
        exact ⟨_, mem_singleton_self _, hinterned.denotes⟩
      · rcases hinterned.fresh j other hother with hold | rfl
        · exact .inl hold
        · exact .inr hret
  next chars hitem =>
    have hitems := items_of_itemAt hitem
    refine ⟨h, .refl a, fun s hs => absurd hs not_mem_nil, fun stack' hmove => ?_,
      fun s hs => ⟨mem_singleton.mp hs, .letter hitems⟩,
      fun _ => mem_singleton_self _, Nat.zero_le _, fun _ _ hother => .inl hother⟩
    exact absurd hmove (Grammar.Move.not_of_letter hitems)
  next target hitem =>
    have hitems := items_of_itemAt hitem
    have hnotWaiting := hwaits (hitems ▸ nofun)
    have hmoves : ∀ stack', GbnfMove rules (node.pos :: rest) stack' →
        rest.length + 1 < kMaxStackDepth ∧
          ∃ next ∈ (gbnf rules).enter target, stack' = next :: node.pos :: rest :=
      fun stack' hmove => hmove.of_rule hitems
    split
    next hdeep =>
      refine ⟨h, .refl a, fun s hs => absurd hs not_mem_nil, fun stack' hmove => ?_,
        fun s hs => absurd hs not_mem_nil, fun hw => absurd hw hnotWaiting, Nat.zero_le _,
        fun _ _ hother => .inl hother⟩
      have := (hmoves stack' hmove).1
      omega
    next hshallow =>
      have hlt : (node.pos :: rest).length < kMaxStackDepth := by
        rw [length_cons]
        omega
      obtain ⟨hok, hgrows, hsound, hall, hlen, hfresh⟩ := pushAlts_spec h hstack hlt
        (fun p hp => by
          obtain rfl := Option.some.inj hp
          exact idx_lt_of_itemAt hitem) target
      refine ⟨hok, hgrows, fun s hs => ?_, fun stack' hmove => ?_,
        fun s hs => absurd hs not_mem_nil, fun hw => absurd hw hnotWaiting, ?_,
        fun j other hother => ?_⟩
      · obtain ⟨next, hnext, hdenotes⟩ := hsound s hs
        exact ⟨_, hdenotes, .call hitems hlt hnext⟩
      · obtain ⟨-, next, hnext, rfl⟩ := hmoves stack' hmove
        exact hall next hnext
      · exact hlen.trans_le (le_of_lt (altsOf_length_lt target).1)
      · rcases hfresh j other hother with hold | ⟨next, hnext, rfl⟩
        · exact .inl hold
        · exact .inr (.call hitems hlt hnext)

/-! ## The loop -/

/-- An id that needs no more looking at: the empty stack once it is reported, or a marked one. -/
def Settled (a : GbnfArena) (out : List Int) (s : Int) : Prop :=
  (s = -1 ∧ -1 ∈ out) ∨ ∃ i : Nat, s = i ∧ Marked a i

/-- A stack that some start stack reaches. -/
def FromRoot (rules : List GbnfRule) (Root : List GbnfPos → Prop) (stack : List GbnfPos) : Prop :=
  ∃ root, Root root ∧ GbnfReaches rules root stack

/-- What the loop of `expand` keeps. -/
structure Expanding (rules : List GbnfRule) (Root : List GbnfPos → Prop) (a : GbnfArena)
    (work out : List Int) : Prop where
  ok : ArenaOk rules a
  epoch : a.visitEpoch ≠ 0
  pending : ∀ s ∈ work, ∃ stack, Denotes a.nodes s stack ∧ FromRoot rules Root stack
  found : ∀ s ∈ out, ∃ stack, Denotes a.nodes s stack ∧ (gbnf rules).Waiting stack ∧
    FromRoot rules Root stack
  roots : ∀ root, Root root → ∃ s, Denotes a.nodes s root ∧ (s ∈ work ∨ Settled a out s)
  closed : ∀ (i : Nat) stack, Marked a i → Denotes a.nodes i stack →
    ((gbnf rules).Waiting stack → (i : Int) ∈ out) ∧
    ∀ stack', GbnfMove rules stack stack' →
      ∃ s, Denotes a.nodes s stack' ∧ (s ∈ work ∨ Settled a out s)

namespace Expanding

variable {Root : List GbnfPos → Prop} {out : List Int}

/-- The invariant is carried to a later arena, another work list, more results and more start
stacks, if the ids and the marks that are new fit it. -/
theorem advance {Root' : List GbnfPos → Prop} {work' out' : List Int}
    (h : Expanding rules Root a work out) (hok : ArenaOk rules a') (hepoch : a'.visitEpoch ≠ 0)
    (hgrows : a.nodes <+: a'.nodes) (hroot : ∀ root, Root root → Root' root)
    (hmarks : ∀ i, Marked a i → Marked a' i) (hout : out ⊆ out')
    (hwork : ∀ s ∈ work, s ∈ work' ∨ Settled a' out' s) (hpending : ∀ s ∈ work', s ∈ work ∨
      ∃ stack, Denotes a'.nodes s stack ∧ FromRoot rules Root' stack)
    (hfound : ∀ s ∈ out', s ∈ out ∨ ∃ stack, Denotes a'.nodes s stack ∧
      (gbnf rules).Waiting stack ∧ FromRoot rules Root' stack)
    (hroots : ∀ root, Root' root → Root root ∨
      ∃ s, Denotes a'.nodes s root ∧ (s ∈ work' ∨ Settled a' out' s))
    (hclosed : ∀ (i : Nat) stack, Marked a' i → Denotes a'.nodes i stack → Marked a i ∨
      ((gbnf rules).Waiting stack → (i : Int) ∈ out') ∧ ∀ stack', GbnfMove rules stack stack' →
        ∃ s, Denotes a'.nodes s stack' ∧ (s ∈ work' ∨ Settled a' out' s)) :
    Expanding rules Root' a' work' out' := by
  have hstill : ∀ s, s ∈ work ∨ Settled a out s → s ∈ work' ∨ Settled a' out' s := by
    rintro s (hmem | ⟨rfl, hdone⟩ | ⟨i, rfl, hi⟩)
    · exact hwork s hmem
    · exact .inr (.inl ⟨rfl, hout hdone⟩)
    · exact .inr (.inr ⟨i, rfl, hmarks i hi⟩)
  have hfrom : ∀ stack, FromRoot rules Root stack → FromRoot rules Root' stack :=
    fun stack ⟨root, hfirst, hreach⟩ => ⟨root, hroot root hfirst, hreach⟩
  refine ⟨hok, hepoch, fun s hs => (hpending s hs).elim (fun hold => ?_) id,
    fun s hs => (hfound s hs).elim (fun hold => ?_) id,
    fun root hr => (hroots root hr).elim (fun hold => ?_) id,
    fun i stack hi hstack => (hclosed i stack hi hstack).elim (fun hold => ?_) id⟩
  · obtain ⟨stack, hdenotes, hreach⟩ := h.pending s hold
    exact ⟨stack, hdenotes.mono hgrows, hfrom stack hreach⟩
  · obtain ⟨stack, hdenotes, hwaiting, hreach⟩ := h.found s hold
    exact ⟨stack, hdenotes.mono hgrows, hwaiting, hfrom stack hreach⟩
  · obtain ⟨s, hdenotes, hwhere⟩ := h.roots root hold
    exact ⟨s, hdenotes.mono hgrows, hstill s hwhere⟩
  · -- an id of the old arena means what it meant
    have hlt := (List.getElem?_eq_some_iff.mp hold).1
    rw [h.ok.visited] at hlt
    obtain ⟨hwaiting, hmoves⟩ := h.closed i stack hold (h.ok.denotes_old hgrows hlt hstack)
    refine ⟨fun hw => hout (hwaiting hw), fun stack' hmove => ?_⟩
    obtain ⟨s, hdenotes, hwhere⟩ := hmoves stack' hmove
    exact ⟨s, hdenotes.mono hgrows, hstill s hwhere⟩

/-- A round whose id needs no looking at. -/
theorem skip (h : Expanding rules Root a (s :: work) out) {found : List Int}
    (hfound : ∀ s ∈ found, ∃ stack, Denotes a.nodes s stack ∧ (gbnf rules).Waiting stack ∧
      FromRoot rules Root stack)
    (hsettled : Settled a (out ++ found) s) : Expanding rules Root a work (out ++ found) := by
  refine h.advance h.ok h.epoch prefix_rfl (fun _ => id) (fun _ => id) (subset_append_left _ _)
    (fun s' hs => ?_) (fun s' hs => .inl (mem_cons_of_mem _ hs))
    (fun s' hs => (mem_append.mp hs).imp_right (hfound s')) (fun _ => .inl) fun _ _ hi _ => .inl hi
  rcases mem_cons.mp hs with rfl | hrest
  · exact .inr hsettled
  · exact .inl hrest

/-- A round that looks at a stack. -/
theorem visit (h : Expanding rules Root a (i :: work) out)
    (hstack : Denotes a.nodes i stack) (hroot : FromRoot rules Root stack) {marked : GbnfArena}
    (hmarked : ∀ j, Marked marked j ↔ Marked a j ∨ j = i) (hepoch : marked.visitEpoch ≠ 0)
    {after : GbnfArena × List Int × List Int} (hopened : Opened rules marked i stack after)
    (hnodes : marked.nodes = a.nodes) :
    Expanding rules Root after.1 (after.2.1 ++ work) (out ++ after.2.2) := by
  have hgrows : a.nodes <+: after.1.nodes := by
    rw [← hnodes]
    exact hopened.grows.nodes
  have hiff : ∀ j, Marked after.1 j ↔ Marked a j ∨ j = i := fun j =>
    (hopened.grows.marked_iff hepoch j).trans (hmarked j)
  refine h.advance hopened.ok (by rw [hopened.grows.epoch]; exact hepoch) hgrows (fun _ => id)
    (fun j hj => (hiff j).mpr (.inl hj)) (subset_append_left _ _) (fun s' hs => ?_)
    (fun s' hs => ?_) (fun s' hs => (mem_append.mp hs).imp_right fun hnew => ?_) (fun _ => .inl)
    fun j stack' hj hstack' => ((hiff j).mp hj).imp_right fun heq => ?_
  · rcases mem_cons.mp hs with rfl | hrest
    · exact .inr (.inr ⟨i, rfl, (hiff i).mpr (.inr rfl)⟩)
    · exact .inl (mem_append_right _ hrest)
  · rcases mem_append.mp hs with hnew | hrest
    · obtain ⟨stack', hdenotes, hmove⟩ := hopened.pushed s' hnew
      obtain ⟨root, hroot, hreach⟩ := hroot
      exact .inr ⟨stack', hdenotes, root, hroot, hreach.tail hmove⟩
    · exact .inl (mem_cons_of_mem _ hrest)
  · obtain ⟨rfl, hwaiting⟩ := hopened.found s' hnew
    exact ⟨stack, hstack.mono hgrows, hwaiting, hroot⟩
  · subst heq
    obtain rfl := (hstack.mono hgrows).unique hstack'
    refine ⟨fun hw => mem_append_right _ (hopened.waiting hw), fun stack'' hmove => ?_⟩
    obtain ⟨s', hmem, hdenotes⟩ := hopened.moves stack'' hmove
    exact ⟨s', hdenotes, .inl (mem_append_left _ hmem)⟩

end Expanding

/-- An arena later in the same visit. -/
structure Later (a a' : GbnfArena) : Prop where
  nodes : a.nodes <+: a'.nodes
  epoch : a'.visitEpoch = a.visitEpoch
  cache : a'.nextCache = a.nextCache

namespace Later

variable {a'' : GbnfArena}

theorem refl (a : GbnfArena) : Later a a := ⟨prefix_rfl, rfl, rfl⟩

theorem trans (h : Later a a') (h' : Later a' a'') : Later a a'' :=
  ⟨h.nodes.trans h'.nodes, h'.epoch.trans h.epoch, h'.cache.trans h.cache⟩

theorem of_grows (h : Grows a a') : Later a a' := ⟨h.nodes, h.epoch, h.cache⟩

end Later

/-- The stacks that a visit adds are reached from where it started. -/
def AddsReached (rules : List GbnfRule) (Root : List GbnfPos → Prop) (a a' : GbnfArena) : Prop :=
  ∀ (i : Nat) stack, Denotes a'.nodes i stack → Denotes a.nodes i stack ∨ FromRoot rules Root stack

/-- The stacks looked at in the current visit. -/
def spent (a : GbnfArena) : Nat := a.visited.count a.visitEpoch

section Mark

theorem ArenaOk.mark (h : ArenaOk rules a) (i : Nat) :
    ArenaOk rules { a with visited := a.visited.set i a.visitEpoch } where
  denotes := h.denotes
  interned := h.interned
  visited := by rw [length_set, h.visited]
  marks mark hmem := by
    rcases mem_or_eq_of_mem_set hmem with hold | rfl
    · exact h.marks mark hold
    · exact UInt32.le_refl _

theorem marked_mark (hlt : i < a.visited.length) (j : Nat) :
    Marked { a with visited := a.visited.set i a.visitEpoch } j ↔ Marked a j ∨ j = i := by
  unfold Marked
  by_cases hij : i = j
  · subst hij
    simp [hlt]
  · simp [hij, Ne.symm hij]

theorem spent_mark (hlt : i < a.visited.length) (hnew : ¬ Marked a i) :
    spent { a with visited := a.visited.set i a.visitEpoch } = spent a + 1 := by
  unfold spent
  unfold Marked at hnew
  rw [getElem?_eq_getElem hlt, Option.some.injEq] at hnew
  rw [count_set hlt, if_neg (by simpa using hnew), if_pos (beq_self_eq_true _), Nat.sub_zero]

end Mark

/-- One round of the loop: it keeps the invariant, and either skips an id or looks at one more
stack. -/
theorem Expanding.round {Root : List GbnfPos → Prop} {out : List Int}
    (h : Expanding rules Root a (s :: work) out) : let after := a.expandRound rules s
    Expanding rules Root after.1 (after.2.1 ++ work) (out ++ after.2.2) ∧ Later a after.1 ∧
      AddsReached rules Root a after.1 ∧ ((after.2.1 = [] ∧ spent after.1 = spent a) ∨
        after.2.1.length ≤ tableSize rules ∧ spent after.1 = spent a + 1) := by
  obtain ⟨stack, hstack, hroot⟩ := h.pending s mem_cons_self
  unfold expandRound
  split
  next hneg =>
    obtain ⟨rfl, rfl⟩ := hstack.neg_one hneg
    refine ⟨h.skip (fun s hs => ?_) (.inl ⟨rfl, by simp⟩), .refl a, fun _ _ hother => .inl hother,
      .inl ⟨rfl, rfl⟩⟩
    rw [mem_singleton.mp hs]
    exact ⟨[], .bottom, .done, hroot⟩
  next hnonneg =>
    obtain ⟨i, rfl, node, rest, hnode, rfl, hparent⟩ := hstack.exists_node hnonneg
    rw [Int.toNat_natCast]
    split
    next hmarked =>
      refine ⟨h.skip (fun s hs => absurd hs not_mem_nil) (.inr ⟨i, rfl, hmarked⟩), .refl a,
        fun _ _ hother => .inl hother, .inl ⟨rfl, rfl⟩⟩
    next hnew =>
      have hlt : i < a.visited.length := by
        rw [h.ok.visited]
        exact (List.getElem?_eq_some_iff.mp hnode).1
      rw [hnode]
      have hopened := expandNode_spec (h.ok.mark i) hnode hparent
      refine ⟨h.visit hstack hroot (marked_mark hlt) h.epoch hopened rfl,
        ⟨hopened.grows.nodes, hopened.grows.epoch, hopened.grows.cache⟩,
        fun j other hother => ?_, .inr ⟨hopened.length, ?_⟩⟩
      · refine (hopened.fresh j other hother).imp id fun hmove => ?_
        obtain ⟨root, hfirst, hreach⟩ := hroot
        exact ⟨root, hfirst, hreach.tail hmove⟩
      rw [← spent_mark hlt hnew]
      exact hopened.grows.count_eq h.epoch

/-! ## Fuel -/

/-- A position as a number below the cube of the table's size. -/
def posCode (size : Nat) (p : GbnfPos) : Nat := (p.rule * size + p.alt) * size + p.idx

/-- A stack as a number, written with its positions as digits. -/
def stackCode (size : Nat) : List GbnfPos → Nat
  | [] => 0
  | p :: rest => posCode size p + 1 + (size ^ 3 + 1) * stackCode size rest

theorem mul_add_inj {n q q' r r' : Nat} (hr : r < n) (hr' : r' < n)
    (h : q * n + r = q' * n + r') : q = q' ∧ r = r' := by
  have hpos : 0 < n := by omega
  have hdiv := congrArg (· / n) h
  have hmod := congrArg (· % n) h
  simp only [mul_comm _ n, Nat.mul_add_div hpos, Nat.div_eq_of_lt hr, Nat.div_eq_of_lt hr',
    Nat.mul_add_mod, Nat.mod_eq_of_lt hr, Nat.mod_eq_of_lt hr', add_zero] at hdiv hmod
  exact ⟨hdiv, hmod⟩

section Code

variable {size : Nat}

theorem code_lt {p : GbnfPos} (hrule : p.rule < size) (halt : p.alt < size) (hidx : p.idx < size) :
    posCode size p < size ^ 3 := by
  have houter : p.rule * size + p.alt < size * size := by
    calc p.rule * size + p.alt < p.rule * size + size := by omega
      _ = (p.rule + 1) * size := (Nat.succ_mul _ _).symm
      _ ≤ size * size := Nat.mul_le_mul_right _ hrule
  calc posCode size p < (p.rule * size + p.alt) * size + size := Nat.add_lt_add_left hidx _
    _ = (p.rule * size + p.alt + 1) * size := (Nat.succ_mul _ _).symm
    _ ≤ size * size * size := Nat.mul_le_mul_right _ houter
    _ = size ^ 3 := by ring

/-- Positions that are coded as digits. -/
def Digits (size : Nat) (stack : List GbnfPos) : Prop :=
  ∀ p ∈ stack, p.rule < size ∧ p.alt < size ∧ p.idx < size

theorem stackCode_lt (h : Digits size stack) :
    stackCode size stack < (size ^ 3 + 1) ^ stack.length := by
  induction stack with
  | nil => exact one_pos
  | cons p rest ih =>
    obtain ⟨hrule, halt, hidx⟩ := h p mem_cons_self
    have hcode := code_lt hrule halt hidx
    have hrest := ih fun q hmem => h q (mem_cons_of_mem _ hmem)
    calc stackCode size (p :: rest)
        < (size ^ 3 + 1) + (size ^ 3 + 1) * stackCode size rest :=
          Nat.add_lt_add_right (Nat.succ_lt_succ hcode) _
      _ = (size ^ 3 + 1) * (stackCode size rest + 1) := by ring
      _ ≤ (size ^ 3 + 1) * (size ^ 3 + 1) ^ rest.length := Nat.mul_le_mul_left _ hrest
      _ = (size ^ 3 + 1) ^ (p :: rest).length := by rw [length_cons, pow_succ]; ring

theorem stackCode_inj {stack' : List GbnfPos} (h : Digits size stack) (h' : Digits size stack')
    (heq : stackCode size stack = stackCode size stack') : stack = stack' := by
  induction stack generalizing stack' with
  | nil =>
    cases stack' with
    | nil => rfl
    | cons p rest =>
      simp only [stackCode] at heq
      omega
  | cons p rest ih =>
    cases stack' with
    | nil =>
      simp only [stackCode] at heq
      omega
    | cons q rest' =>
      obtain ⟨hrule, halt, hidx⟩ := h p mem_cons_self
      obtain ⟨hrule', halt', hidx'⟩ := h' q mem_cons_self
      have hcode := code_lt hrule halt hidx
      have hcode' := code_lt hrule' halt' hidx'
      simp only [stackCode, mul_comm (size ^ 3 + 1)] at heq
      rw [add_comm (posCode size p + 1), add_comm (posCode size q + 1)] at heq
      obtain ⟨hrest, hfirst⟩ := mul_add_inj (Nat.succ_lt_succ hcode) (Nat.succ_lt_succ hcode') heq
      obtain ⟨hpair, hidxEq⟩ := mul_add_inj hidx hidx' (Nat.succ.inj hfirst)
      obtain ⟨hruleEq, haltEq⟩ := mul_add_inj halt halt' hpair
      rw [ih (fun r hmem => h r (mem_cons_of_mem _ hmem))
        (fun r hmem => h' r (mem_cons_of_mem _ hmem)) hrest]
      cases p
      cases q
      simp only at hruleEq haltEq hidxEq
      rw [hruleEq, haltEq, hidxEq]

end Code

variable {out : List Int}

theorem Fits.digits (h : Fits rules stack) : Digits (tableSize rules) stack := by
  intro p hmem
  have hp := h.inTable p hmem
  exact ⟨hp.rule, hp.alt, hp.idx.trans_lt (altItems_length_lt p)⟩

/-- An arena holds each of the finitely many stacks at most once. -/
theorem ArenaOk.length_le (h : ArenaOk rules a) :
    a.nodes.length ≤ (tableSize rules ^ 3 + 1) ^ kMaxStackDepth := by
  have hstack : ∀ i : Nat, ∃ stack, i < a.nodes.length → Denotes a.nodes i stack := by
    intro i
    by_cases hlt : i < a.nodes.length
    · obtain ⟨stack, hstack, -⟩ := h.denotes i _ (getElem?_eq_getElem hlt)
      exact ⟨stack, fun _ => hstack⟩
    · exact ⟨[], fun hin => absurd hin hlt⟩
  choose stackAt hstackAt using hstack
  have hcard := Finset.card_le_card_of_injOn (s := Finset.range a.nodes.length)
    (t := Finset.range ((tableSize rules ^ 3 + 1) ^ kMaxStackDepth))
    (fun i => stackCode (tableSize rules) (stackAt i)) ?_ ?_
  · rwa [Finset.card_range, Finset.card_range] at hcard
  · intro i hi
    rw [Finset.mem_coe, Finset.mem_range] at hi ⊢
    obtain ⟨hlen, hfits⟩ := h.stack_ok (hstackAt i hi)
    exact (stackCode_lt hfits.digits).trans_le (Nat.pow_le_pow_right (Nat.succ_pos _) hlen)
  · intro i hi j hj heq
    rw [Finset.mem_coe, Finset.mem_range] at hi hj
    have hsame := stackCode_inj (h.stack_ok (hstackAt i hi)).2.digits
      (h.stack_ok (hstackAt j hj)).2.digits heq
    have hid := h.denotes_inj (hsame ▸ hstackAt i hi) (hstackAt j hj)
    exact Int.natCast_inj.mp hid

theorem ArenaOk.spent_le (h : ArenaOk rules a) :
    spent a ≤ (tableSize rules ^ 3 + 1) ^ kMaxStackDepth :=
  (count_le_length.trans_eq h.visited).trans h.length_le

/-- The loop ends with an empty work list. -/
theorem expandLoop_spec {Root : List GbnfPos → Prop} (n : Nat)
    (h : Expanding rules Root a work out) (hfuel : work.length + (tableSize rules + 1) *
      ((tableSize rules ^ 3 + 1) ^ kMaxStackDepth - spent a) ≤ n) :
    let after := expandLoop rules n a work out
    Expanding rules Root after.1 [] after.2 ∧ Later a after.1 ∧
      AddsReached rules Root a after.1 := by
  generalize hbound : (tableSize rules ^ 3 + 1) ^ kMaxStackDepth = bound at hfuel
  induction n generalizing a work out with
  | zero =>
    obtain rfl : work = [] := length_eq_zero_iff.mp (by omega)
    exact ⟨h, .refl a, fun _ _ hother => .inl hother⟩
  | succ n ih =>
    cases work with
    | nil => exact ⟨h, .refl a, fun _ _ hother => .inl hother⟩
    | cons s work =>
      obtain ⟨hround, hlater, hadds, hspent⟩ := h.round
      have hle := hround.ok.spent_le
      obtain ⟨hdone, hrest, hmore⟩ := ih hround (by
        rw [length_append]
        rw [length_cons] at hfuel
        rcases hspent with ⟨hnil, hsame⟩ | ⟨hpushed, hmore⟩
        · rw [hnil, hsame, length_nil]
          omega
        · rw [hmore] at hle ⊢
          have hsplit : bound - spent a = bound - (spent a + 1) + 1 := by omega
          rw [hsplit, Nat.mul_succ] at hfuel
          omega)
      exact ⟨hdone, hlater.trans hrest, fun i stack hstack =>
        (hmore i stack hstack).elim (hadds i stack) .inr⟩

/-- At the end of the loop the waiting stacks reached are those found. -/
theorem Expanding.complete {Root : List GbnfPos → Prop} (h : Expanding rules Root a [] out)
    (hfrom : FromRoot rules Root stack) (hwaiting : (gbnf rules).Waiting stack) :
    ∃ s ∈ out, Denotes a.nodes s stack := by
  obtain ⟨root, hroot, hreach⟩ := hfrom
  obtain ⟨s, hdenotes, hsettled⟩ := h.roots root hroot
  replace hsettled := hsettled.resolve_left not_mem_nil
  clear hroot
  induction hreach using Relation.ReflTransGen.head_induction_on generalizing s with
  | refl =>
    rcases hsettled with ⟨rfl, hdone⟩ | ⟨i, rfl, hmarked⟩
    · exact ⟨-1, hdone, hdenotes⟩
    · exact ⟨i, (h.closed i _ hmarked hdenotes).1 hwaiting, hdenotes⟩
  | @head current next hmove _ ih =>
    rcases hsettled with ⟨rfl, -⟩ | ⟨i, rfl, hmarked⟩
    · obtain rfl := (hdenotes.neg_one (by decide)).2
      cases hmove
    · obtain ⟨s', hdenotes', hwhere⟩ := (h.closed i _ hmarked hdenotes).2 next hmove
      exact ih s' hdenotes' (hwhere.resolve_left not_mem_nil)

/-! ## Visits -/

theorem expanding_fresh (h : ArenaOk rules a) (hepoch : a.visitEpoch ≠ 0)
    (hnone : ∀ i, ¬ Marked a i) : Expanding rules (fun _ => False) a [] [] :=
  ⟨h, hepoch, fun _ hs => absurd hs not_mem_nil, fun _ hs => absurd hs not_mem_nil,
    fun _ hroot => hroot.elim, fun i _ hmarked => absurd hmarked (hnone i)⟩

/-- Interning in the middle of a visit. -/
theorem Expanding.grow {Root : List GbnfPos → Prop}
    (h : Expanding rules Root a work out) (hok : ArenaOk rules a') (hgrows : Grows a a') :
    Expanding rules Root a' work out := by
  have hiff := hgrows.marked_iff h.epoch
  exact h.advance hok (by rw [hgrows.epoch]; exact h.epoch) hgrows.nodes (fun _ => id)
    (fun i => (hiff i).mpr) (Subset.refl _) (fun _ => .inl) (fun _ => .inl) (fun _ => .inl)
    (fun _ => .inl) fun i _ hi _ => .inl ((hiff i).mp hi)

/-- `expand` from one more start stack. -/
theorem expand_spec {Root : List GbnfPos → Prop} (h : Expanding rules Root a [] out)
    {root : List GbnfPos} (hs : Denotes a.nodes s root) : let after := a.expand rules s out
    Expanding rules (fun stack => Root stack ∨ stack = root) after.1 [] after.2 ∧
      Later a after.1 ∧ AddsReached rules (fun stack => Root stack ∨ stack = root) a after.1 := by
  have hstart : Expanding rules (fun stack => Root stack ∨ stack = root) a [s] out := by
    refine h.advance h.ok h.epoch prefix_rfl (fun _ => .inl) (fun _ => id) (Subset.refl _)
      (fun _ hs' => absurd hs' not_mem_nil) (fun s' hs' => .inr ?_) (fun _ => .inl)
      (fun first hfirst => hfirst.imp_right fun heq => ?_) fun _ _ hi _ => .inl hi
    · rw [mem_singleton.mp hs']
      exact ⟨root, hs, root, .inr rfl, .refl⟩
    · rw [heq]
      exact ⟨s, hs, .inl (mem_singleton_self s)⟩
  refine expandLoop_spec _ hstart ?_
  rw [length_singleton, expandFuel]
  have := Nat.mul_le_mul_left (tableSize rules + 1)
    (Nat.sub_le ((tableSize rules ^ 3 + 1) ^ kMaxStackDepth) (spent a))
  omega

end Quench.Gbnf

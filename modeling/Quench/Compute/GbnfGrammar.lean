import Mathlib.Algebra.Ring.Nat
import Mathlib.Data.List.Dedup
import Quench.Lib.Pushdown
import Quench.Lib.Table
import Quench.Lib.Utf8

/-!
# The grammar simulator of constrained decoding

`GbnfGrammar` runs a context-free grammar as a nondeterministic pushdown automaton over codepoints.
A stack is a position in an alternative and the stack below it. Stacks are interned in an arena, and
the live state is a sorted list of ids, with `-1` for the empty stack. `expand` follows rules and
returns until each stack waits for a codepoint, `successors` memoises where a stack goes once its
codepoint is read, and two guard rails drop stacks: those that would grow over `kMaxStackDepth`
frames, and all but the first `kMaxStacks` ids of a set.

Ids are `int32_t` in the source; the model has no bound on the size of the arena.
-/

namespace Quench

open Lib

/-! ## Character sets -/

/-- Inclusive codepoint ranges; `negated` flips membership. -/
structure GbnfCharSet where
  ranges : List (Nat × Nat) := []
  negated : Bool := false
  deriving DecidableEq

namespace GbnfCharSet

/-- `matches`. -/
def matchesCp (cs : GbnfCharSet) (cp : Nat) : Bool :=
  let inside := cs.ranges.any fun r => decide (r.1 ≤ cp) && decide (cp ≤ r.2)
  if cs.negated then !inside else inside

/-- The search of `intersects` for a codepoint from `cur` on that no range holds. The ranges are
sorted. -/
def hole (hi : Nat) : Nat → List (Nat × Nat) → Bool
  | cur, [] => decide (cur ≤ hi)
  | cur, r :: rs =>
    if r.2 < cur then hole hi cur rs
    else if cur < r.1 then true
    else if hi ≤ r.2 then false
    else hole hi (r.2 + 1) rs

/-- The order of `std::sort` on pairs. -/
def rangeLe (r s : Nat × Nat) : Prop := r.1 < s.1 ∨ r.1 = s.1 ∧ r.2 ≤ s.2

instance (r s : Nat × Nat) : Decidable (rangeLe r s) := inferInstanceAs (Decidable (_ ∨ _))

/-- Whether any codepoint from `lo` to `hi` is a member. -/
def intersects (cs : GbnfCharSet) (lo hi : Nat) : Bool :=
  if cs.negated then hole hi lo (cs.ranges.insertionSort rangeLe)
  else cs.ranges.any fun r => decide (r.1 ≤ hi) && decide (lo ≤ r.2)

end GbnfCharSet

/-! ## The rule table -/

/-- `GbnfItem`: a character set, or a rule. -/
abbrev GbnfItem := Item GbnfCharSet Nat

/-- `GbnfRule`; synthetic rules have an empty name. -/
structure GbnfRule where
  name : List UInt8
  alts : List (List GbnfItem)
  deriving DecidableEq

/-- `GbnfPos`: a position in an alternative. -/
structure GbnfPos where
  rule : Nat
  alt : Nat
  idx : Nat
  deriving DecidableEq

namespace GbnfPos

/-- The position behind the item. -/
def next (p : GbnfPos) : GbnfPos := { p with idx := p.idx + 1 }

end GbnfPos

variable (rules : List GbnfRule)

/-- The alternatives of a rule. -/
def altsOf (r : Nat) : List (List GbnfItem) :=
  (rules[r]?.map GbnfRule.alts).getD []

/-- The items of a position's alternative. -/
def altItems (p : GbnfPos) : List GbnfItem :=
  (altsOf rules p.rule).getD p.alt []

/-- The item a position stands at. -/
def itemAt (p : GbnfPos) : Option GbnfItem := (altItems rules p)[p.idx]?

/-! ## Compilation -/

/-- Whether an alternative derives the empty string, as far as is known. -/
def altNullable (nullable : List Bool) (alt : List GbnfItem) : Bool :=
  alt.all fun
    | .letter _ => false
    | .rule r => nullable.getD r false

/-- One pass over the rules. Later rules see what earlier ones found in the same pass. -/
def nullablePass (nullable : List Bool) : List Bool :=
  (List.range rules.length).foldl
    (fun nullable r =>
      if nullable.getD r false then nullable
      else if (altsOf rules r).any (altNullable nullable) then nullable.set r true
      else nullable)
    nullable

/-- The passes until one finds nothing new. -/
def nullableLoop (rules : List GbnfRule) : Nat → List Bool → List Bool
  | 0, nullable => nullable
  | n + 1, nullable =>
    let found := nullablePass rules nullable
    if found = nullable then nullable else nullableLoop rules n found

/-- `compute_nullable`. Every pass but the last one finds a rule. -/
def computeNullable : List Bool :=
  nullableLoop rules (rules.length + 1) (List.replicate rules.length false)

/-- The rules an alternative can enter at its first input position. -/
def firstRules (nullable : List Bool) : List GbnfItem → List Nat
  | .rule r :: rest => r :: if nullable.getD r false then firstRules nullable rest else []
  | _ => []

/-- The edges of the search for left recursion. -/
def leftEdges (nullable : List Bool) (r : Nat) : List Nat :=
  (altsOf rules r).flatMap (firstRules nullable)

/-- Where the search stands with a rule. -/
inductive Color where
  | unvisited
  | onStack
  | done
  deriving DecidableEq

/-- The search from one rule: the colors at its end, or the rule that closes a cycle. Every edge is
followed once, so the fuel of `checkLeftRecursion` is enough. -/
def leftSearch (edges : Nat → List Nat) :
    Nat → List (Nat × Nat) → List Color → Except Nat (List Color)
  | 0, _, color => .ok color
  | _ + 1, [], color => .ok color
  | n + 1, (r, i) :: stack, color =>
    match (edges r)[i]? with
    | some next =>
      match color.getD next .done with
      | .onStack => .error next
      | .unvisited =>
        leftSearch edges n ((next, 0) :: (r, i + 1) :: stack) (color.set next .onStack)
      | .done => leftSearch edges n ((r, i + 1) :: stack) color
    | none => leftSearch edges n stack (color.set r .done)

/-- `check_left_recursion`: the rule of a cycle, if there is one. -/
def checkLeftRecursion (nullable : List Bool) : Option Nat :=
  let edges := leftEdges rules nullable
  let fuel := ((List.range rules.length).map fun r => (edges r).length + 2).sum + 1
  let search := (List.range rules.length).foldlM
    (fun color start =>
      if color.getD start .done = .unvisited then
        leftSearch edges fuel [(start, 0)] (color.set start .onStack)
      else .ok color)
    (List.replicate rules.length Color.unvisited)
  match search with
  | .error r => some r
  | .ok _ => none

/-! ## The arena -/

/-- The live state: ids of interned stacks, sorted, without repetition. -/
abbrev GbnfStackSet := List Int

/-- `kMaxStackDepth`. -/
def kMaxStackDepth : Nat := 128

/-- `kMaxStacks`. -/
def kMaxStacks : Nat := 4096

/-- `dedup`. -/
def dedupIds (ids : GbnfStackSet) : GbnfStackSet := (ids.insertionSort (· ≤ ·)).dedup

/-- An interned frame: a position, the stack below it, and how many frames that makes. -/
structure StackNode where
  pos : GbnfPos
  parent : Int
  depth : Nat
  deriving DecidableEq

/-- The interning arena and what is kept per id: the mark of the last visit, and the successors once
they have been computed. -/
structure GbnfArena where
  nodes : List StackNode := []
  interned : Table (GbnfPos × Int) Nat := ∅
  visited : List UInt32 := []
  visitEpoch : UInt32 := 0
  nextCache : Table Nat GbnfStackSet := ∅

namespace GbnfArena

variable (a : GbnfArena)

/-- `intern`. -/
def intern (pos : GbnfPos) (parent : Int) : Int × GbnfArena :=
  match a.interned.lookup (pos, parent) with
  | some id => (id, a)
  | none =>
    let depth := if parent < 0 then 1 else (a.nodes[parent.toNat]?.map StackNode.depth).getD 0 + 1
    (a.nodes.length,
      { a with
        nodes := a.nodes ++ [{ pos, parent, depth }]
        visited := a.visited ++ [0]
        interned := a.interned.insert (pos, parent) a.nodes.length })

/-- `begin_visit`: the marks are cleared when the epoch wraps. -/
def beginVisit : GbnfArena :=
  if a.visitEpoch + 1 = 0 then
    { a with visited := a.visited.map fun _ => 0, visitEpoch := 1 }
  else { a with visitEpoch := a.visitEpoch + 1 }

/-- `top_item`. -/
def topItem (s : Int) : Option GbnfItem :=
  if s < 0 then none else a.nodes[s.toNat]?.bind fun node => itemAt rules node.pos

/-- Intern one alternative of a rule on top of a stack, and push it on the work list. -/
def pushRound (target : Nat) (s : Int) (state : GbnfArena × List Int) (alt : Nat) :
    GbnfArena × List Int :=
  let (id, a) := state.1.intern { rule := target, alt, idx := 0 } s
  (a, id :: state.2)

/-- Intern the alternatives of a rule on top of a stack, and push them on the work list. -/
def pushAlts (target : Nat) (s : Int) : GbnfArena × List Int :=
  (List.range (altsOf rules target).length).foldl (pushRound target s) (a, [])

/-- What `expand` does with one stack that it has not visited: the stacks to look at next, and those
that wait for input. -/
def expandNode (s : Nat) (node : StackNode) : GbnfArena × List Int × List Int :=
  match itemAt rules node.pos with
  | none =>
    -- the alternative is finished: step the stack below past the rule that got us here
    if node.parent < 0 then (a, [-1], [])
    else match a.nodes[node.parent.toNat]? with
      | none => (a, [], [])
      | some below =>
        let (id, a) := a.intern below.pos.next below.parent
        (a, [id], [])
  | some (.letter _) => (a, [], [(s : Int)])
  | some (.rule target) =>
    if kMaxStackDepth ≤ node.depth then (a, [], [])
    else
      let (a, pushed) := a.pushAlts rules target s
      (a, pushed, [])

/-- One round of `expand`. -/
def expandRound (s : Int) : GbnfArena × List Int × List Int :=
  if s < 0 then (a, [], [-1])
  else if a.visited[s.toNat]? = some a.visitEpoch then (a, [], [])
  else
    let marked := { a with visited := a.visited.set s.toNat a.visitEpoch }
    match a.nodes[s.toNat]? with
    | none => (marked, [], [])
    | some node => marked.expandNode rules s.toNat node

/-- The loop of `expand` over its work list, whose last element comes first here. -/
def expandLoop (rules : List GbnfRule) :
    Nat → GbnfArena → List Int → GbnfStackSet → GbnfArena × GbnfStackSet
  | 0, a, _, out => (a, out)
  | _ + 1, a, [], out => (a, out)
  | n + 1, a, s :: work, out =>
    let (a, pushed, found) := a.expandRound rules s
    expandLoop rules n a (pushed ++ work) (out ++ found)

/-- The size of a rule table: more than any rule, alternative or item index in it. -/
def tableSize : Nat :=
  rules.length + (rules.map fun rule =>
    rule.alts.length + (rule.alts.map List.length).sum).sum + 1

/-- A bound on the rounds of one `expand`: every stack of at most `kMaxStackDepth` frames is visited
once, and then pushes at most one stack for each alternative. -/
def expandFuel : Nat :=
  (tableSize rules + 1) * (tableSize rules ^ 3 + 1) ^ kMaxStackDepth + 2

/-- `expand`. -/
def expand (s : Int) (out : GbnfStackSet) : GbnfArena × GbnfStackSet :=
  expandLoop rules (expandFuel rules) a [s] out

/-- One round of `start_set`. -/
def startRound (root : Nat) (state : GbnfArena × GbnfStackSet)
    (alt : Nat) : GbnfArena × GbnfStackSet :=
  let (id, a) := state.1.intern { rule := root, alt, idx := 0 } (-1)
  a.expand rules id state.2

/-- `start_set`. -/
def startSet (root : Nat) : GbnfArena × GbnfStackSet :=
  let (a, out) := (List.range (altsOf rules root).length).foldl (startRound rules root)
    (a.beginVisit, [])
  (a, dedupIds out)

/-- `successors`. -/
def successors (s : Int) : GbnfArena × GbnfStackSet :=
  match a.nextCache.lookup s.toNat with
  | some out => (a, out)
  | none =>
    match a.nodes[s.toNat]? with
    | none => (a, [])
    | some node =>
      let (id, a) := a.beginVisit.intern node.pos.next node.parent
      let (a, out) := a.expand rules id []
      let out := (dedupIds out).take kMaxStacks
      ({ a with nextCache := a.nextCache.insert s.toNat out }, out)

/-- One round of `step_into`. -/
def stepRound (cp : Nat) (state : GbnfArena × GbnfStackSet) (s : Int) : GbnfArena × GbnfStackSet :=
  match state.1.topItem rules s with
  | some (.letter chars) =>
    if chars.matchesCp cp then
      let (a, next) := state.1.successors rules s
      (a, state.2 ++ next)
    else state
  | _ => state

/-- `step_into`. -/
def stepInto (live : GbnfStackSet) (cp : Nat) : GbnfArena × GbnfStackSet :=
  let (a, out) := live.foldl (stepRound rules cp) (a, [])
  (a, (dedupIds out).take kMaxStacks)

/-- `can_consume_range`. -/
def canConsumeRange (live : GbnfStackSet) (lo hi : Nat) : Bool :=
  live.any fun s =>
    match a.topItem rules s with
    | some (.letter chars) => chars.intersects lo hi
    | _ => false

end GbnfArena

/-- `accepts`: the ids are sorted, so the empty stack can only be the first. -/
def GbnfStackSet.accepts (live : GbnfStackSet) : Bool := live.head? == some (-1)

/-- `kMaxCodepoint`. -/
def kMaxCodepoint : Nat := 0x10FFFF

/-- `mark_lead`: whether the codepoints a lead byte opens meet a set. -/
def markLead (cs : GbnfCharSet) (base span minCp : Nat) : Bool :=
  let lo := max base minCp
  let hi := min (base ||| span) kMaxCodepoint
  decide (lo ≤ hi) && cs.intersects lo hi

/-- The lead bytes of one character set. -/
def GbnfCharSet.leadByte (cs : GbnfCharSet) (b : Nat) : Bool :=
  if b < 0x80 then cs.matchesCp b
  else if 0xC2 ≤ b ∧ b ≤ 0xDF then markLead cs ((b &&& 0x1F) <<< 6) 0x3F 0x80
  else if 0xE0 ≤ b ∧ b ≤ 0xEF then markLead cs ((b &&& 0x0F) <<< 12) 0xFFF 0x800
  else if 0xF0 ≤ b ∧ b ≤ 0xF4 then markLead cs ((b &&& 0x07) <<< 18) 0x3FFFF 0x10000
  else false

/-- `lead_bytes`: the bytes that may start the next codepoint. -/
def GbnfArena.leadBytes (a : GbnfArena) (rules : List GbnfRule) (live : GbnfStackSet)
    (b : UInt8) : Bool :=
  live.any fun s =>
    match a.topItem rules s with
    | some (.letter chars) => chars.leadByte b.toNat
    | _ => false

end Quench

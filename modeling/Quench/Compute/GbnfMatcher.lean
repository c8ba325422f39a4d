import Quench.Compute.GbnfParser

/-!
# The byte-level matcher

`GbnfMatcher` feeds token text to a compiled grammar. It assembles UTF-8, carries a codepoint that
is only half read across tokens, and keeps the live stack set. `would_accept` runs a text without
keeping the result, but it runs on the arena it shares with the state.
-/

namespace Quench

/-- `GbnfGrammar`: the rule table and the arena. -/
structure GbnfGrammar where
  rules : List GbnfRule
  root : Nat
  arena : GbnfArena := {}

/-- `GbnfGrammar::compile`. -/
def GbnfGrammar.compile (src : List UInt8) : Except String GbnfGrammar := do
  let (rules, root) ← parseGbnf src
  match checkLeftRecursion rules (computeNullable rules) with
  | some r =>
    let name := (rules[r]?.map GbnfRule.name).getD []
    throw ("left recursion in rule '" ++
      (if name.isEmpty then "(group)" else GbnfParser.text name) ++ "'")
  | none => pure { rules, root }

/-- `GbnfPartial`: a codepoint of which some bytes are missing. -/
structure GbnfPartial where
  value : Nat := 0
  min : Nat := 0
  remaining : Nat := 0
  deriving DecidableEq

/-- `utf8_extra`: the bytes that follow a lead byte, if it is one. -/
def utf8Extra (b : UInt8) : Option Nat :=
  if b < 0x80 then some 0
  else if b < 0xC2 then none
  else if b < 0xE0 then some 1
  else if b < 0xF0 then some 2
  else if b < 0xF5 then some 3
  else none

/-- `utf8_min`. -/
def utf8Min (extra : Nat) : Nat :=
  if extra = 1 then 0x80 else if extra = 2 then 0x800 else 0x10000

/-- `GbnfMatcher`. -/
structure GbnfMatcher where
  grammar : GbnfGrammar
  live : GbnfStackSet
  half : GbnfPartial := {}

namespace GbnfMatcher

/-- `compile`. -/
def compile (src : List UInt8) : Except String GbnfMatcher := do
  let grammar ← GbnfGrammar.compile src
  let (arena, live) := grammar.arena.startSet grammar.rules grammar.root
  if live.isEmpty then throw "grammar has no reachable start state"
  else pure { grammar := { grammar with arena }, live }

variable (m : GbnfMatcher)

/-- `reset`. -/
def reset : GbnfMatcher :=
  let (arena, live) := m.grammar.arena.startSet m.grammar.rules m.grammar.root
  { grammar := { m.grammar with arena }, live }

variable (rules : List GbnfRule)

/-- One codepoint of `run`: the arena, and the new stack set unless it is empty. -/
def runCp (a : GbnfArena) (live : GbnfStackSet) (cp : Nat) : GbnfArena × Option GbnfStackSet :=
  let (a, next) := a.stepInto rules live cp
  (a, if next.isEmpty then none else some next)

/-- One byte of `run`. -/
def runByte (a : GbnfArena) (live : GbnfStackSet) (half : GbnfPartial)
    (b : UInt8) : GbnfArena × Option (GbnfStackSet × GbnfPartial) :=
  if 0 < half.remaining then
    if b &&& 0xC0 != 0x80 then (a, none)
    else
      let half := { half with
        value := (half.value <<< 6) ||| (b &&& 0x3F).toNat
        remaining := half.remaining - 1 }
      if half.remaining = 0 then
        if half.value < half.min ∨ 0x10FFFF < half.value then (a, none)
        else
          let (a, next) := runCp rules a live half.value
          (a, next.map fun live => (live, half))
      else (a, some (live, half))
  else
    match utf8Extra b with
    | none => (a, none)
    | some 0 =>
      let (a, next) := runCp rules a live b.toNat
      (a, next.map fun live => (live, half))
    | some extra =>
      (a, some (live,
        { value := b.toNat &&& (0x3F >>> extra), min := utf8Min extra, remaining := extra }))

/-- The loop of `run`. -/
def runLoop (rules : List GbnfRule) :
    List UInt8 → GbnfArena → GbnfStackSet → GbnfPartial →
      GbnfArena × Option (GbnfStackSet × GbnfPartial)
  | [], a, live, half => (a, some (live, half))
  | b :: text, a, live, half =>
    match runByte rules a live half b with
    | (a, none) => (a, none)
    | (a, some (live, half)) => runLoop rules text a live half

/-- The least and the greatest codepoint a half-read one can become. -/
def GbnfPartial.range (half : GbnfPartial) : Nat × Nat :=
  let shift := 6 * half.remaining
  (max (half.value <<< shift) half.min,
    min ((half.value <<< shift) ||| ((1 <<< shift) - 1)) 0x10FFFF)

/-- The check at the end of `run`: a half-read codepoint is legal if it can be completed. -/
def canComplete (a : GbnfArena) (live : GbnfStackSet) (half : GbnfPartial) : Bool :=
  if 0 < half.remaining then
    let (lo, hi) := GbnfPartial.range half
    !(decide (hi < lo) || !a.canConsumeRange rules live lo hi)
  else true

/-- `run`. -/
def run (text : List UInt8) : GbnfArena × Option (GbnfStackSet × GbnfPartial) :=
  match runLoop m.grammar.rules text m.grammar.arena m.live m.half with
  | (a, none) => (a, none)
  | (a, some (live, half)) =>
    (a, if canComplete m.grammar.rules a live half then some (live, half) else none)

/-- The matcher once its arena has changed. -/
def withArena (arena : GbnfArena) : GbnfMatcher :=
  { m with grammar := { m.grammar with arena } }

/-- `would_accept`. -/
def wouldAccept (text : List UInt8) : Bool × GbnfMatcher :=
  let (a, result) := m.run text
  (result.isSome, m.withArena a)

/-- `update_text`. -/
def updateText (text : List UInt8) : Bool × GbnfMatcher :=
  match m.run text with
  | (a, none) => (false, m.withArena a)
  | (a, some (live, half)) => (true, { m.withArena a with live, half })

/-- `is_done`. -/
def isDone : Bool := m.half.remaining == 0 && m.live.accepts

/-- `lead_bytes`. -/
def leadBytes (b : UInt8) : Bool :=
  if 0 < m.half.remaining then b &&& 0xC0 == 0x80
  else m.grammar.arena.leadBytes m.grammar.rules m.live b

end GbnfMatcher

end Quench

import Mathlib.Algebra.Ring.Nat
import Mathlib.Data.List.Sort
import Quench.Lib.Utf8
import Quench.Lib.Worklist

/-!
# The pattern compiler

`RegexNfa` turns a pattern into an automaton over bytes while it reads the pattern by recursive
descent. `parse_repeat` builds the copies that a bounded repetition needs by reading the text of its
atom again. A pattern is a list of bytes, and a position in it is the text that is left.

The recursion runs on fuel, as do the two loops that read one piece or one branch at a time;
`RegexFuel` shows that none of them runs out.
-/

namespace Quench

open Lib (isDigit)

/-- `char_class`: which bytes an edge takes. -/
abbrev CharClass := UInt8 → Bool

/-- `NfaEdge`. An edge without a class is an epsilon edge. -/
structure NfaEdge where
  target : Nat
  charClass : Option CharClass

structure NfaState where
  edges : List NfaEdge := []
  accepting : Bool := false

/-- A compiled `RegexNfa`. -/
structure RegexNfa where
  states : List NfaState
  start : Nat
  accept : Nat

namespace RegexNfa

/-- `Frag`: the two ends of what was built for a piece of the pattern. -/
structure Frag where
  start : Nat
  accept : Nat
  deriving DecidableEq

/-! ## Building -/

variable (states : List NfaState)

/-- `new_state`: the new state is the one at the old length. -/
def newState : List NfaState := states ++ [{ edges := [] }]

def addEdge (source target : Nat) (charClass : Option CharClass) : List NfaState :=
  states.modify source fun s => { s with edges := s.edges ++ [{ target, charClass }] }

def addEpsilon (source target : Nat) : List NfaState :=
  addEdge states source target none

/-- Two new states and an edge between them, which is how every atom ends. -/
def joined (charClass : Option CharClass) : List NfaState × Frag :=
  let s := states.length
  let a := states.length + 1
  (addEdge (newState (newState states)) s a charClass, ⟨s, a⟩)

/-! ## Character classes -/

def isWord (c : UInt8) : Bool :=
  ('a'.toUInt8 ≤ c && c ≤ 'z'.toUInt8) || ('A'.toUInt8 ≤ c && c ≤ 'Z'.toUInt8) || isDigit c ||
    c == '_'.toUInt8

def isSpace (c : UInt8) : Bool :=
  c == ' '.toUInt8 || c == '\t'.toUInt8 || c == '\n'.toUInt8 || c == '\r'.toUInt8 || c == 0x0C ||
    c == 0x0B

variable (esc : UInt8)

def makeShorthand : Option CharClass :=
  if esc = 'd'.toUInt8 then some isDigit
  else if esc = 'D'.toUInt8 then some fun c => !isDigit c
  else if esc = 'w'.toUInt8 then some isWord
  else if esc = 'W'.toUInt8 then some fun c => !isWord c
  else if esc = 's'.toUInt8 then some isSpace
  else if esc = 'S'.toUInt8 then some fun c => !isSpace c
  else none

/-- What an escaped byte outside a class stands for, when it is no shorthand. -/
def atomLiteral : UInt8 :=
  if esc = 'n'.toUInt8 then '\n'.toUInt8
  else if esc = 't'.toUInt8 then '\t'.toUInt8
  else if esc = 'r'.toUInt8 then '\r'.toUInt8
  else if esc = 'f'.toUInt8 then 0x0C
  else if esc = 'v'.toUInt8 then 0x0B
  else esc

/-- What an escaped byte in a class stands for, when it is no shorthand. -/
def classLiteral : UInt8 :=
  if esc = 'n'.toUInt8 then '\n'.toUInt8
  else if esc = 't'.toUInt8 then '\t'.toUInt8
  else if esc = 'r'.toUInt8 then '\r'.toUInt8
  else esc

def atomEscape : CharClass :=
  (makeShorthand esc).getD fun c => c == atomLiteral esc

def classEscape : CharClass :=
  (makeShorthand esc).getD fun c => c == classLiteral esc

/-- The loop of `parse_class`, from the members read so far. -/
def classMembers : CharClass → Bool → List UInt8 → Option (CharClass × List UInt8)
  | _, _, [] => none
  | cls, any, c :: rest =>
    if c = ']'.toUInt8 then if any then some (cls, rest) else none
    else if c = '\\'.toUInt8 then
      match rest with
      | [] => none
      | esc :: rest => classMembers (fun b => cls b || classEscape esc b) true rest
    else
      match rest with
      | dash :: hi :: more =>
        if dash = '-'.toUInt8 ∧ hi ≠ ']'.toUInt8 then
          if hi < c then none
          else classMembers (fun b => cls b || (c ≤ b && b ≤ hi)) true more
        else classMembers (fun b => cls b || b == c) true (dash :: hi :: more)
      | [dash] => classMembers (fun b => cls b || b == c) true [dash]
      | [] => none

/-- `parse_class`, behind the opening bracket: the members, negated after a `^`. -/
def readClass (text : List UInt8) : Option (CharClass × List UInt8) :=
  match text with
  | [] => none
  | c :: rest =>
    if c = '^'.toUInt8 then
      (classMembers (fun _ => false) false rest).map fun (cls, rest) => (fun b => !cls b, rest)
    else classMembers (fun _ => false) false text

/-! ## Recursive descent -/

/-- A part of the parser: the states so far and the text left, before and after. -/
abbrev Parser := List NfaState → List UInt8 → Option (List NfaState × Frag × List UInt8)

/-- The marker `?:` of a group that does not capture. -/
def skipMarker : List UInt8 → List UInt8
  | q :: c :: rest => if q = '?'.toUInt8 ∧ c = ':'.toUInt8 then rest else q :: c :: rest
  | text => text

def withText (built : List NfaState × Frag) (rest : List UInt8) :
    Option (List NfaState × Frag × List UInt8) :=
  some (built.1, built.2, rest)

def parseAtom (parseAlt : Parser) : Parser
  | _, [] => none
  | states, c :: rest =>
    if c = '('.toUInt8 then
      match parseAlt states (skipMarker rest) with
      | some (states, out, close :: rest) =>
        if close = ')'.toUInt8 then some (states, out, rest) else none
      | _ => none
    else if c = '['.toUInt8 then
      (readClass rest).bind fun (cls, rest) => withText (joined states (some cls)) rest
    else if c = ')'.toUInt8 ∨ c = '|'.toUInt8 then none
    else if c = '.'.toUInt8 then
      withText (joined states (some fun b => b != '\n'.toUInt8)) rest
    else if c = '\\'.toUInt8 then
      match rest with
      | [] => none
      | esc :: rest => withText (joined states (some (atomEscape esc))) rest
    else if c = '^'.toUInt8 ∨ c = '$'.toUInt8 then withText (joined states none) rest
    else withText (joined states (some fun b => b == c)) rest

/-- A signed 64-bit number; overflow wraps around. -/
def toLong (v : Int) : Int := v.bmod (2 ^ 64)

def startsDigit : List UInt8 → Bool
  | [] => false
  | c :: _ => isDigit c

/-- `scan_int`, from the value read so far. -/
def scanInt : Int → List UInt8 → Int × List UInt8
  | v, [] => (v, [])
  | v, c :: rest =>
    if isDigit c then scanInt (toLong (v * 10 + (c.toNat - '0'.toUInt8.toNat))) rest
    else (v, c :: rest)

/-- The upper bound behind the lower one: the same without a comma, and `-1` when it is open. -/
def scanUpper (n : Int) : List UInt8 → Int × List UInt8
  | [] => (n, [])
  | c :: rest =>
    if c = ','.toUInt8 then if startsDigit rest then scanInt 0 rest else (-1, rest)
    else (n, c :: rest)

/-- The bounds of a repetition behind its opening brace, or `none` when this is no repetition. -/
def scanBounds (text : List UInt8) : Option (Int × Int × List UInt8) :=
  let (n, rest) := scanInt 0 text
  let (m, rest) := scanUpper n rest
  match rest with
  | [] => none
  | c :: rest => if startsDigit text ∧ c = '}'.toUInt8 then some (n, m, rest) else none

/-- The quantifiers of one character. -/
def quantified (q : UInt8) (states : List NfaState) (atom : Frag) : List NfaState × Frag :=
  let s := states.length
  let a := states.length + 1
  let states := newState (newState states)
  let states := addEpsilon states s atom.start
  if q = '*'.toUInt8 then
    (addEpsilon (addEpsilon (addEpsilon states s a) atom.accept atom.start) atom.accept a, ⟨s, a⟩)
  else if q = '+'.toUInt8 then
    (addEpsilon (addEpsilon states atom.accept atom.start) atom.accept a, ⟨s, a⟩)
  else (addEpsilon (addEpsilon states s a) atom.accept a, ⟨s, a⟩)

/-- The mandatory copies of a repetition, behind the state `cur`. -/
def mandatoryCopies (cloneAtom : List NfaState → Option (List NfaState × Frag)) :
    Nat → List NfaState → Nat → Option (List NfaState × Nat)
  | 0, states, cur => some (states, cur)
  | count + 1, states, cur =>
    (cloneAtom states).bind fun (states, f) =>
      mandatoryCopies cloneAtom count (addEpsilon states cur f.start) f.accept

/-- The optional copies of a repetition, each of which may be left for the state `a`. -/
def optionalCopies (cloneAtom : List NfaState → Option (List NfaState × Frag)) (a : Nat) :
    Nat → List NfaState → Nat → Option (List NfaState × Nat)
  | 0, states, cur => some (states, cur)
  | count + 1, states, cur =>
    (cloneAtom states).bind fun (states, f) =>
      optionalCopies cloneAtom a count (addEpsilon (addEpsilon states cur f.start) cur a) f.accept

/-- The end of a repetition behind its mandatory copies: a loop when there is no upper bound. -/
def finishBounded (cloneAtom : List NfaState → Option (List NfaState × Frag)) (n m : Int)
    (states : List NfaState) (cur : Nat) : Option (List NfaState × Nat) :=
  let a := states.length
  let states := newState states
  if m < 0 then
    (cloneAtom states).bind fun (states, f) =>
      let ls := states.length
      let states := addEpsilon (newState states) cur ls
      let states := addEpsilon (addEpsilon states ls f.start) ls a
      some (addEpsilon (addEpsilon states f.accept f.start) f.accept a, a)
  else
    (optionalCopies cloneAtom a (m - n).toNat states cur).map fun (states, cur) =>
      (addEpsilon states cur a, a)

/-- A bounded repetition. The first mandatory copy is the atom itself. -/
def bounded (cloneAtom : List NfaState → Option (List NfaState × Frag)) (n m : Int)
    (states : List NfaState) (atom : Frag) : Option (List NfaState × Frag) :=
  let s := states.length
  let states := newState states
  let (states, cur, built) :=
    if 1 ≤ n then (addEpsilon states s atom.start, atom.accept, 1) else (states, s, 0)
  (mandatoryCopies cloneAtom (n - built).toNat states cur).bind fun (states, cur) =>
    (finishBounded cloneAtom n m states cur).map fun (states, a) => (states, ⟨s, a⟩)

/-- `clone_atom`: read the text of the atom again, in isolation. -/
def cloneAtom (parseRepeat : Parser) (source : List UInt8) (states : List NfaState) :
    Option (List NfaState × Frag) :=
  (parseRepeat states source).map fun (states, f, _) => (states, f)

/-- What follows an atom. -/
def afterAtom (parseRepeat : Parser) (source : List UInt8) (states : List NfaState) (atom : Frag) :
    List UInt8 → Option (List NfaState × Frag × List UInt8)
  | [] => some (states, atom, [])
  | q :: rest =>
    if q = '*'.toUInt8 ∨ q = '+'.toUInt8 ∨ q = '?'.toUInt8 then
      withText (quantified q states atom) rest
    else if q = '\x7b'.toUInt8 then
      match scanBounds rest with
      | none => some (states, atom, q :: rest)
      | some (n, m, rest) =>
        (bounded (cloneAtom parseRepeat source) n m states atom).bind (withText · rest)
    else some (states, atom, q :: rest)

/-- Whether a concatenation ends here. -/
def endsConcat : List UInt8 → Bool
  | [] => true
  | c :: _ => c == '|'.toUInt8 || c == ')'.toUInt8

/-- The loop of `parse_concat`, behind the state `cur`. -/
def concatLoop (parseRepeat : Parser) :
    Nat → List NfaState → Nat → List UInt8 → Option (List NfaState × Nat × List UInt8)
  | 0, states, cur, text => if endsConcat text then some (states, cur, text) else none
  | fuel + 1, states, cur, text =>
    if endsConcat text then some (states, cur, text)
    else
      (parseRepeat states text).bind fun (states, f, rest) =>
        concatLoop parseRepeat fuel (addEpsilon states cur f.start) f.accept rest

def parseConcat (parseRepeat : Parser) : Parser := fun states text =>
  let s := states.length
  if endsConcat text then withText (joined states none) text
  else
    (concatLoop parseRepeat text.length (newState states) s text).map fun (states, cur, rest) =>
      (states, ⟨s, cur⟩, rest)

def startsBranch : List UInt8 → Bool
  | [] => false
  | c :: _ => c == '|'.toUInt8

/-- The loop of `parse_alt` between the states `s` and `a`. -/
def altLoop (parseConcat : Parser) (s a : Nat) :
    Nat → List NfaState → List UInt8 → Option (List NfaState × List UInt8)
  | 0, states, text => if startsBranch text then none else some (states, text)
  | fuel + 1, states, text =>
    if startsBranch text then
      (parseConcat states text.tail).bind fun (states, next, rest) =>
        altLoop parseConcat s a fuel
          (addEpsilon (addEpsilon states s next.start) next.accept a) rest
    else some (states, text)

def parseAlt (parseConcat : Parser) : Parser := fun states text =>
  (parseConcat states text).bind fun (states, first, rest) =>
    if startsBranch rest then
      let s := states.length
      let a := states.length + 1
      let states := addEpsilon (newState (newState states)) s first.start
      (altLoop parseConcat s a rest.length (addEpsilon states first.accept a) rest).map
        fun (states, rest) => (states, ⟨s, a⟩, rest)
    else some (states, first, rest)

/-- `parse_repeat` in terms of itself, which reads the inside of a group and the copies of an
atom. -/
def repeatOnce (parseRepeat : Parser) : Parser := fun states text =>
  (parseAtom (parseAlt (parseConcat parseRepeat)) states text).bind fun (states, atom, rest) =>
    afterAtom parseRepeat (text.take (text.length - rest.length)) states atom rest

def parseRepeat : Nat → Parser
  | 0 => fun _ _ => none
  | fuel + 1 => repeatOnce (parseRepeat fuel)

/-- `compile`, or `none` where it returns false. -/
def compile (pattern : List UInt8) : Option RegexNfa :=
  match parseAlt (parseConcat (parseRepeat (pattern.length + 1))) [] pattern with
  | some (states, root, []) =>
    some
      { states := states.modify root.accept fun s => { s with accepting := true }
        start := root.start
        accept := root.accept }
  | _ => none

/-! ## Matching -/

/-- The edges of a state. -/
def edgesOf (s : Nat) : List NfaEdge :=
  match states[s]? with
  | none => []
  | some state => state.edges

/-- Where the epsilon edges of a state lead. -/
def silentEdges (s : Nat) : List Nat :=
  (edgesOf states s).filterMap fun e =>
    match e.charClass with
    | none => some e.target
    | some _ => none

/-- Where the edges of a state that take a byte lead. -/
def letterEdges (c : UInt8) (s : Nat) : List Nat :=
  (edgesOf states s).filterMap fun e =>
    match e.charClass with
    | none => none
    | some cls => if cls c then some e.target else none

/-- `epsilon_closure`. The stack of the source has its top at the end. -/
def epsilonClosure (nfa : RegexNfa) (set : List Nat) : List Nat :=
  (Lib.close (silentEdges nfa.states) (set.length + nfa.states.length + 1) set.reverse
    set).insertionSort (· ≤ ·)

def startSet (nfa : RegexNfa) : List Nat := nfa.epsilonClosure [nfa.start]

def step (nfa : RegexNfa) (states : List Nat) (c : UInt8) : List Nat :=
  nfa.epsilonClosure (Lib.mark (states.flatMap (letterEdges nfa.states c)) [] []).2

def accepts (nfa : RegexNfa) (states : List Nat) : Bool :=
  states.any fun s =>
    match nfa.states[s]? with
    | none => false
    | some state => state.accepting

end RegexNfa

end Quench

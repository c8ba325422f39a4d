import Quench.Compute.GbnfGrammar

/-!
# The grammar parser

`parse_gbnf` reads a grammar from its source text by recursive descent, in one pass. Groups and
repetitions become synthetic rules without a name: `X*` is `S ::= | X S`, `X?` is `S ::= | X`, and
bounded repetitions are copies of `X` followed by nested optional ones.

The loops run on fuel; `GbnfFuel` shows that none of them runs out.
-/

namespace Quench

open Lib

/-- `Parser`: the rules so far, the ids of named rules, the names that have a definition, and the
source from the current position on. -/
structure GbnfParser where
  rules : List GbnfRule := []
  ids : Table (List UInt8) Nat := ∅
  defined : List (List UInt8) := []
  rest : List UInt8
  size : Nat

/-- A parsing step fails with a message. -/
abbrev Parse := StateT GbnfParser (Except String)

namespace GbnfParser

/-- `kMaxRepeat`. -/
def kMaxRepeat : Nat := 1024

def isWordChar (c : UInt8) : Bool :=
  ('a'.toUInt8 ≤ c && c ≤ 'z'.toUInt8) || ('A'.toUInt8 ≤ c && c ≤ 'Z'.toUInt8) ||
    ('0'.toUInt8 ≤ c && c ≤ '9'.toUInt8) || c == '-'.toUInt8 || c == '_'.toUInt8

/-- A text as it appears in messages. -/
def text (bytes : List UInt8) : String := String.ofList (bytes.map fun b => Char.ofNat b.toNat)

/-- `fail`. -/
def fail {α : Type} (msg : String) : Parse α := fun st =>
  .error (msg ++ " (at offset " ++ toString (st.size - st.rest.length) ++ ")")

/-- What a loop without fuel does. -/
def outOfFuel {α : Type} : Parse α := fun _ => .error "out of fuel"

def eof : Parse Bool := fun st => .ok (st.rest.isEmpty, st)

/-- `peek`: the byte at an offset, or `0` behind the end. -/
def peek (off : Nat := 0) : Parse UInt8 := fun st => .ok (st.rest.getD off 0, st)

def advance (n : Nat) : Parse Unit := fun st => .ok ((), { st with rest := st.rest.drop n })

/-- The bytes left by `skip_space`. In a comment everything up to the end of line is skipped. -/
def skipSpaceFrom (allowNewline : Bool) : Bool → List UInt8 → List UInt8
  | _, [] => []
  | comment, c :: rest =>
    if comment && c != '\n'.toUInt8 then skipSpaceFrom allowNewline true rest
    else if c == '#'.toUInt8 then skipSpaceFrom allowNewline true rest
    else if c == ' '.toUInt8 || c == '\t'.toUInt8 || c == '\r'.toUInt8 then
      skipSpaceFrom allowNewline false rest
    else if c == '\n'.toUInt8 && allowNewline then skipSpaceFrom allowNewline false rest
    else c :: rest

def skipSpace (allowNewline : Bool) : Parse Unit := fun st =>
  .ok ((), { st with rest := skipSpaceFrom allowNewline false st.rest })

def ruleId (name : List UInt8) : Parse Nat := fun st =>
  match st.ids.lookup name with
  | some id => .ok (id, st)
  | none =>
    .ok (st.rules.length,
      { st with
        rules := st.rules ++ [{ name, alts := [] }]
        ids := st.ids.insert name st.rules.length })

def addSynthetic (alts : List (List GbnfItem)) : Parse Nat := fun st =>
  .ok (st.rules.length, { st with rules := st.rules ++ [{ name := [], alts }] })

/-- `char_item`. -/
def charItem (cp : Nat) : GbnfItem := .letter { ranges := [(cp, cp)] }

/-! ## Lexical -/

def hexDigit (c : UInt8) : Option Nat :=
  if '0'.toUInt8 ≤ c ∧ c ≤ '9'.toUInt8 then some (c - '0'.toUInt8).toNat
  else if 'a'.toUInt8 ≤ c ∧ c ≤ 'f'.toUInt8 then some ((c - 'a'.toUInt8).toNat + 10)
  else if 'A'.toUInt8 ≤ c ∧ c ≤ 'F'.toUInt8 then some ((c - 'A'.toUInt8).toNat + 10)
  else none

/-- `hex`: this many more digits. -/
def hex : Nat → Nat → Parse Nat
  | 0, out => pure out
  | digits + 1, out => do
      match hexDigit (← peek) with
      | none => fail "bad hex escape"
      | some v =>
        advance 1
        hex digits ((out <<< 4) ||| v)

/-- The continuation bytes of a codepoint in the source. -/
def readContinuation : Nat → Nat → Parse Nat
  | 0, cp => pure cp
  | extra + 1, cp => do
      let b ← peek
      if (← eof) || b &&& 0xC0 != 0x80 then fail "truncated UTF-8 in grammar"
      else
        advance 1
        readContinuation extra ((cp <<< 6) ||| (b &&& 0x3F).toNat)

/-- `read_char`: one character of a literal or class. -/
def readChar : Parse Nat := do
  if ← eof then fail "unterminated literal"
  else
    let b ← peek
    advance 1
    if b != 0x5C then
      if b < 0x80 then pure b.toNat
      else if b ≥ 0xF0 then readContinuation 3 (b.toNat &&& (0x3F >>> 3))
      else if b ≥ 0xE0 then readContinuation 2 (b.toNat &&& (0x3F >>> 2))
      else if b ≥ 0xC0 then readContinuation 1 (b.toNat &&& (0x3F >>> 1))
      else fail "invalid UTF-8 in grammar"
    else if ← eof then fail "trailing backslash"
    else
      let e ← peek
      advance 1
      if e == 'n'.toUInt8 then pure 0x0A
      else if e == 'r'.toUInt8 then pure 0x0D
      else if e == 't'.toUInt8 then pure 0x09
      else if e == '0'.toUInt8 then pure 0
      else if e == 'x'.toUInt8 then hex 2 0
      else if e == 'u'.toUInt8 then hex 4 0
      else if e == 'U'.toUInt8 then hex 8 0
      else pure e.toNat

/-! ## Elements -/

/-- The loop of `parse_string`. -/
def stringLoop : Nat → List GbnfItem → Parse (List GbnfItem)
  | 0, _ => outOfFuel
  | n + 1, items => do
      if (← eof) || (← peek) == 0x22 then pure items
      else
        let cp ← readChar
        stringLoop n (items ++ [charItem cp])

def parseString (items : List GbnfItem) : Parse (List GbnfItem) := do
  advance 1
  let items ← fun st => stringLoop (st.rest.length + 1) items st
  if ← eof then fail "unterminated string literal"
  else
    advance 1
    pure items

/-- The loop of `parse_class`. -/
def classLoop : Nat → List (Nat × Nat) → Parse (List (Nat × Nat))
  | 0, _ => outOfFuel
  | n + 1, ranges => do
      if (← eof) || (← peek) == ']'.toUInt8 then pure ranges
      else
        let lo ← readChar
        let dash ← peek
        let after ← peek 1
        if dash == '-'.toUInt8 && after != ']'.toUInt8 && after != 0 then
          advance 1
          let hi ← readChar
          if hi < lo then fail "inverted character range"
          else classLoop n (ranges ++ [(lo, hi)])
        else classLoop n (ranges ++ [(lo, lo)])

def parseClass : Parse GbnfItem := do
  advance 1
  let negated := (← peek) == '^'.toUInt8
  if negated then advance 1
  let ranges ← fun st => classLoop (st.rest.length + 1) [] st
  if ← eof then fail "unterminated character class"
  else
    advance 1
    pure (.letter { ranges, negated })

/-- `make_opt`: the empty alternative, or `x` and what follows it. -/
def makeOpt (x : GbnfItem) (tail : Option Nat) : Parse Nat :=
  addSynthetic [[], x :: (tail.map Item.rule).toList]

/-- `make_star`: the empty alternative, or `x` and the rule itself. -/
def makeStar (x : GbnfItem) : Parse Nat := fun st =>
  addSynthetic [[], [x, .rule st.rules.length]] st

/-- The digits at the current position. -/
def digits : Parse (List UInt8) := fun st =>
  .ok (st.rest.takeWhile isDigit, { st with rest := st.rest.dropWhile isDigit })

/-- `std::stoi`, which throws where the number does not fit an `int`. -/
def stoi (digits : List UInt8) : Parse Nat :=
  let value := digits.foldl (fun value c => 10 * value + (c - '0'.toUInt8).toNat) 0
  if value ≤ 2147483647 then pure value else fun _ => .error "stoi"

/-- `parse_repeat_bounds`: the least and the greatest number of repetitions. -/
def parseRepeatBounds : Parse (Nat × Option Nat) := do
  advance 1
  let a ← digits
  let hasComma := (← peek) == ','.toUInt8
  let b ← if hasComma then do
      advance 1
      digits
    else pure []
  if (← peek) != '}'.toUInt8 then fail "unterminated \x7b \x7d repetition"
  else
    advance 1
    if a.isEmpty && b.isEmpty then fail "empty \x7b \x7d repetition"
    else
      let lo ← if a.isEmpty then pure 0 else stoi a
      let hi ← if hasComma then
          if b.isEmpty then pure none else some <$> stoi b
        else pure (some lo)
      if kMaxRepeat < lo ∨ kMaxRepeat < hi.getD 0 then
        fail ("repetition bound over " ++ toString kMaxRepeat)
      else if (hi.map fun hi => decide (hi < lo)).getD false then
        fail "inverted \x7b \x7d repetition"
      else pure (lo, hi)

/-- Nested optionals, innermost first. -/
def nestOpt (x : GbnfItem) : Nat → Option Nat → Parse (Option Nat)
  | 0, tail => pure tail
  | n + 1, tail => do
      let tail ← makeOpt x tail
      nestOpt x n (some tail)

/-- The items a postfix operator makes of the element before it. -/
def repeatItems (x : GbnfItem) (op : UInt8) : Parse (List GbnfItem) := do
  if op == '*'.toUInt8 then
    advance 1
    let star ← makeStar x
    pure [.rule star]
  else if op == '?'.toUInt8 then
    advance 1
    let opt ← makeOpt x none
    pure [.rule opt]
  else if op == '+'.toUInt8 then
    advance 1
    let star ← makeStar x
    pure [x, .rule star]
  else
    let (lo, hi) ← parseRepeatBounds
    match hi with
    | none =>
      let star ← makeStar x
      pure (List.replicate lo x ++ [.rule star])
    | some hi =>
      let tail ← nestOpt x (hi - lo) none
      pure (List.replicate lo x ++ (tail.map Item.rule).toList)

/-- `apply_postfix`: the operators behind the element that starts at an index. -/
def applyPostfix (start : Nat) : Nat → List GbnfItem → Parse (List GbnfItem)
  | 0, _ => outOfFuel
  | n + 1, items => do
      let op ← peek
      if (← eof) || (op != '*'.toUInt8 && op != '+'.toUInt8 && op != '?'.toUInt8 &&
          op != '\x7b'.toUInt8) then pure items
      else if items.length ≤ start then fail "repetition without a preceding element"
      else
        let x ← match items.drop start with
          | [x] => pure x
          | element => Item.rule <$> addSynthetic [element]
        let repeated ← repeatItems x op
        applyPostfix start n (items.take start ++ repeated)

/-- The longest word at the current position. -/
def word : Parse (List UInt8) := fun st =>
  .ok (st.rest.takeWhile isWordChar, { st with rest := st.rest.dropWhile isWordChar })

/-! ## Rules -/

mutual

/-- `parse_sequence`: the items of one alternative. -/
def parseSequence (nested : Bool) : Nat → List GbnfItem → Parse (List GbnfItem)
  | 0, _ => outOfFuel
  | n + 1, items => do
      skipSpace nested
      let c ← peek
      if (← eof) || c == '|'.toUInt8 || c == ')'.toUInt8 || c == '\n'.toUInt8 then pure items
      else
        let start := items.length
        let items ←
          if c == 0x22 then parseString items
          else if c == '['.toUInt8 then do
            let item ← parseClass
            pure (items ++ [item])
          else if c == '.'.toUInt8 then do
            advance 1
            pure (items ++ [.letter { negated := true }])
          else if c == '('.toUInt8 then do
            advance 1
            let alts ← parseAlternates true n
            skipSpace true
            if (← peek) != ')'.toUInt8 then fail "expected )"
            else
              advance 1
              let group ← addSynthetic alts
              pure (items ++ [.rule group])
          else if isWordChar c then do
            let name ← word
            let id ← ruleId name
            pure (items ++ [.rule id])
          else fail ("unexpected character '" ++ text [c] ++ "'")
        let items ← fun st => applyPostfix start (st.rest.length + 1) items st
        parseSequence nested n items

/-- `parse_alternates`. -/
def parseAlternates (nested : Bool) : Nat → Parse (List (List GbnfItem))
  | 0 => outOfFuel
  | n + 1 => do
      let first ← parseSequence nested n []
      alternatesLoop nested n [first]

/-- The loop of `parse_alternates`. -/
def alternatesLoop (nested : Bool) : Nat → List (List GbnfItem) → Parse (List (List GbnfItem))
  | 0, _ => outOfFuel
  | n + 1, out => do
      skipSpace nested
      if (← peek) != '|'.toUInt8 then pure out
      else
        advance 1
        skipSpace true
        let alt ← parseSequence nested n []
        alternatesLoop nested n (out ++ [alt])

end

/-- Fuel for the descent from the current position. -/
def descentFuel (st : GbnfParser) : Nat := 3 * st.rest.length + 3

def parseRule : Parse Unit := do
  let name ← word
  if name.isEmpty then fail "expected a rule name"
  else
    skipSpace false
    if !(← fun st => .ok ([0x3A, 0x3A, 0x3D].isPrefixOf st.rest, st)) then
      fail ("expected ::= after rule '" ++ text name ++ "'")
    else
      advance 3
      skipSpace true
      if ← fun st => .ok (decide (name ∈ st.defined), st) then
        fail ("rule '" ++ text name ++ "' defined twice")
      else
        modify fun st => { st with defined := name :: st.defined }
        let id ← ruleId name
        let alts ← fun st => parseAlternates false (descentFuel st) st
        modify fun st => { st with rules := st.rules.modify id fun rule => { rule with alts } }

/-- The loop of `parse_grammar`. -/
def grammarLoop : Nat → Parse Unit
  | 0 => outOfFuel
  | n + 1 => do
      if ← eof then pure ()
      else
        parseRule
        skipSpace true
        grammarLoop n

def parseGrammar : Parse Unit := do
  skipSpace true
  fun st => grammarLoop (st.rest.length + 1) st

end GbnfParser

/-- The name of the entry rule. -/
def rootName : List UInt8 := [0x72, 0x6F, 0x6F, 0x74]

/-- `parse_gbnf`: the rule table and the index of `root`, or a message. -/
def parseGbnf (src : List UInt8) : Except String (List GbnfRule × Nat) := do
  let ((), p) ← GbnfParser.parseGrammar { rest := src, size := src.length }
  match p.rules.find? fun rule => !rule.name.isEmpty && rule.alts.isEmpty with
  | some rule => throw ("undefined rule '" ++ GbnfParser.text rule.name ++ "'")
  | none =>
    match p.ids.lookup rootName with
    | none => throw "grammar has no 'root' rule"
    | some root => pure (p.rules, root)

end Quench

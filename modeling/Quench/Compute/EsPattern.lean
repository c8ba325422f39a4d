import Quench.Compute.RegexSyntax

/-!
# ECMAScript patterns

The syntax of ECMAScript patterns as trees over bytes, with everything the documented subset leaves
out: lookaround, named groups, backreferences, lazy quantifiers, word boundaries, property escapes
and anchors anywhere. Restrictions that are not about syntax trees are not imposed, so some trees
are not patterns.

`Disjunction.Outside` says that a pattern uses a construct outside the documented subset.
-/

namespace Quench.Es

open Lib Regex

/-- A non-empty text of bytes of one kind. -/
structure Spelled (kind : UInt8 → Bool) where
  bytes : List UInt8
  nonempty : bytes ≠ []
  spelled : ∀ b ∈ bytes, kind b = true

def isLetter (b : UInt8) : Bool :=
  ('a'.toUInt8 ≤ b && b ≤ 'z'.toUInt8) || ('A'.toUInt8 ≤ b && b ≤ 'Z'.toUInt8)

def isHex (b : UInt8) : Bool :=
  isDigit b || ('a'.toUInt8 ≤ b && b ≤ 'f'.toUInt8) || ('A'.toUInt8 ≤ b && b ≤ 'F'.toUInt8)

/-- The bytes of a group name. -/
def isName (b : UInt8) : Bool :=
  isLetter b || isDigit b || b == '_'.toUInt8 || b == '$'.toUInt8 || 0x80 ≤ b

/-- The bytes of a property expression. -/
def isProperty (b : UInt8) : Bool := isLetter b || isDigit b || b == '_'.toUInt8 || b == '='.toUInt8

/-- Escapes for one character. -/
inductive CharEscape where
  | control (c : UInt8) (known : c ∈ ascii "fnrtv")
  | controlLetter (c : UInt8) (letter : isLetter c = true)
  | nul
  | hex (digits : Spelled isHex) (two : digits.bytes.length = 2)
  | unicode (digits : Spelled isHex) (four : digits.bytes.length = 4)
  | codePoint (digits : Spelled isHex)
  | identity (c : UInt8) (known : c ∈ ascii "^$\\.*+?()[]\x7b\x7d|/-")

namespace CharEscape

/-- The byte behind the backslash. -/
def head : CharEscape → UInt8
  | control c _ => c
  | controlLetter _ _ => 'c'.toUInt8
  | nul => '0'.toUInt8
  | hex _ _ => 'x'.toUInt8
  | unicode _ _ | codePoint _ => 'u'.toUInt8
  | identity c _ => c

/-- What follows that byte. -/
def tail : CharEscape → List UInt8
  | control _ _ | nul | identity _ _ => []
  | controlLetter c _ => [c]
  | hex digits _ | unicode digits _ => digits.bytes
  | codePoint digits => '\x7b'.toUInt8 :: (digits.bytes ++ ['\x7d'.toUInt8])

end CharEscape

/-- Escapes for a set of characters. -/
inductive SetEscape where
  | shorthand (s : Shorthand)
  | property (negated : Bool) (name : Spelled isProperty)

namespace SetEscape

def head : SetEscape → UInt8
  | shorthand s => s.letter
  | property negated _ => if negated then 'P'.toUInt8 else 'p'.toUInt8

def tail : SetEscape → List UInt8
  | shorthand _ => []
  | property _ name => '\x7b'.toUInt8 :: (name.bytes ++ ['\x7d'.toUInt8])

end SetEscape

/-- The parts of a class between its brackets. -/
inductive ClassPart where
  | raw (b : UInt8) (plain : b ≠ '\\'.toUInt8 ∧ b ≠ ']'.toUInt8)
  | char (e : CharEscape)
  | set (e : SetEscape)
  | backspace

namespace ClassPart

def text : ClassPart → List UInt8
  | raw b _ => [b]
  | char e => '\\'.toUInt8 :: e.head :: e.tail
  | set e => '\\'.toUInt8 :: e.head :: e.tail
  | backspace => ascii "\\b"

end ClassPart

/-- What a group does besides grouping. -/
inductive GroupKind where
  | capturing
  | plain
  | named (name : Spelled isName)
  | look (behind negated : Bool)

namespace GroupKind

/-- The text behind the opening parenthesis. -/
def marker : GroupKind → List UInt8
  | capturing => []
  | plain => ascii "?:"
  | named name => ascii "?<" ++ (name.bytes ++ ['>'.toUInt8])
  | look behind negated =>
    '?'.toUInt8 :: ((if behind then ['<'.toUInt8] else []) ++
      [if negated then '!'.toUInt8 else '='.toUInt8])

end GroupKind

/-- Assertions without a body. -/
inductive Assertion where
  | start
  | finish
  | boundary (negated : Bool)

def Assertion.text : Assertion → List UInt8
  | start => ['^'.toUInt8]
  | finish => ['$'.toUInt8]
  | boundary negated => ['\\'.toUInt8, if negated then 'B'.toUInt8 else 'b'.toUInt8]

mutual

/-- Atoms and groups. -/
inductive Term where
  | byte (b : UInt8) (plain : b ∉ metacharacters)
  | any
  | char (e : CharEscape)
  | set (e : SetEscape)
  | backreference (n : Nat) (pos : 0 < n)
  | namedBackreference (name : Spelled isName)
  | charClass (negated : Bool) (parts : List ClassPart)
  | group (kind : GroupKind) (body : Disjunction)

/-- A sequence of assertions and of terms with their quantifiers. -/
inductive Alternative where
  | nil
  | assertion (a : Assertion) (more : Alternative)
  | term (t : Term) (more : Alternative)
  | quantified (t : Term) (q : Quantifier) (isLazy : Bool) (more : Alternative)

inductive Disjunction where
  | last (a : Alternative)
  | or (a : Alternative) (more : Disjunction)

end

/-! ## Text -/

mutual

def Term.text : Term → List UInt8
  | .byte b _ => [b]
  | .any => ['.'.toUInt8]
  | .char e => '\\'.toUInt8 :: e.head :: e.tail
  | .set e => '\\'.toUInt8 :: e.head :: e.tail
  | .backreference n _ => '\\'.toUInt8 :: decimal n
  | .namedBackreference name => ascii "\\k<" ++ (name.bytes ++ ['>'.toUInt8])
  | .charClass negated parts =>
    '['.toUInt8 :: ((if negated then ['^'.toUInt8] else []) ++
      (parts.flatMap ClassPart.text ++ [']'.toUInt8]))
  | .group kind body => '('.toUInt8 :: (kind.marker ++ (body.text ++ [')'.toUInt8]))

def Alternative.text : Alternative → List UInt8
  | .nil => []
  | .assertion a more => a.text ++ more.text
  | .term t more => t.text ++ more.text
  | .quantified t q isLazy more =>
    t.text ++ (q.text ++ ((if isLazy then ['?'.toUInt8] else []) ++ more.text))

def Disjunction.text : Disjunction → List UInt8
  | .last a => a.text
  | .or a more => a.text ++ '|'.toUInt8 :: more.text

end

/-! ## The documented subset -/

/-- What the subset has to say about a part of a pattern. -/
inductive Mark where
  | documented
  | caret
  | dollar
  | foreign
  deriving DecidableEq

def SetEscape.mark : SetEscape → Mark
  | shorthand _ => .documented
  | property _ _ => .foreign

def ClassPart.mark : ClassPart → Mark
  | set e => e.mark
  | _ => .documented

def GroupKind.mark : GroupKind → Mark
  | capturing | plain => .documented
  | named _ | look _ _ => .foreign

def Assertion.mark : Assertion → Mark
  | start => .caret
  | finish => .dollar
  | boundary _ => .foreign

mutual

/-- The marks of a pattern in the order of its text. -/
def Term.marks : Term → List Mark
  | .byte _ _ | .any | .char _ => [.documented]
  | .set e => [e.mark]
  | .backreference _ _ | .namedBackreference _ => [.foreign]
  | .charClass _ parts => .documented :: parts.map ClassPart.mark
  | .group kind body => kind.mark :: (body.marks ++ [.documented])

def Alternative.marks : Alternative → List Mark
  | .nil => []
  | .assertion a more => a.mark :: more.marks
  | .term t more => t.marks ++ more.marks
  | .quantified t _ isLazy more =>
    t.marks ++ (if isLazy then .foreign else .documented) :: more.marks

def Disjunction.marks : Disjunction → List Mark
  | .last a => a.marks
  | .or a more => a.marks ++ .documented :: more.marks

end

/-- A pattern uses a construct outside the documented subset: one that is never documented, a `^`
that is not its first part, or a `$` that is not its last one. -/
def Disjunction.Outside (t : Disjunction) : Prop :=
  Mark.foreign ∈ t.marks ∨ Mark.caret ∈ t.marks.tail ∨ Mark.dollar ∈ t.marks.dropLast

instance (t : Disjunction) : Decidable t.Outside := inferInstanceAs (Decidable (_ ∨ _))

end Quench.Es

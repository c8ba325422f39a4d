import Mathlib.Computability.Language
import Mathlib.Data.Nat.Digits.Defs
import Quench.Lib.Utf8

/-!
# Patterns and their meaning

The syntax trees of the documented subset of patterns, the text each one is written as, and the
language of byte strings it stands for. Nothing here refers to the compiler: the language of a
repetition is the union of the powers its bounds allow.
-/

namespace Quench.Regex

open Lib

/-- The six shorthands. -/
inductive Shorthand where
  | digit | notDigit | word | notWord | space | notSpace
  deriving DecidableEq

namespace Shorthand

/-- The letter behind the backslash. -/
def letter : Shorthand → UInt8
  | digit => 'd'.toUInt8
  | notDigit => 'D'.toUInt8
  | word => 'w'.toUInt8
  | notWord => 'W'.toUInt8
  | space => 's'.toUInt8
  | notSpace => 'S'.toUInt8

def digits : String := "0123456789"

def words : String := "abcdefghijklmnopqrstuvwxyzABCDEFGHIJKLMNOPQRSTUVWXYZ0123456789_"

def spaces : String := " \t\n\r\x0c\x0b"

/-- A byte is one of the characters of a text. -/
def among (text : String) (b : UInt8) : Bool := (text.toList.map Char.toNat).contains b.toNat

def admits : Shorthand → UInt8 → Bool
  | digit, b => among digits b
  | notDigit, b => !among digits b
  | word, b => among words b
  | notWord, b => !among words b
  | space, b => among spaces b
  | notSpace, b => !among spaces b

def text (s : Shorthand) : List UInt8 := ['\\'.toUInt8, s.letter]

end Shorthand

/-- A byte behind a backslash when it is one of the given bytes. -/
def escaped (special : List UInt8) (b : UInt8) : List UInt8 :=
  if special.contains b then ['\\'.toUInt8, b] else [b]

/-- The metacharacters outside classes. -/
def metacharacters : List UInt8 := ascii "^$\\.*+?()[]\x7b\x7d|"

/-- The metacharacters of classes. -/
def classMetacharacters : List UInt8 := ascii "\\]^-"

/-- Every byte of a list is in another. -/
theorem mem_of_all_contains {l special : List UInt8} (h : l.all special.contains = true) {b : UInt8}
    (hb : b ∈ l) : b ∈ special :=
  List.contains_iff_mem.mp (List.all_eq_true.mp h b hb)

/-- A member of a class. -/
inductive ClassItem where
  | byte (b : UInt8)
  | range (lo hi : UInt8) (ordered : lo ≤ hi)
  | shorthand (s : Shorthand)

namespace ClassItem

def admits : ClassItem → UInt8 → Bool
  | byte b, c => c == b
  | range lo hi _, c => lo ≤ c && c ≤ hi
  | shorthand s, c => s.admits c

def text : ClassItem → List UInt8
  | byte b => escaped classMetacharacters b
  | range lo hi _ =>
    escaped classMetacharacters lo ++ '-'.toUInt8 :: escaped classMetacharacters hi
  | shorthand s => s.text

/-- The ends of a range are written without a backslash. -/
def PlainEnds : ClassItem → Prop
  | range lo hi _ => lo ∉ classMetacharacters ∧ hi ∉ classMetacharacters
  | _ => True

end ClassItem

/-- The quantifiers. -/
inductive Quantifier where
  | star
  | plus
  | optional
  | exactly (n : Nat)
  | atLeast (n : Nat)
  | between (n m : Nat) (ordered : n ≤ m)

/-- A number in decimal. -/
def decimal (n : Nat) : List UInt8 :=
  if n = 0 then ['0'.toUInt8]
  else (Nat.digits 10 n).reverse.map fun d => .ofNat ('0'.toUInt8.toNat + d)

namespace Quantifier

def braces (inner : List UInt8) : List UInt8 := '\x7b'.toUInt8 :: (inner ++ ['\x7d'.toUInt8])

def text : Quantifier → List UInt8
  | star => ['*'.toUInt8]
  | plus => ['+'.toUInt8]
  | optional => ['?'.toUInt8]
  | exactly n => braces (decimal n)
  | atLeast n => braces (decimal n ++ [','.toUInt8])
  | between n m _ => braces (decimal n ++ ','.toUInt8 :: decimal m)

def least : Quantifier → Nat
  | star | optional => 0
  | plus => 1
  | exactly n | atLeast n | between n _ _ => n

/-- The upper bound, if there is one. -/
def most : Quantifier → Option Nat
  | star | plus | atLeast _ => none
  | optional => some 1
  | exactly n => some n
  | between _ m _ => some m

/-- How often the atom may occur. -/
def Allows (q : Quantifier) (k : Nat) : Prop :=
  q.least ≤ k ∧ ∀ m ∈ q.most, k ≤ m

/-- The bounds can be counted in 64 bits. -/
def Fits (q : Quantifier) : Prop :=
  q.least < 2 ^ 63 ∧ ∀ m ∈ q.most, m < 2 ^ 63

def language (q : Quantifier) (l : Language UInt8) : Language UInt8 :=
  {w | ∃ k, q.Allows k ∧ w ∈ l ^ k}

end Quantifier

/-- The words of one byte out of a class. -/
def oneByte (admits : UInt8 → Prop) : Language UInt8 :=
  {w | ∃ b, admits b ∧ w = [b]}

mutual

/-- What a quantifier applies to. -/
inductive Atom where
  | byte (b : UInt8)
  | any
  | shorthand (s : Shorthand)
  | charClass (negated : Bool) (first : ClassItem) (more : List ClassItem)
  | group (capturing : Bool) (body : Pattern)

/-- A concatenation of atoms, each with its quantifier. -/
inductive Branch where
  | nil
  | cons (atom : Atom) (quantifier : Option Quantifier) (more : Branch)

/-- An alternation of branches. -/
inductive Pattern where
  | last (branch : Branch)
  | or (branch : Branch) (more : Pattern)

end

/-! ## The text of a pattern -/

def quantifierText (q : Option Quantifier) : List UInt8 := q.elim [] Quantifier.text

mutual

def Atom.text : Atom → List UInt8
  | .byte b => escaped metacharacters b
  | .any => ['.'.toUInt8]
  | .shorthand s => s.text
  | .charClass negated first more =>
    '['.toUInt8 :: ((if negated then ['^'.toUInt8] else []) ++
      ((first :: more).flatMap ClassItem.text ++ [']'.toUInt8]))
  | .group capturing body =>
    '('.toUInt8 :: ((if capturing then [] else ascii "?:") ++ (body.text ++ [')'.toUInt8]))

def Branch.text : Branch → List UInt8
  | .nil => []
  | .cons atom q more => atom.text ++ (quantifierText q ++ more.text)

def Pattern.text : Pattern → List UInt8
  | .last branch => branch.text
  | .or branch more => branch.text ++ '|'.toUInt8 :: more.text

end

/-! ## The language of a pattern -/

/-- What the members of a class admit. -/
def ClassItem.anyAdmits (items : List ClassItem) (b : UInt8) : Bool :=
  items.any fun item => item.admits b

def quantifierLanguage (q : Option Quantifier) (l : Language UInt8) : Language UInt8 :=
  q.elim l (Quantifier.language · l)

mutual

def Atom.language : Atom → Language UInt8
  | .byte b => oneByte (· = b)
  | .any => oneByte (· ≠ '\n'.toUInt8)
  | .shorthand s => oneByte fun b => s.admits b
  | .charClass negated first more =>
    oneByte fun b => ClassItem.anyAdmits (first :: more) b = !negated
  | .group _ body => body.language

def Branch.language : Branch → Language UInt8
  | .nil => 1
  | .cons atom q more => quantifierLanguage q atom.language * more.language

def Pattern.language : Pattern → Language UInt8
  | .last branch => branch.language
  | .or branch more => branch.language + more.language

end

/-! ## Conditions on every class and every quantifier -/

mutual

/-- Every range is written without backslashes and every bound can be counted. -/
def Atom.Plain : Atom → Prop
  | .charClass _ first more => ∀ item ∈ first :: more, item.PlainEnds
  | .group _ body => body.Plain
  | _ => True

def Branch.Plain : Branch → Prop
  | .nil => True
  | .cons atom q more => atom.Plain ∧ (∀ r ∈ q, r.Fits) ∧ more.Plain

def Pattern.Plain : Pattern → Prop
  | .last branch => branch.Plain
  | .or branch more => branch.Plain ∧ more.Plain

end

end Quench.Regex

import Quench.Compute.GbnfUtf8
import Quench.Lib.Productions

/-!
# The grammar of JSON texts

The grammar of RFC 8259, rule by rule, over the octets of a text. A text is encoded in UTF-8, where
the octets of a character outside ASCII are all above `0x7F`; inside a string they count as
unescaped. `IsDocument` is a text in UTF-8 that the grammar derives and whose value is an object or
an array.
-/

namespace Quench.Json

open Lib List

variable {a : Char} {r : Rule}

/-- The octet of an ASCII character. -/
def byte (c : Char) : UInt8 := .ofNat c.toNat

theorem byte_inj {b : Char} (ha : a.toNat < 256) (hb : b.toNat < 256) :
    byte a = byte b ↔ a = b := by
  constructor
  · intro h
    have hnat := congrArg UInt8.toNat h
    simp only [byte, UInt8.toNat_ofNat', Nat.reducePow, Nat.mod_eq_of_lt ha,
      Nat.mod_eq_of_lt hb] at hnat
    exact Char.toNat_inj.mp hnat
  · rintro rfl
    rfl

/-- Classes of octets. -/
inductive Class where
  | octet (b : UInt8)
  | space
  | digit
  | digit1_9
  | hexdig
  | exponent
  | unescaped
  deriving DecidableEq

/-- Insignificant whitespace: space, horizontal tab, line feed and carriage return. -/
def isSpace (b : UInt8) : Bool :=
  b == byte ' ' || b == byte '\t' || b == byte '\n' || b == byte '\r'

def isLower (b : UInt8) : Bool := decide (byte 'a' ≤ b ∧ b ≤ byte 'z')

def isHexdig (b : UInt8) : Bool :=
  isDigit b || decide (byte 'a' ≤ b ∧ b ≤ byte 'f') || decide (byte 'A' ≤ b ∧ b ≤ byte 'F')

def Class.admits : Class → UInt8 → Bool
  | .octet c, b => b == c
  | .space, b => isSpace b
  | .digit, b => isDigit b
  | .digit1_9, b => isDigit b && b != byte '0'
  | .hexdig, b => isHexdig b
  | .exponent, b => b == byte 'e' || b == byte 'E'
  | .unescaped, b => decide (0x20 ≤ b) && b != byte '"' && b != byte '\\'

/-- The rules. An optional part or a repetition in parentheses has a rule of its own. `text` is
`JSON-text` with the value narrowed to an object or an array. -/
inductive Rule where
  | text
  | ws
  | beginArray
  | beginObject
  | endArray
  | endObject
  | nameSeparator
  | valueSeparator
  | value
  | «false»
  | null
  | «true»
  | object
  | optMembers
  | members
  | member
  | array
  | optValues
  | values
  | number
  | optMinus
  | int
  | digits
  | optFrac
  | optExp
  | optSign
  | string
  | chars
  | char
  | escaped
  deriving DecidableEq

/-- A symbol of the grammar. -/
abbrev Symbol := Item Class Rule

/-- The symbol of one ASCII character. -/
def lit (c : Char) : Symbol := .letter (.octet (byte c))

/-- The productions of RFC 8259. -/
def Rule.bodies : Rule → List (List Symbol)
  | .text => [[.rule .ws, .rule .object, .rule .ws], [.rule .ws, .rule .array, .rule .ws]]
  | .ws => [[], [.letter .space, .rule .ws]]
  | .beginArray => [[.rule .ws, lit '[', .rule .ws]]
  | .beginObject => [[.rule .ws, lit '{', .rule .ws]]
  | .endArray => [[.rule .ws, lit ']', .rule .ws]]
  | .endObject => [[.rule .ws, lit '}', .rule .ws]]
  | .nameSeparator => [[.rule .ws, lit ':', .rule .ws]]
  | .valueSeparator => [[.rule .ws, lit ',', .rule .ws]]
  | .value =>
    [[.rule .false], [.rule .null], [.rule .true], [.rule .object], [.rule .array],
      [.rule .number], [.rule .string]]
  | .false => [[lit 'f', lit 'a', lit 'l', lit 's', lit 'e']]
  | .null => [[lit 'n', lit 'u', lit 'l', lit 'l']]
  | .true => [[lit 't', lit 'r', lit 'u', lit 'e']]
  | .object => [[.rule .beginObject, .rule .optMembers, .rule .endObject]]
  | .optMembers => [[], [.rule .member, .rule .members]]
  | .members => [[], [.rule .valueSeparator, .rule .member, .rule .members]]
  | .member => [[.rule .string, .rule .nameSeparator, .rule .value]]
  | .array => [[.rule .beginArray, .rule .optValues, .rule .endArray]]
  | .optValues => [[], [.rule .value, .rule .values]]
  | .values => [[], [.rule .valueSeparator, .rule .value, .rule .values]]
  | .number => [[.rule .optMinus, .rule .int, .rule .optFrac, .rule .optExp]]
  | .optMinus => [[], [lit '-']]
  | .int => [[lit '0'], [.letter .digit1_9, .rule .digits]]
  | .digits => [[], [.letter .digit, .rule .digits]]
  | .optFrac => [[], [lit '.', .letter .digit, .rule .digits]]
  | .optExp => [[], [.letter .exponent, .rule .optSign, .letter .digit, .rule .digits]]
  | .optSign => [[], [lit '-'], [lit '+']]
  | .string => [[lit '"', .rule .chars, lit '"']]
  | .chars => [[], [.rule .char, .rule .chars]]
  | .char => [[.letter .unescaped], [lit '\\', .rule .escaped]]
  | .escaped =>
    [[lit '"'], [lit '\\'], [lit '/'], [lit 'b'], [lit 'f'], [lit 'n'], [lit 'r'], [lit 't'],
      [lit 'u', .letter .hexdig, .letter .hexdig, .letter .hexdig, .letter .hexdig]]

/-- The grammar of JSON texts. -/
def grammar : Productions Class Rule UInt8 := ⟨Rule.bodies, Class.admits⟩

/-- A list of symbols derives a text. -/
abbrev Yields (symbols : List Symbol) (text : List UInt8) : Prop := grammar.Yields symbols text

/-- The octets of some characters. -/
def utf8 (chars : List Char) : List UInt8 := Gbnf.utf8 (chars.map Char.toNat)

/-- A document: a JSON text with an object or an array at its root, in UTF-8. -/
def IsDocument (text : List UInt8) : Prop :=
  Yields [.rule .text] text ∧ ∃ chars, utf8 chars = text

/-! ## Whitespace -/

theorem star_ws : grammar.Star .ws .space := rfl

theorem star_digits : grammar.Star .digits .digit := rfl

variable {rest : List Symbol} {c : UInt8} {w : List UInt8}

@[simp]
theorem grammar_admits : grammar.admits = Class.admits := rfl

@[simp]
theorem yields_lit : Yields (lit a :: rest) (c :: w) ↔ c = byte a ∧ Yields rest w := by
  simp [lit, Class.admits]

theorem yields_rule (r : Rule) :
    Yields (.rule r :: rest) w ↔ ∃ body ∈ r.bodies, Yields (body ++ rest) w :=
  Productions.yields_rule

variable {body : List Symbol} {text : List Char}

/-- A rule with one body stands for it. -/
theorem yields_rule_one (hr : r.bodies = [body]) :
    Yields (.rule r :: rest) w ↔ Yields (body ++ rest) w := by
  rw [yields_rule, hr]
  simp only [mem_singleton, exists_eq_left]

/-- A rule with an empty body and another is optional. -/
theorem yields_rule_opt (hr : r.bodies = [[], body]) :
    Yields (.rule r :: rest) w ↔ Yields rest w ∨ Yields (body ++ rest) w := by
  rw [yields_rule, hr]
  simp only [mem_cons, not_mem_nil, or_false, exists_eq_or_imp, exists_eq_left,
    nil_append]

/-- A leading space makes no difference. -/
def Spaced (symbols : List Symbol) : Prop :=
  ∀ c w, isSpace c = true → (Yields symbols (c :: w) ↔ Yields symbols w)

/-- Nothing derived starts with a space. -/
def Solid (symbols : List Symbol) : Prop :=
  ∀ c w, isSpace c = true → ¬ Yields symbols (c :: w)

theorem spaced_ws
    (h : ∀ c w, isSpace c = true → Yields rest (c :: w) → Yields (.rule .ws :: rest) w) :
    Spaced (.rule .ws :: rest) := by
  intro c w hc
  constructor
  · intro hw
    rcases star_ws.yields_cons.mp hw with hrest | ⟨_, hmore⟩
    · exact h c w hc hrest
    · exact hmore
  · exact fun hw => star_ws.yields_cons.mpr (.inr ⟨hc, hw⟩)

theorem Solid.spaced (h : Solid rest) : Spaced (.rule .ws :: rest) :=
  spaced_ws fun c w hc hw => absurd hw (h c w hc)

theorem solid_lit (ha : isSpace (byte a) = false) : Solid (lit a :: rest) := by
  intro c w hc hw
  rw [(yields_lit.mp hw).1, ha] at hc
  cases hc

/-- Whitespace in front adds nothing to a list that allows it already. -/
theorem Spaced.absorb (h : Spaced rest) : Yields (.rule .ws :: rest) w ↔ Yields rest w := by
  constructor
  · intro hw
    induction w with
    | nil =>
      rcases star_ws.yields_iff.mp hw with hrest | ⟨_, _, heq, _⟩
      · exact hrest
      · cases heq
    | cons c w ih =>
      rcases star_ws.yields_cons.mp hw with hrest | ⟨hc, hmore⟩
      · exact hrest
      · exact (h c w hc).mpr (ih hmore)
  · exact star_ws.skip

/-- In front of another character whitespace derives nothing. -/
theorem yields_ws_cons (hc : isSpace c = false) :
    Yields (.rule .ws :: rest) (c :: w) ↔ Yields rest (c :: w) := by
  refine star_ws.yields_cons.trans ?_
  constructor
  · rintro (hrest | ⟨hadmits, _⟩)
    · exact hrest
    · exact absurd hadmits (by simp [grammar, Class.admits, hc])
  · exact Or.inl

/-! ## What a list derives after one character -/

section Token

variable (hr : r.bodies = [[.rule .ws, lit a, .rule .ws]])

include hr

/-- A structural character has whitespace on both sides. -/
theorem yields_token :
    Yields (.rule r :: rest) w ↔ Yields (.rule .ws :: lit a :: .rule .ws :: rest) w :=
  yields_rule_one hr

theorem spaced_token (ha : isSpace (byte a) = false) : Spaced (.rule r :: rest) := by
  intro c w hc
  rw [yields_token hr, yields_token hr]
  exact (solid_lit ha).spaced c w hc

theorem yields_token_cons (hc : isSpace c = false) :
    Yields (.rule r :: rest) (c :: w) ↔ c = byte a ∧ Yields (.rule .ws :: rest) w := by
  rw [yields_token hr, yields_ws_cons hc, yields_lit]

end Token

/-- What objects and arrays have in common: items between separators, up to a closer. -/
structure Listing where
  item : Rule
  first : Rule
  more : Rule
  close : Rule
  closer : Char
  first_bodies : first.bodies = [[], [.rule item, .rule more]]
  more_bodies : more.bodies = [[], [.rule .valueSeparator, .rule item, .rule more]]
  close_bodies : close.bodies = [[.rule .ws, lit closer, .rule .ws]]
  closer_solid : isSpace (byte closer) = false

def Listing.object : Listing :=
  ⟨.member, .optMembers, .members, .endObject, '}', rfl, rfl, rfl, rfl⟩

def Listing.array : Listing := ⟨.value, .optValues, .values, .endArray, ']', rfl, rfl, rfl, rfl⟩

namespace Listing

variable (l : Listing)

/-- After an item. -/
def afterItem : List Symbol := [.rule l.more, .rule l.close]

/-- At the start. -/
def atFirst : List Symbol := [.rule .ws, .rule l.first, .rule l.close]

/-- After a separator. -/
def atItem : List Symbol := [.rule .ws, .rule l.item, .rule l.more, .rule l.close]

variable {l}

theorem spaced_close : Spaced (.rule l.close :: rest) := spaced_token l.close_bodies l.closer_solid

theorem spaced_afterItem : Spaced (l.afterItem ++ rest) := by
  intro c w hc
  change Yields (.rule l.more :: .rule l.close :: rest) (c :: w) ↔
    Yields (.rule l.more :: .rule l.close :: rest) w
  rw [yields_rule_opt l.more_bodies, yields_rule_opt l.more_bodies, spaced_close c w hc]
  exact or_congr_right (spaced_token (a := ',') rfl rfl c w hc)

theorem afterItem_cons (hc : isSpace c = false) :
    Yields (l.afterItem ++ rest) (c :: w) ↔
      c = byte ',' ∧ Yields (l.atItem ++ rest) w ∨
        c = byte l.closer ∧ Yields (.rule .ws :: rest) w := by
  change Yields (.rule l.more :: .rule l.close :: rest) (c :: w) ↔ _
  rw [yields_rule_opt l.more_bodies, yields_token_cons l.close_bodies hc, or_comm]
  exact or_congr_left (yields_token_cons (a := ',') rfl hc)

theorem atFirst_cons (hc : isSpace c = false) :
    Yields (l.atFirst ++ rest) (c :: w) ↔
      c = byte l.closer ∧ Yields (.rule .ws :: rest) w ∨
        Yields (.rule l.item :: l.afterItem ++ rest) (c :: w) := by
  change Yields (.rule .ws :: .rule l.first :: .rule l.close :: rest) (c :: w) ↔ _
  rw [yields_ws_cons hc, yields_rule_opt l.first_bodies, yields_token_cons l.close_bodies hc]
  rfl

theorem atItem_cons (hc : isSpace c = false) :
    Yields (l.atItem ++ rest) (c :: w) ↔ Yields (.rule l.item :: l.afterItem ++ rest) (c :: w) :=
  yields_ws_cons hc

variable (hitem : ∀ rest c w, isSpace c = true → Yields (.rule l.item :: rest) (c :: w) →
  Yields (.rule l.item :: rest) w)
include hitem

/-- Leading space of an item is whitespace before it. -/
theorem spaced_atItem :
    Spaced (l.atItem ++ rest) :=
  spaced_ws fun c w hc h => star_ws.skip (hitem _ c w hc h)

theorem spaced_atFirst :
    Spaced (l.atFirst ++ rest) := by
  refine spaced_ws fun c w hc h => star_ws.skip ?_
  rcases (yields_rule_opt l.first_bodies).mp h with hclose | hbody
  · exact (yields_rule_opt l.first_bodies).mpr (.inl ((spaced_close c w hc).mp hclose))
  · exact (yields_rule_opt l.first_bodies).mpr (.inr (hitem _ c w hc hbody))

end Listing

/-! ## Strings -/

theorem string_cons :
    Yields (.rule .string :: rest) (c :: w) ↔
      c = byte '"' ∧ Yields (.rule .chars :: lit '"' :: rest) w := by
  rw [yields_rule_one (r := .string) rfl]
  exact yields_lit

theorem member_cons :
    Yields (.rule .member :: rest) (c :: w) ↔
      c = byte '"' ∧
        Yields (.rule .chars :: lit '"' :: .rule .nameSeparator :: .rule .value :: rest) w := by
  rw [yields_rule_one (r := .member) rfl]
  exact string_cons

theorem chars_cons :
    Yields (.rule .chars :: lit '"' :: rest) (c :: w) ↔
      c = byte '"' ∧ Yields rest w ∨
        c = byte '\\' ∧ Yields (.rule .escaped :: .rule .chars :: lit '"' :: rest) w ∨
          Class.unescaped.admits c = true ∧ Yields (.rule .chars :: lit '"' :: rest) w := by
  rw [yields_rule_opt (r := .chars) rfl, yields_lit]
  refine or_congr_right ((yields_rule .char).trans ?_)
  simp [Rule.bodies, or_comm]

/-- The characters that follow a backslash alone. -/
def simpleEscapes : List UInt8 := ['"', '\\', '/', 'b', 'f', 'n', 'r', 't'].map byte

/-- A text starts with what may follow a backslash. -/
def startsEscape : List UInt8 → Bool
  | [] => false
  | c :: w =>
    simpleEscapes.contains c || c == byte 'u' && (w.take 4).length == 4 && (w.take 4).all isHexdig

theorem unescaped_of_isHexdig (h : isHexdig c = true) :
    Class.unescaped.admits c = true ∧ c ≠ byte '"' ∧ c ≠ byte '\\' := by
  revert c
  exact @Gbnf.forall_byte _ (by decide +kernel)

/-- Hexadecimal digits are characters of a string. -/
theorem chars_hexdig (hc : isHexdig c = true) :
    Yields (.rule .chars :: lit '"' :: rest) (c :: w) ↔
      Yields (.rule .chars :: lit '"' :: rest) w := by
  obtain ⟨hadmits, hquote, hbackslash⟩ := unescaped_of_isHexdig hc
  simp [chars_cons, hadmits, hquote, hbackslash]

theorem chars_hexdigs {u : List UInt8} (hu : u.all isHexdig = true) :
    Yields (.rule .chars :: lit '"' :: rest) (u ++ w) ↔
      Yields (.rule .chars :: lit '"' :: rest) w := by
  induction u with
  | nil => rfl
  | cons c u ih =>
    rw [all_cons, Bool.and_eq_true] at hu
    rw [cons_append, chars_hexdig hu.1, ih hu.2]

/-- Any number of letters of one class. -/
theorem yields_replicate {k : Class} (n : Nat) :
    Yields (List.replicate n (.letter k) ++ rest) w ↔
      (w.take n).length = n ∧ (w.take n).all k.admits = true ∧ Yields rest (w.drop n) := by
  induction n generalizing w with
  | zero => simp
  | succ n ih =>
    cases w with
    | nil => simp [replicate_succ]
    | cons c w => simp [replicate_succ, ih, and_assoc, and_left_comm]

/-- In a string, an escape is whatever starts like one. -/
theorem escaped_cons :
    Yields (.rule .escaped :: .rule .chars :: lit '"' :: rest) (c :: w) ↔
      startsEscape (c :: w) = true ∧ Yields (.rule .chars :: lit '"' :: rest) w := by
  have hhex : Yields (List.replicate 4 (.letter .hexdig) ++ .rule .chars :: lit '"' :: rest) w ↔
      ((w.take 4).length = 4 ∧ (w.take 4).all isHexdig = true) ∧
        Yields (.rule .chars :: lit '"' :: rest) w := by
    rw [yields_replicate, ← and_assoc]
    refine and_congr_right fun h => ?_
    rw [← chars_hexdigs h.2, take_append_drop]
  rw [yields_rule]
  simp only [Rule.bodies, mem_cons, not_mem_nil, or_false, exists_eq_or_imp,
    exists_eq_left, nil_append, cons_append, yields_lit]
  rw [replicate_succ, replicate_succ, replicate_succ, replicate_one] at hhex
  simp only [cons_append, nil_append] at hhex
  rw [hhex]
  simp only [startsEscape, simpleEscapes, map_cons, map_nil, contains_cons,
    contains_nil, Bool.or_false, Bool.or_eq_true, Bool.and_eq_true, beq_iff_eq, or_and_right,
    and_assoc, or_assoc]

/-! ## Numbers -/

theorem int_cons :
    Yields (.rule .int :: rest) (c :: w) ↔
      c = byte '0' ∧ Yields rest w ∨
        Class.digit1_9.admits c = true ∧ Yields (.rule .digits :: rest) w := by
  rw [yields_rule]
  simp [Rule.bodies]

theorem digits_cons :
    Yields (.rule .digits :: rest) (c :: w) ↔
      Yields rest (c :: w) ∨ isDigit c = true ∧ Yields (.rule .digits :: rest) w :=
  star_digits.yields_cons

theorem optFrac_cons :
    Yields (.rule .optFrac :: rest) (c :: w) ↔
      Yields rest (c :: w) ∨ c = byte '.' ∧ Yields (.letter .digit :: .rule .digits :: rest) w := by
  rw [yields_rule_opt (r := .optFrac) rfl]
  exact or_congr_right yields_lit

theorem optExp_cons :
    Yields (.rule .optExp :: rest) (c :: w) ↔
      Yields rest (c :: w) ∨
        (c = byte 'e' ∨ c = byte 'E') ∧
          Yields (.rule .optSign :: .letter .digit :: .rule .digits :: rest) w := by
  rw [yields_rule_opt (r := .optExp) rfl]
  simp [Class.admits]

theorem optSign_cons :
    Yields (.rule .optSign :: rest) (c :: w) ↔
      Yields rest (c :: w) ∨ (c = byte '-' ∨ c = byte '+') ∧ Yields rest w := by
  rw [yields_rule]
  simp only [Rule.bodies, mem_cons, not_mem_nil, or_false, exists_eq_or_imp,
    exists_eq_left, nil_append, cons_append, yields_lit]
  rw [or_and_right]

theorem number_cons :
    Yields (.rule .number :: rest) (c :: w) ↔
      Yields (.rule .int :: .rule .optFrac :: .rule .optExp :: rest) (c :: w) ∨
        c = byte '-' ∧ Yields (.rule .int :: .rule .optFrac :: .rule .optExp :: rest) w := by
  rw [yields_rule_one (r := .number) rfl]
  change Yields (.rule .optMinus :: .rule .int :: .rule .optFrac :: .rule .optExp :: rest) _ ↔ _
  rw [yields_rule_opt (r := .optMinus) rfl]
  exact or_congr_right yields_lit

/-- The characters of a number. -/
def isNumberChar (c : UInt8) : Bool :=
  isDigit c || c == byte '.' || c == byte 'e' || c == byte 'E' || c == byte '+' || c == byte '-'

/-- Nothing derived starts with a character of a number. -/
def Stops (symbols : List Symbol) : Prop :=
  ∀ c w, Yields symbols (c :: w) → isNumberChar c = false

def startsDigit : List UInt8 → Bool
  | [] => false
  | c :: _ => isDigit c

theorem digit_ne (h : isDigit c = true) :
    c ≠ byte '.' ∧ c ≠ byte 'e' ∧ c ≠ byte 'E' ∧ c ≠ byte '+' ∧ c ≠ byte '-' := by
  refine ⟨?_, ?_, ?_, ?_, ?_⟩ <;> rintro rfl <;> revert h <;> decide

theorem Stops.not_digit (h : Stops rest) (hw : Yields rest w) : startsDigit w = false := by
  cases w with
  | nil => rfl
  | cons c w =>
    have hc := h c w hw
    rw [isNumberChar] at hc
    simp only [Bool.or_eq_false_iff] at hc
    exact hc.1.1.1.1.1

theorem optExp_not_digit (h : Stops rest) (hw : Yields (.rule .optExp :: rest) w) :
    startsDigit w = false := by
  cases w with
  | nil => rfl
  | cons c w =>
    rcases optExp_cons.mp hw with hrest | ⟨rfl | rfl, _⟩
    · exact h.not_digit hrest
    · rfl
    · rfl

theorem optFrac_not_digit (h : Stops rest)
    (hw : Yields (.rule .optFrac :: .rule .optExp :: rest) w) : startsDigit w = false := by
  cases w with
  | nil => rfl
  | cons c w =>
    rcases optFrac_cons.mp hw with hrest | ⟨rfl, _⟩
    · exact optExp_not_digit h hrest
    · rfl

/-- Where no digit follows, no digits are derived. -/
theorem digits_skip (hw : startsDigit w = false) :
    Yields (.rule .digits :: rest) w ↔ Yields rest w := by
  constructor
  · intro h
    rcases star_digits.yields_iff.mp h with hrest | ⟨c, v, rfl, hadmits, _⟩
    · exact hrest
    · exact absurd (hw.symm.trans hadmits) (by decide)
  · exact star_digits.skip

/-- The integer part is any digits, as long as nothing follows a leading zero. -/
theorem int_number (h : Stops rest) :
    Yields (.rule .int :: .rule .optFrac :: .rule .optExp :: rest) (c :: w) ↔
      isDigit c = true ∧ (c = byte '0' → startsDigit w = false) ∧
        Yields (.rule .digits :: .rule .optFrac :: .rule .optExp :: rest) w := by
  rw [int_cons]
  constructor
  · rintro (⟨rfl, hw⟩ | ⟨hadmits, hw⟩)
    · exact ⟨by decide, fun _ => optFrac_not_digit h hw, star_digits.skip hw⟩
    · simp only [Class.admits, Bool.and_eq_true, bne_iff_ne, ne_eq] at hadmits
      exact ⟨hadmits.1, fun hzero => absurd hzero hadmits.2, hw⟩
  · rintro ⟨hdigit, hzero, hw⟩
    by_cases hc : c = byte '0'
    · exact .inl ⟨hc, (digits_skip (hzero hc)).mp hw⟩
    · exact .inr ⟨by simp [Class.admits, hdigit, hc], hw⟩

/-- The places in a number: after the minus, in the integer part, after the point, in the fraction,
after the letter of the exponent, after its sign and among its digits. -/
inductive NumberPlace where
  | minus
  | integer
  | point
  | fraction
  | letter
  | sign
  | exponent

namespace NumberPlace

/-- What is left of a number at a place. -/
def symbols : NumberPlace → List Symbol
  | .minus => [.rule .int, .rule .optFrac, .rule .optExp]
  | .integer => [.rule .digits, .rule .optFrac, .rule .optExp]
  | .point => [.letter .digit, .rule .digits, .rule .optExp]
  | .fraction => [.rule .digits, .rule .optExp]
  | .letter => [.rule .optSign, .letter .digit, .rule .digits]
  | .sign => [.letter .digit, .rule .digits]
  | .exponent => [.rule .digits]

/-- Whether a number may end at a place. -/
def complete : NumberPlace → Bool
  | .integer | .fraction | .exponent => true
  | .minus | .point | .letter | .sign => false

/-- Where a character leads within a number. -/
def next (c : UInt8) : NumberPlace → Option NumberPlace
  | .minus => if isDigit c then some .integer else none
  | .integer =>
    if isDigit c then some .integer
    else if c = byte '.' then some .point
    else if c = byte 'e' ∨ c = byte 'E' then some .letter
    else none
  | .point => if isDigit c then some .fraction else none
  | .fraction =>
    if isDigit c then some .fraction
    else if c = byte 'e' ∨ c = byte 'E' then some .letter
    else none
  | .letter =>
    if isDigit c then some .exponent
    else if c = byte '+' ∨ c = byte '-' then some .sign
    else none
  | .sign => if isDigit c then some .exponent else none
  | .exponent => if isDigit c then some .exponent else none

theorem isNumberChar_of_next {p q : NumberPlace} (h : p.next c = some q) :
    isNumberChar c = true := by
  by_cases hdigit : isDigit c = true
  · simp [isNumberChar, hdigit]
  cases p <;> simp only [next, hdigit, Bool.false_eq_true, if_false, reduceCtorEq] at h
  all_goals
    split_ifs at h <;> simp_all [isNumberChar]
  all_goals tauto

/-- A number goes on, or it is complete and something else follows. -/
theorem symbols_cons (hrest : Stops rest) (p : NumberPlace) :
    Yields (p.symbols ++ rest) (c :: w) ↔
      (∃ q, p.next c = some q ∧ (p = .minus → c = byte '0' → startsDigit w = false) ∧
        Yields (q.symbols ++ rest) w) ∨
      p.complete = true ∧ Yields rest (c :: w) := by
  by_cases hdigit : isDigit c = true
  · obtain ⟨hpoint, hlower, hupper, hplus, hminus⟩ := digit_ne hdigit
    cases p <;>
      simp [symbols, next, complete, hdigit, hpoint, hlower, hupper, hplus, hminus,
        int_number hrest, digits_cons, optFrac_cons, optExp_cons, optSign_cons, Class.admits,
        or_comm]
  cases p with
  | minus | point | sign => simp [symbols, next, complete, hdigit, int_number hrest, Class.admits]
  | exponent => simp [symbols, next, complete, hdigit, digits_cons]
  | letter =>
    by_cases hsign : c = byte '+' ∨ c = byte '-'
    · simp [symbols, next, complete, hdigit, optSign_cons, Class.admits, hsign, or_comm]
    · simp [symbols, next, complete, hdigit, optSign_cons, Class.admits, hsign, or_comm]
  | fraction =>
    by_cases hletter : c = byte 'e' ∨ c = byte 'E'
    · simp [symbols, next, complete, hdigit, digits_cons, optExp_cons, hletter, or_comm]
    · simp [symbols, next, complete, hdigit, digits_cons, optExp_cons, hletter]
  | integer =>
    by_cases hpoint : c = byte '.'
    · subst hpoint
      simp [symbols, next, complete, hdigit, digits_cons, optFrac_cons, optExp_cons, byte_inj,
        or_comm]
    · by_cases hletter : c = byte 'e' ∨ c = byte 'E'
      · simp [symbols, next, complete, hdigit, digits_cons, optFrac_cons, optExp_cons, hpoint,
          hletter, or_comm]
      · simp [symbols, next, complete, hdigit, digits_cons, optFrac_cons, optExp_cons, hpoint,
          hletter]

end NumberPlace

/-! ## Values -/

/-- The symbols of the letters of a literal. -/
def letters (text : List UInt8) : List Symbol := text.map fun b => .letter (.octet b)

@[simp]
theorem letters_cons {b : UInt8} {text : List UInt8} :
    Yields (letters (b :: text) ++ rest) (c :: w) ↔ c = b ∧ Yields (letters text ++ rest) w := by
  simp [letters, Class.admits]

theorem value_iff :
    Yields (.rule .value :: rest) w ↔
      Yields (.rule .string :: rest) w ∨ Yields (.rule .object :: rest) w ∨
        Yields (.rule .array :: rest) w ∨ Yields (.rule .true :: rest) w ∨
        Yields (.rule .false :: rest) w ∨ Yields (.rule .null :: rest) w ∨
        Yields (.rule .number :: rest) w := by
  rw [yields_rule]
  simp only [Rule.bodies, mem_cons, not_mem_nil, or_false, exists_eq_or_imp,
    exists_eq_left, nil_append, cons_append]
  tauto

theorem object_iff :
    Yields (.rule .object :: rest) w ↔
      Yields (.rule .ws :: lit '{' :: Listing.object.atFirst ++ rest) w := by
  rw [yields_rule_one (r := .object) rfl]
  exact yields_token rfl

theorem array_iff :
    Yields (.rule .array :: rest) w ↔
      Yields (.rule .ws :: lit '[' :: Listing.array.atFirst ++ rest) w := by
  rw [yields_rule_one (r := .array) rfl]
  exact yields_token rfl

theorem spaced_object : Spaced (.rule .object :: rest) := by
  intro c w hc
  rw [object_iff, object_iff]
  exact (solid_lit rfl).spaced c w hc

theorem spaced_array : Spaced (.rule .array :: rest) := by
  intro c w hc
  rw [array_iff, array_iff]
  exact (solid_lit rfl).spaced c w hc

theorem object_cons (hc : isSpace c = false) :
    Yields (.rule .object :: rest) (c :: w) ↔
      c = byte '{' ∧ Yields (Listing.object.atFirst ++ rest) w := by
  rw [object_iff, cons_append, cons_append, yields_ws_cons hc, yields_lit]

theorem array_cons (hc : isSpace c = false) :
    Yields (.rule .array :: rest) (c :: w) ↔
      c = byte '[' ∧ Yields (Listing.array.atFirst ++ rest) w := by
  rw [array_iff, cons_append, cons_append, yields_ws_cons hc, yields_lit]

theorem true_bodies : Rule.true.bodies = [('t' :: ['r', 'u', 'e']).map lit] := rfl

theorem false_bodies : Rule.false.bodies = [('f' :: ['a', 'l', 's', 'e']).map lit] := rfl

theorem null_bodies : Rule.null.bodies = [('n' :: ['u', 'l', 'l']).map lit] := rfl

theorem literal_cons (hr : r.bodies = [(a :: text).map lit]) :
    Yields (.rule r :: rest) (c :: w) ↔
      c = byte a ∧ Yields (letters (text.map byte) ++ rest) w := by
  rw [yields_rule_one hr, letters, map_map]
  exact yields_lit

theorem solid_string : Solid (.rule .string :: rest) := by
  intro c w hc hw
  rw [(string_cons.mp hw).1] at hc
  cases hc

theorem solid_literal (hr : r.bodies = [(a :: text).map lit])
    (ha : isSpace (byte a) = false) : Solid (.rule r :: rest) := by
  intro c w hc hw
  rw [((literal_cons hr).mp hw).1, ha] at hc
  cases hc

theorem not_isSpace_of_isDigit (h : isDigit c = true) : isSpace c = false := by
  revert c
  exact @Gbnf.forall_byte _ (by decide +kernel)

theorem solid_int : Solid (.rule .int :: rest) := by
  intro c w hc hw
  rcases int_cons.mp hw with ⟨rfl, _⟩ | ⟨hadmits, _⟩
  · cases hc
  · rw [Class.admits, Bool.and_eq_true] at hadmits
    rw [not_isSpace_of_isDigit hadmits.1] at hc
    cases hc

theorem solid_number : Solid (.rule .number :: rest) := by
  intro c w hc hw
  rcases number_cons.mp hw with hint | ⟨rfl, _⟩
  · exact solid_int c w hc hint
  · cases hc

/-- Only an object or an array starts with whitespace. -/
theorem value_space (rest : List Symbol) (c : UInt8) (w : List UInt8) (hc : isSpace c = true)
    (hw : Yields (.rule .value :: rest) (c :: w)) : Yields (.rule .value :: rest) w := by
  rcases value_iff.mp hw with h | h | h | h | h | h | h
  · exact absurd h (solid_string c w hc)
  · exact value_iff.mpr (.inr (.inl ((spaced_object c w hc).mp h)))
  · exact value_iff.mpr (.inr (.inr (.inl ((spaced_array c w hc).mp h))))
  · exact absurd h (solid_literal true_bodies rfl c w hc)
  · exact absurd h (solid_literal false_bodies rfl c w hc)
  · exact absurd h (solid_literal null_bodies rfl c w hc)
  · exact absurd h (solid_number c w hc)

theorem member_space (rest : List Symbol) (c : UInt8) (w : List UInt8) (hc : isSpace c = true)
    (hw : Yields (.rule .member :: rest) (c :: w)) : Yields (.rule .member :: rest) w := by
  rw [(member_cons.mp hw).1] at hc
  cases hc

/-- What each first character leaves of a value. -/
theorem value_cons (hrest : Stops rest) (hc : isSpace c = false) :
    Yields (.rule .value :: rest) (c :: w) ↔
      c = byte '"' ∧ Yields (.rule .chars :: lit '"' :: rest) w ∨
      c = byte '{' ∧ Yields (Listing.object.atFirst ++ rest) w ∨
      c = byte '[' ∧ Yields (Listing.array.atFirst ++ rest) w ∨
      c = byte 't' ∧ Yields (letters (['r', 'u', 'e'].map byte) ++ rest) w ∨
      c = byte 'f' ∧ Yields (letters (['a', 'l', 's', 'e'].map byte) ++ rest) w ∨
      c = byte 'n' ∧ Yields (letters (['u', 'l', 'l'].map byte) ++ rest) w ∨
      (isDigit c = true ∧ (c = byte '0' → startsDigit w = false) ∧
        Yields (.rule .digits :: .rule .optFrac :: .rule .optExp :: rest) w) ∨
      c = byte '-' ∧ Yields (.rule .int :: .rule .optFrac :: .rule .optExp :: rest) w := by
  rw [value_iff, string_cons, object_cons hc, array_cons hc, literal_cons true_bodies,
    literal_cons false_bodies, literal_cons null_bodies, number_cons, int_number hrest]

/-- A whole text: an object or an array. -/
theorem text_cons (hc : isSpace c = false) :
    Yields [.rule .text] (c :: w) ↔
      c = byte '{' ∧ Yields (Listing.object.atFirst ++ [.rule .ws]) w ∨
        c = byte '[' ∧ Yields (Listing.array.atFirst ++ [.rule .ws]) w := by
  rw [yields_rule]
  simp only [Rule.bodies, mem_cons, not_mem_nil, or_false, exists_eq_or_imp,
    exists_eq_left, cons_append, nil_append, yields_ws_cons hc, object_cons hc,
    array_cons hc]

theorem spaced_text : Spaced [.rule .text] := by
  intro c w hc
  rw [yields_rule, yields_rule]
  simp only [Rule.bodies, mem_cons, not_mem_nil, or_false, exists_eq_or_imp,
    exists_eq_left, cons_append, nil_append, spaced_object.absorb,
    spaced_array.absorb, spaced_object c w hc, spaced_array c w hc]

end Quench.Json

import Mathlib.Data.List.TakeDrop

/-!
# Characters in a text of bytes

A character is a lead byte, which tells how many bytes there are, and continuation bytes
(`encodeChar_eq`). A position of a text is a `Boundary` if no character of the text lies across it.
In a text of whole characters, what is in front of a boundary is a text of whole characters
(`take_encode`).
-/

namespace Quench.Lib

open List

/-- The bytes of an ASCII text. -/
def ascii (text : String) : List UInt8 := text.toList.map Char.toUInt8

def isDigit (b : UInt8) : Bool := '0'.toUInt8 ≤ b && b ≤ '9'.toUInt8

/-- The bytes of some characters. -/
def encode (chars : List Char) : List UInt8 := chars.flatMap String.utf8EncodeChar

def isContinuation (b : UInt8) : Bool := b &&& 0xC0 == 0x80

/-- The number of bytes that a lead byte announces. -/
def charLength (lead : UInt8) : Option Nat :=
  if lead < 0x80 then some 1
  else if lead &&& 0xE0 == 0xC0 then some 2
  else if lead &&& 0xF0 == 0xE0 then some 3
  else if lead &&& 0xF8 == 0xF0 then some 4
  else none

/-- A character of the text lies across the position. -/
def Straddles (text : List UInt8) (p : Nat) : Prop :=
  ∃ before c after, text = before ++ String.utf8EncodeChar c ++ after ∧
    before.length < p ∧ p < before.length + (String.utf8EncodeChar c).length

def Boundary (text : List UInt8) (p : Nat) : Prop := ¬ Straddles text p

/-! ## The bytes of a character -/

theorem continuation_byte (k : Nat) : isContinuation (.ofNat (k % 64 + 128)) = true := by
  have hall : ∀ k : Fin 64, isContinuation (.ofNat (k + 128)) = true := by decide
  exact hall ⟨k % 64, Nat.mod_lt _ (by decide)⟩

theorem lead_two (k : Nat) : charLength (.ofNat (k % 32 + 192)) = some 2 := by
  have hall : ∀ k : Fin 32, charLength (.ofNat (k + 192)) = some 2 := by decide
  exact hall ⟨k % 32, Nat.mod_lt _ (by decide)⟩

theorem lead_three (k : Nat) : charLength (.ofNat (k % 16 + 224)) = some 3 := by
  have hall : ∀ k : Fin 16, charLength (.ofNat (k + 224)) = some 3 := by decide
  exact hall ⟨k % 16, Nat.mod_lt _ (by decide)⟩

theorem lead_four (k : Nat) : charLength (.ofNat (k % 8 + 240)) = some 4 := by
  have hall : ∀ k : Fin 8, charLength (.ofNat (k + 240)) = some 4 := by decide
  exact hall ⟨k % 8, Nat.mod_lt _ (by decide)⟩

/-- A character is a lead byte with its continuation bytes. -/
theorem encodeChar_eq (c : Char) :
    ∃ lead tail, String.utf8EncodeChar c = lead :: tail ∧
      charLength lead = some (tail.length + 1) ∧ ∀ b ∈ tail, isContinuation b = true := by
  rw [String.utf8EncodeChar.eq_def]
  dsimp only
  split_ifs with h1 h2 h3
  · refine ⟨_, [], rfl, ?_, fun b hb => absurd hb not_mem_nil⟩
    rw [charLength, if_pos]
    · rfl
    · change c.val.toNat % 256 < 128
      omega
  · refine ⟨_, _, rfl, lead_two _, ?_⟩
    simp only [mem_singleton, forall_eq]
    exact continuation_byte _
  · refine ⟨_, _, rfl, lead_three _, ?_⟩
    simp only [mem_cons, not_mem_nil, or_false, forall_eq_or_imp, forall_eq]
    exact ⟨continuation_byte _, continuation_byte _⟩
  · refine ⟨_, _, rfl, lead_four _, ?_⟩
    simp only [mem_cons, not_mem_nil, or_false, forall_eq_or_imp, forall_eq]
    exact ⟨continuation_byte _, continuation_byte _, continuation_byte _⟩

variable {b : UInt8}

/-- A lead byte is no continuation byte. -/
theorem charLength_continuation (h : isContinuation b = true) : charLength b = none := by
  have hall : ∀ n : Fin 256, isContinuation (.ofNat n) = true → charLength (.ofNat n) = none := by
    decide +kernel
  have hbyte := hall ⟨b.toNat, b.toNat_lt⟩
  rw [UInt8.ofNat_toNat] at hbyte
  exact hbyte h

/-! ## Boundaries -/

variable {text : List UInt8} {p : Nat}

/-- The bytes of a character that lies across a position. -/
theorem Straddles.bytes (h : Straddles text p) :
    ∃ start lead size, start < p ∧ p < start + size ∧ text[start]? = some lead ∧
      charLength lead = some size ∧
      ∀ q, start < q → q < start + size → ∃ b, text[q]? = some b ∧ isContinuation b = true := by
  obtain ⟨before, c, after, rfl, hlow, hhigh⟩ := h
  obtain ⟨lead, tail, hchar, hsize, htail⟩ := encodeChar_eq c
  rw [hchar, length_cons] at hhigh
  rw [hchar]
  refine ⟨before.length, lead, tail.length + 1, hlow, hhigh, ?_, hsize, fun q hq hend => ?_⟩
  · rw [append_assoc, getElem?_append_right (Nat.le_refl _), Nat.sub_self]
    rfl
  · obtain ⟨i, rfl⟩ : ∃ i, q = before.length + (i + 1) := ⟨q - before.length - 1, by omega⟩
    have hlt : i < tail.length := by omega
    refine ⟨tail[i], ?_, htail _ (getElem_mem hlt)⟩
    rw [append_assoc, getElem?_append_right (by omega), Nat.add_sub_cancel_left,
      cons_append, getElem?_cons_succ, getElem?_append_left hlt,
      getElem?_eq_getElem hlt]

theorem boundary_zero (text : List UInt8) : Boundary text 0 := by
  rintro ⟨before, c, after, _, hlow, _⟩
  exact Nat.not_lt_zero _ hlow

theorem boundary_of_length_le (h : text.length ≤ p) : Boundary text p := by
  rintro ⟨before, c, after, rfl, _, hhigh⟩
  rw [length_append, length_append] at h
  omega

/-- In front of a byte that starts something, there is a boundary. -/
theorem boundary_of_not_continuation (hb : text[p]? = some b) (h : isContinuation b = false) :
    Boundary text p := by
  intro hstraddles
  obtain ⟨start, lead, size, hlow, hhigh, _, _, htail⟩ := hstraddles.bytes
  obtain ⟨b', hb', hcontinuation⟩ := htail p hlow hhigh
  rw [hb] at hb'
  rw [← Option.some.inj hb', h] at hcontinuation
  cases hcontinuation

/-- Behind a lead byte and continuation bytes, as many as it announces or more, there is a
boundary. -/
theorem boundary_of_complete {start size : Nat} {lead : UInt8} (hlead : text[start]? = some lead)
    (hsize : charLength lead = some size) (hcomplete : start + size ≤ p)
    (htail : ∀ q, start < q → q < p → ∃ b, text[q]? = some b ∧ isContinuation b = true) :
    Boundary text p := by
  intro hstraddles
  obtain ⟨start', lead', size', hlow, hhigh, hlead', hsize', htail'⟩ := hstraddles.bytes
  rcases Nat.lt_trichotomy start start' with hlt | rfl | hlt
  · -- the other lead byte would be a continuation byte
    obtain ⟨b, hb, hcontinuation⟩ := htail start' hlt hlow
    rw [hlead'] at hb
    rw [Option.some.inj hb, charLength_continuation hcontinuation] at hsize'
    cases hsize'
  · rw [hlead] at hlead'
    rw [← Option.some.inj hlead', hsize] at hsize'
    rw [← Option.some.inj hsize'] at hhigh
    omega
  · obtain ⟨b, hb, hcontinuation⟩ := htail' start hlt (by omega)
    rw [hlead] at hb
    rw [Option.some.inj hb, charLength_continuation hcontinuation] at hsize
    cases hsize

theorem encode_cons (c : Char) (chars : List Char) :
    encode (c :: chars) = String.utf8EncodeChar c ++ encode chars := rfl

/-- What is in front of a boundary of whole characters are whole characters. -/
theorem take_encode {chars : List Char} (h : Boundary (encode chars) p) :
    ∃ count, (encode chars).take p = encode (chars.take count) := by
  induction chars generalizing p with
  | nil => exact ⟨0, take_nil⟩
  | cons c chars ih =>
    rw [encode_cons] at *
    rcases Nat.lt_or_ge p (String.utf8EncodeChar c).length with hlt | hge
    · obtain rfl : p = 0 := by
        by_contra hne
        exact h ⟨[], c, encode chars, rfl, Nat.pos_of_ne_zero hne, by simpa using hlt⟩
      exact ⟨0, rfl⟩
    · have hrest : Boundary (encode chars) (p - (String.utf8EncodeChar c).length) := by
        rintro ⟨before, d, after, heq, hlow, hhigh⟩
        refine h ⟨String.utf8EncodeChar c ++ before, d, after, ?_, ?_, ?_⟩
        · rw [heq]
          simp only [append_assoc]
        · rw [length_append]
          omega
        · rw [length_append]
          omega
      obtain ⟨count, hcount⟩ := ih hrest
      refine ⟨count + 1, ?_⟩
      rw [take_append, take_of_length_le hge, hcount, take_succ_cons, encode_cons]

end Quench.Lib

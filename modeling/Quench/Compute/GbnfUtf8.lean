import Quench.Compute.GbnfMatcher

/-!
# UTF-8 in the matcher

`utf8Encode` is the encoding of a codepoint in the fewest bytes. The matcher decodes byte by byte:
`decodeByte` is the part of `run` that does so, without the grammar. `Reading` says which bytes of a
codepoint a half-read one has seen. A codepoint that is completed was encoded by exactly the bytes
read (`Reading.complete`), and reading an encoding yields its codepoint (`decodeLoop_encode`).
-/

namespace Quench.Gbnf

open GbnfMatcher List Option

variable {half' : GbnfPartial}

/-! ## Bytes -/

/-- The shortest encoding of a codepoint. -/
def utf8Encode (cp : Nat) : List UInt8 :=
  if cp < 0x80 then [.ofNat cp]
  else if cp < 0x800 then [.ofNat (0xC0 + cp / 64), .ofNat (0x80 + cp % 64)]
  else if cp < 0x10000 then
    [.ofNat (0xE0 + cp / 4096), .ofNat (0x80 + cp / 64 % 64), .ofNat (0x80 + cp % 64)]
  else
    [.ofNat (0xF0 + cp / 262144), .ofNat (0x80 + cp / 4096 % 64), .ofNat (0x80 + cp / 64 % 64),
      .ofNat (0x80 + cp % 64)]

/-- The bytes of a string of codepoints. -/
def utf8 (w : List Nat) : List UInt8 := w.flatMap utf8Encode

/-- Bytes case by case. -/
theorem forall_byte {P : UInt8 → Prop} (h : ∀ n : Fin 256, P (.ofNat n)) (b : UInt8) : P b := by
  have := h ⟨b.toNat, b.toNat_lt⟩
  rwa [show UInt8.ofNat b.toNat = b from UInt8.ofNat_toNat] at this

/-- The test for a continuation byte. -/
theorem continuation_iff (b : UInt8) :
    (b &&& 0xC0 != 0x80) = false ↔ 0x80 ≤ b.toNat ∧ b.toNat < 0xC0 := by
  revert b
  exact forall_byte (by decide +kernel)

/-- How many bytes follow a lead byte. -/
theorem extra_iff (b : UInt8) :
    (utf8Extra b = some 0 ↔ b.toNat < 0x80) ∧
    (utf8Extra b = some 1 ↔ 0xC2 ≤ b.toNat ∧ b.toNat < 0xE0) ∧
    (utf8Extra b = some 2 ↔ 0xE0 ≤ b.toNat ∧ b.toNat < 0xF0) ∧
    (utf8Extra b = some 3 ↔ 0xF0 ≤ b.toNat ∧ b.toNat < 0xF5) := by
  revert b
  exact forall_byte (by decide +kernel)

variable {extra cp n : Nat} {w : List Nat}

/-- At most three. -/
theorem extra_le {b : UInt8} (h : utf8Extra b = some extra) : extra ≤ 3 := by
  unfold utf8Extra at h
  repeat' split at h
  all_goals cases h
  all_goals decide

/-- Six more bits. -/
theorem shift_eq (value : Nat) (b : UInt8) :
    (value <<< 6) ||| (b &&& 0x3F).toNat = value * 64 + b.toNat % 64 := by
  rw [UInt8.toNat_and, show (0x3F : UInt8).toNat = 2 ^ 6 - 1 from rfl,
    Nat.and_two_pow_sub_one_eq_mod, ← Nat.shiftLeft_add_eq_or_of_lt (Nat.mod_lt _ (by decide)),
    Nat.shiftLeft_eq]

/-- The bits of a lead byte. -/
theorem lead_eq (n : Nat) : n &&& (0x3F >>> 1) = n % 32 ∧ n &&& (0x3F >>> 2) = n % 16 ∧
    n &&& (0x3F >>> 3) = n % 8 :=
  ⟨Nat.and_two_pow_sub_one_eq_mod n 5, Nat.and_two_pow_sub_one_eq_mod n 4,
    Nat.and_two_pow_sub_one_eq_mod n 3⟩

/-! ## The decoder in `run` -/

/-- One byte of `run` without the grammar: the codepoint it completes, if any. -/
def decodeByte (half : GbnfPartial) (b : UInt8) : Option (Option Nat × GbnfPartial) :=
  if 0 < half.remaining then
    if b &&& 0xC0 != 0x80 then none
    else
      let half := { half with
        value := (half.value <<< 6) ||| (b &&& 0x3F).toNat
        remaining := half.remaining - 1 }
      if half.remaining = 0 then
        if half.value < half.min ∨ 0x10FFFF < half.value then none
        else some (some half.value, half)
      else some (none, half)
  else
    match utf8Extra b with
    | none => none
    | some 0 => some (some b.toNat, half)
    | some extra =>
      some (none,
        { value := b.toNat &&& (0x3F >>> extra), min := utf8Min extra, remaining := extra })

/-- A byte is decoded, and a codepoint is read. -/
theorem runByte_eq (rules : List GbnfRule) (a : GbnfArena) (live : GbnfStackSet)
    (half : GbnfPartial) (b : UInt8) :
    runByte rules a live half b =
      match decodeByte half b with
      | none => (a, none)
      | some (none, half) => (a, some (live, half))
      | some (some cp, half) =>
        ((runCp rules a live cp).1, (runCp rules a live cp).2.map fun live => (live, half)) := by
  unfold runByte decodeByte
  by_cases hrem : 0 < half.remaining
  · simp only [if_pos hrem]
    by_cases hb : (b &&& 0xC0 != 0x80) = true
    · simp only [if_pos hb]
    · simp only [if_neg hb]
      by_cases hlast : half.remaining - 1 = 0
      · simp only [if_pos hlast]
        split
        · rfl
        · rfl
      · simp only [if_neg hlast]
  · simp only [if_neg hrem]
    cases utf8Extra b with
    | none => rfl
    | some extra => cases extra <;> rfl

section Loop

variable {rules : List GbnfRule} {a : GbnfArena} {live : GbnfStackSet} {half half' : GbnfPartial}
  {b : UInt8} {text : List UInt8}

/-- A byte that cannot stand here. -/
theorem runLoop_bad (h : decodeByte half b = none) :
    runLoop rules (b :: text) a live half = (a, none) := by
  rw [runLoop, runByte_eq, h]

/-- A byte inside a codepoint. -/
theorem runLoop_half (h : decodeByte half b = some (none, half')) :
    runLoop rules (b :: text) a live half = runLoop rules text a live half' := by
  rw [runLoop, runByte_eq, h]

/-- The last byte of a codepoint. -/
theorem runLoop_cp (h : decodeByte half b = some (some cp, half')) :
    runLoop rules (b :: text) a live half =
      match runCp rules a live cp with
      | (a, none) => (a, none)
      | (a, some live) => runLoop rules text a live half' := by
  rw [runLoop, runByte_eq, h]
  dsimp only
  generalize runCp rules a live cp = result
  obtain ⟨a', _ | live'⟩ := result <;> rfl

end Loop

variable {half : GbnfPartial} {bytes : List UInt8} {b : UInt8}

/-- The codepoints of a text, and what is left of the last one. -/
def decodeLoop : List UInt8 → GbnfPartial → Option (List Nat × GbnfPartial)
  | [], half => some ([], half)
  | b :: text, half =>
    (decodeByte half b).bind fun (cp, half) =>
      (decodeLoop text half).map fun (cps, half) => (cp.toList ++ cps, half)

/-- The bytes a half-read codepoint has seen. -/
inductive Reading : GbnfPartial → List UInt8 → Prop where
  | between {half : GbnfPartial} : half.remaining = 0 → Reading half []
  | lead {b : UInt8} {extra : Nat} : utf8Extra b = some (extra + 1) →
      Reading { value := b.toNat &&& (0x3F >>> (extra + 1)), min := utf8Min (extra + 1)
                remaining := extra + 1 } [b]
  | next {value min remaining : Nat} {bytes : List UInt8} {b : UInt8} :
      Reading { value, min, remaining := remaining + 2 } bytes →
      (b &&& 0xC0 != 0x80) = false →
      Reading { value := (value <<< 6) ||| (b &&& 0x3F).toNat, min, remaining := remaining + 1 }
        (bytes ++ [b])

/-- Between codepoints no byte is pending. -/
theorem Reading.nil_of_zero (h : Reading half bytes) (hzero : half.remaining = 0) : bytes = [] := by
  cases h with
  | between => rfl
  | lead => cases hzero
  | next => cases hzero

/-- Without a pending byte nothing is missing. -/
theorem Reading.zero_of_nil (h : Reading half []) : half.remaining = 0 := by
  generalize hbytes : ([] : List UInt8) = bytes at h
  cases h with
  | between hzero => exact hzero
  | lead => cases hbytes
  | next => simp at hbytes

theorem ofNat_eq (h : b.toNat = n) : UInt8.ofNat n = b := by
  rw [← h, UInt8.ofNat_toNat]

/-- At most three bytes are missing. -/
theorem Reading.remaining_le (h : Reading half bytes) : half.remaining ≤ 3 := by
  induction h with
  | between hzero => omega
  | lead hextra => exact extra_le hextra
  | next _ _ ih =>
    dsimp only at ih ⊢
    omega

/-- The last byte of a codepoint: in the range of its length, it was encoded by the bytes read. -/
theorem Reading.complete {value min : Nat} (h : Reading { value, min, remaining := 1 } bytes)
    (hb : (b &&& 0xC0 != 0x80) = false) (hmin : min ≤ (value <<< 6) ||| (b &&& 0x3F).toNat)
    (hmax : (value <<< 6) ||| (b &&& 0x3F).toNat ≤ 0x10FFFF) :
    utf8Encode ((value <<< 6) ||| (b &&& 0x3F).toNat) = bytes ++ [b] := by
  rw [shift_eq] at *
  rw [continuation_iff] at hb
  unfold utf8Encode
  -- one case for each length of the encoding
  cases h with
  | between hzero => cases hzero
  | @lead b0 _ hextra =>
    have hrange := (extra_iff b0).2.1.mp hextra
    rw [(lead_eq _).1] at *
    rw [if_neg (by omega), if_pos (by omega)]
    rw [ofNat_eq (b := b0) (by omega), ofNat_eq (b := b) (by omega)]
    rfl
  | @next value1 _ _ bytes1 b1 h1 hb1 =>
    rw [shift_eq] at *
    rw [continuation_iff] at hb1
    cases h1 with
    | between hzero => cases hzero
    | @lead b0 _ hextra =>
      have hrange := (extra_iff b0).2.2.1.mp hextra
      rw [(lead_eq _).2.1] at *
      change 0x800 ≤ _ at hmin
      rw [if_neg (by omega), if_neg (by omega), if_pos (by omega)]
      rw [ofNat_eq (b := b0) (by omega), ofNat_eq (b := b1) (by omega),
        ofNat_eq (b := b) (by omega)]
      rfl
    | @next value2 _ _ bytes2 b2 h2 hb2 =>
      rw [shift_eq] at *
      rw [continuation_iff] at hb2
      cases h2 with
      | between hzero => cases hzero
      | @lead b0 _ hextra =>
        have hrange := (extra_iff b0).2.2.2.mp hextra
        rw [(lead_eq _).2.2] at *
        change 0x10000 ≤ _ at hmin
        rw [if_neg (by omega), if_neg (by omega), if_neg (by omega)]
        rw [ofNat_eq (b := b0) (by omega), ofNat_eq (b := b2) (by omega),
          ofNat_eq (b := b1) (by omega), ofNat_eq (b := b) (by omega)]
        rfl
      | next h3 =>
        have hle := h3.remaining_le
        dsimp only at hle
        omega

/-- A byte of a half-read codepoint, or the first one of the next. -/
theorem Reading.byte {cp : Option Nat} (h : Reading half bytes)
    (hdecode : decodeByte half b = some (cp, half')) :
    ∃ bytes', Reading half' bytes' ∧ utf8 cp.toList ++ bytes' = bytes ++ [b] ∧
      ∀ c ∈ cp, c ≤ 0x10FFFF := by
  unfold decodeByte at hdecode
  dsimp only at hdecode
  split at hdecode
  next hrem =>
    split at hdecode
    · cases hdecode
    next hb =>
      rw [Bool.not_eq_true] at hb
      split at hdecode
      next hlast =>
        split at hdecode
        · cases hdecode
        next hrange =>
          obtain ⟨rfl, rfl⟩ := Prod.mk.inj (some.inj hdecode)
          obtain ⟨hmin, hmax⟩ := not_or.mp hrange
          obtain ⟨value, min, remaining⟩ := half
          obtain rfl : remaining = 1 := by
            dsimp only at hrem hlast
            omega
          refine ⟨[], .between rfl, ?_, fun c hc => ?_⟩
          · rw [append_nil, toList_some, utf8, flatMap_singleton]
            exact h.complete hb (Nat.le_of_not_lt hmin) (Nat.le_of_not_lt hmax)
          · obtain rfl := some.inj hc
            exact Nat.le_of_not_lt hmax
      next hmore =>
        obtain ⟨rfl, rfl⟩ := Prod.mk.inj (some.inj hdecode)
        obtain ⟨value, min, remaining⟩ := half
        obtain ⟨n, rfl⟩ : ∃ n, remaining = n + 2 := ⟨remaining - 2, by
          dsimp only at hrem hmore
          omega⟩
        exact ⟨bytes ++ [b], h.next hb, rfl, fun c hc => by cases hc⟩
  next hrem =>
    obtain rfl := h.nil_of_zero (by omega)
    split at hdecode
    · cases hdecode
    next hzero =>
      obtain ⟨rfl, rfl⟩ := Prod.mk.inj (some.inj hdecode)
      have hlt := (extra_iff b).1.mp hzero
      refine ⟨[], .between (by omega), ?_, fun c hc => ?_⟩
      · rw [append_nil, toList_some, utf8, flatMap_singleton, utf8Encode,
          if_pos hlt, UInt8.ofNat_toNat, nil_append]
      · obtain rfl := some.inj hc
        omega
    next extra hne hextra =>
      obtain ⟨rfl, rfl⟩ := Prod.mk.inj (some.inj hdecode)
      obtain ⟨n, rfl⟩ : ∃ n, extra = n + 1 := Nat.exists_eq_succ_of_ne_zero hne
      exact ⟨[b], .lead hextra, rfl, fun c hc => by cases hc⟩

/-- A text is the encoding of the codepoints it decodes to. -/
theorem Reading.text {text : List UInt8} {cps : List Nat}
    (h : Reading half bytes) (hdecode : decodeLoop text half = some (cps, half')) :
    ∃ bytes', Reading half' bytes' ∧ utf8 cps ++ bytes' = bytes ++ text ∧
      ∀ c ∈ cps, c ≤ 0x10FFFF := by
  induction text generalizing half bytes cps with
  | nil =>
    obtain ⟨rfl, rfl⟩ := Prod.mk.inj (some.inj hdecode)
    exact ⟨bytes, h, (append_nil bytes).symm, fun c hc => absurd hc not_mem_nil⟩
  | cons b text ih =>
    obtain ⟨⟨cp, half1⟩, hbyte, hrest⟩ := bind_eq_some_iff.mp hdecode
    obtain ⟨⟨cps1, half2⟩, htext, heq⟩ := map_eq_some_iff.mp hrest
    obtain ⟨rfl, rfl⟩ := Prod.mk.inj heq
    obtain ⟨bytes1, hreading, hsame, hmax⟩ := h.byte hbyte
    obtain ⟨bytes2, hreading2, hsame2, hmax2⟩ := ih hreading htext
    refine ⟨bytes2, hreading2, ?_, fun c hc => ?_⟩
    · rw [utf8, flatMap_append, append_assoc]
      change utf8 cp.toList ++ (utf8 cps1 ++ bytes2) = _
      rw [hsame2, ← append_assoc, hsame, append_assoc, singleton_append]
    · rcases mem_append.mp hc with hfirst | hlater
      · exact hmax c (mem_toList.mp hfirst)
      · exact hmax2 c hlater

/-- Decoding can stop and go on. -/
theorem decodeLoop_append (text text' : List UInt8) (half : GbnfPartial) :
    decodeLoop (text ++ text') half =
      (decodeLoop text half).bind fun (cps, half) =>
        (decodeLoop text' half).map fun (cps', half) => (cps ++ cps', half) := by
  induction text generalizing half with
  | nil => simp [decodeLoop]
  | cons b text ih =>
    simp only [cons_append, decodeLoop, ih, bind_assoc, map_eq_bind,
      append_assoc, Function.comp_def, bind_some]

/-! ## Reading an encoding -/

section Encode

variable {value min remaining : Nat}

/-- A codepoint of one byte. -/
theorem decodeByte_ascii (hzero : half.remaining = 0) (hb : b.toNat < 0x80) :
    decodeByte half b = some (some b.toNat, half) := by
  rw [decodeByte, if_neg (by omega), (extra_iff b).1.mpr hb]
  rfl

/-- A lead byte. -/
theorem decodeByte_lead (hzero : half.remaining = 0) (hb : utf8Extra b = some (extra + 1)) :
    decodeByte half b = some (none,
      { value := b.toNat &&& (0x3F >>> (extra + 1)), min := utf8Min (extra + 1)
        remaining := extra + 1 }) := by
  rw [decodeByte, if_neg (by omega), hb]
  rfl

/-- A continuation byte that is not the last. -/
theorem decodeByte_next (hb : 0x80 ≤ b.toNat ∧ b.toNat < 0xC0) :
    decodeByte { value, min, remaining := remaining + 2 } b =
      some (none, { value := value * 64 + b.toNat % 64, min, remaining := remaining + 1 }) := by
  rw [decodeByte, if_pos (Nat.succ_pos _), (continuation_iff b).mpr hb, if_neg Bool.false_ne_true]
  dsimp only
  rw [if_neg (by omega), shift_eq]
  rfl

/-- The last continuation byte. -/
theorem decodeByte_last (hb : 0x80 ≤ b.toNat ∧ b.toNat < 0xC0)
    (hmin : min ≤ value * 64 + b.toNat % 64) (hmax : value * 64 + b.toNat % 64 ≤ 0x10FFFF) :
    decodeByte { value, min, remaining := 1 } b =
      some (some (value * 64 + b.toNat % 64),
        { value := value * 64 + b.toNat % 64, min, remaining := 0 }) := by
  rw [decodeByte, if_pos one_pos, (continuation_iff b).mpr hb, if_neg Bool.false_ne_true]
  dsimp only
  rw [if_pos rfl, shift_eq, if_neg (by omega)]

/-- One byte, then the rest. -/
theorem decodeLoop_cons {cp : Option Nat} {text : List UInt8}
    (h : decodeByte half b = some (cp, half')) :
    decodeLoop (b :: text) half =
      (decodeLoop text half').map fun rest => (cp.toList ++ rest.1, rest.2) := by
  rw [decodeLoop, h]
  rfl

theorem toNat_ofNat_lt (h : n < 256) : (UInt8.ofNat n).toNat = n :=
  UInt8.toNat_ofNat_of_lt h

/-- Between codepoints, an encoding is read as its codepoint. -/
theorem decodeLoop_encode (hzero : half.remaining = 0) (hcp : cp ≤ 0x10FFFF) :
    ∃ half', decodeLoop (utf8Encode cp) half = some ([cp], half') ∧ half'.remaining = 0 := by
  unfold utf8Encode
  split
  next h1 =>
    refine ⟨half, ?_, hzero⟩
    have hb := toNat_ofNat_lt (show cp < 256 by omega)
    simp [decodeLoop, decodeByte_ascii hzero (show (UInt8.ofNat cp).toNat < 0x80 by omega), hb]
  next h1 =>
    have hcont := toNat_ofNat_lt (show 0x80 + cp % 64 < 256 by omega)
    split
    next h2 =>
      have hlead := toNat_ofNat_lt (show 0xC0 + cp / 64 < 256 by omega)
      refine ⟨{ value := cp, min := 0x80, remaining := 0 }, ?_, rfl⟩
      have hextra := (extra_iff (.ofNat (0xC0 + cp / 64))).2.1.mpr (by omega)
      rw [decodeLoop_cons (decodeByte_lead hzero hextra), (lead_eq _).1, hlead,
        decodeLoop_cons (decodeByte_last (by omega) (by change 0x80 ≤ _; omega) (by omega)), hcont,
        decodeLoop, show (0xC0 + cp / 64) % 32 * 64 + (0x80 + cp % 64) % 64 = cp by omega]
      rfl
    next h2 =>
      have hcont1 := toNat_ofNat_lt (show 0x80 + cp / 64 % 64 < 256 by omega)
      split
      next h3 =>
        have hlead := toNat_ofNat_lt (show 0xE0 + cp / 4096 < 256 by omega)
        refine ⟨{ value := cp, min := 0x800, remaining := 0 }, ?_, rfl⟩
        have hextra := (extra_iff (.ofNat (0xE0 + cp / 4096))).2.2.1.mpr (by omega)
        rw [decodeLoop_cons (decodeByte_lead hzero hextra), (lead_eq _).2.1, hlead,
          decodeLoop_cons (decodeByte_next (by omega)), hcont1,
          decodeLoop_cons (decodeByte_last (by omega) (by change 0x800 ≤ _; omega) (by omega)),
          hcont, decodeLoop, show ((0xE0 + cp / 4096) % 16 * 64 + (0x80 + cp / 64 % 64) % 64) * 64 +
          (0x80 + cp % 64) % 64 = cp by omega]
        rfl
      next h3 =>
        have hcont2 := toNat_ofNat_lt (show 0x80 + cp / 4096 % 64 < 256 by omega)
        have hlead := toNat_ofNat_lt (show 0xF0 + cp / 262144 < 256 by omega)
        refine ⟨{ value := cp, min := 0x10000, remaining := 0 }, ?_, rfl⟩
        have hextra := (extra_iff (.ofNat (0xF0 + cp / 262144))).2.2.2.mpr (by omega)
        rw [decodeLoop_cons (decodeByte_lead hzero hextra), (lead_eq _).2.2, hlead,
          decodeLoop_cons (decodeByte_next (by omega)), hcont2,
          decodeLoop_cons (decodeByte_next (by omega)), hcont1,
          decodeLoop_cons (decodeByte_last (by omega) (by change 0x10000 ≤ _; omega) (by omega)),
          hcont, decodeLoop,
          show (((0xF0 + cp / 262144) % 8 * 64 + (0x80 + cp / 4096 % 64) % 64) * 64 +
          (0x80 + cp / 64 % 64) % 64) * 64 + (0x80 + cp % 64) % 64 = cp by omega]
        rfl

end Encode

/-- Between codepoints, the bytes of a string are read as that string. -/
theorem decodeLoop_utf8 (hw : ∀ cp ∈ w, cp ≤ 0x10FFFF) (hzero : half.remaining = 0) :
    ∃ half', decodeLoop (utf8 w) half = some (w, half') ∧ half'.remaining = 0 := by
  induction w generalizing half with
  | nil => exact ⟨half, rfl, hzero⟩
  | cons cp w ih =>
    obtain ⟨half1, hfirst, hzero1⟩ := decodeLoop_encode hzero (hw cp mem_cons_self)
    obtain ⟨half2, hrest, hzero2⟩ := ih (fun c hc => hw c (mem_cons_of_mem _ hc)) hzero1
    refine ⟨half2, ?_, hzero2⟩
    rw [utf8, flatMap_cons, decodeLoop_append, hfirst, bind_some]
    change (decodeLoop (utf8 w) half1).map _ = _
    rw [hrest]
    rfl

/-- Different strings have different bytes. -/
theorem utf8_injective {u : List Nat} (hu : ∀ cp ∈ u, cp ≤ 0x10FFFF) (hw : ∀ cp ∈ w, cp ≤ 0x10FFFF)
    (h : utf8 u = utf8 w) : u = w := by
  have hzero : ({} : GbnfPartial).remaining = 0 := rfl
  obtain ⟨half, hdecode, -⟩ := decodeLoop_utf8 hu hzero
  obtain ⟨half', hdecode', -⟩ := decodeLoop_utf8 hw hzero
  rw [h, hdecode'] at hdecode
  exact (Prod.mk.inj (some.inj hdecode)).1.symm

end Quench.Gbnf

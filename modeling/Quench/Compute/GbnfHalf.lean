import Quench.Compute.GbnfUtf8
import Mathlib.Data.Nat.Bitwise

/-!
# A text that ends inside a codepoint

A text may end in the middle of a codepoint. `run` then asks whether a live stack reads one of the
codepoints that the bytes seen so far can become. These are a range, which more bytes only narrow
(`range_nested`) and which holds the codepoint that is completed (`decodeLoop_range`). The question
is answered from the range alone (`intersects_of_matches`, `intersects_mono`).
-/

namespace Quench.Gbnf

open List

variable {hi lo : Nat} {cs : GbnfCharSet} {half half' : GbnfPartial}

open GbnfMatcher GbnfCharSet

/-! ## Sets and ranges -/

/-- The search finds a codepoint that no range holds, if there is one. -/
theorem hole_iff {rs : List (Nat × Nat)} (hsorted : rs.Pairwise fun r s => r.1 ≤ s.1) {cur : Nat}
    (hcur : cur ≤ hi) :
    hole hi cur rs = true ↔ ∃ cp, cur ≤ cp ∧ cp ≤ hi ∧ ∀ r ∈ rs, ¬ (r.1 ≤ cp ∧ cp ≤ r.2) := by
  induction rs generalizing cur with
  | nil =>
    rw [hole, decide_eq_true_iff]
    exact ⟨fun h => ⟨cur, le_rfl, h, fun r hr => absurd hr not_mem_nil⟩, fun _ => hcur⟩
  | cons r rs ih =>
    obtain ⟨hfirst, hrest⟩ := pairwise_cons.mp hsorted
    simp only [forall_mem_cons]
    rw [hole]
    by_cases hbefore : r.2 < cur
    · rw [if_pos hbefore, ih hrest hcur]
      constructor
      · rintro ⟨cp, hlo, hhi, hnone⟩
        exact ⟨cp, hlo, hhi, by omega, hnone⟩
      · rintro ⟨cp, hlo, hhi, -, hnone⟩
        exact ⟨cp, hlo, hhi, hnone⟩
    · rw [if_neg hbefore]
      by_cases hgap : cur < r.1
      · -- the ranges are sorted, so none of them holds `cur`
        rw [if_pos hgap]
        refine ⟨fun _ => ⟨cur, le_rfl, hcur, by omega, fun s hs => ?_⟩, fun _ => rfl⟩
        have hle := hfirst s hs
        omega
      · rw [if_neg hgap]
        by_cases hall : hi ≤ r.2
        · rw [if_pos hall]
          refine ⟨fun h => (by cases h), ?_⟩
          rintro ⟨cp, hlo, hhi, hout, -⟩
          omega
        · rw [if_neg hall, ih hrest (by omega)]
          constructor
          · rintro ⟨cp, hlo, hhi, hnone⟩
            exact ⟨cp, by omega, hhi, by omega, hnone⟩
          · rintro ⟨cp, hlo, hhi, hout, hnone⟩
            exact ⟨cp, by omega, hhi, hnone⟩

instance : Std.Total rangeLe where
  total r s := by
    unfold rangeLe
    omega

instance : IsTrans (Nat × Nat) rangeLe where
  trans r s t := by
    unfold rangeLe
    omega

theorem sorted_ranges (ranges : List (Nat × Nat)) :
    (ranges.insertionSort rangeLe).Pairwise fun r s => r.1 ≤ s.1 :=
  (pairwise_insertionSort rangeLe ranges).imp fun h => by
    unfold rangeLe at h
    omega

theorem intersects_negated (hneg : cs.negated = true) (hle : lo ≤ hi) :
    cs.intersects lo hi = true ↔ ∃ cp, lo ≤ cp ∧ cp ≤ hi ∧ cs.matchesCp cp = true := by
  rw [intersects, if_pos hneg, hole_iff (sorted_ranges cs.ranges) hle]
  simp [matchesCp, hneg, mem_insertionSort]

/-- No codepoint of a range is overlooked. -/
theorem intersects_of_matches {cp : Nat} (hlo : lo ≤ cp) (hhi : cp ≤ hi)
    (hcp : cs.matchesCp cp = true) : cs.intersects lo hi = true := by
  cases hneg : cs.negated with
  | true => exact (intersects_negated hneg (hlo.trans hhi)).mpr ⟨cp, hlo, hhi, hcp⟩
  | false =>
    simp only [matchesCp, hneg, Bool.false_eq_true, if_false, any_eq_true,
      Bool.and_eq_true, decide_eq_true_eq] at hcp
    obtain ⟨r, hr, hfirst, hlast⟩ := hcp
    simp only [intersects, hneg, Bool.false_eq_true, if_false, any_eq_true,
      Bool.and_eq_true, decide_eq_true_eq]
    exact ⟨r, hr, by omega, by omega⟩

theorem intersects_mono {lo' hi' : Nat} (hlo : lo ≤ lo') (hhi : hi' ≤ hi) (hle : lo' ≤ hi')
    (h : cs.intersects lo' hi' = true) : cs.intersects lo hi = true := by
  cases hneg : cs.negated with
  | true =>
    obtain ⟨cp, hfirst, hlast, hcp⟩ := (intersects_negated hneg hle).mp h
    exact intersects_of_matches (hlo.trans hfirst) (hlast.trans hhi) hcp
  | false =>
    simp only [intersects, hneg, Bool.false_eq_true, if_false, any_eq_true,
      Bool.and_eq_true, decide_eq_true_eq] at h ⊢
    obtain ⟨r, hr, hfirst, hlast⟩ := h
    exact ⟨r, hr, by omega, by omega⟩

/-! ## The range of a half-read codepoint -/

theorem range_eq (half : GbnfPartial) :
    GbnfPartial.range half =
      (max (half.value * 2 ^ (6 * half.remaining)) half.min,
        min (half.value * 2 ^ (6 * half.remaining) + (2 ^ (6 * half.remaining) - 1)) 0x10FFFF) := by
  have hlt : 2 ^ (6 * half.remaining) - 1 < 2 ^ (6 * half.remaining) :=
    Nat.sub_lt (Nat.two_pow_pos _) one_pos
  rw [GbnfPartial.range, Nat.one_shiftLeft, ← Nat.shiftLeft_add_eq_or_of_lt hlt, Nat.shiftLeft_eq]

/-- A continuation byte narrows the range. -/
theorem range_next (value min remaining : Nat) (b : UInt8) :
    let before := GbnfPartial.range { value, min, remaining := remaining + 1 }
    let after := GbnfPartial.range { value := value * 64 + b.toNat % 64, min, remaining }
    before.1 ≤ after.1 ∧ after.2 ≤ before.2 := by
  rw [range_eq, range_eq]
  have hpow : 2 ^ (6 * (remaining + 1)) = 64 * 2 ^ (6 * remaining) := by
    rw [Nat.mul_succ, Nat.pow_add, mul_comm]
  have hlow : b.toNat % 64 * 2 ^ (6 * remaining) ≤ 63 * 2 ^ (6 * remaining) :=
    Nat.mul_le_mul_right _ (by omega)
  dsimp only
  rw [hpow, add_mul, ← mul_assoc]
  generalize value * 64 * 2 ^ (6 * remaining) = high at *
  generalize b.toNat % 64 * 2 ^ (6 * remaining) = low at *
  omega

/-- Each byte narrows the range, and the last one picks the codepoint from it. -/
theorem range_nested {b : UInt8} {cp : Option Nat}
    (hhalf : 0 < half.remaining) (h : decodeByte half b = some (cp, half')) :
    match cp with
    | some c => (GbnfPartial.range half).1 ≤ c ∧ c ≤ (GbnfPartial.range half).2
    | none => 0 < half'.remaining ∧ (GbnfPartial.range half).1 ≤ (GbnfPartial.range half').1 ∧
        (GbnfPartial.range half').2 ≤ (GbnfPartial.range half).2 := by
  obtain ⟨value, min, remaining⟩ := half
  obtain ⟨n, rfl⟩ : ∃ n, remaining = n + 1 := Nat.exists_eq_succ_of_ne_zero hhalf.ne'
  have hnext := range_next value min n b
  unfold decodeByte at h
  rw [if_pos hhalf] at h
  dsimp only at h
  rw [shift_eq, Nat.add_sub_cancel] at h
  split at h
  · cases h
  · split at h
    next hlast =>
      split at h
      · cases h
      next hrange =>
        obtain ⟨rfl, rfl⟩ := Prod.mk.inj (Option.some.inj h)
        subst hlast
        rw [range_eq { value := value * 64 + b.toNat % 64, min, remaining := 0 }] at hnext
        dsimp only at hnext hrange ⊢
        omega
    next hmore =>
      obtain ⟨rfl, rfl⟩ := Prod.mk.inj (Option.some.inj h)
      exact ⟨Nat.pos_of_ne_zero hmore, hnext⟩

/-- A codepoint that is completed lies in the range of each of its beginnings. -/
theorem decodeLoop_range {text : List UInt8} {cps : List Nat}
    (hhalf : 0 < half.remaining) (h : decodeLoop text half = some (cps, half')) :
    (∃ cp rest, cps = cp :: rest ∧ (GbnfPartial.range half).1 ≤ cp ∧
        cp ≤ (GbnfPartial.range half).2) ∨
      cps = [] ∧ 0 < half'.remaining ∧ (GbnfPartial.range half).1 ≤ (GbnfPartial.range half').1 ∧
        (GbnfPartial.range half').2 ≤ (GbnfPartial.range half).2 := by
  induction text generalizing half cps with
  | nil =>
    obtain ⟨rfl, rfl⟩ := Prod.mk.inj (Option.some.inj h)
    exact .inr ⟨rfl, hhalf, le_rfl, le_rfl⟩
  | cons b text ih =>
    obtain ⟨⟨cp, half1⟩, hbyte, hrest⟩ := Option.bind_eq_some_iff.mp h
    obtain ⟨⟨cps1, half2⟩, htext, heq⟩ := Option.map_eq_some_iff.mp hrest
    obtain ⟨rfl, rfl⟩ := Prod.mk.inj heq
    have hnested := range_nested hhalf hbyte
    cases cp with
    | some cp => exact .inl ⟨cp, cps1, rfl, hnested⟩
    | none =>
      obtain ⟨hpos, hlo, hhi⟩ := hnested
      rcases ih hpos htext with ⟨cp, rest, rfl, hcplo, hcphi⟩ | ⟨rfl, hpos', hlo', hhi'⟩
      · exact .inl ⟨cp, rest, rfl, hlo.trans hcplo, hcphi.trans hhi⟩
      · exact .inr ⟨rfl, hpos', hlo.trans hlo', hhi'.trans hhi⟩

/-! ## The check at the end of a text -/

variable {rules : List GbnfRule} {a : GbnfArena} {live : GbnfStackSet} {half : GbnfPartial}

theorem canComplete_of_zero (h : half.remaining = 0) : canComplete rules a live half = true := by
  rw [canComplete, if_neg (by omega)]

/-- The check passes exactly if some live stack waits for a set that meets the range. -/
theorem canComplete_iff (h : 0 < half.remaining) :
    canComplete rules a live half = true ↔
      (GbnfPartial.range half).1 ≤ (GbnfPartial.range half).2 ∧
      ∃ s ∈ live, ∃ chars, a.topItem rules s = some (.letter chars) ∧
        chars.intersects (GbnfPartial.range half).1 (GbnfPartial.range half).2 = true := by
  rw [canComplete, if_pos h]
  simp only [Bool.not_or, Bool.not_not, Bool.and_eq_true, Bool.not_eq_true',
    decide_eq_false_iff_not, not_lt, GbnfArena.canConsumeRange, any_eq_true]
  refine and_congr_right fun _ => exists_congr fun s => and_congr_right fun _ => ?_
  constructor
  · intro hs
    split at hs
    next chars hitem => exact ⟨chars, hitem, hs⟩
    · cases hs
  · rintro ⟨chars, hitem, hs⟩
    rw [hitem]
    exact hs

end Quench.Gbnf

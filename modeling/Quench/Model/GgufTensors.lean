import Mathlib.Algebra.BigOperators.Group.List.Basic
import Quench.Model.GgufReader

/-!
# Tensor infos and their bounds

`parse_tensor_infos`, `gguf_tensor_byte_size` and `gguf_tensor_in_bounds` of `model/gguf_parse.cpp`.
Products saturate, so a tensor with too many elements is refused. Two steps are not guarded: of more
than four dimensions the others are dropped, and the number of elements is rounded up to whole
blocks modulo `2 ^ 64`. `inBounds_sound` has for which tensors the gate is sound nevertheless, and
`unguarded_in_bounds` a tensor for each step.
-/

namespace Quench.Gguf

open BinaryReader List

variable {info : TensorInfo} {type : WireType}

/-- `GgufWireType`. -/
inductive WireType where
  | f32
  | f16
  | q4_0
  | q4_1
  | q5_0
  | q5_1
  | q8_0
  | q8_1
  | q2_K
  | q3_K
  | q4_K
  | q5_K
  | q6_K
  | q8_K
  | iq2_XXS
  | iq2_XS
  | iq3_XXS
  | iq1_S
  | iq4_NL
  | iq3_S
  | iq2_S
  | iq4_XS
  | i8
  | i16
  | i32
  | i64
  | f64
  | iq1_M
  | bf16
  | mxfp4
  | mxfp4_V2
  | unknown
  deriving DecidableEq

def WireType.ofCode : Nat → WireType
  | 0 => .f32
  | 1 => .f16
  | 2 => .q4_0
  | 3 => .q4_1
  | 6 => .q5_0
  | 7 => .q5_1
  | 8 => .q8_0
  | 9 => .q8_1
  | 10 => .q2_K
  | 11 => .q3_K
  | 12 => .q4_K
  | 13 => .q5_K
  | 14 => .q6_K
  | 15 => .q8_K
  | 16 => .iq2_XXS
  | 17 => .iq2_XS
  | 18 => .iq3_XXS
  | 19 => .iq1_S
  | 20 => .iq4_NL
  | 21 => .iq3_S
  | 22 => .iq2_S
  | 23 => .iq4_XS
  | 24 => .i8
  | 25 => .i16
  | 26 => .i32
  | 27 => .i64
  | 28 => .f64
  | 29 => .iq1_M
  | 30 => .bf16
  | 31 => .mxfp4
  | 39 => .mxfp4_V2
  | _ => .unknown

/-- `gguf_blck_size`. -/
def ggufBlckSize : WireType → Nat
  | .f32 | .f16 | .bf16 | .f64 | .i8 | .i16 | .i32 | .i64 => 1
  | .q4_0 | .q4_1 | .q5_0 | .q5_1 | .q8_0 | .q8_1 | .iq4_NL | .mxfp4 | .mxfp4_V2 => 32
  | .q2_K | .q3_K | .q4_K | .q5_K | .q6_K | .q8_K | .iq2_XXS | .iq2_XS | .iq2_S | .iq3_XXS
  | .iq3_S | .iq1_S | .iq1_M | .iq4_XS => 256
  | .unknown => 0

/-- `gguf_type_size`. -/
def ggufTypeSize : WireType → Nat
  | .f32 => 4
  | .f16 => 2
  | .bf16 => 2
  | .f64 => 8
  | .i8 => 1
  | .i16 => 2
  | .i32 => 4
  | .i64 => 8
  | .q4_0 => 18
  | .q4_1 => 20
  | .q5_0 => 22
  | .q5_1 => 24
  | .q8_0 => 34
  | .q8_1 => 36
  | .q2_K => 84
  | .q3_K => 110
  | .q4_K => 144
  | .q5_K => 176
  | .q6_K => 210
  | .q8_K => 292
  | .iq2_XXS => 66
  | .iq2_XS => 74
  | .iq2_S => 82
  | .iq3_XXS => 98
  | .iq3_S => 110
  | .iq1_S => 50
  | .iq1_M => 56
  | .iq4_NL => 18
  | .iq4_XS => 136
  | .mxfp4 | .mxfp4_V2 => 17
  | .unknown => 0

/-- A place in the mapping of a shard. -/
structure DataBase where
  shard : Nat
  start : Nat
  deriving DecidableEq

/-- `GGUFTensorInfo`. -/
structure TensorInfo where
  name : List UInt8
  nDims : Nat
  dims : List Int
  type : WireType
  offset : Nat
  dataBase : Option DataBase := none
  dataLimit : Nat := 0
  deriving DecidableEq

/-- The four dimensions that are kept: later ones are dropped, missing ones are 1. -/
def keptDims (dims : List Nat) : List Int := (dims.map (signed 64) ++ [1, 1, 1, 1]).take 4

variable (r : BinaryReader)

/-- One entry of `parse_tensor_infos`. -/
def parseTensorInfo : TensorInfo × BinaryReader :=
  let name := r.readString
  let nDims := name.2.readU32
  let dims := readU64s nDims.1 nDims.2
  let type := dims.2.readU32
  let offset := type.2.readU64
  ({ name := name.1, nDims := nDims.1, dims := keptDims dims.1, type := .ofCode type.1,
     offset := offset.1 }, offset.2)

/-- `parse_tensor_infos`: what it appends, and the reader behind. -/
def parseTensorInfos (tensorCount : Nat) (r : BinaryReader) : List TensorInfo × BinaryReader :=
  readArray parseTensorInfo tensorCount r

/-- `SIZE_MAX` and `UINT64_MAX`. -/
def sizeMax : Nat := 2 ^ 64 - 1

/-- The number of elements, or `none` where a dimension is negative or the product overflows. -/
def nElements (n : Nat) : List Int → Option Nat
  | [] => some n
  | dim :: dims =>
    if dim < 0 then none
    else if dim.toNat ≠ 0 ∧ n > sizeMax / dim.toNat then none
    else nElements (n * dim.toNat % 2 ^ 64) dims

/-- The bytes of so many elements. -/
def blockBytes (type : WireType) (n : Nat) : Nat :=
  if ggufBlckSize type = 0 ∨ ggufTypeSize type = 0 then sizeMax
  else
    let nBlocks := (n + ggufBlckSize type - 1) % 2 ^ 64 / ggufBlckSize type
    if nBlocks ≠ 0 ∧ ggufTypeSize type > sizeMax / nBlocks then sizeMax
    else nBlocks * ggufTypeSize type % 2 ^ 64

namespace TensorInfo

variable (info : TensorInfo)

/-- `gguf_tensor_byte_size`. -/
def byteSize : Nat :=
  match nElements 1 (info.dims.take info.nDims) with
  | none => sizeMax
  | some n => blockBytes info.type n

/-- `gguf_tensor_in_bounds`. -/
def inBounds : Bool :=
  if info.byteSize = sizeMax then false
  else if info.offset > info.dataLimit then false
  else decide (info.byteSize ≤ info.dataLimit - info.offset)

/-- The info with the place of its shard's data. -/
def place (base : DataBase) (limit : Nat) : TensorInfo :=
  { info with dataBase := some base, dataLimit := limit }

end TensorInfo

/-- The bytes that a tensor of the given dimensions takes, over the unbounded numbers. -/
def trueBytes (type : WireType) (dims : List Nat) : Nat :=
  (dims.prod + ggufBlckSize type - 1) / ggufBlckSize type * ggufTypeSize type

/-- The dimensions that the file gives for the entry at the cursor. -/
def declaredDims : List Nat :=
  (readU64s r.readString.2.readU32.1 r.readString.2.readU32.2).1

/-! ## What is read -/

theorem littleEndian_lt (bytes : List UInt8) : littleEndian bytes < 256 ^ bytes.length := by
  induction bytes with
  | nil => exact Nat.one_pos
  | cons b bytes ih =>
    have := b.toNat_lt
    rw [littleEndian, length_cons, pow_succ]
    omega

theorem readU64_lt : r.readU64.1 < 2 ^ 64 := by
  unfold readU64 BinaryReader.read
  split
  · have hlength : (r.bytes 8).length ≤ 8 := length_take_le 8 _
    calc littleEndian (r.bytes 8) < 256 ^ (r.bytes 8).length := littleEndian_lt _
      _ ≤ 256 ^ 8 := Nat.pow_le_pow_right (by decide) hlength
      _ = 2 ^ 64 := by decide
  · exact Nat.two_pow_pos 64

theorem length_readU64s (count : Nat) (r : BinaryReader) : (readU64s count r).1.length = count := by
  induction count generalizing r with
  | zero => rfl
  | succ count ih => exact congrArg (· + 1) (ih _)

theorem readU64s_lt (count : Nat) (r : BinaryReader) :
    ∀ dim ∈ (readU64s count r).1, dim < 2 ^ 64 := by
  induction count generalizing r with
  | zero => exact fun dim hdim => absurd hdim not_mem_nil
  | succ count ih =>
    intro dim hdim
    rcases mem_cons.mp hdim with rfl | hdim
    · exact readU64_lt r
    · exact ih _ dim hdim

/-! ## The number of elements -/

theorem nonneg_signed {v : Nat} (hv : v < 2 ^ 64) (h : ¬ signed 64 v < 0) :
    (signed 64 v).toNat = v := by
  unfold signed at *
  split_ifs at * <;> omega

variable {dims : List Nat} {n : Nat}

/-- A dimension is negative as a signed number, or the product of the first ones is too large. -/
def Overflows (n : Nat) (dims : List Nat) : Prop :=
  (∃ dim ∈ dims, 2 ^ 63 ≤ dim) ∨ ∃ first, first <+: dims ∧ 2 ^ 64 ≤ n * first.prod

theorem overflows_cons {dim : Nat} (hn : n < 2 ^ 64) :
    Overflows n (dim :: dims) ↔
      2 ^ 63 ≤ dim ∨ 2 ^ 64 ≤ n * dim ∨ Overflows (n * dim) dims := by
  have hfirst : (∃ first, first <+: dim :: dims ∧ 2 ^ 64 ≤ n * first.prod) ↔
      ∃ first, first <+: dims ∧ 2 ^ 64 ≤ n * dim * first.prod := by
    simp only [prefix_cons_iff, or_and_right, exists_or, exists_eq_left, prod_nil, mul_one]
    rw [or_iff_right (Nat.not_le.mpr hn)]
    constructor
    · rintro ⟨_, ⟨first, rfl, hfirst⟩, hle⟩
      rw [prod_cons, ← mul_assoc] at hle
      exact ⟨first, hfirst, hle⟩
    · rintro ⟨first, hfirst, hle⟩
      rw [mul_assoc, ← prod_cons] at hle
      exact ⟨_, ⟨first, rfl, hfirst⟩, hle⟩
  have hnow (hle : 2 ^ 64 ≤ n * dim) :
      ∃ first, first <+: dims ∧ 2 ^ 64 ≤ n * dim * first.prod :=
    ⟨[], nil_prefix, by rwa [prod_nil, mul_one]⟩
  rw [Overflows, Overflows, hfirst]
  simp only [mem_cons, or_and_right, exists_or, exists_eq_left]
  exact or_assoc.trans (or_congr_right (or_iff_right_of_imp fun hle => .inr (hnow hle)).symm)

/-- The guard of a product. -/
theorem guard_iff {a b : Nat} : b ≠ 0 ∧ a > sizeMax / b ↔ 2 ^ 64 ≤ a * b := by
  rcases Nat.eq_zero_or_pos b with rfl | hpos
  · simp
  · rw [gt_iff_lt, Nat.div_lt_iff_lt_mul hpos, sizeMax]
    omega

/-- The number of elements is the product, unless a guard fails. -/
theorem nElements_eq (hdims : ∀ dim ∈ dims, dim < 2 ^ 64) (hn : n < 2 ^ 64) :
    (Overflows n dims ∧ nElements n (dims.map (signed 64)) = none) ∨
      (¬ Overflows n dims ∧ nElements n (dims.map (signed 64)) = some (n * dims.prod) ∧
        n * dims.prod < 2 ^ 64) := by
  induction dims generalizing n with
  | nil =>
    refine .inr ⟨?_, ?_, ?_⟩
    · rintro (⟨dim, hdim, -⟩ | ⟨first, hfirst, hle⟩)
      · cases hdim
      · rw [prefix_nil.mp hfirst, prod_nil, mul_one] at hle
        omega
    · rw [prod_nil, mul_one]
      rfl
    · rwa [prod_nil, mul_one]
  | cons dim dims ih =>
    obtain ⟨hdim, hdims⟩ := forall_mem_cons.mp hdims
    rw [overflows_cons hn, map_cons, nElements]
    have hneg : signed 64 dim < 0 ↔ 2 ^ 63 ≤ dim := by
      unfold signed
      split_ifs <;> omega
    split_ifs with hsign hguard
    · exact .inl ⟨.inl (hneg.mp hsign), rfl⟩
    · rw [nonneg_signed hdim hsign, guard_iff] at hguard
      exact .inl ⟨.inr (.inl hguard), rfl⟩
    · rw [nonneg_signed hdim hsign, guard_iff] at hguard
      have hfits := Nat.not_le.mp hguard
      rw [nonneg_signed hdim hsign, Nat.mod_eq_of_lt hfits, prod_cons, ← mul_assoc]
      rw [or_iff_right (hneg.not.mp hsign), or_iff_right hguard]
      exact ih hdims hfits

/-- The dimensions that are multiplied are the first four. -/
theorem take_keptDims (dims : List Nat) :
    (keptDims dims).take dims.length = (dims.take 4).map (signed 64) := by
  rw [keptDims, take_take, map_take]
  by_cases h : dims.length ≤ 4
  · rw [min_eq_left h, take_append_of_le_length (by rw [length_map]),
      take_of_length_le (by rw [length_map]),
      take_of_length_le (by rwa [length_map])]
  · rw [min_eq_right (by omega), take_append_of_le_length (by rw [length_map]; omega)]

/-! ## The gate -/

/-- The bytes of so many elements, with the carry of the rounding lost. -/
def countedBytes (type : WireType) (n : Nat) : Nat :=
  (n + ggufBlckSize type - 1) % 2 ^ 64 / ggufBlckSize type * ggufTypeSize type

theorem sizes_pos (hknown : type ≠ .unknown) :
    0 < ggufBlckSize type ∧ ggufBlckSize type ≤ 256 ∧ 0 < ggufTypeSize type := by
  cases type <;> first | exact absurd rfl hknown | decide

theorem blockBytes_eq (hknown : type ≠ .unknown) :
    blockBytes type n = min sizeMax (countedBytes type n) := by
  obtain ⟨hblock, -, hsize⟩ := sizes_pos hknown
  rw [blockBytes, if_neg (by omega), countedBytes]
  simp only [guard_iff, mul_comm (ggufTypeSize type)]
  generalize (n + ggufBlckSize type - 1) % 2 ^ 64 / ggufBlckSize type * ggufTypeSize type = bytes
  unfold sizeMax
  split_ifs <;> omega

theorem inBounds_iff :
    info.inBounds = true ↔
      info.byteSize ≠ sizeMax ∧ info.offset + info.byteSize ≤ info.dataLimit := by
  unfold TensorInfo.inBounds
  split_ifs with hmax hoffset
  · simp [hmax]
  · simp only [false_iff]
    omega
  · rw [decide_eq_true_iff]
    omega

theorem trueBytes_eq_zero (hknown : type ≠ .unknown) : trueBytes type dims = 0 ↔ dims.prod = 0 := by
  obtain ⟨hblock, -, hsize⟩ := sizes_pos hknown
  rw [trueBytes, Nat.mul_eq_zero, or_iff_left (Nat.ne_of_gt hsize), Nat.div_eq_zero_iff]
  omega

/-- The bytes that are counted are the true ones, or none. -/
theorem countedBytes_eq (hknown : type ≠ .unknown) (hfits : dims.prod < 2 ^ 64) :
    countedBytes type dims.prod =
      if dims.prod + ggufBlckSize type ≤ 2 ^ 64 then trueBytes type dims else 0 := by
  obtain ⟨hblock, hsmall, -⟩ := sizes_pos hknown
  unfold countedBytes trueBytes
  split_ifs with hround
  · rw [Nat.mod_eq_of_lt (by omega)]
  · rw [Nat.div_eq_of_lt (by omega), zero_mul]

/-- The size of a tensor whose dimensions are these first four. -/
theorem byteSize_eq (hlt : ∀ dim ∈ dims, dim < 2 ^ 64)
    (hdims : info.dims.take info.nDims = dims.map (signed 64)) :
    ((info.type = .unknown ∨ Overflows 1 dims) ∧ info.byteSize = sizeMax) ∨
      ((info.type ≠ .unknown ∧ ¬ Overflows 1 dims) ∧ dims.prod < 2 ^ 64 ∧
        info.byteSize = min sizeMax (countedBytes info.type dims.prod)) := by
  unfold TensorInfo.byteSize
  rw [hdims]
  rcases nElements_eq hlt (by decide : 1 < 2 ^ 64) with ⟨hover, hnone⟩ | ⟨hover, hsome, hfits⟩
  · rw [hnone]
    exact .inl ⟨.inr hover, rfl⟩
  · rw [one_mul] at hsome hfits
    rw [hsome]
    by_cases hknown : info.type = .unknown
    · rw [hknown]
      exact .inl ⟨.inl rfl, rfl⟩
    · exact .inr ⟨⟨hknown, hover⟩, hfits, blockBytes_eq hknown⟩

theorem dims_parseTensorInfo : (parseTensorInfo r).1.dims.take (parseTensorInfo r).1.nDims =
      ((declaredDims r).take 4).map (signed 64) := by
  have hlength : (declaredDims r).length = (parseTensorInfo r).1.nDims := length_readU64s _ _
  have hkept : (parseTensorInfo r).1.dims = keptDims (declaredDims r) := rfl
  rw [← take_keptDims, hlength, hkept]

/-- The gate sees what the tensor takes. A tensor that takes nothing can be anywhere, and a type
that is not known, a negative dimension and an overflow are refused. Otherwise the last, incomplete
block can be counted, and the dimensions that are dropped add no bytes or those of the first four
are too many for any file. -/
def Gated (type : WireType) (offset : Nat) (dims : List Nat) : Prop :=
  (dims.drop 4).prod = 0 ∨ type = .unknown ∨ Overflows 1 (dims.take 4) ∨
    (dims.take 4).prod + ggufBlckSize type ≤ 2 ^ 64 ∧
      (trueBytes type dims ≤ trueBytes type (dims.take 4) ∨
        sizeMax ≤ trueBytes type (dims.take 4) ∨
        2 ^ 64 ≤ offset + trueBytes type (dims.take 4))

/-- With bytes that are counted so, the gate is sound for every limit of 64 bits if and only if they
are enough or there is no such limit. -/
theorem sound_iff {need bytes : Nat} (hsize : info.byteSize = min sizeMax bytes) :
    (∀ base limit, limit < 2 ^ 64 → (info.place base limit).inBounds = true →
      info.offset + need ≤ limit) ↔
      need ≤ bytes ∨ sizeMax ≤ bytes ∨ 2 ^ 64 ≤ info.offset + bytes := by
  have hplace (base : DataBase) (limit : Nat) :
      (info.place base limit).byteSize = min sizeMax bytes := hsize
  simp only [inBounds_iff, hplace]
  constructor
  · intro hall
    by_contra hnot
    have := hall ⟨0, 0⟩ (info.offset + bytes) (by omega)
      ⟨by omega, Nat.add_le_add_left (min_le_right _ _) _⟩
    omega
  · intro hbytes base limit hlimit hgate
    have : info.offset + min sizeMax bytes ≤ limit := hgate.2
    omega

/-- Every tensor that passes the gate lies within the limit, whatever it is, if and only if the gate
sees what the tensor takes. -/
theorem inBounds_sound :
    (∀ base limit, limit < 2 ^ 64 → ((parseTensorInfo r).1.place base limit).inBounds = true →
      (parseTensorInfo r).1.offset + trueBytes (parseTensorInfo r).1.type (declaredDims r) ≤
        limit) ↔
      Gated (parseTensorInfo r).1.type (parseTensorInfo r).1.offset (declaredDims r) := by
  have hlt : ∀ dim ∈ (declaredDims r).take 4, dim < 2 ^ 64 :=
    fun dim hdim => readU64s_lt _ _ dim (mem_of_mem_take hdim)
  have hoffset : (parseTensorInfo r).1.offset < 2 ^ 64 := readU64_lt _
  have hdims := dims_parseTensorInfo r
  generalize (parseTensorInfo r).1 = info at *
  generalize declaredDims r = dims at *
  have hprod : dims.prod = (dims.take 4).prod * (dims.drop 4).prod :=
    (prod_take_mul_prod_drop dims 4).symm
  unfold Gated
  rcases byteSize_eq hlt hdims with ⟨hrefused, hsize⟩ | ⟨⟨hknown, hover⟩, hfits, hsize⟩
  · refine iff_of_true (fun base limit _ hgate => ?_) (.inr (or_assoc.mp (.inl hrefused)))
    exact absurd hsize (inBounds_iff.mp hgate).1
  rw [sound_iff hsize, countedBytes_eq hknown hfits, or_iff_right hknown, or_iff_right hover]
  split_ifs with hround
  · rw [and_iff_right hround]
    refine (or_iff_right_of_imp fun hzero => ?_).symm
    have hnone : trueBytes info.type dims = 0 :=
      (trueBytes_eq_zero hknown).mpr (by rw [hprod, hzero, mul_zero])
    exact .inl (hnone ▸ Nat.zero_le _)
  · -- no block is counted
    have hsmall := (sizes_pos hknown).2.1
    rw [Nat.le_zero, trueBytes_eq_zero hknown, hprod, Nat.mul_eq_zero, sizeMax]
    omega

/-- A number as the file spells it. -/
def spelled : (size : Nat) → Nat → List UInt8
  | 0, _ => []
  | size + 1, v => UInt8.ofNat v :: spelled size (v / 256)

/-- The entry of a tensor without a name. -/
def entry (dims : List Nat) (type offset : Nat) : BinaryReader :=
  .ofData (spelled 8 0 ++ spelled 4 dims.length ++ dims.flatMap (spelled 8) ++ spelled 4 type ++
    spelled 8 offset)

/-- A fifth dimension is not counted, and a number of elements next to `2 ^ 64` is rounded up to
zero blocks. -/
theorem unguarded_in_bounds :
    (declaredDims (entry [1, 1, 1, 1, 1000] 0 0) = [1, 1, 1, 1, 1000] ∧
      ((parseTensorInfo (entry [1, 1, 1, 1, 1000] 0 0)).1.place ⟨1, 64⟩ 4).inBounds = true ∧
      4 < trueBytes .f32 [1, 1, 1, 1, 1000]) ∧
    (declaredDims (entry [3, 6148914691236517205] 2 0) = [3, 6148914691236517205] ∧
      ((parseTensorInfo (entry [3, 6148914691236517205] 2 0)).1.place ⟨1, 64⟩ 0).inBounds = true ∧
      0 < trueBytes .q4_0 [3, 6148914691236517205]) := by
  decide +kernel

end Quench.Gguf

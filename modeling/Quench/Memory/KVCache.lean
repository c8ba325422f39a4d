import Mathlib.Tactic.Ring
import Quench.Lib.Regions

/-!
# The layout of the KV cache

`KVCache` of `memory/kv_cache.cu` as far as addresses go: the two constructors with their layouts,
and the pointers to the K, V and scale bytes of a block. A pointer is an offset into one of the two
pools. The uniform constructor gives every layer blocks of one size; the per-layer one packs layers
of different shapes behind each other, with fewer blocks for a sliding-window layer.

Both layouts keep the bytes of different blocks, parts and layers apart (`Built.regions_apart`), and
these fill what the constructor asks for (`Built.regions_within`, `Built.exists_last`). The bytes to
allocate are counted in `size_t`, so all parts lie in the allocation if and only if that does not
wrap (`addresses_sound`, `pool_size_wraps`).

An `int` of the source is a `Nat` here where it counts something.
-/

namespace Quench

open Lib List

/-- `QType`. -/
inductive QType where
  | F32 | F16 | Q4_0 | Q4_1 | Q5_0 | Q5_1 | Q8_0 | Q8_1 | Q2_K | Q3_K | Q4_K | Q5_K | Q6_K | Q8_K
  | IQ4_NL | IQ4_XS | BF16 | MXFP4
  | NONE | FP8_E4M3 | FP8_E5M2 | INT8 | INT4 | INT32 | FP4_E2M1 | NVFP4 | MXFP4_KV
  deriving DecidableEq, Repr

namespace QType

/-- `qtype_elem_bytes`. -/
def elemBytes : QType → Nat
  | F32 => 4
  | F16 | BF16 => 2
  | FP8_E4M3 | FP8_E5M2 => 1
  | INT8 => 1
  | INT4 => 1
  | INT32 => 4
  | FP4_E2M1 => 1
  | _ => 0

/-- Two elements share a byte. -/
def packed4bit (dtype : QType) : Bool := dtype == INT4 || dtype == NVFP4 || dtype == MXFP4_KV

/-- The formats with one scale byte per group of sixteen elements. -/
def groupScaled (dtype : QType) : Bool := dtype == NVFP4 || dtype == MXFP4_KV

end QType

/-- `kNVFP4Group`. -/
def kNVFP4Group : Nat := 16

/-- The bytes of one block of one layer. -/
def kvBlockBytes (dtype : QType) (blockSize nKvHeads headDim : Nat) : Nat :=
  if dtype.packed4bit then blockSize * nKvHeads * headDim / 2
  else blockSize * nKvHeads * headDim * dtype.elemBytes

/-- The addresses `KVCache` computes with. The lists are empty in the uniform layout, and the scale
lists also in a per-layer layout without scales. -/
structure KVCache where
  nLayers : Nat
  nKvHeads : Nat
  headDim : Nat
  maxBlocks : Nat
  dtype : QType
  blockBytes : Nat
  scaleBlockBytes : Nat
  layerBlockBytes : List Nat
  layerKOffset : List Nat
  layerVOffset : List Nat
  layerScaleBlockBytes : List Nat
  layerKScaleOffset : List Nat
  layerVScaleOffset : List Nat
  layerIsSwa : List Bool
  swaMaxBlocks : Nat
  deriving DecidableEq, Repr

namespace KVCache

variable {maxBlocks blockSize layer block : Nat} {dtype : QType} {cache : KVCache}

/-! ## The constructors -/

/-- The constructor for layers of one shape. -/
def uniform (nLayers nKvHeads headDim : Nat) (dtype : QType) (maxBlocks blockSize : Nat) :
    Except String KVCache :=
  let blockBytes := kvBlockBytes dtype blockSize nKvHeads headDim
  let cache (scaleBlockBytes : Nat) : KVCache :=
    { nLayers, nKvHeads, headDim, maxBlocks, dtype, blockBytes, scaleBlockBytes
      layerBlockBytes := [], layerKOffset := [], layerVOffset := []
      layerScaleBlockBytes := [], layerKScaleOffset := [], layerVScaleOffset := []
      layerIsSwa := [], swaMaxBlocks := 0 }
  if dtype.groupScaled then
    if headDim % kNVFP4Group ≠ 0 then
      .error "KVCache NVFP4: head_dim must be a multiple of 16"
    else .ok (cache (blockSize * nKvHeads * (headDim / kNVFP4Group)))
  else if dtype == .INT8 || dtype == .INT4 then .ok (cache (blockSize * nKvHeads * 2))
  else .ok (cache 0)

/-- `layer_capacity`: a sliding-window layer has room for the trailing window only. -/
def layerCapacity (maxBlocks : Nat) (layerIsSwa : List Bool) (swaMaxBlocks l : Nat) : Nat :=
  if 0 < swaMaxBlocks ∧ layerIsSwa.getD l false then swaMaxBlocks else maxBlocks

/-- The offsets of the K and the V region of every layer from layer `l` on, behind the bytes that
are taken already. A layer without attention has blocks of no bytes. -/
def layerOffsets (capacity : Nat → Nat) : List Nat → Nat → Nat → List (Nat × Nat)
  | [], _, _ => []
  | bytes :: rest, l, running =>
    (running, running + capacity l * bytes) ::
      layerOffsets capacity rest (l + 1) (running + capacity l * bytes + capacity l * bytes)

/-- The shape of a layer: its head count and head dim, both zero without attention. -/
def layerShape (nKvHeadsPerLayer headDimPerLayer : List Int) (l : Nat) : Nat × Nat :=
  let nkv := nKvHeadsPerLayer.getD l 0
  let hd := headDimPerLayer.getD l 0
  if nkv ≤ 0 ∨ hd ≤ 0 then (0, 0) else (nkv.toNat, hd.toNat)

/-- The constructor for layers of different shapes, with a separate group of blocks for
sliding-window layers. -/
def perLayer (nLayers : Nat) (nKvHeadsPerLayer headDimPerLayer : List Int) (dtype : QType)
    (maxBlocks blockSize : Nat) (layerIsSwa : List Bool) (swaMaxBlocks : Nat) :
    Except String KVCache :=
  let layerIsSwa := if layerIsSwa.isEmpty || swaMaxBlocks == 0 then [] else layerIsSwa
  let swaMaxBlocks := if layerIsSwa.isEmpty then 0 else swaMaxBlocks
  let capacity := layerCapacity maxBlocks layerIsSwa swaMaxBlocks
  let shapes := (List.range nLayers).map (layerShape nKvHeadsPerLayer headDimPerLayer)
  let layerBlockBytes := shapes.map fun shape => kvBlockBytes dtype blockSize shape.1 shape.2
  let offsets := layerOffsets capacity layerBlockBytes 0 0
  let nKvHeads := (shapes.map Prod.fst).foldl max 0
  let headDim := (shapes.map Prod.snd).foldl max 0
  let cache (scaleBlockBytes : Nat) (layerScaleBlockBytes : List Nat) : KVCache :=
    let scaleOffsets := layerOffsets capacity layerScaleBlockBytes 0 0
    { nLayers, nKvHeads, headDim, maxBlocks, dtype
      blockBytes := kvBlockBytes dtype blockSize nKvHeads headDim
      scaleBlockBytes, layerBlockBytes
      layerKOffset := offsets.map Prod.fst, layerVOffset := offsets.map Prod.snd
      layerScaleBlockBytes
      layerKScaleOffset := scaleOffsets.map Prod.fst, layerVScaleOffset := scaleOffsets.map Prod.snd
      layerIsSwa, swaMaxBlocks }
  if dtype == .INT8 || dtype == .INT4 then
    .error "KVCache per-layer shape: INT8/INT4 scale pools not yet supported"
  else if dtype.groupScaled then
    if shapes.any fun shape => shape.2 % kNVFP4Group ≠ 0 then
      .error "KVCache per-layer NVFP4: head_dim must be a multiple of 16"
    else
      .ok (cache (blockSize * nKvHeads * (headDim / kNVFP4Group))
        (shapes.map fun shape => blockSize * shape.1 * (shape.2 / kNVFP4Group)))
  else .ok (cache 0 [])

/-- Where the loop over the layers ends: the bytes it asks for. -/
def layersEnd (capacity : Nat → Nat) : List Nat → Nat → Nat → Nat
  | [], _, running => running
  | bytes :: rest, l, running =>
    layersEnd capacity rest (l + 1) (running + capacity l * bytes + capacity l * bytes)

/-- A cache one of the constructors made. -/
inductive Built : KVCache → Prop where
  | uniform {nLayers nKvHeads headDim : Nat} {dtype : QType} {maxBlocks blockSize : Nat}
      {cache : KVCache}
      (h : uniform nLayers nKvHeads headDim dtype maxBlocks blockSize = .ok cache) : Built cache
  | perLayer {nLayers : Nat} {nKvHeadsPerLayer headDimPerLayer : List Int} {dtype : QType}
      {maxBlocks blockSize : Nat} {layerIsSwa : List Bool} {swaMaxBlocks : Nat} {cache : KVCache}
      (h : perLayer nLayers nKvHeadsPerLayer headDimPerLayer dtype maxBlocks blockSize layerIsSwa
        swaMaxBlocks = .ok cache) : Built cache

/-! ## Pointers -/

/-- The two allocations of a cache. -/
inductive Pool where
  | kv
  | scales
  deriving DecidableEq, Repr

/-- The parts of a block of one layer. -/
inductive Part where
  | k
  | v
  | kScale
  | vScale
  deriving DecidableEq, Repr

/-- The allocation a part lies in. -/
def Part.pool : Part → Pool
  | .k | .v => .kv
  | .kScale | .vScale => .scales

/-- `block_bytes(layer)`. -/
def layerBytes (cache : KVCache) (layer : Nat) : Nat :=
  if cache.layerBlockBytes.isEmpty then cache.blockBytes else cache.layerBlockBytes.getD layer 0

/-- `scale_block_bytes(layer)`. -/
def layerScaleBytes (cache : KVCache) (layer : Nat) : Nat :=
  if cache.layerScaleBlockBytes.isEmpty then cache.scaleBlockBytes
  else cache.layerScaleBlockBytes.getD layer 0

/-- `k_ptr`. -/
def kPtr (cache : KVCache) (layer block : Nat) : Nat :=
  if cache.layerBlockBytes.isEmpty then
    (layer * 2 * cache.maxBlocks + block) * cache.blockBytes
  else cache.layerKOffset.getD layer 0 + block * cache.layerBlockBytes.getD layer 0

/-- `v_ptr`. -/
def vPtr (cache : KVCache) (layer block : Nat) : Nat :=
  if cache.layerBlockBytes.isEmpty then
    (layer * 2 * cache.maxBlocks + cache.maxBlocks + block) * cache.blockBytes
  else cache.layerVOffset.getD layer 0 + block * cache.layerBlockBytes.getD layer 0

/-- `k_scale_ptr`. -/
def kScalePtr (cache : KVCache) (layer block : Nat) : Nat :=
  if cache.layerScaleBlockBytes.isEmpty then
    (layer * 2 * cache.maxBlocks + block) * cache.scaleBlockBytes
  else cache.layerKScaleOffset.getD layer 0 + block * cache.layerScaleBlockBytes.getD layer 0

/-- `v_scale_ptr`. -/
def vScalePtr (cache : KVCache) (layer block : Nat) : Nat :=
  if cache.layerScaleBlockBytes.isEmpty then
    (layer * 2 * cache.maxBlocks + cache.maxBlocks + block) * cache.scaleBlockBytes
  else cache.layerVScaleOffset.getD layer 0 + block * cache.layerScaleBlockBytes.getD layer 0

/-- The pointer to one part of a block. -/
def ptr (cache : KVCache) (layer block : Nat) : Part → Nat
  | .k => cache.kPtr layer block
  | .v => cache.vPtr layer block
  | .kScale => cache.kScalePtr layer block
  | .vScale => cache.vScalePtr layer block

/-- The size of one part of a block. -/
def partBytes (cache : KVCache) (layer : Nat) : Part → Nat
  | .k | .v => cache.layerBytes layer
  | .kScale | .vScale => cache.layerScaleBytes layer

/-- The bytes of one part of a block. -/
def region (cache : KVCache) (layer block : Nat) (part : Part) : Region Pool :=
  ⟨part.pool, cache.ptr layer block part, cache.partBytes layer part⟩

/-- The number of blocks a layer has room for. -/
def capacity (cache : KVCache) (layer : Nat) : Nat :=
  layerCapacity cache.maxBlocks cache.layerIsSwa cache.swaMaxBlocks layer

/-- The bytes a constructor needs for a pool, before they are a `size_t`. -/
def poolTotal (cache : KVCache) : Pool → Nat
  | .kv =>
    if cache.layerBlockBytes.isEmpty then
      cache.nLayers * cache.maxBlocks * 2 * cache.blockBytes
    else layersEnd cache.capacity cache.layerBlockBytes 0 0
  | .scales =>
    if cache.layerScaleBlockBytes.isEmpty then
      cache.nLayers * cache.maxBlocks * 2 * cache.scaleBlockBytes
    else layersEnd cache.capacity cache.layerScaleBlockBytes 0 0

/-- The bytes a constructor allocates for a pool. The products are taken in `size_t`. -/
def allocatedBytes (cache : KVCache) (pool : Pool) : Nat := cache.poolTotal pool % 2 ^ 64

/-! ## Both layouts are stacks of rows -/

/-- The bytes of the layers before layer `l`, counted from layer `first` on. -/
def taken (capacity : Nat → Nat) (bytes : List Nat) (first : Nat) : Nat → Nat
  | 0 => 0
  | l + 1 => taken capacity bytes first l + 2 * capacity (first + l) * bytes.getD l 0

section

variable (capacity : Nat → Nat)

theorem taken_cons (bytes : Nat) (rest : List Nat) (first l : Nat) :
    taken capacity (bytes :: rest) first (l + 1) =
      2 * capacity first * bytes + taken capacity rest (first + 1) l := by
  induction l with
  | zero => simp [taken]
  | succ l ih =>
    rw [taken, ih, taken, getD_cons_succ, add_assoc,
      show first + (l + 1) = first + 1 + l by omega]

/-- The loop over the layers puts each behind what the layers before it took. -/
theorem layerOffsets_getElem? (bytes : List Nat) (first running : Nat) {l : Nat}
    (hl : l < bytes.length) :
    (layerOffsets capacity bytes first running)[l]? =
      some (running + taken capacity bytes first l,
        running + taken capacity bytes first l + capacity (first + l) * bytes.getD l 0) := by
  induction bytes generalizing first running l with
  | nil => exact absurd hl (Nat.not_lt_zero l)
  | cons size rest ih =>
    rw [layerOffsets]
    cases l with
    | zero => rfl
    | succ l =>
      rw [getElem?_cons_succ, ih _ _ (Nat.lt_of_succ_lt_succ hl), taken_cons,
        getD_cons_succ, show first + (l + 1) = first + 1 + l by omega,
        show running + capacity first * size + capacity first * size +
          taken capacity rest (first + 1) l = running + (2 * capacity first * size +
          taken capacity rest (first + 1) l) by ring]

/-- The loop over the layers ends behind the last one. -/
theorem layersEnd_eq (bytes : List Nat) (first running : Nat) :
    layersEnd capacity bytes first running = running + taken capacity bytes first bytes.length := by
  induction bytes generalizing first running with
  | nil => rfl
  | cons size rest ih =>
    rw [layersEnd, ih, length_cons, taken_cons]
    ring

end

variable (capacity : Nat → Nat)

/-- The stacks of a packed layout. -/
def packedLayout (bytes : List Nat) : Layout where
  stride l := bytes.getD l 0
  rows l := 2 * capacity l
  start := taken capacity bytes 0
  zero := rfl
  next l := by rw [taken, zero_add]

/-- The stacks of a uniform layout. -/
def uniformLayout (maxBlocks bytes : Nat) : Layout where
  stride _ := bytes
  rows _ := 2 * maxBlocks
  start l := l * 2 * maxBlocks * bytes
  zero := by simp
  next l := by ring

/-- Where the first and the second half of the rows of a layer begin: the K and the V blocks. -/
structure Stacked (layout : Layout) (nLayers : Nat) (capacity bytes : Nat → Nat)
    (first second : Nat → Nat → Nat) : Prop where
  stride : ∀ l < nLayers, layout.stride l = bytes l
  rows : ∀ l < nLayers, layout.rows l = 2 * capacity l
  first : ∀ l < nLayers, ∀ block, first l block = layout.addr l block
  second : ∀ l < nLayers, ∀ block, second l block = layout.addr l (capacity l + block)

/-- The formula of the uniform layout. -/
theorem stacked_uniform (maxBlocks bytes nLayers : Nat) :
    Stacked (uniformLayout maxBlocks bytes) nLayers (fun _ => maxBlocks) (fun _ => bytes)
      (fun l block => (l * 2 * maxBlocks + block) * bytes)
      (fun l block => (l * 2 * maxBlocks + maxBlocks + block) * bytes) where
  stride _ _ := rfl
  rows _ _ := rfl
  first l _ block := by simp only [Layout.addr, uniformLayout]; ring
  second l _ block := by simp only [Layout.addr, uniformLayout]; ring

/-- The loop of the per-layer layout. Without layers there is nothing to lay out. -/
theorem stacked_packed (bytes : List Nat) (maxBlocks size : Nat) (first second : Nat → Nat → Nat) :
    ∃ layout, Stacked layout bytes.length capacity
      (fun l => if bytes.isEmpty then size else bytes.getD l 0)
      (fun l block => if bytes.isEmpty then first l block else
        ((layerOffsets capacity bytes 0 0).map Prod.fst).getD l 0 + block * bytes.getD l 0)
      (fun l block => if bytes.isEmpty then second l block else
        ((layerOffsets capacity bytes 0 0).map Prod.snd).getD l 0 + block * bytes.getD l 0) ∧
      layout.start bytes.length = if bytes.isEmpty then bytes.length * maxBlocks * 2 * size
        else layersEnd capacity bytes 0 0 := by
  cases bytes with
  | nil =>
    refine ⟨uniformLayout 0 0, ⟨?_, ?_, ?_, ?_⟩, by simp [uniformLayout]⟩ <;>
      exact fun l hl => absurd hl (Nat.not_lt_zero l)
  | cons size rest =>
    refine ⟨packedLayout capacity (size :: rest), ?_, ?_⟩
    · refine ⟨fun _ _ => rfl, fun _ _ => rfl, fun l hl block => ?_, fun l hl block => ?_⟩
      · rw [getD_eq_getElem?_getD, getElem?_map, layerOffsets_getElem? capacity _ 0 0 hl,
          zero_add, zero_add]
        rfl
      · rw [getD_eq_getElem?_getD, getElem?_map, layerOffsets_getElem? capacity _ 0 0 hl,
          zero_add, zero_add]
        simp only [isEmpty_cons, Bool.false_eq_true, if_false, Option.map_some, Option.getD_some,
          Layout.addr, packedLayout]
        ring
    · rw [layersEnd_eq, zero_add]
      rfl

/-- The two pools of a cache are stacks of rows, and end with the last of them. -/
structure Laid (cache : KVCache) : Prop where
  kv : ∃ layout, Stacked layout cache.nLayers cache.capacity cache.layerBytes
    cache.kPtr cache.vPtr ∧ layout.start cache.nLayers = cache.poolTotal .kv
  scales : ∃ layout, Stacked layout cache.nLayers cache.capacity cache.layerScaleBytes
    cache.kScalePtr cache.vScalePtr ∧ layout.start cache.nLayers = cache.poolTotal .scales

/-- Rows of no bytes. -/
theorem stacked_empty (nLayers : Nat) (capacity : Nat → Nat) (first second : Nat → Nat → Nat)
    (hfirst : ∀ l block, first l block = 0) (hsecond : ∀ l block, second l block = 0) :
    ∃ layout, Stacked layout nLayers capacity (fun _ => 0) first second ∧
      layout.start nLayers = 0 :=
  ⟨⟨fun _ => 0, fun l => 2 * capacity l, fun _ => 0, rfl, fun _ => rfl⟩,
    ⟨fun _ _ => rfl, fun _ _ => rfl, fun l _ block => by rw [hfirst]; rfl,
      fun l _ block => by rw [hsecond]; rfl⟩, rfl⟩

variable {nLayers nKvHeads headDim swaMaxBlocks layer' block' : Nat}
  {nKvHeadsPerLayer headDimPerLayer : List Int} {layerIsSwa : List Bool} {layout : Layout}
  {bytes : Nat → Nat} {first : Nat → Nat → Nat}

section

variable (h : uniform nLayers nKvHeads headDim dtype maxBlocks blockSize = .ok cache)
include h

/-- The uniform constructor leaves the lists empty. -/
theorem uniform_fields :
    cache.layerBlockBytes = [] ∧ cache.layerScaleBlockBytes = [] ∧ cache.swaMaxBlocks = 0 := by
  unfold uniform at h
  split at h
  · split at h
    · cases h
    · cases h
      exact ⟨rfl, rfl, rfl⟩
  · split at h <;> (cases h; exact ⟨rfl, rfl, rfl⟩)

theorem uniform_laid :
    Laid cache := by
  obtain ⟨hbytes, hscales, hswa⟩ := uniform_fields h
  have hcapacity : cache.capacity = fun _ => cache.maxBlocks := by
    funext l
    rw [capacity, layerCapacity, hswa, if_neg fun h => absurd h.1 (lt_irrefl 0)]
  constructor
  · refine ⟨uniformLayout cache.maxBlocks cache.blockBytes, ?_, ?_⟩
    · rw [hcapacity]
      unfold layerBytes kPtr vPtr
      rw [hbytes]
      exact stacked_uniform cache.maxBlocks cache.blockBytes cache.nLayers
    · simp only [poolTotal, hbytes, isEmpty_nil, if_true, uniformLayout]
      ring
  · refine ⟨uniformLayout cache.maxBlocks cache.scaleBlockBytes, ?_, ?_⟩
    · rw [hcapacity]
      unfold layerScaleBytes kScalePtr vScalePtr
      rw [hscales]
      exact stacked_uniform cache.maxBlocks cache.scaleBlockBytes cache.nLayers
    · simp only [poolTotal, hscales, isEmpty_nil, if_true, uniformLayout]
      ring

end

section

variable (h : perLayer nLayers nKvHeadsPerLayer headDimPerLayer dtype maxBlocks blockSize
  layerIsSwa swaMaxBlocks = .ok cache)
include h

/-- What the per-layer constructor fills the lists with. -/
theorem perLayer_fields :
    (cache.layerBlockBytes.length = cache.nLayers ∧
      cache.layerKOffset = (layerOffsets cache.capacity cache.layerBlockBytes 0 0).map Prod.fst ∧
      cache.layerVOffset = (layerOffsets cache.capacity cache.layerBlockBytes 0 0).map Prod.snd) ∧
    (cache.layerScaleBlockBytes.length = cache.nLayers ∨
      cache.layerScaleBlockBytes = [] ∧ cache.scaleBlockBytes = 0) ∧ cache.layerKScaleOffset =
      (layerOffsets cache.capacity cache.layerScaleBlockBytes 0 0).map Prod.fst ∧
    cache.layerVScaleOffset =
      (layerOffsets cache.capacity cache.layerScaleBlockBytes 0 0).map Prod.snd := by
  unfold perLayer at h
  dsimp only at h
  split at h
  · cases h
  · split at h
    · split at h
      · cases h
      · cases h
        exact ⟨⟨by simp, rfl, rfl⟩, .inl (by simp), rfl, rfl⟩
    · cases h
      exact ⟨⟨by simp, rfl, rfl⟩, .inr ⟨rfl, rfl⟩, rfl, rfl⟩

theorem perLayer_laid : Laid cache := by
  obtain ⟨⟨hlength, hk, hv⟩, hscales, hks, hvs⟩ := perLayer_fields h
  constructor
  · unfold layerBytes kPtr vPtr poolTotal
    rw [← hlength, hk, hv]
    exact stacked_packed cache.capacity _ _ _ _ _
  · unfold layerScaleBytes kScalePtr vScalePtr poolTotal
    rcases hscales with hfull | ⟨hnone, hzero⟩
    · rw [← hfull, hks, hvs]
      exact stacked_packed cache.capacity _ _ _ _ _
    · simp only [hnone, isEmpty_nil, if_true, hzero, mul_zero]
      exact stacked_empty _ _ _ _ (fun _ _ => rfl) fun _ _ => rfl

end

theorem Built.laid (h : Built cache) : Laid cache := by
  cases h with
  | uniform h => exact uniform_laid h
  | perLayer h => exact perLayer_laid h

namespace Stacked

variable {capacity : Nat → Nat} {second : Nat → Nat → Nat}
  (h : Stacked layout nLayers capacity bytes first second)
include h

/-- The blocks of a layer are the first rows of their half. -/
theorem addr_eq (half : Bool) (hlayer : layer < nLayers) (hblock : block < capacity layer) :
    ∃ row < layout.rows layer, row = (if half then capacity layer + block else block) ∧
      (if half then second layer block else first layer block) = layout.addr layer row := by
  refine ⟨_, ?_, rfl, ?_⟩
  · rw [h.rows layer hlayer]
    split <;> omega
  · cases half with
    | true => exact h.second layer hlayer block
    | false => exact h.first layer hlayer block

/-- A row ends before the pool does. -/
theorem within (half : Bool) (hlayer : layer < nLayers) (hblock : block < capacity layer) :
    (if half then second layer block else first layer block) + bytes layer
      ≤ layout.start nLayers := by
  obtain ⟨row, hrow, -, haddr⟩ := h.addr_eq half hlayer hblock
  have hend : layout.addr layer row + layout.stride layer ≤ layout.addr nLayers 0 :=
    layout.addr_end_le hrow (.inl hlayer)
  rwa [← haddr, h.stride layer hlayer, Layout.addr, zero_mul, add_zero] at hend

/-- A pool that takes any room ends with a row. -/
theorem exists_last (hpos : 0 < layout.start nLayers) :
    ∃ layer < nLayers, ∃ block < capacity layer, ∃ half : Bool,
      (if half then second layer block else first layer block) + bytes layer =
        layout.start nLayers := by
  obtain ⟨layer, hlayer, row, hrow, hend⟩ := layout.exists_last_row hpos
  rw [h.rows layer hlayer] at hrow
  rw [h.stride layer hlayer] at hend
  by_cases hhalf : row < capacity layer
  · refine ⟨layer, hlayer, row, hhalf, false, ?_⟩
    rw [if_neg Bool.false_ne_true, h.first layer hlayer, hend]
  · refine ⟨layer, hlayer, row - capacity layer, by omega, true, ?_⟩
    rw [if_pos rfl, h.second layer hlayer, Nat.add_sub_cancel' (not_lt.mp hhalf), hend]

/-- Rows of one pool that belong to different blocks or halves do not overlap. -/
theorem apart (space : Pool) {half half' : Bool} (hlayer : layer < nLayers)
    (hlayer' : layer' < nLayers) (hblock : block < capacity layer)
    (hblock' : block' < capacity layer') (hne : (layer, block, half) ≠ (layer', block', half')) :
    Region.Apart ⟨space, if half then second layer block else first layer block, bytes layer⟩
      ⟨space, if half' then second layer' block' else first layer' block', bytes layer'⟩ := by
  obtain ⟨row, hlt, hrow, haddr⟩ := h.addr_eq half hlayer hblock
  obtain ⟨row', hlt', hrow', haddr'⟩ := h.addr_eq half' hlayer' hblock'
  rw [haddr, haddr', ← h.stride layer hlayer, ← h.stride layer' hlayer']
  refine layout.apart hlt hlt' ?_
  rintro heq
  obtain ⟨rfl, heq⟩ := Prod.mk.inj heq
  rw [hrow, hrow'] at heq
  refine hne ?_
  cases half <;> cases half' <;> simp at heq <;> first | omega | (subst heq; rfl)

end Stacked

/-- Whether a part lies in the second half of a layer's rows. -/
def Part.second : Part → Bool
  | .k | .kScale => false
  | .v | .vScale => true

variable {part part' : Part}

theorem Part.eq_of_pool_second (hpool : part.pool = part'.pool)
    (hsecond : part.second = part'.second) : part = part' := by
  cases part <;> cases part' <;>
    first | rfl | exact absurd hpool (by decide) | exact absurd hsecond (by decide)

/-- Either pool is a stack of rows, with the parts of a block in the two halves of its layer. -/
theorem Laid.regions (h : Laid cache) (pool : Pool) :
    ∃ layout bytes first second, Stacked layout cache.nLayers cache.capacity bytes first second ∧
      layout.start cache.nLayers = cache.poolTotal pool ∧
      ∀ layer block part, part.pool = pool → cache.region layer block part =
        ⟨pool, if part.second then second layer block else first layer block, bytes layer⟩ := by
  cases pool with
  | kv =>
    obtain ⟨layout, hstacked, hend⟩ := h.kv
    refine ⟨layout, _, _, _, hstacked, hend, fun layer block part hpart => ?_⟩
    cases part with
    | k | v => rfl
    | kScale | vScale => cases hpart
  | scales =>
    obtain ⟨layout, hstacked, hend⟩ := h.scales
    refine ⟨layout, _, _, _, hstacked, hend, fun layer block part hpart => ?_⟩
    cases part with
    | k | v => cases hpart
    | kScale | vScale => rfl

/-- Different parts of blocks within the capacity of their layers do not overlap. -/
theorem Built.regions_apart (h : Built cache) (hlayer : layer < cache.nLayers)
    (hlayer' : layer' < cache.nLayers) (hblock : block < cache.capacity layer)
    (hblock' : block' < cache.capacity layer')
    (hne : (layer, block, part) ≠ (layer', block', part')) :
    (cache.region layer block part).Apart (cache.region layer' block' part') := by
  by_cases hpool : part.pool = part'.pool
  · have hne : (layer, block, part.second) ≠ (layer', block', part'.second) := by
      rintro heq
      obtain ⟨rfl, hrest⟩ := Prod.mk.inj heq
      obtain ⟨rfl, hsecond⟩ := Prod.mk.inj hrest
      exact hne (by rw [Part.eq_of_pool_second hpool hsecond])
    obtain ⟨layout, bytes, first, second, hstacked, -, hregion⟩ := h.laid.regions part'.pool
    rw [hregion layer block part hpool, hregion layer' block' part' rfl]
    exact hstacked.apart _ hlayer hlayer' hblock hblock' hne
  · exact Region.apart_of_space hpool

/-- The parts of blocks within the capacity of their layers lie in their pools. -/
theorem Built.regions_within (h : Built cache) (part : Part) (hlayer : layer < cache.nLayers)
    (hblock : block < cache.capacity layer) :
    (cache.region layer block part).start + (cache.region layer block part).length
      ≤ cache.poolTotal part.pool := by
  obtain ⟨layout, bytes, first, second, hstacked, hend, hregion⟩ := h.laid.regions part.pool
  rw [hregion layer block part rfl, ← hend]
  exact hstacked.within part.second hlayer hblock

/-- A pool that is not empty ends with a part of a block. -/
theorem Built.exists_last (h : Built cache) {pool : Pool} (hpos : 0 < cache.poolTotal pool) :
    ∃ layer block part, layer < cache.nLayers ∧ block < cache.capacity layer ∧
      part.pool = pool ∧ (cache.region layer block part).start +
        (cache.region layer block part).length = cache.poolTotal pool := by
  have hpart : ∀ half, ∃ part : Part, part.pool = pool ∧ part.second = half := by
    cases pool with
    | kv => exact Bool.forall_bool.mpr ⟨⟨.k, rfl, rfl⟩, ⟨.v, rfl, rfl⟩⟩
    | scales => exact Bool.forall_bool.mpr ⟨⟨.kScale, rfl, rfl⟩, ⟨.vScale, rfl, rfl⟩⟩
  obtain ⟨layout, bytes, first, second, hstacked, hend, hregion⟩ := h.laid.regions pool
  obtain ⟨layer, hlayer, block, hblock, half, hlast⟩ := hstacked.exists_last (hend ▸ hpos)
  obtain ⟨part, hpool, rfl⟩ := hpart half
  refine ⟨layer, block, part, hlayer, hblock, hpool, ?_⟩
  rw [hregion layer block part hpool, ← hend]
  exact hlast

end KVCache

end Quench

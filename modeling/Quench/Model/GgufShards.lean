import Quench.Model.GgufTensors

/-!
# Loading the tensors of a split model

The header, tensor-info and shard part of `load_gguf` in `model/gguf_loader.cpp`. The infos of all
shards share one vector, and those of a shard are found by counting back the tensor count of its
header. That is right if and only if the shard has as many infos as its header says, or none and the
header says more than there are at all (`loadTensors_placed`); behind a cut-off shard, tensors of an
earlier shard are moved into the mapping of the later one (`cut_off_shard_moves`).

Opening and mapping a file is a parameter. The shards are numbered from 1, as in their file names.
-/

namespace Quench.Gguf

open List

/-- `GGUF_MAGIC`. -/
def ggufMagic : Nat := 0x46554747

/-- `GGUF_DEFAULT_ALIGNMENT`. -/
def ggufDefaultAlignment : Nat := 32

structure Header where
  magic : Nat
  version : Nat
  tensorCount : Nat
  kvCount : Nat
  reader : BinaryReader

variable (data : List UInt8)

def readHeader : Header :=
  let magic := (BinaryReader.ofData data).readU32
  let version := magic.2.readU32
  let tensorCount := version.2.readU64
  let kvCount := tensorCount.2.readU64
  ⟨magic.1, version.1, tensorCount.1, kvCount.1, kvCount.2⟩

/-- The metadata of a file. -/
def metadataOf : List (List UInt8 × Value) × BinaryReader :=
  readMetadata (readHeader data).kvCount (readHeader data).reader

/-- The tensor infos of a file, without their data. -/
def infosOf : List TensorInfo × BinaryReader :=
  parseTensorInfos (readHeader data).tensorCount (metadataOf data).2

/-- Where the tensor data of a file start. -/
def dataStart (alignment : Nat) (data : List UInt8) : Nat := ((infosOf data).2.align alignment).pos

/-- The bytes of the mapping that are left for tensor data. -/
def dataAvail (alignment : Nat) (data : List UInt8) : Nat :=
  if dataStart alignment data ≤ data.length then data.length - dataStart alignment data else 0

/-- The info with the data of a shard. -/
def TensorInfo.inShard (alignment shard : Nat) (data : List UInt8) (info : TensorInfo) :
    TensorInfo :=
  info.place ⟨shard, dataStart alignment data⟩ (dataAvail alignment data)

/-! ## The first shard -/

/-- A key of the metadata. -/
def key (name : String) : List UInt8 := name.toList.map Char.toUInt8

variable (castFloat : Nat → Nat → Nat)

/-- `general.alignment`, or the default. -/
def alignmentOf (data : List UInt8) : Nat :=
  match (metadataOf data).1.lookup (key "general.alignment") with
  | none => ggufDefaultAlignment
  | some value =>
    if valUint castFloat value = 0 then ggufDefaultAlignment else valUint castFloat value

/-- `split.count` as a signed 32-bit number. -/
def splitCount (data : List UInt8) : Int :=
  match (metadataOf data).1.lookup (key "split.count") with
  | none => 1
  | some value => signed 32 (valUint castFloat value % 2 ^ 32)

/-- The tensors of the first shard; a file that is not read to the end is refused. -/
def loadPrimary (data : List UInt8) : Option (List TensorInfo) :=
  let header := readHeader data
  if header.magic ≠ ggufMagic then none
  else if header.version < 2 ∨ header.version > 3 then none
  else if header.reader.failed then none
  else if (metadataOf data).2.failed then none
  else if (infosOf data).2.failed then none
  else some ((infosOf data).1.map (TensorInfo.inShard (alignmentOf castFloat data) 1 data))

/-! ## The other shards -/

/-- The new infos of a shard, counted back from the end of the vector. An index below zero wraps
around. -/
def shardTensorStart (size tensorCount : Nat) : Nat :=
  if tensorCount ≤ size then size - tensorCount else size + 2 ^ 64 - tensorCount

/-- One round of the shard loop. -/
def addShard (alignment shard : Nat) (data : List UInt8) (infos : List TensorInfo) :
    Option (List TensorInfo) :=
  let header := readHeader data
  if header.magic ≠ ggufMagic ∨ header.reader.failed then none
  else
    let all := infos ++ (infosOf data).1
    let start := shardTensorStart all.length header.tensorCount
    some (all.take start ++ (all.drop start).map (TensorInfo.inShard alignment shard data))

/-- The shard loop: so many shards from one on. A shard that cannot be opened ends it. -/
def shardLoop (alignment : Nat) (openShard : Nat → Option (List UInt8)) :
    Nat → Nat → List TensorInfo → Option (List TensorInfo)
  | 0, _, infos => some infos
  | count + 1, shard, infos =>
    match openShard shard with
    | none => none
    | some data =>
      match addShard alignment shard data infos with
      | none => none
      | some infos => shardLoop alignment openShard count (shard + 1) infos

/-- The numbers of the shards behind the first one. They are not known if the name of the first one
is not that of a shard. -/
def furtherShards (isShardName : Bool) (split : Int) : List Nat :=
  if isShardName && decide (1 < split) then List.range' 2 (split - 1).toNat else []

/-- The tensor infos of `load_gguf`. -/
def loadTensors (primary : List UInt8) (isShardName : Bool)
    (openShard : Nat → Option (List UInt8)) : Option (List TensorInfo) :=
  match loadPrimary castFloat primary with
  | none => none
  | some infos =>
    shardLoop (alignmentOf castFloat primary) openShard
      (furtherShards isShardName (splitCount castFloat primary)).length 2 infos

/-! ## Every tensor has the data of its own shard -/

/-- The infos of a further shard are found by counting back: there are as many as its header says,
or none and the header says more than there are at all. -/
def Counted (before : Nat) (data : List UInt8) : Prop :=
  (infosOf data).1.length = (readHeader data).tensorCount ∨
    (infosOf data).1 = [] ∧ before < (readHeader data).tensorCount

/-- Every further shard is counted behind those in front of it. -/
def AllCounted (openShard : Nat → Option (List UInt8)) : Nat → List Nat → Prop
  | _, [] => True
  | before, shard :: shards =>
    Counted before ((openShard shard).getD []) ∧
      AllCounted openShard (before + (infosOf ((openShard shard).getD [])).1.length) shards

/-- The tensors of a shard, with its own data. -/
def placed (alignment shard : Nat) (data : List UInt8) : List TensorInfo :=
  (infosOf data).1.map (TensorInfo.inShard alignment shard data)

variable {castFloat} {alignment shard : Nat} {data : List UInt8} {infos more out : List TensorInfo}
  {count : Nat} {openShard : Nat → Option (List UInt8)}

theorem length_placed :
    (placed alignment shard data).length = (infosOf data).1.length := length_map _

/-! ### One shard -/

theorem length_readArray_le {α : Type} {readOne : BinaryReader → α × BinaryReader}
    {r : BinaryReader} : (BinaryReader.readArray readOne count r).1.length ≤ count := by
  induction count generalizing r with
  | zero => exact le_rfl
  | succ count ih =>
    rw [BinaryReader.readArray]
    split_ifs
    · exact Nat.zero_le _
    · exact Nat.succ_le_succ ih

/-- An info that is read has no data yet. -/
theorem dataBase_infosOf : ∀ info ∈ (infosOf data).1, info.dataBase = none := by
  unfold infosOf parseTensorInfos
  generalize (readHeader data).tensorCount = count
  generalize (metadataOf data).2 = r
  induction count generalizing r with
  | zero => exact fun _ h => absurd h not_mem_nil
  | succ count ih =>
    rw [BinaryReader.readArray]
    split_ifs
    · exact fun _ h => absurd h not_mem_nil
    · exact forall_mem_cons.mpr ⟨rfl, ih _⟩

/-- The data of an info is in a shard before this one. -/
def Before (shard : Nat) (info : TensorInfo) : Prop :=
  ∃ base, info.dataBase = some base ∧ base.shard < shard

theorem before_placed {info : TensorInfo} (h : info ∈ placed alignment shard data) :
    Before (shard + 1) info := by
  obtain ⟨info, -, rfl⟩ := mem_map.mp h
  exact ⟨_, rfl, Nat.lt_succ_self _⟩

/-- What one round returns. -/
theorem addShard_eq (h : addShard alignment shard data infos = some out) :
    let start := shardTensorStart (infos.length + (infosOf data).1.length)
      (readHeader data).tensorCount
    out = (infos ++ (infosOf data).1).take start ++
      ((infos ++ (infosOf data).1).drop start).map (TensorInfo.inShard alignment shard data) := by
  unfold addShard at h
  dsimp only at h
  split_ifs at h
  rw [← Option.some.inj h, length_append]

/-- One round is right if and only if the shard is counted. -/
theorem addShard_eq_iff (hbefore : ∀ info ∈ infos, Before shard info)
    (h : addShard alignment shard data infos = some out) :
    out = infos ++ placed alignment shard data ↔ Counted infos.length data := by
  have hle : (infosOf data).1.length ≤ (readHeader data).tensorCount := length_readArray_le
  have hsmall : (readHeader data).tensorCount < 2 ^ 64 := readU64_lt _
  rw [addShard_eq h, Counted, placed, shardTensorStart]
  rcases Nat.eq_or_lt_of_le hle with heq | hlt
  · rw [if_pos (by omega), ← heq, Nat.add_sub_cancel, take_left, drop_left]
    exact iff_of_true rfl (.inl rfl)
  rw [or_iff_right (Nat.ne_of_lt hlt)]
  split_ifs with hfits
  · -- an info of an earlier shard gets the data of this one
    refine iff_of_false (fun heq => ?_) fun hnone => ?_
    · generalize hstart : infos.length + (infosOf data).1.length - (readHeader data).tensorCount =
        start at heq
      have hinside : start < infos.length := by omega
      have hat := congrArg (·[start]?) heq
      have hin : start < (infos ++ (infosOf data).1).length := by rw [length_append]; omega
      simp only [getElem?_append_right, length_take, min_eq_left hin.le, le_refl, Nat.sub_self,
        getElem?_map, getElem?_drop, Nat.add_zero, getElem?_append_left hinside,
        getElem?_eq_getElem hinside, Option.map_some, Option.some.injEq] at hat
      obtain ⟨base, hbase, hless⟩ := hbefore _ (getElem_mem hinside)
      rw [← hat] at hbase
      cases hbase
      exact Nat.lt_irrefl _ hless
    · rw [hnone.1, length_nil] at hfits
      omega
  · -- no info gets data
    rw [take_of_length_le (by rw [length_append]; omega),
      drop_of_length_le (by rw [length_append]; omega), map_nil, append_nil, append_cancel_left_eq]
    refine ⟨fun heq => ⟨?_, by omega⟩, fun hnone => by rw [hnone.1]; rfl⟩
    by_contra hne
    obtain ⟨info, hinfo⟩ := exists_mem_of_ne_nil _ hne
    have hplaced := hinfo
    rw [heq] at hplaced
    obtain ⟨base, hbase, -⟩ := before_placed hplaced
    rw [dataBase_infosOf info hinfo] at hbase
    cases hbase

/-! ### All shards -/

/-- Infos keep their data, or get those of this shard or a later one. -/
def Keeps (shard : Nat) (infos out : List TensorInfo) : Prop :=
  ∀ (i : Nat) info, infos[i]? = some info → ∃ info', out[i]? = some info' ∧
    (info' = info ∨ ¬ Before shard info')

theorem addShard_keeps (h : addShard alignment shard data infos = some out) :
    Keeps shard infos out := by
  intro i info hinfo
  obtain ⟨hi, -⟩ := List.getElem?_eq_some_iff.mp hinfo
  have hall : (infos ++ (infosOf data).1)[i]? = some info := by rwa [getElem?_append_left hi]
  rw [addShard_eq h]
  generalize infos ++ (infosOf data).1 = all at *
  generalize shardTensorStart _ _ = start
  have hlength := (List.getElem?_eq_some_iff.mp hall).1
  rcases Nat.lt_or_ge i start with hlt | hge
  · refine ⟨info, ?_, .inl rfl⟩
    rw [getElem?_append_left (by rw [length_take]; omega), getElem?_take_of_lt hlt, hall]
  · refine ⟨info.inShard alignment shard data, ?_, .inr ?_⟩
    · rw [getElem?_append_right (by rw [length_take]; omega), length_take, min_eq_left (by omega),
        getElem?_map, getElem?_drop, Nat.add_sub_cancel' hge, hall]
      rfl
    · rintro ⟨base, hbase, hless⟩
      cases hbase
      exact Nat.lt_irrefl _ hless

theorem shardLoop_keeps (h : shardLoop alignment openShard count shard infos = some out) :
    Keeps shard infos out := by
  induction count generalizing shard infos with
  | zero =>
    cases h
    exact fun i info hinfo => ⟨info, hinfo, .inl rfl⟩
  | succ count ih =>
    unfold shardLoop at h
    split at h
    · cases h
    split at h
    · cases h
    rename_i more hadd
    intro i info hinfo
    obtain ⟨info', hinfo', hkept⟩ := addShard_keeps hadd i info hinfo
    obtain ⟨last, hlast, hlater⟩ := ih h i info' hinfo'
    refine ⟨last, hlast, ?_⟩
    rcases hlater with rfl | hlater
    · exact hkept
    · exact .inr fun ⟨base, hbase, hless⟩ => hlater ⟨base, hbase, Nat.lt_succ_of_lt hless⟩

/-- Infos that end up with the data of earlier shards had them before. -/
theorem Keeps.eq {expected rest : List TensorInfo} (h : Keeps shard more (expected ++ rest))
    (hlength : more.length = expected.length) (hbefore : ∀ info ∈ expected, Before shard info) :
    more = expected := by
  refine ext_getElem hlength fun i hi hi' => ?_
  obtain ⟨info', hinfo', hkept⟩ := h i _ (getElem?_eq_getElem hi)
  rw [getElem?_append_left hi', getElem?_eq_getElem hi'] at hinfo'
  cases hinfo'
  exact (hkept.resolve_right (not_not.mpr (hbefore _ (getElem_mem hi')))).symm

theorem shardLoop_eq_iff (hbefore : ∀ info ∈ infos, Before shard info)
    (h : shardLoop alignment openShard count shard infos = some out) :
    (out = infos ++ (List.range' shard count).flatMap fun other =>
      placed alignment other ((openShard other).getD [])) ↔
        AllCounted openShard infos.length (List.range' shard count) := by
  induction count generalizing shard infos with
  | zero =>
    rw [List.range'_zero, flatMap_nil, append_nil]
    exact iff_of_true (Option.some.inj h).symm trivial
  | succ count ih =>
    unfold shardLoop at h
    split at h
    · cases h
    rename_i data hopen
    split at h
    · cases h
    rename_i more hadd
    rw [List.range'_succ, flatMap_cons, AllCounted, hopen, Option.getD_some, ← append_assoc,
      ← addShard_eq_iff hbefore hadd]
    have hnext : ∀ info ∈ infos ++ placed alignment shard data, Before (shard + 1) info := by
      intro info hinfo
      rcases mem_append.mp hinfo with hinfo | hinfo
      · obtain ⟨base, hbase, hless⟩ := hbefore info hinfo
        exact ⟨base, hbase, Nat.lt_succ_of_lt hless⟩
      · exact before_placed hinfo
    have hlength : more.length = (infos ++ placed alignment shard data).length := by
      rw [addShard_eq hadd, length_append, length_map, ← length_append, take_append_drop,
        length_append, length_append, length_placed]
    have hrest (heq : more = infos ++ placed alignment shard data) := by
      have hiff := ih (heq ▸ hnext) h
      rwa [hlength, length_append, length_placed] at hiff
    constructor
    · rintro hout
      have heq := (hout ▸ shardLoop_keeps h).eq hlength hnext
      exact ⟨heq, (hrest heq).mp (heq ▸ hout)⟩
    · rintro ⟨heq, hcounted⟩
      rw [← heq]
      exact (hrest heq).mpr hcounted

/-- Each tensor has the data of the shard that it was read from, if and only if every further shard
is counted. -/
theorem loadTensors_placed {primary : List UInt8} {isShardName : Bool}
    {openShard : Nat → Option (List UInt8)}
    (h : loadTensors castFloat primary isShardName openShard = some out) :
    (out = placed (alignmentOf castFloat primary) 1 primary ++
      (furtherShards isShardName (splitCount castFloat primary)).flatMap fun shard =>
        placed (alignmentOf castFloat primary) shard ((openShard shard).getD [])) ↔
      AllCounted openShard (infosOf primary).1.length
        (furtherShards isShardName (splitCount castFloat primary)) := by
  unfold loadTensors at h
  split at h
  · cases h
  · rename_i infos hprimary
    obtain rfl : infos = placed (alignmentOf castFloat primary) 1 primary := by
      unfold loadPrimary at hprimary
      dsimp only at hprimary
      split_ifs at hprimary
      exact (Option.some.inj hprimary).symm
    unfold furtherShards at *
    split_ifs at * with hsplit
    · rw [length_range'] at h
      rw [shardLoop_eq_iff (fun _ => before_placed) h, length_placed]
    · rw [← Option.some.inj h, flatMap_nil, append_nil]
      exact iff_of_true rfl trivial

/-- The start of a file. -/
def fileStart (tensorCount kvCount : Nat) : List UInt8 :=
  spelled 4 ggufMagic ++ spelled 4 3 ++ spelled 8 tensorCount ++ spelled 8 kvCount

/-- One of two shards: a tensor of one number, and the number. -/
def firstOfTwo : List UInt8 :=
  fileStart 1 1 ++ spelled 8 11 ++ key "split.count" ++ spelled 4 4 ++ spelled 4 2 ++
    (entry [1] 0 0).data ++ List.replicate 13 0 ++ spelled 4 7

/-- The other one, with its only tensor. -/
def secondOfTwo : List UInt8 := fileStart 1 0 ++ (entry [1] 0 0).data ++ spelled 4 8

/-- A shard that promises two tensors, the first with a name that is longer than the file. -/
def cutOff : List UInt8 := fileStart 2 0 ++ spelled 8 (2 ^ 40) ++ List.replicate 32 0 ++ spelled 4 9

/-- Two complete shards. -/
theorem loadTensors_placed_two :
    ∃ out, loadTensors (fun _ _ => 0) firstOfTwo true (fun _ => some secondOfTwo) = some out ∧
      out = placed 32 1 firstOfTwo ++ placed 32 2 secondOfTwo := by
  have hsome : (loadTensors (fun _ _ => 0) firstOfTwo true
      (fun _ => some secondOfTwo)).isSome = true := by decide +kernel
  obtain ⟨out, hout⟩ := Option.isSome_iff_exists.mp hsome
  have hsplit : furtherShards true (splitCount (fun _ _ => 0) firstOfTwo) = [2] := by decide +kernel
  have halign : alignmentOf (fun _ _ => 0) firstOfTwo = 32 := by decide +kernel
  have hiff := loadTensors_placed hout
  rw [hsplit, halign] at hiff
  exact ⟨out, hout, hiff.mpr ⟨.inl (by decide +kernel), trivial⟩⟩

/-- Next to a shard that is cut off, the tensor of the first shard passes the gate and is looked up
in the mapping of the second one. -/
theorem cut_off_shard_moves :
    (placed 32 1 firstOfTwo).map TensorInfo.dataBase = [some ⟨1, 96⟩] ∧
      (loadTensors (fun _ _ => 0) firstOfTwo true (fun _ => some cutOff)).map
        (List.map fun info => (info.dataBase, info.inBounds)) =
          some [(some ⟨2, 64⟩, true), (some ⟨2, 64⟩, true)] := by
  decide +kernel

end Quench.Gguf

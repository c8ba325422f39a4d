import Mathlib.Algebra.Ring.Int.Defs
import Mathlib.Algebra.Ring.Nat
import Mathlib.Data.List.Forall2

/-!
# Reading a GGUF file

`BinaryReader` of `model/gguf_loader_internal.h` and `read_gguf_value` of `model/gguf_parse.cpp`. A
read past the end of the mapping returns zero and sets a flag, and the cursor stays inside the
mapping. The flag is not looked at by the next read.

A float is kept as its bits.

`readGgufValue_faithful` says when the reader agrees with the format; `readGgufValue_misreads` are
types and elements for which it does not.
-/

namespace Quench.Gguf

open List (Forall₂)

variable {v : Int} {b : List UInt8} {n : Nat}

/-- `BinaryReader`. -/
structure BinaryReader where
  data : List UInt8
  pos : Nat
  failed : Bool
  pos_le : pos ≤ data.length

/-- A number of the file. -/
def littleEndian : List UInt8 → Nat
  | [] => 0
  | b :: bytes => b.toNat + 256 * littleEndian bytes

/-- The signed reading of a number of so many bits. -/
def signed (bits v : Nat) : Int := if v < 2 ^ (bits - 1) then v else v - 2 ^ bits

namespace BinaryReader

def ofData (data : List UInt8) : BinaryReader := ⟨data, 0, false, Nat.zero_le _⟩

variable (r : BinaryReader)

def remaining : Nat := r.data.length - r.pos

def fail : BinaryReader := { r with failed := true }

def check (n : Nat) : Bool := decide (n ≤ r.remaining)

/-- The cursor behind a number of bytes that were checked. -/
def advance (n : Nat) (h : r.check n = true) : BinaryReader where
  data := r.data
  pos := r.pos + n
  failed := r.failed
  pos_le := by
    have := r.pos_le
    have := of_decide_eq_true h
    unfold remaining at this
    omega

/-- The bytes behind the cursor. -/
def bytes (n : Nat) : List UInt8 := (r.data.drop r.pos).take n

def align (alignment : Nat) : BinaryReader :=
  if r.pos % alignment = 0 then r
  else if h : r.check (alignment - r.pos % alignment) = true then r.advance _ h
  else r.fail

/-- `read` of a type of so many bytes. -/
def read (size : Nat) : Nat × BinaryReader :=
  if h : r.check size = true then (littleEndian (r.bytes size), r.advance size h) else (0, r.fail)

def readU8 : Nat × BinaryReader := r.read 1

def readU32 : Nat × BinaryReader := r.read 4

def readU64 : Nat × BinaryReader := r.read 8

/-- `read_string`: the length is read even if the read before it failed. -/
def readString : List UInt8 × BinaryReader :=
  let (len, r) := r.readU64
  if h : r.check len = true then
    if r.failed then ([], r.fail) else (r.bytes len, r.advance len h)
  else ([], r.fail)

/-- So many values, until a read fails: `read_array_elements`. -/
def readArray {α : Type} (readOne : BinaryReader → α × BinaryReader) :
    Nat → BinaryReader → List α × BinaryReader
  | 0, r => ([], r)
  | count + 1, r =>
    if r.failed then ([], r)
    else
      let (first, r) := readOne r
      let (rest, r) := readArray readOne count r
      (first :: rest, r)

/-- So many 64-bit numbers, whether or not a read fails. -/
def readU64s : Nat → BinaryReader → List Nat × BinaryReader
  | 0, r => ([], r)
  | count + 1, r =>
    let (first, r) := r.readU64
    let (rest, r) := readU64s count r
    (first :: rest, r)

end BinaryReader

/-! ## Metadata -/

/-- `GGUFValueType`. -/
inductive ValueType where
  | uint8
  | int8
  | uint16
  | int16
  | uint32
  | int32
  | float32
  | bool
  | string
  | array
  | uint64
  | int64
  | float64
  | unknown
  deriving DecidableEq

def ValueType.ofCode : Nat → ValueType
  | 0 => .uint8
  | 1 => .int8
  | 2 => .uint16
  | 3 => .int16
  | 4 => .uint32
  | 5 => .int32
  | 6 => .float32
  | 7 => .bool
  | 8 => .string
  | 9 => .array
  | 10 => .uint64
  | 11 => .int64
  | 12 => .float64
  | _ => .unknown

/-- `GGUFValue`: the field that its type fills. -/
inductive Value where
  | uint (v : Nat)
  | int (v : Int)
  | float (bytes bits : Nat)
  | str (text : List UInt8)
  | strArray (texts : List (List UInt8))
  | floatArray (bits : List Nat)
  | intArray (vs : List Int)
  | missing

open BinaryReader

/-- A signed number, and a signed number read from an unsigned one. -/
def readSigned (size : Nat) (r : BinaryReader) : Int × BinaryReader :=
  let (v, r) := r.read size
  (signed (8 * size) v, r)

variable (r : BinaryReader)

/-- An unsigned byte as a signed 32-bit number. -/
def readByte : Int × BinaryReader :=
  let (v, r) := r.readU8
  (v, r)

/-- An array of values. An element type without a reader of its own is a parse error. -/
def readArrayValue (elements : ValueType) (count : Nat) (r : BinaryReader) : Value × BinaryReader :=
  match elements with
  | .string => (readArray readString count r).map .strArray id
  | .float32 => (readArray readU32 count r).map .floatArray id
  | .int32 | .uint32 => (readArray (readSigned 4) count r).map .intArray id
  | .bool | .uint8 | .int8 => (readArray readByte count r).map .intArray id
  | _ => (.intArray [], r.fail)

/-- `read_gguf_value`. -/
def readGgufValue : ValueType → Value × BinaryReader
  | .uint8 | .bool => (r.read 1).map .uint id
  | .uint16 => (r.read 2).map .uint id
  | .uint32 => (r.read 4).map .uint id
  | .uint64 => (r.read 8).map .uint id
  | .int8 => (readSigned 1 r).map .int id
  | .int16 => (readSigned 2 r).map .int id
  | .int32 => (readSigned 4 r).map .int id
  | .int64 => (readSigned 8 r).map .int id
  | .float32 => (r.read 4).map (.float 4) id
  | .float64 => (r.read 8).map (.float 8) id
  | .string => r.readString.map .str id
  | .array =>
    let (elements, r) := r.readU32
    let (count, r) := r.readU64
    readArrayValue (.ofCode elements) count r
  | .unknown => (.missing, r)

/-- `val_uint`, for the conversion of a float of so many bytes to an unsigned number. -/
def valUint (castFloat : Nat → Nat → Nat) : Value → Nat
  | .uint v => v
  | .int v => (v % 2 ^ 64).toNat
  | .float bytes bits => castFloat bytes bits
  | _ => 0

/-- One entry of the metadata. -/
def readEntry : (List UInt8 × Value) × BinaryReader :=
  let (key, r) := r.readString
  let (vtype, r) := r.readU32
  let (value, r) := readGgufValue r (.ofCode vtype)
  ((key, value), r)

/-- The metadata, first entries first. -/
def readMetadata (kvCount : Nat) (r : BinaryReader) : List (List UInt8 × Value) × BinaryReader :=
  readArray readEntry kvCount r

/-! ## What a value denotes -/

/-- The encodings of numbers and strings. -/
inductive EncodesScalar (type : ValueType) (bytes : List UInt8) : Value → Prop where
  | unsigned {size : Nat} (hsize : bytes.length = size) (h : (type, size) ∈
        [(.uint8, 1), (.bool, 1), (.uint16, 2), (.uint32, 4), (.uint64, 8)]) :
      EncodesScalar type bytes (.uint (littleEndian bytes))
  | signed {size : Nat} (hsize : bytes.length = size)
      (h : (type, size) ∈ [(.int8, 1), (.int16, 2), (.int32, 4), (.int64, 8)]) :
      EncodesScalar type bytes (.int (signed (8 * size) (littleEndian bytes)))
  | float {size : Nat} (hsize : bytes.length = size)
      (h : (type, size) ∈ [(.float32, 4), (.float64, 8)]) :
      EncodesScalar type bytes (.float size (littleEndian bytes))
  | string {len text : List UInt8} (htype : type = .string) (hbytes : bytes = len ++ text)
      (hlen : len.length = 8) (h : littleEndian len = text.length) :
      EncodesScalar type bytes (.str text)

/-- An element of an array of integers. -/
def IsInt (type : ValueType) (b : List UInt8) (v : Int) : Prop :=
  EncodesScalar type b (.int v) ∨ ∃ n : Nat, EncodesScalar type b (.uint n) ∧ v = n

/-- The elements of an array, as values of their type. -/
def IsArray (type : ValueType) (parts : List (List UInt8)) : Value → Prop
  | .strArray texts => Forall₂ (fun b text => EncodesScalar type b (.str text)) parts texts
  | .floatArray bits => Forall₂ (fun b bits => EncodesScalar type b (.float 4 bits)) parts bits
  | .intArray vs => Forall₂ (IsInt type) parts vs
  | _ => False

/-- The encodings of the values of each type. An array has the type and the number of its elements
in front of them. -/
inductive Encodes (type : ValueType) (bytes : List UInt8) (v : Value) : Prop where
  | scalar (h : EncodesScalar type bytes v)
  | array {kind count : List UInt8} {parts : List (List UInt8)} (htype : type = .array)
      (hbytes : bytes = kind ++ (count ++ parts.flatten)) (hkind : kind.length = 4)
      (hcount : count.length = 8) (hlength : littleEndian count = parts.length)
      (h : IsArray (.ofCode (littleEndian kind)) parts v)

/-- A reading fails, or takes the bytes of an encoding and returns what they stand for. -/
def Reads {α : Type} (P : List UInt8 → α → Prop) (r : BinaryReader) (out : α × BinaryReader) :
    Prop :=
  out.2.failed = true ∨
    ∃ n, out.2.data = r.data ∧ out.2.pos = r.pos + n ∧ P (r.bytes n) out.1

/-- No number of an array of numbers of this size has its top bit set. -/
def Small (size count pos : Nat) (data : List UInt8) : Prop :=
  ∀ i < count, littleEndian ((data.drop (pos + size * i)).take size) < 2 ^ (8 * size - 1)

/-- An array of numbers of this size that is not read to its end, or without top bits. -/
def Safe (size count pos : Nat) (data : List UInt8) : Prop :=
  data.length < pos + size * count ∨ Small size count pos data

/-- What the reader does not look at: an unknown type, and the elements of an array that are stored
as signed 32-bit numbers after an unsigned reading, or the other way round. Nothing is returned by a
reader that has failed before. -/
def Faithful : ValueType → Prop
  | .unknown => r.failed = true
  | .array =>
    let safe (size : Nat) := r.failed = true ∨
      Safe size (littleEndian ((r.data.drop (r.pos + 4)).take 8)) (r.pos + 12) r.data
    match ValueType.ofCode (littleEndian (r.bytes 4)) with
    | .uint32 => safe 4
    | .int8 => safe 1
    | _ => True
  | _ => True

section Reads

variable {α β : Type} {P : List UInt8 → α → Prop} {r : BinaryReader} {out : α × BinaryReader}
  {Q : List UInt8 → β → Prop} {out' : β × BinaryReader} {size : Nat}

theorem Reads.mono (h : Reads P r out) (hout : out'.2 = out.2) (hQ : ∀ b, P b out.1 → Q b out'.1) :
    Reads Q r out' := by
  rw [Reads, hout]
  exact h.imp_right fun h => h.imp fun n h => ⟨h.1, h.2.1, hQ _ h.2.2⟩

/-- One reading after another. -/
theorem Reads.bind (h : Reads P r out) (hfail : out.2.failed = true → out'.2.failed = true)
    (hnext : out.2.failed = false → Reads Q out.2 out') :
    Reads (fun b v => ∃ b₁ b₂, b = b₁ ++ b₂ ∧ P b₁ out.1 ∧ Q b₂ v) r out' := by
  cases hfailed : out.2.failed with
  | true => exact .inl (hfail hfailed)
  | false =>
    rcases h with h | ⟨n, hdata, hpos, hP⟩
    · exact absurd h (by simp [hfailed])
    rcases hnext hfailed with h | ⟨m, hdata', hpos', hQ⟩
    · exact .inl h
    refine .inr ⟨n + m, hdata'.trans hdata, by omega, _, _, ?_, hP, hQ⟩
    rw [bytes, bytes, bytes, hdata, hpos, List.take_add, List.drop_drop]

theorem bytes_length (h : r.check n = true) : (r.bytes n).length = n := by
  have hle : n ≤ r.data.length - r.pos := of_decide_eq_true h
  simp [bytes, hle]

/-- Bytes that are split where the cursor comes by. -/
theorem bytes_inj {m : Nat} (hcheck : r.check n = true) {rest : List UInt8}
    (hb : b.length = n) (h : r.bytes (n + m) = b ++ rest) :
    r.bytes n = b ∧ (r.advance n hcheck).bytes m = rest := by
  rw [bytes, List.take_add, List.drop_drop] at h
  exact List.append_inj h ((bytes_length hcheck).trans hb.symm)

theorem read_reads (f : Nat → α) (size : Nat) (h : (r.bytes size).length = size →
    P (r.bytes size) (f (littleEndian (r.bytes size)))) : Reads P r ((r.read size).map f id) := by
  rw [BinaryReader.read]
  split
  next hcheck => exact .inr ⟨size, rfl, rfl, h (bytes_length hcheck)⟩
  next => exact .inl rfl

theorem read_number (r : BinaryReader) (size : Nat) :
    Reads (fun b v => b.length = size ∧ v = littleEndian b) r (r.read size) :=
  read_reads id size fun h => ⟨h, rfl⟩

theorem read_failed (size : Nat) (h : r.failed = true) : (r.read size).2.failed = true := by
  rw [BinaryReader.read]
  split
  · exact h
  · rfl

theorem read_ok (h : (r.read size).2.failed = false) :
    (r.read size).1 = littleEndian (r.bytes size) ∧ (r.read size).2.data = r.data ∧
      (r.read size).2.pos = r.pos + size := by
  rw [BinaryReader.read] at h ⊢
  split_ifs at h ⊢
  · exact ⟨rfl, rfl, rfl⟩
  · cases h

theorem readString_reads :
    Reads (fun b text => EncodesScalar .string b (.str text)) r r.readString := by
  have hread : Reads _ r r.readString := (read_number r 8).bind
    (Q := fun b text => b = text ∧ b.length = (r.read 8).1) ?_ ?_
  · refine hread.mono rfl fun b hb => ?_
    obtain ⟨len, _, hb, ⟨hlen, hvalue⟩, rfl, hlength⟩ := hb
    exact .string rfl hb hlen (hvalue ▸ hlength.symm)
  · intro h
    simp only [readString, readU64, h]
    split <;> rfl
  · intro h
    simp only [readString, readU64, h]
    split
    next hcheck => exact .inr ⟨_, rfl, rfl, rfl, bytes_length hcheck⟩
    next => exact .inl rfl

section Elements

variable {readOne : BinaryReader → α × BinaryReader} {count : Nat} {type : ValueType}

theorem readArray_failed (count : Nat) (h : r.failed = true) :
    (readArray readOne count r).2.failed = true := by
  cases count with
  | zero => exact h
  | succ count =>
    rw [readArray, if_pos h]
    exact h

/-- The elements of an array, as long as what is left of it is safe to read. -/
theorem readArray_reads {S : Nat → BinaryReader → Prop}
    (hone : ∀ count r, S (count + 1) r → Reads P r (readOne r))
    (hsafe : ∀ count r, S (count + 1) r → (readOne r).2.failed = false → S count (readOne r).2)
    (h : S count r) :
    Reads (fun b vs => ∃ parts, b = parts.flatten ∧ count = parts.length ∧ Forall₂ P parts vs) r
      (readArray readOne count r) := by
  induction count generalizing r with
  | zero => exact .inr ⟨0, rfl, rfl, [], rfl, rfl, .nil⟩
  | succ count ih =>
    rw [readArray]
    split
    next hfailed => exact .inl hfailed
    next =>
      have hread := (hone count r h).bind (readArray_failed count)
        fun hok => ih (hsafe count r h hok)
      refine hread.mono rfl fun b hb => ?_
      obtain ⟨b₁, _, hb, hP, parts, rfl, hlength, hparts⟩ := hb
      exact ⟨b₁ :: parts, hb, congrArg (· + 1) hlength, .cons hP hparts⟩

/-- An array of numbers, whose top bits may matter. -/
theorem readArray_numbers {f : Nat → α} (top : Prop) (h : top → Small size count r.pos r.data)
    (hone : ∀ b, b.length = size → (top → littleEndian b < 2 ^ (8 * size - 1)) →
      P b (f (littleEndian b))) :
    Reads (fun b vs => ∃ parts, b = parts.flatten ∧ count = parts.length ∧ Forall₂ P parts vs) r
      (readArray (fun r => (r.read size).map f id) count r) := by
  refine readArray_reads (S := fun count r => top → Small size count r.pos r.data) ?_ ?_ h
  · intro count r hsmall
    exact read_reads f size fun hlength => hone _ hlength fun htop => hsmall htop 0 (by omega)
  · intro count r hsmall hok htop i hi
    obtain ⟨-, hdata, hpos⟩ := read_ok hok
    have hnext := hsmall htop (i + 1) (by omega)
    rw [Nat.mul_succ, Nat.add_comm (size * i), ← Nat.add_assoc] at hnext
    rwa [← hpos, ← hdata] at hnext

/-- An array that runs past the end is not read. -/
theorem readArray_overrun {f : Nat → α} (h : r.data.length < r.pos + size * count) :
    (readArray (fun r => (r.read size).map f id) count r).2.failed = true := by
  induction count generalizing r with
  | zero => exact absurd r.pos_le (by omega)
  | succ count ih =>
    rw [readArray]
    split
    next hfailed => exact hfailed
    next =>
      cases hread : (r.read size).2.failed with
      | true => exact readArray_failed count hread
      | false =>
        obtain ⟨-, hdata, hpos⟩ := read_ok hread
        refine ih ?_
        rw [Nat.mul_succ] at h
        change (r.read size).2.data.length < (r.read size).2.pos + size * count
        rw [hdata, hpos]
        omega

/-- An array that fits is read to its end, and as what it encodes only if no top bit is set. -/
theorem readArray_fits {f : Nat → α} (hfailed : r.failed = false)
    (h : r.pos + size * count ≤ r.data.length)
    (hone : ∀ b, P b (f (littleEndian b)) → littleEndian b < 2 ^ (8 * size - 1))
    (hlength : ∀ b v, P b v → b.length = size) :
    let out := readArray (fun r => (r.read size).map f id) count r
    out.2.failed = false ∧ out.2.pos = r.pos + size * count ∧
      ∀ parts, r.bytes (size * count) = parts.flatten → count = parts.length →
        Forall₂ P parts out.1 → Small size count r.pos r.data := by
  induction count generalizing r with
  | zero => exact ⟨hfailed, rfl, fun _ _ _ _ i hi => absurd hi (Nat.not_lt_zero i)⟩
  | succ count ih =>
    rw [Nat.mul_succ] at h
    have hcheck : r.check size = true := decide_eq_true (by unfold remaining; omega)
    have hread : r.read size = (littleEndian (r.bytes size), r.advance size hcheck) :=
      dif_pos hcheck
    have hpos : (r.advance size hcheck).pos = r.pos + size := rfl
    have hrest : (r.advance size hcheck).pos + size * count ≤ r.data.length := by omega
    obtain ⟨hok, hend, hsmall⟩ := ih (r := r.advance size hcheck) hfailed hrest
    rw [readArray, if_neg (by rw [hfailed]; decide), hread]
    refine ⟨hok, hend.trans (by rw [hpos, Nat.mul_succ]; omega), ?_⟩
    intro _ hbytes hcount hall
    obtain ⟨b, parts, hP, hparts, rfl⟩ := List.forall₂_cons_right_iff.mp hall
    rw [Nat.mul_succ, Nat.add_comm] at hbytes
    obtain ⟨rfl, htail⟩ := bytes_inj hcheck (hlength _ _ hP) hbytes
    have hlater := hsmall parts htail (Nat.succ.inj hcount) hparts
    intro i hi
    cases i with
    | zero => exact hone _ hP
    | succ i =>
      have := hlater i (by omega)
      rw [hpos] at this
      rwa [Nat.mul_succ, Nat.add_comm (size * i), ← Nat.add_assoc]

theorem readArrayValue_failed (h : r.failed = true) :
    (readArrayValue type count r).2.failed = true := by
  cases type <;> first | exact readArray_failed count h | rfl

theorem readArrayValue_unknown
    (h : type ∉ [.string, .float32, .int32, .uint32, .bool, .uint8, .int8]) :
    (readArrayValue type count r).2.failed = true := by
  cases type <;> first | rfl | simp at h

theorem signed_of_lt (bits : Nat) {v : Nat} (h : v < 2 ^ (bits - 1)) : signed bits v = v := if_pos h

theorem readArrayValue_reads (hunsigned : type = .uint32 → Safe 4 count r.pos r.data)
    (hsigned : type = .int8 → Safe 1 count r.pos r.data) :
    Reads (fun b v => ∃ parts, b = parts.flatten ∧ count = parts.length ∧ IsArray type parts v) r
      (readArrayValue type count r) := by
  cases type with
  | string =>
    exact (readArray_reads (S := fun _ _ => True) (fun _ _ _ => readString_reads)
      (fun _ _ _ _ => trivial) trivial).mono rfl fun _ h => h
  | float32 =>
    exact (readArray_numbers (f := id) (P := fun b bits => EncodesScalar .float32 b (.float 4 bits))
      False nofun fun b hb _ => .float hb (by decide)).mono rfl fun _ h => h
  | int32 =>
    exact (readArray_numbers False nofun fun b hb _ => .inl (.signed hb (by decide))).mono rfl
      fun _ h => h
  | uint32 =>
    rcases hunsigned rfl with hover | hsmall
    · exact .inl (readArray_overrun hover)
    exact (readArray_numbers True (fun _ => hsmall) fun b hb hlt =>
      .inr ⟨_, .unsigned hb (by decide), signed_of_lt 32 (hlt trivial)⟩).mono rfl fun _ h => h
  | bool | uint8 =>
    exact (readArray_numbers (f := Nat.cast) False nofun fun b hb _ =>
      .inr ⟨_, .unsigned hb (by decide), rfl⟩).mono rfl fun _ h => h
  | int8 =>
    rcases hsigned rfl with hover | hsmall
    · exact .inl (readArray_overrun hover)
    refine (readArray_numbers (f := Nat.cast) True (fun _ => hsmall)
      fun b hb hlt => .inl ?_).mono rfl fun _ h => h
    rw [← signed_of_lt 8 (hlt trivial)]
    exact .signed hb (by decide)
  | _ => exact .inl rfl

end Elements

theorem readGgufValue_array (hsafe : Faithful r .array) :
    Reads (Encodes .array) r (readGgufValue r .array) := by
  have hread : Reads _ r (readArrayValue (.ofCode (r.read 4).1) ((r.read 4).2.read 8).1
      ((r.read 4).2.read 8).2) :=
    (read_number r 4).bind (fun h => readArrayValue_failed (read_failed 8 h)) fun hkind =>
      (read_number (r.read 4).2 8).bind readArrayValue_failed fun hcount =>
        readArrayValue_reads ?_ ?_
  · refine hread.mono rfl fun b hb => ?_
    obtain ⟨kind, _, hb, ⟨hkind, hvalue⟩, count, _, rfl, ⟨hcount, hvalue'⟩, parts, rfl, hlength,
      harray⟩ := hb
    refine .array rfl hb hkind hcount (hvalue' ▸ hlength) ?_
    rw [← hvalue]
    exact harray
  -- the condition is on the bytes at which the elements are read
  all_goals
    intro htype
    obtain ⟨hvalue, hdata, hpos⟩ := read_ok hkind
    obtain ⟨hvalue', hdata', hpos'⟩ := read_ok hcount
    rw [Faithful, ← hvalue, htype] at hsafe
    rw [hvalue', hdata', hpos', bytes, hdata, hpos]
    refine hsafe.resolve_left fun hfailed => ?_
    rw [read_failed 4 hfailed] at hkind
    cases hkind

end Reads

/-- An array whose head is there. -/
theorem readGgufValue_head {r : BinaryReader} (hfour : r.check 4 = true)
    (height : (r.advance 4 hfour).check 8 = true) :
    readGgufValue r .array = readArrayValue (.ofCode (littleEndian (r.bytes 4)))
      (littleEndian ((r.data.drop (r.pos + 4)).take 8))
      ((r.advance 4 hfour).advance 8 height) := by
  have hkind : r.readU32 = (littleEndian (r.bytes 4), r.advance 4 hfour) := dif_pos hfour
  have hcount : (r.advance 4 hfour).readU64 = (_, _) := dif_pos height
  rw [readGgufValue, hkind]
  dsimp only
  rw [hcount]
  rfl

theorem safe_of_reads {type : ValueType} {size : Nat} {f : Nat → Int}
    (hkind : ValueType.ofCode (littleEndian (r.bytes 4)) = type)
    (hvalue : ∀ count r, readArrayValue type count r =
      (readArray (fun r => (r.read size).map f id) count r).map .intArray id)
    (hone : ∀ b, IsInt type b (f (littleEndian b)) → littleEndian b < 2 ^ (8 * size - 1))
    (hlength : ∀ b v, IsInt type b v → b.length = size)
    (h : Reads (Encodes .array) r (readGgufValue r .array)) :
    r.failed = true ∨
      Safe size (littleEndian ((r.data.drop (r.pos + 4)).take 8)) (r.pos + 12) r.data := by
  by_contra hnot
  obtain ⟨hfailed, hsafe⟩ := not_or.mp hnot
  obtain ⟨hfits, hlarge⟩ := not_or.mp hsafe
  rw [Nat.not_lt] at hfits
  have hfour : r.check 4 = true := decide_eq_true (by unfold remaining; omega)
  have height : (r.advance 4 hfour).check 8 = true :=
    decide_eq_true (by unfold remaining advance; dsimp only; omega)
  obtain ⟨hok, hend, hsmall⟩ := readArray_fits (P := IsInt type) (f := f)
    (r := (r.advance 4 hfour).advance 8 height) (Bool.eq_false_iff.mpr hfailed) hfits hone hlength
  rw [readGgufValue_head hfour height, hkind, hvalue] at h
  generalize hcount : littleEndian ((r.data.drop (r.pos + 4)).take 8) = count at *
  rcases h with h | ⟨n, -, hpos, hcodes⟩
  · rw [Prod.map_snd, id, hok] at h
    cases h
  have hn : n = 4 + (8 + size * count) := by
    rw [Prod.map_snd, id, hend] at hpos
    exact Nat.add_left_cancel (hpos.symm.trans (by simp only [advance, Nat.add_assoc]))
  cases hcodes with
  | scalar h => cases h
  | array _ hbytes hfirst hsecond hlengths harray =>
    rw [hn] at hbytes
    obtain ⟨rfl, htail⟩ := bytes_inj hfour hfirst hbytes
    obtain ⟨rfl, hparts⟩ := bytes_inj height hsecond htail
    rw [hkind] at harray
    exact hlarge (hsmall _ hparts (hcount.symm.trans hlengths) harray)

theorem IsInt.uint32 (h : IsInt .uint32 b v) : b.length = 4 ∧ v = littleEndian b := by
  rcases h with h | ⟨n, h, rfl⟩
  · cases h with
    | signed _ hmem => simp at hmem
  · cases h with
    | unsigned hsize hmem => exact ⟨by simp_all, rfl⟩

theorem IsInt.int8 (h : IsInt .int8 b v) : b.length = 1 ∧ v = signed 8 (littleEndian b) := by
  rcases h with h | ⟨n, h, rfl⟩
  · cases h with
    | signed hsize hmem =>
      simp only [List.mem_cons, Prod.mk.injEq, reduceCtorEq, true_and, false_and, or_false,
        List.not_mem_nil] at hmem
      subst hmem
      exact ⟨hsize, rfl⟩
  · cases h with
    | unsigned _ hmem => simp at hmem

theorem faithful_of_reads {r : BinaryReader}
    (h : Reads (Encodes .array) r (readGgufValue r .array)) : Faithful r .array := by
  rw [Faithful]
  dsimp only
  split
  next hkind =>
    refine safe_of_reads r hkind (fun _ _ => rfl) (fun b hb => ?_)
      (fun b v hb => hb.uint32.1) h
    have hsame : signed 32 (littleEndian b) = littleEndian b := hb.uint32.2
    unfold signed at hsame
    split_ifs at hsame <;> omega
  next hkind =>
    refine safe_of_reads r hkind (fun _ _ => rfl) (fun b hb => ?_)
      (fun b v hb => hb.int8.1) h
    have hsame : (littleEndian b : Int) = signed 8 (littleEndian b) := hb.int8.2
    unfold signed at hsame
    split_ifs at hsame <;> omega
  next => trivial

/-- The reader fails or returns the value that the bytes encode, and it fails at a type and at an
array of elements that it does not know, if and only if nothing is hidden from it. -/
theorem readGgufValue_faithful (code : Nat) :
    (Reads (Encodes (.ofCode code)) r (readGgufValue r (.ofCode code)) ∧
      (ValueType.ofCode code = .unknown → (readGgufValue r (.ofCode code)).2.failed = true) ∧
      (ValueType.ofCode code = .array → .ofCode (littleEndian (r.bytes 4)) ∉
          [ValueType.string, .float32, .int32, .uint32, .bool, .uint8, .int8] →
        (readGgufValue r (.ofCode code)).2.failed = true)) ↔ Faithful r (.ofCode code) := by
  generalize ValueType.ofCode code = type
  have hsigned : ∀ size, (type, size) ∈ [(.int8, 1), (.int16, 2), (.int32, 4), (.int64, 8)] →
      Reads (Encodes type) r ((readSigned size r).map .int id) := fun size hsize =>
    read_reads (fun v => Value.int (signed (8 * size) v)) size
      fun hlength => Encodes.scalar (.signed hlength hsize)
  refine ⟨fun ⟨hreads, hunknown, _⟩ => ?_, fun h => ⟨?_, ?_, ?_⟩⟩
  · cases type with
    | unknown => exact hunknown rfl
    | array => exact faithful_of_reads hreads
    | _ => trivial
  · cases type with
    | unknown => exact .inl h
    | array => exact readGgufValue_array h
    | string => exact readString_reads.mono rfl fun _ h => .scalar h
    | uint8 | bool | uint16 | uint32 | uint64 =>
      exact read_reads _ _ fun hlength => .scalar (.unsigned hlength (by decide))
    | int8 | int16 | int32 | int64 => exact hsigned _ (by decide)
    | float32 | float64 => exact read_reads _ _ fun hlength => .scalar (.float hlength (by decide))
  · rintro rfl
    exact h
  · rintro rfl hunknown
    cases hkind : (r.read 4).2.failed with
    | true => exact readArrayValue_failed (read_failed 8 hkind)
    | false =>
      rw [← (read_ok hkind).1] at hunknown
      exact readArrayValue_unknown hunknown

/-- An unknown type is read without a failure, the signed byte `-1` of an array as `255`, and its
unsigned number `2 ^ 32 - 1` as `-1`. -/
theorem readGgufValue_misreads :
    (readGgufValue (.ofData []) (.ofCode 13)).2.failed = false ∧
      ((readGgufValue (.ofData [1, 0, 0, 0, 1, 0, 0, 0, 0, 0, 0, 0, 255]) .array).map id failed =
          (.intArray [255], false) ∧ EncodesScalar .int8 [255] (.int (-1))) ∧
      (readGgufValue (.ofData [4, 0, 0, 0, 1, 0, 0, 0, 0, 0, 0, 0, 255, 255, 255, 255]) .array).map
          id failed = (.intArray [-1], false) ∧
      EncodesScalar .uint32 [255, 255, 255, 255] (.uint (2 ^ 32 - 1)) :=
  ⟨rfl, ⟨rfl, .signed rfl (by decide)⟩, rfl, .unsigned rfl (by decide)⟩

end Quench.Gguf

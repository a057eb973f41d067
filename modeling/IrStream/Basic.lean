import Mathlib.Algebra.Group.Nat.Basic
import Mathlib.Data.List.Basic
import Mathlib.Algebra.Order.Ring.Nat
/-!
# Bytes, error codes and the protocol's constants

What `decoding_methods.cpp` takes from the rest of the library: the error codes, the two
encodings, and the tag bytes and magic numbers of `protocol_constants.hpp`. That header is
not in the sources, so its constants are the fields of `Protocol`, which also carries what
the protocol promises of them: the tags one parser position tells apart are distinct, and
so are the two magic numbers. Multi-byte integers on the wire are big-endian
(`bigEndian`, `beBytes`).
-/

namespace IrStream

/-- A byte of the stream (`char`, `encoded_tag_t`). -/
abbrev Byte := BitVec 8

/-- Bytes as the decoder reads them. -/
abbrev Bytes := List Byte

/-! ## Big-endian integers -/

/-- The value of `bytes`, most significant byte first: what `decode_int` makes of them
with `try_read_numeric_value` and the byte swap. -/
def bigEndian (bytes : Bytes) : Nat :=
  bytes.foldl (fun acc b => acc * 256 + b.toNat) 0

/-- The low `n` bytes of `v`, most significant first. -/
def beBytes : Nat → Nat → Bytes
  | 0, _ => []
  | n + 1, v => beBytes n (v / 256) ++ [BitVec.ofNat 8 v]

@[simp] theorem bigEndian_nil : bigEndian [] = 0 := rfl

@[simp] theorem bigEndian_append_byte (l : Bytes) (b : Byte) :
    bigEndian (l ++ [b]) = bigEndian l * 256 + b.toNat := by
  simp [bigEndian, List.foldl_append]

@[simp] theorem length_beBytes (n v : Nat) : (beBytes n v).length = n := by
  induction n generalizing v <;> simp [beBytes, *]

theorem bigEndian_beBytes (n v : Nat) : bigEndian (beBytes n v) = v % 256 ^ n := by
  induction n generalizing v with
  | zero => simp [beBytes, Nat.mod_one]
  | succ n ih =>
    rw [beBytes, bigEndian_append_byte, ih, Nat.pow_succ', Nat.mod_mul, BitVec.toNat_ofNat]
    omega

theorem bigEndian_lt (l : Bytes) : bigEndian l < 256 ^ l.length := by
  induction l using List.reverseRecOn with
  | nil => simp
  | append_singleton l b ih =>
    have := b.isLt
    rw [bigEndian_append_byte, List.length_append, List.length_singleton, Nat.pow_succ]
    omega

theorem bigEndian_cons (c : Byte) (l : Bytes) :
    bigEndian (c :: l) = c.toNat * 256 ^ l.length + bigEndian l := by
  induction l using List.reverseRecOn with
  | nil => simp [bigEndian]
  | append_singleton l b ih =>
    rw [← List.cons_append, bigEndian_append_byte, ih, bigEndian_append_byte, List.length_append,
      List.length_singleton, Nat.pow_succ, Nat.add_mul, Nat.mul_assoc, Nat.add_assoc]

/-- The bytes of a value read big-endian are the bytes read. -/
theorem beBytes_bigEndian (l : Bytes) : beBytes l.length (bigEndian l) = l := by
  induction l using List.reverseRecOn with
  | nil => rfl
  | append_singleton l b ih =>
    have := b.isLt
    rw [List.length_append, List.length_singleton, beBytes, bigEndian_append_byte,
      show (bigEndian l * 256 + b.toNat) / 256 = bigEndian l by omega, ih]
    congr 2
    apply BitVec.eq_of_toNat_eq
    simp only [BitVec.toNat_ofNat]
    omega

theorem beBytes_inj {n v v' : Nat} (hv : v < 256 ^ n) (hv' : v' < 256 ^ n)
    (h : beBytes n v = beBytes n v') : v = v' := by
  have := congrArg bigEndian h
  rwa [bigEndian_beBytes, bigEndian_beBytes, Nat.mod_eq_of_lt hv, Nat.mod_eq_of_lt hv'] at this

theorem two_pow_eight_mul (n : Nat) : 2 ^ (8 * n) = 256 ^ n := by
  rw [Nat.pow_mul]

/-! ## Error codes and encodings -/

/-- `IRErrorCode`, what the decoding functions return. -/
inductive IRErrorCode
  | success
  | decodeError
  | eof
  | corruptedIR
  | incompleteIR
  deriving DecidableEq, Repr

/-- The template argument `encoded_variable_t`: `eight_byte_encoded_variable_t`
(`int64_t`) or `four_byte_encoded_variable_t` (`int32_t`). -/
inductive Encoding
  | eightByte
  | fourByte
  deriving DecidableEq, Repr

/-- `sizeof(encoded_variable_t)`. -/
def Encoding.size : Encoding → Nat
  | eightByte => 8
  | fourByte => 4

/-- An encoded variable of the encoding. -/
abbrev Encoding.Var (e : Encoding) := BitVec (8 * e.size)

/-! ## Protocol constants -/

/-- The widths of a length field, named after the tags' suffixes `UByte`, `UShort`, `Int`. -/
inductive LengthWidth
  | uByte
  | uShort
  | int
  deriving DecidableEq, Repr

/-- The roles of the tags that may start a frame or follow a variable record. -/
inductive FrameTag
  | eof
  | varEncoding (e : Encoding)
  | varStrLen (w : LengthWidth)
  | logtypeStrLen (w : LengthWidth)
  deriving DecidableEq, Repr

/-- The constants of `cProtocol` the decoder reads, and what the protocol promises of
them: the tags of distinct frame roles are distinct, as are the three timestamp-delta
tags, the two metadata length tags (they are the labels of one `switch`) and the two magic
numbers. -/
structure Protocol where
  frameTag : FrameTag → Byte
  frame_tag_injective : Function.Injective frameTag
  timestampVal : Byte
  timestampDeltaByte : Byte
  timestampDeltaShort : Byte
  timestampDeltaInt : Byte
  timestamp_delta_nodup : [timestampDeltaByte, timestampDeltaShort, timestampDeltaInt].Nodup
  metadataLengthUByte : Byte
  metadataLengthUShort : Byte
  metadata_length_ne : metadataLengthUByte ≠ metadataLengthUShort
  magicNumberLength : Nat
  fourByteEncodingMagicNumber : Bytes
  eightByteEncodingMagicNumber : Bytes
  four_byte_magic_length : fourByteEncodingMagicNumber.length = magicNumberLength
  eight_byte_magic_length : eightByteEncodingMagicNumber.length = magicNumberLength
  magic_ne : fourByteEncodingMagicNumber ≠ eightByteEncodingMagicNumber

namespace Protocol

variable (P : Protocol)

/-- `cProtocol::Eof`. -/
def eof : Byte := P.frameTag .eof

/-- The encoded-variable tag of each encoding: `Payload::VarEightByteEncoding`,
`Payload::VarFourByteEncoding`. -/
def varEncoding (e : Encoding) : Byte := P.frameTag (.varEncoding e)

/-- The `Payload::VarStrLen…` tag of each width. -/
def varStrLen (w : LengthWidth) : Byte := P.frameTag (.varStrLen w)

/-- The `Payload::LogtypeStrLen…` tag of each width. -/
def logtypeStrLen (w : LengthWidth) : Byte := P.frameTag (.logtypeStrLen w)

/-- The magic number of each encoding. -/
def magicNumber : Encoding → Bytes
  | .eightByte => P.eightByteEncodingMagicNumber
  | .fourByte => P.fourByteEncodingMagicNumber

variable {P}

theorem varStrLen_inj {w w' : LengthWidth} : P.varStrLen w = P.varStrLen w' ↔ w = w' :=
  ⟨fun h => by cases P.frame_tag_injective h; rfl, fun h => h ▸ rfl⟩

theorem logtypeStrLen_inj {w w' : LengthWidth} :
    P.logtypeStrLen w = P.logtypeStrLen w' ↔ w = w' :=
  ⟨fun h => by cases P.frame_tag_injective h; rfl, fun h => h ▸ rfl⟩

theorem varStrLen_ne_logtypeStrLen (w w' : LengthWidth) : P.varStrLen w ≠ P.logtypeStrLen w' :=
  fun h => by cases P.frame_tag_injective h

theorem varEncoding_ne_varStrLen (e : Encoding) (w : LengthWidth) :
    P.varEncoding e ≠ P.varStrLen w :=
  fun h => by cases P.frame_tag_injective h

theorem varEncoding_ne_logtypeStrLen (e : Encoding) (w : LengthWidth) :
    P.varEncoding e ≠ P.logtypeStrLen w :=
  fun h => by cases P.frame_tag_injective h

theorem eof_ne_varStrLen (w : LengthWidth) : P.eof ≠ P.varStrLen w :=
  fun h => by cases P.frame_tag_injective h

theorem eof_ne_logtypeStrLen (w : LengthWidth) : P.eof ≠ P.logtypeStrLen w :=
  fun h => by cases P.frame_tag_injective h

theorem eof_ne_varEncoding (e : Encoding) : P.eof ≠ P.varEncoding e :=
  fun h => by cases P.frame_tag_injective h

theorem timestampDelta_ne : P.timestampDeltaByte ≠ P.timestampDeltaShort ∧
    P.timestampDeltaByte ≠ P.timestampDeltaInt ∧ P.timestampDeltaShort ≠ P.timestampDeltaInt := by
  simpa [and_assoc] using P.timestamp_delta_nodup

/-! ## A protocol to evaluate the model on -/

/-- Frame tags for `Protocol.sample`. -/
def sampleFrameTag : FrameTag → Byte
  | .eof => 0x00
  | .varEncoding .fourByte => 0x18
  | .varEncoding .eightByte => 0x19
  | .varStrLen .uByte => 0x11
  | .varStrLen .uShort => 0x12
  | .varStrLen .int => 0x13
  | .logtypeStrLen .uByte => 0x21
  | .logtypeStrLen .uShort => 0x22
  | .logtypeStrLen .int => 0x23

theorem sampleFrameTag_injective : Function.Injective sampleFrameTag := by
  intro a b h
  rcases a with _ | (_ | _) | (_ | _ | _) | (_ | _ | _) <;>
    rcases b with _ | (_ | _) | (_ | _ | _) | (_ | _ | _) <;>
    first | rfl | exact absurd h (by decide)

/-- A protocol whose constants keep every promise of `Protocol`, to run the model on
concrete streams. -/
def sample : Protocol where
  frameTag := sampleFrameTag
  frame_tag_injective := sampleFrameTag_injective
  timestampVal := 0x30
  timestampDeltaByte := 0x31
  timestampDeltaShort := 0x32
  timestampDeltaInt := 0x33
  timestamp_delta_nodup := by decide
  metadataLengthUByte := 0x11
  metadataLengthUShort := 0x12
  metadata_length_ne := by decide
  magicNumberLength := 4
  fourByteEncodingMagicNumber := [0xFD, 0x2F, 0xB5, 0x29]
  eightByteEncodingMagicNumber := [0xFD, 0x2F, 0xB5, 0x30]
  four_byte_magic_length := rfl
  eight_byte_magic_length := rfl
  magic_ne := by decide

end Protocol

end IrStream

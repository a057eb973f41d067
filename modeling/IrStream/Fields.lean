import IrStream.Reader
/-!
# The field parsers

`is_variable_tag`, `parse_logtype`, `parse_dictionary_var` and `parse_timestamp`. The two
string parsers differ only in their tags, so they are `parseLengthPrefixed` applied to
each kind's tags. Each parser gets its evaluation lemmas here: what it returns when the
bytes it needs are there, and that it is stable under more input.
-/

namespace IrStream

open Decoder

/-- The bytes of a length field's integer: `uint8_t`, `uint16_t`, `int32_t`. -/
def LengthWidth.size : LengthWidth → Nat
  | .uByte => 1
  | .uShort => 2
  | .int => 4

/-- The lengths a field of the width carries: the non-negative values of its type. -/
def LengthWidth.limit : LengthWidth → Nat
  | .uByte => 2 ^ 8
  | .uShort => 2 ^ 16
  | .int => 2 ^ 31

variable (P : Protocol)

/-- `is_variable_tag`: `some is_encoded_var` for a variable tag of the encoding, `none`
for any other tag. -/
def isVariableTag (e : Encoding) (tag : Byte) : Option Bool :=
  if tag = P.varStrLen .uByte ∨ tag = P.varStrLen .uShort ∨ tag = P.varStrLen .int then
    some false
  else if tag = P.varEncoding e then some true
  else none

/-- A length field's `decode_int` of the width's integer type, converted to `size_t`. -/
def decodeLength : LengthWidth → Decoder Nat
  | .uByte => do
    let length ← decodeInt 1
    pure length.toNat
  | .uShort => do
    let length ← decodeInt 2
    pure length.toNat
  | .int => do
    let length ← decodeInt 4
    pure (length.signExtend 64).toNat

/-- The length branch of `parse_logtype` and `parse_dictionary_var` that the tag selects
among the length tags `lenTag` of their kind; any other tag is `IRErrorCode_Corrupted_IR`. -/
def decodeLengthOf (lenTag : LengthWidth → Byte) (encodedTag : Byte) : Decoder Nat :=
  if encodedTag = lenTag .uByte then decodeLength .uByte
  else if encodedTag = lenTag .uShort then decodeLength .uShort
  else if encodedTag = lenTag .int then decodeLength .int
  else fail .corruptedIR

/-- The body of `parse_logtype` and `parse_dictionary_var`: the length, then that many
bytes (`try_read_string`). -/
def parseLengthPrefixed (lenTag : LengthWidth → Byte) (encodedTag : Byte) : Decoder Bytes := do
  let length ← decodeLengthOf lenTag encodedTag
  readExact length

/-- `parse_logtype`. -/
def parseLogtype (encodedTag : Byte) : Decoder Bytes :=
  parseLengthPrefixed P.logtypeStrLen encodedTag

/-- `parse_dictionary_var`. -/
def parseDictionaryVar (encodedTag : Byte) : Decoder Bytes :=
  parseLengthPrefixed P.varStrLen encodedTag

/-- `parse_timestamp`: the timestamp itself for the eight-byte encoding, a delta
sign-extended to `epoch_time_ms_t` for the four-byte one. -/
def parseTimestamp : Encoding → Byte → Decoder (BitVec 64)
  | .eightByte, encodedTag =>
    if P.timestampVal ≠ encodedTag then fail .corruptedIR else decodeInt 8
  | .fourByte, encodedTag =>
    if P.timestampDeltaByte = encodedTag then do
      let tsDelta ← decodeInt 1
      pure (tsDelta.signExtend 64)
    else if P.timestampDeltaShort = encodedTag then do
      let tsDelta ← decodeInt 2
      pure (tsDelta.signExtend 64)
    else if P.timestampDeltaInt = encodedTag then do
      let tsDelta ← decodeInt 4
      pure (tsDelta.signExtend 64)
    else fail .corruptedIR

/-! ## Lengths -/

/-- An `int32_t` length converted to `size_t`: itself when non-negative, and at least
`2^64 - 2^31` otherwise. -/
theorem toNat_signExtend_int32 (v : BitVec 32) :
    (v.signExtend 64).toNat = if v.toNat < 2 ^ 31 then v.toNat else v.toNat + (2 ^ 64 - 2 ^ 32) := by
  have := v.isLt
  simp only [BitVec.signExtend, BitVec.toNat_ofInt, BitVec.toInt_eq_toNat_cond]
  split <;> split <;> omega

/-- The length a width's field holds, read from its bytes. -/
def LengthWidth.value (w : LengthWidth) (bytes : Bytes) : Nat :=
  match w with
  | .int => ((BitVec.ofNat 32 (bigEndian bytes)).signExtend 64).toNat
  | _ => bigEndian bytes

variable {P} {r : Reader} {w : LengthWidth}

theorem decodeLength_of_le (h : w.size ≤ r.rest.length) :
    decodeLength w r = (.ok (w.value (r.rest.take w.size)), r.skip w.size) := by
  have hlt := bigEndian_lt (r.rest.take w.size)
  rw [List.length_take_of_le h] at hlt
  cases w <;>
    simp only [decodeLength, LengthWidth.size, LengthWidth.value] at h hlt ⊢ <;>
    rw [bind_of_ok (decodeInt_of_le h), pure_apply]
  all_goals rw [BitVec.toNat_ofNat, Nat.mod_eq_of_lt (by omega)]

theorem decodeLength_of_lt (h : r.rest.length < w.size) :
    decodeLength w r = (.error .incompleteIR, r) := by
  cases w <;> exact bind_of_error (decodeInt_of_lt h)

/-- The length read back from the bytes of a length the width carries. -/
theorem value_beBytes {n : Nat} (hn : n < w.limit) : w.value (beBytes w.size n) = n := by
  cases w <;> simp only [LengthWidth.value, LengthWidth.size, LengthWidth.limit] at hn ⊢ <;>
    rw [bigEndian_beBytes, Nat.mod_eq_of_lt (by omega)]
  rw [toNat_signExtend_int32, BitVec.toNat_ofNat, Nat.mod_eq_of_lt (by omega), if_pos hn]

/-- A length short of `2^63` is one the width carries, and its bytes are those of the
length. -/
theorem value_lt_limit {bytes : Bytes} (hb : bytes.length = w.size)
    (h : w.value bytes < 2 ^ 63) : w.value bytes < w.limit ∧ beBytes w.size (w.value bytes) = bytes := by
  have hlt := bigEndian_lt bytes
  rw [hb] at hlt
  have hbe := beBytes_bigEndian bytes
  rw [hb] at hbe
  cases w <;> simp only [LengthWidth.value, LengthWidth.size, LengthWidth.limit] at h hlt hbe ⊢
  · exact ⟨by omega, hbe⟩
  · exact ⟨by omega, hbe⟩
  · rw [toNat_signExtend_int32, BitVec.toNat_ofNat, Nat.mod_eq_of_lt (by omega)] at h ⊢
    split at h
    · rw [if_pos ‹_›]; exact ⟨‹_›, hbe⟩
    · omega

theorem decodeLength_eq_ok {n : Nat} {r' : Reader} :
    decodeLength w r = (.ok n, r') ↔
      w.size ≤ r.rest.length ∧ n = w.value (r.rest.take w.size) ∧ r' = r.skip w.size := by
  rcases Nat.lt_or_ge r.rest.length w.size with h | h
  · simp [decodeLength_of_lt h, Nat.not_le.2 h]
  · simp only [decodeLength_of_le h, Prod.mk.injEq, Except.ok.injEq, h, true_and]
    exact ⟨fun ⟨h₁, h₂⟩ => ⟨h₁.symm, h₂.symm⟩, fun ⟨h₁, h₂⟩ => ⟨h₁.symm, h₂.symm⟩⟩

theorem decodeLength_eq_error {e : IRErrorCode} {r' : Reader} :
    decodeLength w r = (.error e, r') ↔ r.rest.length < w.size ∧ e = .incompleteIR ∧ r' = r := by
  rcases Nat.lt_or_ge r.rest.length w.size with h | h
  · simp only [decodeLength_of_lt h, Prod.mk.injEq, Except.error.injEq, h, true_and]
    exact ⟨fun ⟨h₁, h₂⟩ => ⟨h₁.symm, h₂.symm⟩, fun ⟨h₁, h₂⟩ => ⟨h₁.symm, h₂.symm⟩⟩
  · simp [decodeLength_of_le h, Nat.not_lt.2 h]

/-! ## Tags -/

section Tags

variable {lenTag : LengthWidth → Byte} {tag : Byte}

/-- The tag selects the width it is the tag of; a tag of none is corrupted IR. -/
theorem decodeLengthOf_cases (lenTag : LengthWidth → Byte) (tag : Byte) :
    (∃ w, tag = lenTag w ∧ decodeLengthOf lenTag tag = decodeLength w) ∨
      ((∀ w, tag ≠ lenTag w) ∧ decodeLengthOf lenTag tag = fail .corruptedIR) := by
  unfold decodeLengthOf
  by_cases h₁ : tag = lenTag .uByte
  · exact .inl ⟨_, h₁, if_pos h₁⟩
  by_cases h₂ : tag = lenTag .uShort
  · exact .inl ⟨_, h₂, by rw [if_neg h₁, if_pos h₂]⟩
  by_cases h₃ : tag = lenTag .int
  · exact .inl ⟨_, h₃, by rw [if_neg h₁, if_neg h₂, if_pos h₃]⟩
  · refine .inr ⟨fun w => by cases w <;> assumption, by rw [if_neg h₁, if_neg h₂, if_neg h₃]⟩

theorem decodeLengthOf_tag (hinj : Function.Injective lenTag) (w : LengthWidth) :
    decodeLengthOf lenTag (lenTag w) = decodeLength w := by
  rcases decodeLengthOf_cases lenTag (lenTag w) with ⟨w', hw, h⟩ | ⟨h, -⟩
  · rwa [← hinj hw] at h
  · exact absurd rfl (h w)

end Tags

theorem isVariableTag_varStrLen (e : Encoding) (w : LengthWidth) :
    isVariableTag P e (P.varStrLen w) = some false := by
  cases w <;> simp [isVariableTag]

theorem isVariableTag_varEncoding (e : Encoding) :
    isVariableTag P e (P.varEncoding e) = some true := by
  simp [isVariableTag, Protocol.varEncoding_ne_varStrLen]

theorem isVariableTag_logtypeStrLen (e : Encoding) (w : LengthWidth) :
    isVariableTag P e (P.logtypeStrLen w) = none := by
  simp [isVariableTag, Ne.symm (Protocol.varStrLen_ne_logtypeStrLen _ _),
    Ne.symm (Protocol.varEncoding_ne_logtypeStrLen _ _)]

/-- A variable tag is a `VarStrLen…` tag, which announces a dictionary variable, or the
encoding's encoded-variable tag. -/
theorem isVariableTag_eq_some {e : Encoding} {tag : Byte} {b : Bool}
    (h : isVariableTag P e tag = some b) :
    (b = false ∧ ∃ w, tag = P.varStrLen w) ∨ (b = true ∧ tag = P.varEncoding e) := by
  unfold isVariableTag at h
  split at h
  · rename_i ht
    rcases ht with ht | ht | ht <;> exact .inl ⟨(Option.some.inj h).symm, _, ht⟩
  · split at h
    · exact .inr ⟨(Option.some.inj h).symm, ‹_›⟩
    · cases h

theorem ne_eof_of_isVariableTag {e : Encoding} {tag : Byte} {b : Bool}
    (h : isVariableTag P e tag = some b) : tag ≠ P.eof := by
  rcases isVariableTag_eq_some h with ⟨-, w, rfl⟩ | ⟨-, rfl⟩
  exacts [(P.eof_ne_varStrLen w).symm, (P.eof_ne_varEncoding e).symm]

theorem stable_decodeLength (w : LengthWidth) : Stable (decodeLength w) := by
  cases w <;> exact (stable_decodeInt _).bind fun _ => stable_pure _

theorem stable_parseLengthPrefixed (lenTag : LengthWidth → Byte) (tag : Byte) :
    Stable (parseLengthPrefixed lenTag tag) := by
  refine Stable.bind ?_ fun _ => stable_readExact _
  unfold decodeLengthOf
  repeat' apply Stable.ite
  all_goals first | exact stable_decodeLength _ | exact stable_fail _

theorem stable_parseTimestamp (e : Encoding) (tag : Byte) : Stable (parseTimestamp P e tag) := by
  cases e <;> simp only [parseTimestamp]
  · exact Stable.ite (stable_fail _) (stable_decodeInt 8)
  · repeat' apply Stable.ite
    all_goals first | exact stable_fail _ | exact (stable_decodeInt _).bind fun _ => stable_pure _

theorem readsForward_decodeLength (w : LengthWidth) : ReadsForward (decodeLength w) := by
  cases w <;> exact (readsForward_decodeInt _).bind fun _ => readsForward_pure _

theorem readsForward_parseLengthPrefixed (lenTag : LengthWidth → Byte) (tag : Byte) :
    ReadsForward (parseLengthPrefixed lenTag tag) := by
  refine ReadsForward.bind ?_ fun _ => readsForward_readExact _
  unfold decodeLengthOf
  repeat' apply ReadsForward.ite
  all_goals first | exact readsForward_decodeLength _ | exact readsForward_fail _

theorem readsForward_parseTimestamp (e : Encoding) (tag : Byte) :
    ReadsForward (parseTimestamp P e tag) := by
  cases e <;> simp only [parseTimestamp]
  · exact ReadsForward.ite (readsForward_fail _) (readsForward_decodeInt 8)
  · repeat' apply ReadsForward.ite
    all_goals first
      | exact readsForward_fail _
      | exact (readsForward_decodeInt _).bind fun _ => readsForward_pure _

section Failures

variable {S : IRErrorCode → Prop} (hi : S .incompleteIR) (hc : S .corruptedIR)
include hi

theorem failsWithin_decodeLength (w : LengthWidth) : FailsWithin S (decodeLength w) := by
  cases w <;> exact (failsWithin_decodeInt hi _).bind fun _ => failsWithin_pure _

/-- Under a length tag of its kind, a length-prefixed string is at worst incomplete. -/
theorem failsWithin_parseLengthPrefixed_tag {lenTag : LengthWidth → Byte}
    (hinj : Function.Injective lenTag) (w : LengthWidth) :
    FailsWithin S (parseLengthPrefixed lenTag (lenTag w)) := by
  unfold parseLengthPrefixed
  rw [decodeLengthOf_tag hinj]
  exact (failsWithin_decodeLength hi w).bind fun _ => failsWithin_readExact hi _

include hc

theorem failsWithin_parseLengthPrefixed (lenTag : LengthWidth → Byte) (tag : Byte) :
    FailsWithin S (parseLengthPrefixed lenTag tag) := by
  refine FailsWithin.bind ?_ fun _ => failsWithin_readExact hi _
  unfold decodeLengthOf
  repeat' apply FailsWithin.ite
  all_goals first | exact failsWithin_decodeLength hi _ | exact failsWithin_fail hc

theorem failsWithin_parseTimestamp (e : Encoding) (tag : Byte) :
    FailsWithin S (parseTimestamp P e tag) := by
  cases e <;> simp only [parseTimestamp]
  · exact FailsWithin.ite (failsWithin_fail hc) (failsWithin_decodeInt hi 8)
  · repeat' apply FailsWithin.ite
    all_goals first
      | exact failsWithin_fail hc
      | exact (failsWithin_decodeInt hi _).bind fun _ => failsWithin_pure _

end Failures

end IrStream

import IrStream.Fields
/-!
# The preamble

`get_encoding_type` reads the magic number, `read_metadata_info` the metadata's type and
length, and the two forms of `decode_preamble` then either seek past the metadata or copy
it out. On an error the reference parameters may be partly written; no caller reads them
then, and the model returns only the code.
-/

namespace IrStream

open Decoder

variable (P : Protocol)

/-- `get_encoding_type`: whether the stream uses the four-byte encoding. -/
def getEncodingType : Decoder Bool := do
  let buffer ← readExact P.magicNumberLength
  if buffer = P.fourByteEncodingMagicNumber then pure true
  else if buffer = P.eightByteEncodingMagicNumber then pure false
  else fail .corruptedIR

/-- The metadata length of `read_metadata_info`'s `switch`, for its length tag. -/
def decodeMetadataSize (encodedTag : Byte) : Decoder (BitVec 16) :=
  if encodedTag = P.metadataLengthUByte then do
    let ubyteRes ← decodeInt 1
    pure (ubyteRes.setWidth 16)
  else if encodedTag = P.metadataLengthUShort then do
    let ushortRes ← decodeInt 2
    pure ushortRes
  else fail .corruptedIR

/-- `read_metadata_info`: the metadata's type and size. -/
def readMetadataInfo : Decoder (Byte × BitVec 16) := do
  let metadataType ← readTag
  -- Read metadata length
  let encodedTag ← readTag
  let metadataSize ← decodeMetadataSize P encodedTag
  pure (metadataType, metadataSize)

/-- `decode_preamble`, the form that seeks past the metadata: its type, position and size. -/
def decodePreambleSeek : Decoder (Byte × Nat × BitVec 16) := do
  let (metadataType, metadataSize) ← readMetadataInfo P
  let metadataPos ← getPos
  seekFromBegin (metadataPos + metadataSize.toNat)
  pure (metadataType, metadataPos, metadataSize)

/-- `decode_preamble`, the form that copies the metadata out: its type and bytes. -/
def decodePreambleCopy : Decoder (Byte × Bytes) := do
  let (metadataType, metadataSize) ← readMetadataInfo P
  let metadata ← readExact metadataSize.toNat
  pure (metadataType, metadata)

/-! ## The two forms agree -/

theorem readsForward_readMetadataInfo : ReadsForward (readMetadataInfo P) := by
  refine readsForward_readTag.bind fun _ => readsForward_readTag.bind fun _ =>
    ReadsForward.bind ?_ fun _ => readsForward_pure _
  unfold decodeMetadataSize
  repeat' apply ReadsForward.ite
  all_goals first
    | exact readsForward_fail _
    | exact (readsForward_decodeInt _).bind fun _ => readsForward_pure _

/-- Both forms return the same code; on success the same metadata type, the copy holds the
stream's bytes from the seek form's position on for its size, and both readers end past the
metadata. -/
theorem decodePreamble_forms_agree (r : Reader) :
    code (decodePreambleSeek P r).1 = code (decodePreambleCopy P r).1 ∧
    ∀ metadataType pos size r₁, decodePreambleSeek P r = (.ok (metadataType, pos, size), r₁) →
      ∃ r₂, decodePreambleCopy P r =
          (.ok (metadataType, (r.bytes.drop pos).take size.toNat), r₂) ∧
        ((r.bytes.drop pos).take size.toNat).length = size.toNat ∧
        r₁.pos = pos + size.toNat ∧ r₂.pos = pos + size.toNat := by
  rcases hi : readMetadataInfo P r with ⟨err | ⟨metadataType, size⟩, r₀⟩
  · simp only [decodePreambleSeek, decodePreambleCopy, bind_apply, hi]
    exact ⟨rfl, fun _ _ _ _ h => by cases h⟩
  · have hb := (readsForward_readMetadataInfo P r _ r₀ hi).1
    have hr₀ := r₀.pos_le
    by_cases hs : size.toNat ≤ r₀.rest.length
    · have hseek : r₀.pos + size.toNat ≤ r₀.bytes.length := by
        simp only [Reader.rest, List.length_drop] at hs; omega
      simp only [decodePreambleSeek, decodePreambleCopy, bind_apply, hi, getPos_apply,
        seekFromBegin_apply, dif_pos hseek, readExact_of_le hs, pure_apply]
      refine ⟨rfl, ?_⟩
      rintro _ _ _ _ ⟨⟩
      have hrest : r₀.rest = r.bytes.drop r₀.pos := by rw [Reader.rest, hb]
      rw [← hrest]
      exact ⟨_, rfl, List.length_take_of_le hs, rfl, Reader.pos_skip hs⟩
    · have hseek : ¬ r₀.pos + size.toNat ≤ r₀.bytes.length := by
        simp only [Reader.rest, List.length_drop] at hs; omega
      simp only [decodePreambleSeek, decodePreambleCopy, bind_apply, hi, getPos_apply,
        seekFromBegin_apply, dif_neg hseek, readExact_of_lt (Nat.lt_of_not_le hs)]
      exact ⟨rfl, fun _ _ _ _ h => by cases h⟩

/-! ## Decisions are final -/

theorem stable_decodeMetadataSize (tag : Byte) : Stable (decodeMetadataSize P tag) := by
  unfold decodeMetadataSize
  repeat' apply Stable.ite
  all_goals first
    | exact stable_fail _
    | exact (stable_decodeInt _).bind fun _ => stable_pure _

theorem stable_readMetadataInfo : Stable (readMetadataInfo P) :=
  stable_readTag.bind fun _ => stable_readTag.bind fun _ =>
    (stable_decodeMetadataSize P _).bind fun _ => stable_pure _

theorem stable_getEncodingType : Stable (getEncodingType P) :=
  (stable_readExact _).bind fun _ =>
    Stable.ite (stable_pure _) (Stable.ite (stable_pure _) (stable_fail _))

theorem stable_decodePreambleSeek : Stable (decodePreambleSeek P) :=
  (stable_readMetadataInfo P).bind fun _ => stable_getPos.bind fun _ =>
    (stable_seekFromBegin _).bind fun _ => stable_pure _

theorem stable_decodePreambleCopy : Stable (decodePreambleCopy P) :=
  (stable_readMetadataInfo P).bind fun _ => (stable_readExact _).bind fun _ => stable_pure _

/-- Once `get_encoding_type` or either form of `decode_preamble` answers anything but
`IRErrorCode_Incomplete_IR`, more bytes after the reader's buffer change nothing: the same
answer, and the reader at the same position. -/
theorem stable_preamble :
    Stable (getEncodingType P) ∧ Stable (decodePreambleSeek P) ∧ Stable (decodePreambleCopy P) :=
  ⟨stable_getEncodingType P, stable_decodePreambleSeek P, stable_decodePreambleCopy P⟩

end IrStream

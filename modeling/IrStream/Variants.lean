import IrStream.Run
/-!
# Decoding with the other encoding

`four_byte_encoding::decode_next_message` and `eight_byte_encoding::decode_next_message` are
`generic_decode_next_message` at two encodings, which differ in the encoded-variable tag and the
timestamp tags they accept. A caller that calls the wrong one, having read the encoding flag of
`get_encoding_type` wrongly or mixed two streams, is told so at the first frame.

`readMessages_other_encoding`: on a frame of one encoding, whatever follows, the other
encoding's decoder answers `IRErrorCode_Corrupted_IR`, the caller's loop returns no message, and
the message and the timestamp are left as they were. The decoder reads the frame's dictionary
variables as its own and stops at the first encoded variable's tag or, if there is none, at the
timestamp's tag. The encoded-variable tags differ by `Protocol.frame_tag_injective`; that the
timestamp tags differ (`TimestampVal` is none of the `TimestampDelta…` tags, as in the protocol's
constants) is a hypothesis.
-/

namespace IrStream

open Decoder

variable {P : Protocol} {e e' : Encoding} {r : Reader}

section Tags

variable (he : e ≠ e')
include he

/-- The other encoding's variable records never carry this encoding's encoded-variable tag. -/
theorem VarRecord.tag_ne_varEncoding (v : VarRecord e') : v.tag P ≠ P.varEncoding e := by
  cases v with
  | encoded _ => exact fun h => he (FrameTag.varEncoding.inj (P.frame_tag_injective h)).symm
  | dictionary s => exact (P.varEncoding_ne_varStrLen e s.width).symm

/-- The other encoding's timestamp records never carry this encoding's timestamp tags. -/
theorem TimestampRecord.tag_ne_of_encoding
    (hts : P.timestampVal ∉ [P.timestampDeltaByte, P.timestampDeltaShort, P.timestampDeltaInt])
    (tr : TimestampRecord e) (tr' : TimestampRecord e') : tr'.tag P ≠ tr.tag P := by
  simp only [List.mem_cons, List.not_mem_nil, or_false, not_or] at hts
  cases tr <;> cases tr' <;> first | exact absurd rfl he | simp [TimestampRecord.tag, hts, Ne.symm]

end Tags

/-- The other encoding's decoder on the rest of a frame, after dictionary records `ds` that it
reads as its own: it stops, corrupted, at the first encoded variable's tag or, if there is none,
at the timestamp's tag. -/
theorem decodeFrame_other_encoding (he : e ≠ e')
    (hts : P.timestampVal ∉ [P.timestampDeltaByte, P.timestampDeltaShort, P.timestampDeltaInt])
    (L : LengthPrefixed) (tr : TimestampRecord e) (x : Bytes) (vs : List (VarRecord e))
    (ds : List (VarRecord e'))
    (hr : r.rest = varsToBytes P ds ++
      (varsToBytes P vs ++ (L.toBytes P.logtypeStrLen ++ (tr.toBytes P ++ x)))) :
    (decodeFrame P e' r).1 = .error .corruptedIR := by
  induction vs generalizing ds with
  | nil =>
    have h₀ : r.rest =
        varsToBytes P ds ++ (L.toBytes P.logtypeStrLen ++ tr.tag P :: (tr.payload ++ x)) := by
      simpa [TimestampRecord.toBytes] using hr
    exact decodeFrame_misplaced_timestamp_tag h₀ (TimestampRecord.tag_ne_of_encoding he hts tr)
  | cons v vs ih =>
    cases v with
    | encoded val =>
      have h₀ : r.rest = varsToBytes P ds ++ P.varEncoding e :: (beBytes e.size val.toNat ++
          (varsToBytes P vs ++ (L.toBytes P.logtypeStrLen ++ (tr.toBytes P ++ x)))) := by
        simpa [VarRecord.toBytes, VarRecord.tag, VarRecord.payload] using hr
      exact decodeFrame_misplaced_tag h₀ (.inr (P.eof_ne_varEncoding e).symm)
        (VarRecord.tag_ne_varEncoding he) fun w => (P.varEncoding_ne_logtypeStrLen e w).symm
    | dictionary s =>
      exact ih (ds ++ [.dictionary s])
        (by simpa [varsToBytes_append, VarRecord.toBytes, VarRecord.tag, VarRecord.payload] using hr)

/-- Decoding a frame with the other encoding: `generic_decode_next_message` answers
`IRErrorCode_Corrupted_IR` and leaves the message and the timestamp as they were, and the loop of
the spec's lifecycle returns no message. -/
theorem readMessages_other_encoding (he : e ≠ e')
    (hts : P.timestampVal ∉ [P.timestampDeltaByte, P.timestampDeltaShort, P.timestampDeltaInt])
    (ph : Placeholders) (d : VarDecoders (8 * e'.size)) (f : Frame e) {x : Bytes}
    (hr : r.rest = f.toBytes P ++ x) (message : Bytes) (timestamp : BitVec 64) :
    let o := genericDecodeNextMessage P e' ph d r message timestamp
    readMessages P e' ph d r message timestamp = ([], o) ∧ o.code = .corruptedIR ∧
      o.message = message ∧ o.timestamp = timestamp := by
  have hf := decodeFrame_other_encoding he hts f.logtype f.timestamp x f.vars []
    (by simpa [Frame.toBytes] using hr)
  have ho : genericDecodeNextMessage P e' ph d r message timestamp =
      ⟨.corruptedIR, (decodeFrame P e' r).2, message, timestamp⟩ :=
    genericDecodeNextMessage_of_frame_error ph d hf
  refine ⟨readMessages_of_ne_success (by rw [ho]; nofun), ?_⟩
  rw [ho]
  exact ⟨rfl, rfl, rfl⟩

/-- A four-byte frame read by the eight-byte decoder. -/
theorem readMessages_other_encoding_sample :
    let reader := Reader.ofBytes (sampleFrame.toBytes Protocol.sample)
    let o := genericDecodeNextMessage Protocol.sample .eightByte Placeholders.sample
      (VarDecoders.sample 64) reader [] 0
    readMessages Protocol.sample .eightByte Placeholders.sample (VarDecoders.sample 64) reader [] 0 =
        ([], o) ∧ o.code = .corruptedIR ∧ o.message = [] ∧ o.timestamp = 0 :=
  readMessages_other_encoding (by decide) (by decide) _ _ sampleFrame (List.append_nil _).symm _ _

end IrStream

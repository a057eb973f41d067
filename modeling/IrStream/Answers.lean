import IrStream.Errors
/-!
# The answers of `generic_decode_next_message`, exactly

What each code `generic_decode_next_message` returns says about the bytes it was given,
as an equivalence with the grammar of `Wire` (`FrameAnswer`): `Eof` exactly at an `Eof`
tag; success or a decode error exactly on bytes that start with a frame, as
`decode_message` renders the frame's logtype or throws; incomplete IR exactly on bytes
that end inside a frame or reach a negative `int32_t` length; corrupted IR exactly when a
tag appears where the grammar does not allow it. `Errors` proves one direction of the
incomplete and the corrupted cases; this module proves the others and assembles
`genericDecodeNextMessage_code_iff`.
-/

namespace IrStream

open Decoder

variable {P : Protocol} {e : Encoding} {r : Reader}

/-! ## Tags out of place, and what each answer means -/

/-- `b` has, after variable records of the encoding (one at least, or the tag is not
`Eof`), a tag that is neither a variable tag of the encoding nor a logtype tag. -/
def MisplacedTag (P : Protocol) (e : Encoding) (b : Bytes) : Prop :=
  ∃ (vs : List (VarRecord e)) (t : Byte) (y : Bytes), b = varsToBytes P vs ++ t :: y ∧
    (vs ≠ [] ∨ t ≠ P.eof) ∧ (∀ v : VarRecord e, v.tag P ≠ t) ∧ ∀ w, P.logtypeStrLen w ≠ t

/-- `b` has, after variable records and a logtype record, a tag that is not a timestamp tag
of the encoding. -/
def MisplacedTimestampTag (P : Protocol) (e : Encoding) (b : Bytes) : Prop :=
  ∃ (vs : List (VarRecord e)) (s : LengthPrefixed) (t : Byte) (y : Bytes),
    b = varsToBytes P vs ++ (s.toBytes P.logtypeStrLen ++ t :: y) ∧
      ∀ tr : TimestampRecord e, tr.tag P ≠ t

/-- What the bytes `b` are when `generic_decode_next_message` answers `c` on them. -/
def FrameAnswer (P : Protocol) (e : Encoding) (ph : Placeholders) (d : VarDecoders (8 * e.size)) :
    IRErrorCode → Bytes → Prop
  | .eof, b => ∃ y, b = P.eof :: y
  | .success, b => ∃ (f : Frame e) (x m : Bytes), b = f.toBytes P ++ x ∧
      decodeMessage ph d f.logtype.bytes f.encodedVars f.dictVars = .ok m
  | .decodeError, b => ∃ (f : Frame e) (x : Bytes) (ex : EncodingException), b = f.toBytes P ++ x ∧
      decodeMessage ph d f.logtype.bytes f.encodedVars f.dictVars = .error ex
  | .incompleteIR, b => (∃ f : Frame e, ProperPrefix b (f.toBytes P)) ∨ NegativeLength P e b
  | .corruptedIR, b => MisplacedTag P e b ∨ MisplacedTimestampTag P e b

/-! ## `Eof` -/

/-- `decodeFrame` answers `IRErrorCode_Eof` only at an `Eof` tag. -/
theorem decodeFrame_eq_eof (hr : r.rest.length < 2 ^ 63) (h : (decodeFrame P e r).1 = .error .eof) :
    ∃ y, r.rest = P.eof :: y := by
  rcases decodeFrame_eq_error hr h with
    ⟨-, ⟨⟩⟩ | ⟨y, hy, -⟩ | ⟨_, _, _, -, h₁⟩ | ⟨_, _, _, _, -, -, -, h₂⟩ |
    ⟨_, _, -, ⟨⟩⟩ | ⟨_, _, _, _, _, -, h₄⟩
  · exact ⟨y, hy⟩
  · exact absurd rfl (failsWithin_decodeVariables P e (S := fun c => c ≠ .eof) nofun _ _ _ _ _ _ h₁)
  · exact absurd rfl (failsWithin_parseLengthPrefixed (S := fun c => c ≠ .eof) nofun nofun _ _ _ _ _ h₂)
  · exact absurd rfl (failsWithin_parseTimestamp (S := fun c => c ≠ .eof) nofun nofun _ _ _ _ _ h₄)

/-! ## Incomplete IR -/

/-- A negative `int32_t` length is incomplete IR: too short to read, or, as a `size_t`,
longer than the bytes left. -/
theorem parseLengthPrefixed_of_signBitSet {lenTag : LengthWidth → Byte}
    (hinj : Function.Injective lenTag) (hr : r.rest.length < 2 ^ 63) (hs : SignBitSet r.rest) :
    ∃ r', parseLengthPrefixed lenTag (lenTag .int) r = (.error .incompleteIR, r') := by
  unfold parseLengthPrefixed
  rw [decodeLengthOf_tag hinj]
  rcases Nat.lt_or_ge r.rest.length LengthWidth.int.size with h | h
  · exact ⟨r, bind_of_error (decodeLength_of_lt h)⟩
  have hv : ¬ LengthWidth.int.value (r.rest.take LengthWidth.int.size) < 2 ^ 63 := by
    rw [value_lt_two_pow_63 (List.length_take_of_le h), not_not]
    obtain ⟨c, y, hc, hb⟩ := hs
    exact ⟨rfl, c, y.take 3, by rw [hc]; rfl, hb⟩
  refine ⟨r.skip LengthWidth.int.size, ?_⟩
  rw [bind_of_ok (decodeLength_of_le h),
    readExact_of_lt (by simp only [Reader.rest_skip, List.length_drop]; omega)]

/-- On variable records and then a negative `int32_t` length, `decodeFrame` answers
incomplete IR, whatever follows. -/
theorem decodeFrame_of_negativeLength (hr : r.rest.length < 2 ^ 63) (h : NegativeLength P e r.rest) :
    (decodeFrame P e r).1 = .error .incompleteIR := by
  obtain ⟨vs, t, y, hb, ht, hs⟩ := h
  have hy : (r.skip ((varsToBytes P vs).length + 1)).rest = y := by simp [hb]
  have hlt := Reader.length_rest_skip_lt (n := (varsToBytes P vs).length + 1) hr
  rcases ht with rfl | rfl
  · obtain ⟨r', h'⟩ :=
      parseLengthPrefixed_of_signBitSet (fun _ _ => Protocol.varStrLen_inj.1) hlt (hy ▸ hs)
    have ha : appendVariable P e (P.varStrLen .int) false (vs.filterMap VarRecord.encodedVar?)
        (vs.filterMap VarRecord.dictionaryVar?) (r.skip ((varsToBytes P vs).length + 1)) =
        (.error .incompleteIR, r') := by
      rw [appendVariable, if_neg Bool.false_ne_true]
      exact bind_of_error h'
    rw [decodeFrame_after_records vs hb (.inr (Protocol.eof_ne_varStrLen _).symm),
      bind_of_error (decodeVariables_of_error (isVariableTag_varStrLen e _) (bind_of_error ha))]
  · obtain ⟨r', h'⟩ :=
      parseLengthPrefixed_of_signBitSet (fun _ _ => Protocol.logtypeStrLen_inj.1) hlt (hy ▸ hs)
    rw [decodeFrame_after_vars vs hb (.inr (Protocol.eof_ne_logtypeStrLen _).symm)
      (isVariableTag_logtypeStrLen e _), parseLogtype, bind_of_error h']

/-- The negative-length slip of `parse_logtype` and `parse_dictionary_var`. Each reads a
`LogtypeStrLenInt` or `VarStrLenInt` length as an `int32_t` and assigns it to a `size_t`, so the
length `-1` asks `try_read_string` for `2^64 - 1` bytes, and for either encoding the call answers
`IRErrorCode_Incomplete_IR`, whatever bytes follow. Their doc comments answer invalid IR with
`IRErrorCode_Corrupted_IR`, and no bytes can complete this frame. -/
theorem genericDecodeNextMessage_negative_int32_length (e : Encoding) (d : VarDecoders (8 * e.size))
    {t : Byte} (ht : t = 0x13 ∨ t = 0x23) {s : Bytes} (hs : s.length + 5 < 2 ^ 63) :
    (genericDecodeNextMessage Protocol.sample e Placeholders.sample d
      (Reader.ofBytes (t :: [0xFF, 0xFF, 0xFF, 0xFF] ++ s)) [] 0).code = .incompleteIR := by
  refine genericDecodeNextMessage_code_of_error _ _
    (decodeFrame_of_negativeLength ?_ ⟨[], t, _, rfl, ht, 0xFF, _, rfl, by decide⟩)
  simp only [Reader.rest_ofBytes, List.cons_append, List.nil_append, List.length_cons]
  omega

/-- The four-byte decoder on a `LogtypeStrLenInt` length of `-1`, and the eight-byte decoder on
a `VarStrLenInt` length of `-1` followed by the start of a logtype record. -/
theorem genericDecodeNextMessage_negative_int32_length_sample :
    ([] : Bytes).length + 5 < 2 ^ 63 ∧
      (genericDecodeNextMessage Protocol.sample .fourByte Placeholders.sample (VarDecoders.sample 32)
        (Reader.ofBytes [0x23, 0xFF, 0xFF, 0xFF, 0xFF]) [] 0).code = .incompleteIR ∧
      (genericDecodeNextMessage Protocol.sample .eightByte Placeholders.sample (VarDecoders.sample 64)
        (Reader.ofBytes [0x13, 0xFF, 0xFF, 0xFF, 0xFF, 0x21, 0x00]) [] 0).code = .incompleteIR :=
  ⟨by decide, genericDecodeNextMessage_negative_int32_length .fourByte _ (.inr rfl) (s := []) (by decide),
    genericDecodeNextMessage_negative_int32_length .eightByte _ (.inl rfl) (s := [0x21, 0x00])
      (by decide)⟩

/-- On bytes that end inside a frame, `decodeFrame` answers incomplete IR: any other answer
it would give again on the whole frame, and there it stops at the frame's end. -/
theorem decodeFrame_of_properPrefix {f : Frame e} (h : ProperPrefix r.rest (f.toBytes P)) :
    (decodeFrame P e r).1 = .error .incompleteIR := by
  obtain ⟨x, hx, hfx⟩ := h
  have hs := decodeFrame_toBytes (x := []) f (r := r.append x)
    (by rw [Reader.rest_append, hfx, List.append_nil])
  exact (stable_decodeFrame P e).incomplete_of_append hx (by rwa [hfx])

/-! ## Corrupted IR -/

theorem failsWithin_parseTimestamp_tag {S : IRErrorCode → Prop} (hi : S .incompleteIR)
    (tr : TimestampRecord e) : FailsWithin S (parseTimestamp P e (tr.tag P)) := by
  rcases parseTimestamp_cases (P := P) e (tr.tag P) with ⟨n, mk, -, hp⟩ | ⟨hne, -⟩
  · rw [funext hp]
    exact (failsWithin_decodeInt hi n).bind fun _ => failsWithin_pure _
  · exact absurd rfl (hne tr)

/-- `decodeFrame` answers corrupted IR only on a tag out of place. -/
theorem decodeFrame_eq_corrupted (hr : r.rest.length < 2 ^ 63)
    (h : (decodeFrame P e r).1 = .error .corruptedIR) :
    MisplacedTag P e r.rest ∨ MisplacedTimestampTag P e r.rest := by
  rcases decodeFrame_eq_error hr h with ⟨-, ⟨⟩⟩ | ⟨_, -, ⟨⟩⟩ | ⟨_, _, _, -, h₁⟩ |
    ⟨vs, t, r₁, _, hvs, hstart, hnone, h₂⟩ | ⟨_, _, -, ⟨⟩⟩ | ⟨vs, s, t, r₁, _, hvs, h₄⟩
  · cases failsWithin_decodeVariables P e (S := fun c => c = .incompleteIR) rfl _ _ _ _ _ _ h₁
  · refine .inl ⟨vs, t, _, hvs, hstart, fun v hv => ?_, fun w hw => ?_⟩
    · rw [← hv, isVariableTag_tag] at hnone
      cases hnone
    · rw [← hw] at h₂
      cases failsWithin_parseLengthPrefixed_tag (S := fun c => c = .incompleteIR) rfl
        (fun _ _ => Protocol.logtypeStrLen_inj.1) w _ _ _ h₂
  · refine .inr ⟨vs, s, t, _, hvs, fun tr htr => ?_⟩
    rw [← htr] at h₄
    cases failsWithin_parseTimestamp_tag (S := fun c => c = .incompleteIR) rfl tr _ _ _ h₄

/-! ## The answers -/

section Answers

variable (ph : Placeholders) (d : VarDecoders (8 * e.size)) {message : Bytes}
  {timestamp : BitVec 64}

/-- The code of `generic_decode_next_message`: `decodeFrame`'s error, or success or a decode
error as `decode_message` renders the frame's logtype or throws. -/
theorem genericDecodeNextMessage_code :
    (genericDecodeNextMessage P e ph d r message timestamp).code =
      match (decodeFrame P e r).1 with
      | .error c => c
      | .ok (logtype, encodedVars, dictVars, _) =>
        match decodeMessage ph d logtype encodedVars dictVars with
        | .ok _ => .success
        | .error _ => .decodeError := by
  unfold genericDecodeNextMessage
  rcases decodeFrame P e r with ⟨c | ⟨L, E, D, ts⟩, r'⟩
  · rfl
  · dsimp only
    rcases decodeMessage ph d L E D with ex | m <;> rfl

theorem genericDecodeNextMessage_code_eq_error_iff {c : IRErrorCode} (hs : c ≠ .success)
    (hd : c ≠ .decodeError) :
    (genericDecodeNextMessage P e ph d r message timestamp).code = c ↔
      (decodeFrame P e r).1 = .error c := by
  rw [genericDecodeNextMessage_code]
  rcases (decodeFrame P e r).1 with c' | ⟨L, E, D, ts⟩
  · exact ⟨fun h => h ▸ rfl, fun h => Except.error.inj h⟩
  · refine ⟨fun h => ?_, nofun⟩
    dsimp only at h
    split at h
    · exact absurd h.symm hs
    · exact absurd h.symm hd

/-- On a frame, `generic_decode_next_message` answers as `decode_message` does on it. -/
theorem genericDecodeNextMessage_code_of_frame {f : Frame e} {x : Bytes}
    (hx : r.rest = f.toBytes P ++ x) :
    (genericDecodeNextMessage P e ph d r message timestamp).code =
      match decodeMessage ph d f.logtype.bytes f.encodedVars f.dictVars with
      | .ok _ => .success
      | .error _ => .decodeError := by
  rw [genericDecodeNextMessage_code, decodeFrame_toBytes f hx]

/-- On a frame whose logtype `decode_message` cannot render, `generic_decode_next_message` moves
past the frame and writes its timestamp, but not the message. -/
theorem genericDecodeNextMessage_of_frame_decodeError {f : Frame e} {x : Bytes}
    {ex : EncodingException} (hx : r.rest = f.toBytes P ++ x)
    (hm : decodeMessage ph d f.logtype.bytes f.encodedVars f.dictVars = .error ex) :
    genericDecodeNextMessage P e ph d r message timestamp =
      ⟨.decodeError, r.skip (f.toBytes P).length, message, f.timestamp.value⟩ := by
  rw [genericDecodeNextMessage, decodeFrame_toBytes f hx]
  simp only [hm]

/-- Success and a decode error come only from a frame at the start of the bytes. -/
theorem exists_frame_of_code (hr : r.rest.length < 2 ^ 63) {c : IRErrorCode}
    (hc : c = .success ∨ c = .decodeError)
    (h : (genericDecodeNextMessage P e ph d r message timestamp).code = c) :
    ∃ (f : Frame e) (x : Bytes), r.rest = f.toBytes P ++ x ∧
      c = match decodeMessage ph d f.logtype.bytes f.encodedVars f.dictVars with
        | .ok _ => .success
        | .error _ => .decodeError := by
  rw [genericDecodeNextMessage_code] at h
  rcases hf : (decodeFrame P e r).1 with c' | ⟨L, E, D, ts⟩ <;> rw [hf] at h
  · have := (failsWithin_decodeFrame P e (S := fun c => c ≠ .success ∧ c ≠ .decodeError)
      ⟨nofun, nofun⟩ ⟨nofun, nofun⟩ ⟨nofun, nofun⟩).of_fst hf
    rw [← h] at hc
    exact absurd hc (by simpa only [not_or] using this)
  · obtain ⟨f, hx, -, rfl, rfl, rfl, rfl⟩ := decodeFrame_eq_ok hr (Prod.ext hf rfl)
    exact ⟨f, _, hx, h.symm⟩

/-- `generic_decode_next_message` answers `c` exactly when the bytes are as `FrameAnswer`
says for `c`: the grammar and `decode_message` alone decide the answer. -/
theorem genericDecodeNextMessage_code_iff (hr : r.rest.length < 2 ^ 63) (c : IRErrorCode) :
    (genericDecodeNextMessage P e ph d r message timestamp).code = c ↔
      FrameAnswer P e ph d c r.rest := by
  cases c with
  | eof =>
    rw [genericDecodeNextMessage_code_eq_error_iff ph d (c := .eof) nofun nofun]
    exact ⟨decodeFrame_eq_eof hr, fun ⟨y, hy⟩ => by rw [decodeFrame_eof hy]⟩
  | incompleteIR =>
    rw [genericDecodeNextMessage_code_eq_error_iff ph d (c := .incompleteIR) nofun nofun]
    refine ⟨fun h => decodeFrame_eq_incomplete hr (Prod.ext h rfl), ?_⟩
    rintro (⟨f, hf⟩ | hn)
    · exact decodeFrame_of_properPrefix hf
    · exact decodeFrame_of_negativeLength hr hn
  | corruptedIR =>
    rw [genericDecodeNextMessage_code_eq_error_iff ph d (c := .corruptedIR) nofun nofun]
    refine ⟨decodeFrame_eq_corrupted hr, ?_⟩
    rintro (⟨vs, t, y, hb, hstart, hv, hl⟩ | ⟨vs, s, t, y, hb, ht⟩)
    · exact decodeFrame_misplaced_tag hb hstart hv hl
    · exact decodeFrame_misplaced_timestamp_tag hb ht
  | success =>
    refine ⟨fun h => ?_, fun ⟨f, x, m, hx, hm⟩ => by
      rw [genericDecodeNextMessage_code_of_frame ph d hx, hm]⟩
    obtain ⟨f, x, hx, hc⟩ := exists_frame_of_code ph d hr (.inl rfl) h
    rcases hm : decodeMessage ph d f.logtype.bytes f.encodedVars f.dictVars with ex | m <;> rw [hm] at hc
    · cases hc
    · exact ⟨f, x, m, hx, hm⟩
  | decodeError =>
    refine ⟨fun h => ?_, fun ⟨f, x, ex, hx, hm⟩ => by
      rw [genericDecodeNextMessage_code_of_frame ph d hx, hm]⟩
    obtain ⟨f, x, hx, hc⟩ := exists_frame_of_code ph d hr (.inr rfl) h
    rcases hm : decodeMessage ph d f.logtype.bytes f.encodedVars f.dictVars with ex | m <;> rw [hm] at hc
    · exact ⟨f, x, ex, hx, hm⟩
    · cases hc

theorem genericDecodeNextMessage_code_iff_negative_length :
    (Reader.ofBytes [0x23, 0xFF]).rest.length < 2 ^ 63 ∧
      ((genericDecodeNextMessage Protocol.sample .fourByte Placeholders.sample (VarDecoders.sample 32)
        (Reader.ofBytes [0x23, 0xFF]) [] 0).code = .incompleteIR ↔
        FrameAnswer Protocol.sample .fourByte Placeholders.sample (VarDecoders.sample 32) .incompleteIR
          (Reader.ofBytes [0x23, 0xFF]).rest) :=
  ⟨by decide, genericDecodeNextMessage_code_iff _ _ (by decide) _⟩

/-- Where `generic_decode_next_message` leaves the reader on `IRErrorCode_Corrupted_IR`: right
after the tag that is out of place, so that the byte before the reader is the offending tag. It
follows variable records (it is then the frame's first tag if there are none, and not `Eof`),
or variable records and the logtype record. -/
theorem genericDecodeNextMessage_corrupted_reader (hr : r.rest.length < 2 ^ 63) :
    let o := genericDecodeNextMessage P e ph d r message timestamp
    o.code = .corruptedIR ↔ ∃ (vs : List (VarRecord e)) (t : Byte),
      (r.rest = varsToBytes P vs ++ t :: o.reader.rest ∧ (vs ≠ [] ∨ t ≠ P.eof) ∧
        (∀ v : VarRecord e, v.tag P ≠ t) ∧ ∀ w, P.logtypeStrLen w ≠ t) ∨
      ∃ s : LengthPrefixed,
        r.rest = varsToBytes P vs ++ (s.toBytes P.logtypeStrLen ++ t :: o.reader.rest) ∧
          ∀ tr : TimestampRecord e, tr.tag P ≠ t := by
  dsimp only
  rw [genericDecodeNextMessage_code_eq_error_iff ph d (c := .corruptedIR) nofun nofun,
    genericDecodeNextMessage_reader]
  constructor
  · intro h
    rcases decodeFrame_eq_corrupted hr h with ⟨vs, t, y, hy, hstart, hv, hl⟩ | ⟨vs, s, t, y, hy, ht⟩
    · rw [(decodeFrame_of_misplacedTag hy hstart hv hl).2]
      exact ⟨vs, t, .inl ⟨hy, hstart, hv, hl⟩⟩
    · rw [(decodeFrame_of_misplacedTimestampTag hy ht).2]
      exact ⟨vs, t, .inr ⟨s, hy, ht⟩⟩
  · rintro ⟨vs, t, ⟨hy, hstart, hv, hl⟩ | ⟨s, hy, ht⟩⟩
    exacts [(decodeFrame_of_misplacedTag hy hstart hv hl).1,
      (decodeFrame_of_misplacedTimestampTag hy ht).1]

/-- What `generic_decode_next_message` leaves in its reference parameters when it does not
succeed. On `IRErrorCode_Decode_Error` it has read a frame and moved past it, and
`parse_timestamp` has already written the frame's timestamp, while the message is left as it
was. On every other code but success, the message and the timestamp are left as they were. -/
theorem genericDecodeNextMessage_outputs (hr : r.rest.length < 2 ^ 63) :
    let o := genericDecodeNextMessage P e ph d r message timestamp
    (o.code = .decodeError → o.message = message ∧ ∃ (f : Frame e) (x : Bytes),
      r.rest = f.toBytes P ++ x ∧ o.reader.rest = x ∧ o.timestamp = f.timestamp.value) ∧
    (o.code ≠ .success → o.code ≠ .decodeError → o.message = message ∧ o.timestamp = timestamp) := by
  dsimp only
  refine ⟨fun h => ?_, fun hs hd => ?_⟩
  · obtain ⟨f, x, hx, -⟩ := exists_frame_of_code ph d hr (.inr rfl) h
    rcases hm : decodeMessage ph d f.logtype.bytes f.encodedVars f.dictVars with ex | m
    · rw [genericDecodeNextMessage_of_frame_decodeError ph d hx hm]
      exact ⟨rfl, f, x, hx, by simp [hx], rfl⟩
    · rw [genericDecodeNextMessage_code_of_frame ph d hx, hm] at h
      cases h
  · rcases hf : (decodeFrame P e r).1 with c | ⟨L, E, D, ts⟩
    · rw [genericDecodeNextMessage_of_frame_error ph d hf]
      exact ⟨rfl, rfl⟩
    · rw [genericDecodeNextMessage_code, hf] at hs hd
      rcases hm : decodeMessage ph d L E D with _ | _ <;> simp [hm] at hs hd

theorem genericDecodeNextMessage_outputs_sample :
    (Reader.ofBytes [0x41]).rest.length < 2 ^ 63 ∧
      let o := genericDecodeNextMessage Protocol.sample .fourByte Placeholders.sample
        (VarDecoders.sample 32) (Reader.ofBytes [0x41]) [0x61] 5
      (o.code = .decodeError → o.message = [0x61] ∧ ∃ (f : Frame .fourByte) (x : Bytes),
        (Reader.ofBytes [0x41]).rest = f.toBytes Protocol.sample ++ x ∧ o.reader.rest = x ∧
          o.timestamp = f.timestamp.value) ∧
      (o.code ≠ .success → o.code ≠ .decodeError → o.message = [0x61] ∧ o.timestamp = 5) :=
  ⟨by decide, genericDecodeNextMessage_outputs _ _ (by decide)⟩

/-- On a byte that is no tag of the protocol. -/
theorem genericDecodeNextMessage_corrupted_reader_sample :
    (Reader.ofBytes [0x41, 0x42]).rest.length < 2 ^ 63 ∧
      let o := genericDecodeNextMessage Protocol.sample .fourByte Placeholders.sample
        (VarDecoders.sample 32) (Reader.ofBytes [0x41, 0x42]) [] 0
      o.code = .corruptedIR ↔ ∃ (vs : List (VarRecord .fourByte)) (t : Byte),
        ((Reader.ofBytes [0x41, 0x42]).rest = varsToBytes Protocol.sample vs ++ t :: o.reader.rest ∧
          (vs ≠ [] ∨ t ≠ Protocol.sample.eof) ∧ (∀ v : VarRecord .fourByte, v.tag Protocol.sample ≠ t) ∧
          ∀ w, Protocol.sample.logtypeStrLen w ≠ t) ∨
        ∃ s : LengthPrefixed, (Reader.ofBytes [0x41, 0x42]).rest = varsToBytes Protocol.sample vs ++
            (s.toBytes Protocol.sample.logtypeStrLen ++ t :: o.reader.rest) ∧
          ∀ tr : TimestampRecord .fourByte, tr.tag Protocol.sample ≠ t :=
  ⟨by decide, genericDecodeNextMessage_corrupted_reader _ _ (by decide)⟩

end Answers

end IrStream

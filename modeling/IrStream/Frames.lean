import IrStream.NextMessage
import IrStream.Wire
/-!
# The frame parser against the grammar

Each parser, from the field parsers up to `decodeFrame`, is related to the grammar of
`Wire` twice. Completeness: on the bytes of a record, followed by anything, it returns the
record's value and moves past exactly the record. Soundness: when it returns a value, the
bytes it moved past are the record of that value. Soundness of the string parsers needs
the reader to hold fewer than `2^63` bytes, since a negative `int32_t` length becomes a
`size_t` near `2^64` and only a read that fails keeps it out of the result.
-/

namespace IrStream

open Decoder

variable {P : Protocol} {e : Encoding} {r r' : Reader} {x : Bytes}

/-! ## Strings -/

section Strings

variable {lenTag : LengthWidth → Byte}

theorem LengthPrefixed.length_payload (s : LengthPrefixed) :
    s.payload.length = s.width.size + s.bytes.length := by
  simp [payload]

theorem parseLengthPrefixed_payload (hinj : Function.Injective lenTag) (s : LengthPrefixed)
    (hr : r.rest = s.payload ++ x) :
    parseLengthPrefixed lenTag (lenTag s.width) r = (.ok s.bytes, r.skip s.payload.length) := by
  have hs : s.width.size ≤ r.rest.length := by simp [hr, LengthPrefixed.payload]
  have htake : r.rest.take s.width.size = beBytes s.width.size s.bytes.length := by
    simp [hr, LengthPrefixed.payload]
  have hrest : (r.skip s.width.size).rest = s.bytes ++ x := by
    simp [hr, LengthPrefixed.payload]
  unfold parseLengthPrefixed
  rw [decodeLengthOf_tag hinj, bind_of_ok (decodeLength_of_le hs), htake, value_beBytes s.fits,
    readExact_of_le (by simp [hrest]), hrest, Reader.skip_skip, LengthPrefixed.length_payload]
  simp

theorem parseLengthPrefixed_eq_ok (hr : r.rest.length < 2 ^ 63) {tag : Byte} {v : Bytes}
    (h : parseLengthPrefixed lenTag tag r = (.ok v, r')) :
    ∃ s : LengthPrefixed, tag = lenTag s.width ∧ v = s.bytes ∧ r.rest = s.payload ++ r'.rest ∧
      r' = r.skip s.payload.length := by
  obtain ⟨n, r₁, h₁, h₂⟩ := bind_eq_ok.1 h
  rcases decodeLengthOf_cases lenTag tag with ⟨w, rfl, hw⟩ | ⟨-, hc⟩
  · rw [hw, decodeLength_eq_ok] at h₁
    obtain ⟨hsize, rfl, rfl⟩ := h₁
    obtain ⟨hn, rfl, rfl⟩ := readExact_eq_ok.1 h₂
    rw [Reader.rest_skip] at hn ⊢
    obtain ⟨hfits, hbe⟩ := value_lt_limit (List.length_take_of_le hsize)
      (by simp only [List.length_drop] at hn; omega)
    generalize w.value (r.rest.take w.size) = n at hn hfits hbe ⊢
    have hlen : ((r.rest.drop w.size).take n).length = n := List.length_take_of_le hn
    refine ⟨⟨w, _, by rwa [hlen]⟩, rfl, rfl, ?_, ?_⟩
    · simp only [LengthPrefixed.payload, hlen, hbe, Reader.rest_skip, List.append_assoc,
        List.take_append_drop]
    · simp only [Reader.skip_skip, LengthPrefixed.length_payload, hlen]
  · rw [hc] at h₁
    cases h₁

end Strings

/-! ## Timestamps -/

theorem parseTimestamp_payload (t : TimestampRecord e) (hr : r.rest = t.payload ++ x) :
    parseTimestamp P e (t.tag P) r = (.ok t.value, r.skip t.payload.length) := by
  obtain ⟨h₁, h₂, h₃⟩ := P.timestampDelta_ne
  cases t <;> simp only [parseTimestamp, TimestampRecord.tag, TimestampRecord.payload,
    TimestampRecord.value, length_beBytes, ne_eq, not_true_eq_false, if_false, if_true, h₁, h₂,
    h₃] at hr ⊢
  · exact decodeInt_of_beBytes hr
  all_goals rw [bind_of_ok (decodeInt_of_beBytes hr)]; rfl

/-- Under the tag of a kind of timestamp record, `parse_timestamp` reads that kind's value
with `decode_int`; under any other tag it answers corrupted IR. -/
theorem parseTimestamp_cases (e : Encoding) (tag : Byte) :
    (∃ (n : Nat) (mk : BitVec (8 * n) → TimestampRecord e),
      (∀ v, (mk v).tag P = tag ∧ (mk v).payload = beBytes n v.toNat) ∧
      ∀ r, parseTimestamp P e tag r = (decodeInt n >>= fun v => pure (mk v).value) r) ∨
    ((∀ t : TimestampRecord e, t.tag P ≠ tag) ∧ parseTimestamp P e tag = fail .corruptedIR) := by
  cases e
  · by_cases h : P.timestampVal = tag
    · refine .inl ⟨8, .val, fun v => ⟨h, rfl⟩, fun r => ?_⟩
      rw [parseTimestamp, if_neg (not_not.2 h), bind_apply]
      rcases decodeInt 8 r with ⟨_ | _, _⟩ <;> rfl
    · exact .inr ⟨fun t => by cases t; exact h, by rw [parseTimestamp, if_pos h]⟩
  · by_cases hb : P.timestampDeltaByte = tag
    · exact .inl ⟨1, .deltaByte, fun _ => ⟨hb, rfl⟩, fun r => by rw [parseTimestamp, if_pos hb]; rfl⟩
    by_cases hs : P.timestampDeltaShort = tag
    · exact .inl ⟨2, .deltaShort, fun _ => ⟨hs, rfl⟩,
        fun r => by rw [parseTimestamp, if_neg hb, if_pos hs]; rfl⟩
    by_cases hi : P.timestampDeltaInt = tag
    · exact .inl ⟨4, .deltaInt, fun _ => ⟨hi, rfl⟩,
        fun r => by rw [parseTimestamp, if_neg hb, if_neg hs, if_pos hi]; rfl⟩
    · exact .inr ⟨fun t => by cases t <;> assumption,
        by rw [parseTimestamp, if_neg hb, if_neg hs, if_neg hi]⟩

theorem parseTimestamp_eq_ok {tag : Byte} {ts : BitVec 64}
    (h : parseTimestamp P e tag r = (.ok ts, r')) :
    ∃ t : TimestampRecord e, tag = t.tag P ∧ ts = t.value ∧ r.rest = t.payload ++ r'.rest ∧
      r' = r.skip t.payload.length := by
  rcases parseTimestamp_cases (P := P) e tag with ⟨n, mk, hmk, hp⟩ | ⟨-, hc⟩
  · rw [hp] at h
    obtain ⟨v, r₁, h₁, ⟨⟩⟩ := bind_eq_ok.1 h
    obtain ⟨hr, rfl⟩ := decodeInt_eq_ok_beBytes h₁
    obtain ⟨htag, hpay⟩ := hmk v
    exact ⟨mk v, htag.symm, rfl, hpay ▸ hr, by rw [hpay, length_beBytes]⟩
  · rw [hc] at h
    cases h

/-! ## Variable records -/

section Variables

variable {E E' : List e.Var} {D D' : List Bytes}

theorem isVariableTag_tag (v : VarRecord e) : isVariableTag P e (v.tag P) = some v.isEncoded := by
  cases v
  · exact isVariableTag_varEncoding e
  · exact isVariableTag_varStrLen e _

theorem appendVariable_payload (v : VarRecord e) (hr : r.rest = v.payload ++ x) :
    appendVariable P e (v.tag P) v.isEncoded E D r =
      (.ok (E ++ v.encodedVar?.toList, D ++ v.dictionaryVar?.toList), r.skip v.payload.length) := by
  cases v with
  | encoded val =>
    simp only [appendVariable, VarRecord.isEncoded, VarRecord.payload, if_true] at hr ⊢
    rw [bind_of_ok (decodeInt_of_beBytes hr)]
    simp [VarRecord.encodedVar?, VarRecord.dictionaryVar?]
  | dictionary s =>
    simp only [appendVariable, VarRecord.isEncoded, VarRecord.payload, VarRecord.tag] at hr ⊢
    rw [if_neg Bool.false_ne_true, parseDictionaryVar,
      bind_of_ok (parseLengthPrefixed_payload (fun _ _ => Protocol.varStrLen_inj.1) s hr)]
    simp [VarRecord.encodedVar?, VarRecord.dictionaryVar?]

theorem appendVariable_eq_ok (hr : r.rest.length < 2 ^ 63) {tag : Byte} {b : Bool}
    (hb : isVariableTag P e tag = some b) (h : appendVariable P e tag b E D r = (.ok (E', D'), r')) :
    ∃ v : VarRecord e, tag = v.tag P ∧ r.rest = v.payload ++ r'.rest ∧
      E' = E ++ v.encodedVar?.toList ∧ D' = D ++ v.dictionaryVar?.toList ∧
      r' = r.skip v.payload.length := by
  rcases isVariableTag_eq_some hb with ⟨rfl, w, rfl⟩ | ⟨rfl, rfl⟩
  · obtain ⟨str, r₁, h₁, ⟨⟩⟩ := bind_eq_ok.1 h
    obtain ⟨s, hw, rfl, hrest, rfl⟩ := parseLengthPrefixed_eq_ok hr h₁
    exact ⟨.dictionary s, hw, hrest, by simp [VarRecord.encodedVar?],
      by simp [VarRecord.dictionaryVar?], rfl⟩
  · obtain ⟨val, r₁, h₁, ⟨⟩⟩ := bind_eq_ok.1 h
    obtain ⟨hrest, rfl⟩ := decodeInt_eq_ok_beBytes h₁
    exact ⟨.encoded val, rfl, hrest, by simp [VarRecord.encodedVar?],
      by simp [VarRecord.dictionaryVar?], by simp [VarRecord.payload]⟩

theorem decodeVariable_payload (v : VarRecord e) {tag' : Byte} (hr : r.rest = v.payload ++ tag' :: x) :
    decodeVariable P e (v.tag P) v.isEncoded E D r =
      (.ok (tag', E ++ v.encodedVar?.toList, D ++ v.dictionaryVar?.toList),
        r.skip (v.toBytes P).length) := by
  have hnext : (r.skip v.payload.length).rest = tag' :: x := by simp [hr]
  rw [decodeVariable, bind_of_ok (appendVariable_payload v hr), bind_of_ok (readTag_of_cons hnext),
    Reader.skip_skip]
  rfl

theorem decodeVariable_eq_ok (hr : r.rest.length < 2 ^ 63) {tag tag' : Byte} {b : Bool}
    (hb : isVariableTag P e tag = some b)
    (h : decodeVariable P e tag b E D r = (.ok (tag', E', D'), r')) :
    ∃ v : VarRecord e, tag = v.tag P ∧ r.rest = v.payload ++ tag' :: r'.rest ∧
      E' = E ++ v.encodedVar?.toList ∧ D' = D ++ v.dictionaryVar?.toList ∧
      r' = r.skip (v.toBytes P).length := by
  obtain ⟨⟨E₁, D₁⟩, r₁, h₁, h₂⟩ := bind_eq_ok.1 h
  obtain ⟨t, r₂, h₃, ⟨⟩⟩ := bind_eq_ok.1 h₂
  obtain ⟨v, rfl, hrest, rfl, rfl, rfl⟩ := appendVariable_eq_ok hr hb h₁
  obtain ⟨y, hy, rfl⟩ := readTag_eq_ok.1 h₃
  refine ⟨v, rfl, ?_, rfl, rfl, by rw [Reader.skip_skip]; rfl⟩
  rw [hrest, hy, Reader.rest_skip, hy]
  rfl

theorem filterMap_encodedVar_cons (v : VarRecord e) (vs : List (VarRecord e)) :
    (v :: vs).filterMap VarRecord.encodedVar? =
      v.encodedVar?.toList ++ vs.filterMap VarRecord.encodedVar? := by
  cases v <;> rfl

theorem filterMap_dictionaryVar_cons (v : VarRecord e) (vs : List (VarRecord e)) :
    (v :: vs).filterMap VarRecord.dictionaryVar? =
      v.dictionaryVar?.toList ++ vs.filterMap VarRecord.dictionaryVar? := by
  cases v <;> rfl

/-- The variable loop reads the records `vs` and goes on at the tag after them, `tag'`, with
their variables appended. -/
theorem decodeVariables_append_varsToBytes (vs : List (VarRecord e)) {tag tag' : Byte} {y : Bytes}
    (hr : tag :: r.rest = varsToBytes P vs ++ tag' :: y) :
    decodeVariables P e tag E D r =
      decodeVariables P e tag' (E ++ vs.filterMap VarRecord.encodedVar?)
        (D ++ vs.filterMap VarRecord.dictionaryVar?) (r.skip (varsToBytes P vs).length) := by
  induction vs generalizing tag E D r with
  | nil =>
    obtain ⟨rfl, -⟩ := List.cons.inj hr
    simp
  | cons v vs ih =>
    simp only [varsToBytes_cons, VarRecord.toBytes, List.cons_append, List.append_assoc,
      List.cons.injEq] at hr
    obtain ⟨rfl, hr⟩ := hr
    obtain ⟨t, z, hz⟩ : ∃ t z, varsToBytes P vs ++ tag' :: y = t :: z := by
      cases varsToBytes P vs <;> exact ⟨_, _, rfl⟩
    rw [hz] at hr
    have hnext : t :: (r.skip (v.toBytes P).length).rest = varsToBytes P vs ++ tag' :: y := by
      simp [hr, hz, VarRecord.toBytes]
    rw [decodeVariables_of_ok (isVariableTag_tag v) (decodeVariable_payload v hr), ih hnext,
      Reader.skip_skip]
    simp [filterMap_encodedVar_cons, filterMap_dictionaryVar_cons]

/-- What the variable loop read: variable records, then a tag that is not a variable tag. -/
theorem decodeVariables_eq_ok {tag tag' : Byte} (hr : r.rest.length < 2 ^ 63)
    (h : decodeVariables P e tag E D r = (.ok (tag', E', D'), r')) :
    ∃ vs : List (VarRecord e), isVariableTag P e tag' = none ∧
      tag :: r.rest = varsToBytes P vs ++ tag' :: r'.rest ∧
      E' = E ++ vs.filterMap VarRecord.encodedVar? ∧ D' = D ++ vs.filterMap VarRecord.dictionaryVar? ∧
      r' = r.skip (varsToBytes P vs).length := by
  induction tag, E, D, r using decodeVariables.induct P e with
  | case1 tag E D r hnone =>
    rw [decodeVariables_of_none hnone] at h
    cases h
    exact ⟨[], hnone, by simp, by simp, by simp, by simp⟩
  | case2 tag E D r b hb t E₁ D₁ r₁ hstep ih =>
    rw [decodeVariables_of_ok hb hstep] at h
    have hlen := decodeVariable_shrinks P e hstep
    obtain ⟨vs, hnone, hrest, rfl, rfl, rfl⟩ := ih (by omega) h
    obtain ⟨v, rfl, hr₁, rfl, rfl, rfl⟩ := decodeVariable_eq_ok hr hb hstep
    refine ⟨v :: vs, hnone, ?_, by simp [filterMap_encodedVar_cons],
      by simp [filterMap_dictionaryVar_cons], by simp [Reader.skip_skip]⟩
    rw [varsToBytes_cons, List.append_assoc, ← hrest, hr₁]
    rfl
  | case3 tag E D r b hb code r₁ hstep =>
    rw [decodeVariables_of_error hb hstep] at h
    cases h

end Variables

/-! ## Frames -/

theorem VarRecord.tag_ne_eof (v : VarRecord e) : v.tag P ≠ P.eof := by
  cases v
  · exact (Protocol.eof_ne_varEncoding _).symm
  · exact (Protocol.eof_ne_varStrLen _).symm

/-- Variable records and a tag start with a tag other than `Eof`, unless there are no
records and the tag is `Eof`. -/
theorem varsToBytes_append_eq_cons {vs : List (VarRecord e)} {t : Byte} {y : Bytes}
    (hstart : vs ≠ [] ∨ t ≠ P.eof) : ∃ t₀ z, varsToBytes P vs ++ t :: y = t₀ :: z ∧ t₀ ≠ P.eof := by
  rcases vs with _ | ⟨v, vs⟩
  · exact ⟨t, y, rfl, hstart.resolve_left (not_not.2 rfl)⟩
  · exact ⟨v.tag P, _, rfl, v.tag_ne_eof⟩

/-- Past variable records, `decodeFrame` goes on with the variable loop at the tag after
them, with the records' variables read. -/
theorem decodeFrame_after_records (vs : List (VarRecord e)) {t : Byte} {y : Bytes}
    (hr : r.rest = varsToBytes P vs ++ t :: y) (hstart : vs ≠ [] ∨ t ≠ P.eof) :
    decodeFrame P e r = (do
      let (encodedTag, encodedVars, dictVars) ← decodeVariables P e t
        (vs.filterMap VarRecord.encodedVar?) (vs.filterMap VarRecord.dictionaryVar?)
      let logtype ← parseLogtype P encodedTag
      let encodedTag ← readTag
      let timestamp ← parseTimestamp P e encodedTag
      pure (logtype, encodedVars, dictVars, timestamp)) (r.skip ((varsToBytes P vs).length + 1)) := by
  obtain ⟨t₀, z, hz, ht₀⟩ := varsToBytes_append_eq_cons (y := y) hstart
  rw [hz] at hr
  unfold decodeFrame
  rw [bind_of_ok (readTag_of_cons hr), if_neg ht₀, bind_apply, bind_apply,
    decodeVariables_append_varsToBytes vs (by rw [Reader.rest_skip_one hr, hz]), List.nil_append,
    List.nil_append, Reader.skip_skip, Nat.add_comm]

/-- Past variable records, `decodeFrame` reads the tag after them as the logtype's tag. -/
theorem decodeFrame_after_vars (vs : List (VarRecord e)) {t : Byte} {y : Bytes}
    (hr : r.rest = varsToBytes P vs ++ t :: y) (hstart : vs ≠ [] ∨ t ≠ P.eof)
    (hnone : isVariableTag P e t = none) :
    decodeFrame P e r = (do
      let logtype ← parseLogtype P t
      let encodedTag ← readTag
      let timestamp ← parseTimestamp P e encodedTag
      pure (logtype, vs.filterMap VarRecord.encodedVar?, vs.filterMap VarRecord.dictionaryVar?,
        timestamp)) (r.skip ((varsToBytes P vs).length + 1)) := by
  rw [decodeFrame_after_records vs hr hstart, bind_apply, decodeVariables_of_none hnone]

theorem Frame.length_toBytes (f : Frame e) : (f.toBytes P).length =
    (varsToBytes P f.vars).length + (1 + f.logtype.payload.length) +
      (1 + f.timestamp.payload.length) := by
  simp [Frame.toBytes, LengthPrefixed.toBytes, TimestampRecord.toBytes, Nat.add_comm]
  omega

/-- `decodeFrame` reads a frame, whatever follows it, and moves past exactly the frame. -/
theorem decodeFrame_toBytes (f : Frame e) (hr : r.rest = f.toBytes P ++ x) :
    decodeFrame P e r = (.ok (f.logtype.bytes, f.encodedVars, f.dictVars, f.timestamp.value),
      r.skip (f.toBytes P).length) := by
  have h₁ : r.rest = varsToBytes P f.vars ++ P.logtypeStrLen f.logtype.width ::
      (f.logtype.payload ++ (f.timestamp.toBytes P ++ x)) := by
    simp [hr, Frame.toBytes, LengthPrefixed.toBytes]
  rw [decodeFrame_after_vars f.vars h₁ (.inr (Protocol.eof_ne_logtypeStrLen _).symm)
    (isVariableTag_logtypeStrLen e _)]
  have h₂ : (r.skip ((varsToBytes P f.vars).length + 1)).rest =
      f.logtype.payload ++ (f.timestamp.toBytes P ++ x) := by
    simp [h₁]
  rw [parseLogtype, bind_of_ok (parseLengthPrefixed_payload (fun _ _ => Protocol.logtypeStrLen_inj.1)
    f.logtype h₂)]
  have h₃ := Reader.rest_skip_length h₂
  rw [bind_of_ok (readTag_of_cons h₃)]
  have h₄ := Reader.rest_skip_one h₃
  rw [bind_of_ok (parseTimestamp_payload f.timestamp h₄), pure_apply]
  simp only [Reader.skip_skip, Frame.length_toBytes]
  rw [show (varsToBytes P f.vars).length + 1 + f.logtype.payload.length + 1 + f.timestamp.payload.length
    = (varsToBytes P f.vars).length + (1 + f.logtype.payload.length) + (1 + f.timestamp.payload.length)
    by omega]
  rfl

/-- At `Eof`, `decodeFrame` answers `IRErrorCode_Eof` past the tag. -/
theorem decodeFrame_eof (hr : r.rest = P.eof :: x) : decodeFrame P e r = (.error .eof, r.skip 1) := by
  rw [decodeFrame, bind_of_ok (readTag_of_cons hr), if_pos rfl]
  rfl

/-- What `decodeFrame` read is a frame, and it returns that frame's logtype, variables and
timestamp. -/
theorem decodeFrame_eq_ok (hr : r.rest.length < 2 ^ 63) {logtype : Bytes} {E : List e.Var}
    {D : List Bytes} {ts : BitVec 64} (h : decodeFrame P e r = (.ok (logtype, E, D, ts), r')) :
    ∃ f : Frame e, r.rest = f.toBytes P ++ r'.rest ∧ r' = r.skip (f.toBytes P).length ∧
      logtype = f.logtype.bytes ∧ E = f.encodedVars ∧ D = f.dictVars ∧ ts = f.timestamp.value := by
  obtain ⟨t, r₀, h₀, h⟩ := bind_eq_ok.1 h
  obtain ⟨y, hy, rfl⟩ := readTag_eq_ok.1 h₀
  split at h
  · cases h
  obtain ⟨⟨t₁, E₁, D₁⟩, r₁, h₁, h⟩ := bind_eq_ok.1 h
  obtain ⟨vs, -, hrest₁, rfl, rfl, rfl⟩ :=
    decodeVariables_eq_ok (Reader.length_rest_skip_lt hr) h₁
  obtain ⟨lt, r₂, h₂, h⟩ := bind_eq_ok.1 h
  obtain ⟨s, rfl, rfl, hrest₂, rfl⟩ :=
    parseLengthPrefixed_eq_ok (Reader.length_rest_skip_lt (Reader.length_rest_skip_lt hr)) h₂
  obtain ⟨t₃, r₃, h₃, h⟩ := bind_eq_ok.1 h
  obtain ⟨y₃, hy₃, rfl⟩ := readTag_eq_ok.1 h₃
  obtain ⟨ts', r₄, h₄, ⟨⟩⟩ := bind_eq_ok.1 h
  obtain ⟨tr, rfl, rfl, hrest₄, rfl⟩ := parseTimestamp_eq_ok h₄
  refine ⟨⟨vs, s, tr⟩, ?_, ?_, rfl, by simp [Frame.encodedVars], by simp [Frame.dictVars], rfl⟩
  · have h₀ : r.rest = t :: (r.skip 1).rest := by rw [Reader.rest_skip_one hy, hy]
    rw [h₀, hrest₁, hrest₂, hy₃, ← Reader.rest_skip_one hy₃, hrest₄]
    simp [Frame.toBytes, LengthPrefixed.toBytes, TimestampRecord.toBytes]
  · simp only [Reader.skip_skip, Frame.length_toBytes]
    exact congrArg r.skip (by omega)

/-! ## What a decoded message was read from -/

variable (ph : Placeholders) (d : VarDecoders (8 * e.size))

/-- When `generic_decode_next_message` returns `IRErrorCode_Success` or
`IRErrorCode_Decode_Error`, the bytes it consumed are exactly one frame of the encoding's
grammar. The timestamp is that frame's, and the message is `decode_message` of the frame's
logtype and variables, or `decode_message` throws on them. -/
theorem genericDecodeNextMessage_consumes_frame {message : Bytes} {timestamp : BitVec 64}
    {o : Outcome} (ho : genericDecodeNextMessage P e ph d r message timestamp = o)
    (hr : r.rest.length < 2 ^ 63) (hc : o.code = .success ∨ o.code = .decodeError) :
    ∃! f : Frame e, r.rest = f.toBytes P ++ o.reader.rest ∧ o.reader = r.skip (f.toBytes P).length ∧
      o.timestamp = f.timestamp.value ∧
      (o.code = .success →
        decodeMessage ph d f.logtype.bytes f.encodedVars f.dictVars = .ok o.message) ∧
      (o.code = .decodeError →
        ∃ ex, decodeMessage ph d f.logtype.bytes f.encodedVars f.dictVars = .error ex) := by
  subst ho
  unfold genericDecodeNextMessage at hc ⊢
  rcases hf : decodeFrame P e r with ⟨c | ⟨logtype, E, D, ts⟩, r'⟩
  · simp only [hf] at hc
    have := failsWithin_decodeFrame P e (S := fun c => c = .eof ∨ c = .corruptedIR ∨ c = .incompleteIR)
      (by simp) (by simp) (by simp) r c r' hf
    rcases hc with rfl | rfl <;> simp at this
  · obtain ⟨f, hrest, rfl, rfl, rfl, rfl, rfl⟩ := decodeFrame_eq_ok hr hf
    refine ⟨f, ?_, fun f' ⟨h', _⟩ => ?_⟩
    · dsimp only
      split <;> rename_i hm
      · exact ⟨hrest, rfl, rfl, nofun, fun _ => ⟨_, hm⟩⟩
      · exact ⟨hrest, rfl, rfl, fun _ => hm, nofun⟩
    · have h' : r.rest = f'.toBytes P ++ (r.skip (f.toBytes P).length).rest := by
        dsimp only at h'
        split at h' <;> exact h'
      exact (Frame.toBytes_append_inj (h'.symm.trans hrest)).1

/-- The frame of the spec's first scenario: the encoded variable 42, the logtype of one
integer placeholder, and a one-byte timestamp delta of 0. -/
def scenarioFrame : Frame .fourByte :=
  ⟨[.encoded 42], ⟨.uByte, [0x12], by decide⟩, .deltaByte 0⟩

theorem genericDecodeNextMessage_consumes_scenarioFrame :
    genericDecodeNextMessage Protocol.sample .fourByte Placeholders.sample (VarDecoders.sample 32)
        (Reader.ofBytes (scenarioFrame.toBytes Protocol.sample)) [] 0 =
      ⟨.success, (Reader.ofBytes (scenarioFrame.toBytes Protocol.sample)).skip 10, [0x2A], 0⟩ ∧
    (Reader.ofBytes (scenarioFrame.toBytes Protocol.sample)).rest.length < 2 ^ 63 ∧
    ∃! f : Frame .fourByte,
      (Reader.ofBytes (scenarioFrame.toBytes Protocol.sample)).rest =
          f.toBytes Protocol.sample ++ ((Reader.ofBytes (scenarioFrame.toBytes Protocol.sample)).skip 10).rest ∧
        (Reader.ofBytes (scenarioFrame.toBytes Protocol.sample)).skip 10 =
          (Reader.ofBytes (scenarioFrame.toBytes Protocol.sample)).skip (f.toBytes Protocol.sample).length ∧
        0 = f.timestamp.value ∧
        (IRErrorCode.success = .success → decodeMessage Placeholders.sample (VarDecoders.sample 32)
          f.logtype.bytes f.encodedVars f.dictVars = .ok [0x2A]) ∧
        (IRErrorCode.success = .decodeError → ∃ ex, decodeMessage Placeholders.sample
          (VarDecoders.sample 32) f.logtype.bytes f.encodedVars f.dictVars = .error ex) := by
  have ho : genericDecodeNextMessage Protocol.sample .fourByte Placeholders.sample
      (VarDecoders.sample 32) (Reader.ofBytes (scenarioFrame.toBytes Protocol.sample)) [] 0 =
      ⟨.success, (Reader.ofBytes (scenarioFrame.toBytes Protocol.sample)).skip 10, [0x2A], 0⟩ := by
    rw [genericDecodeNextMessage, decodeFrame_toBytes scenarioFrame (x := []) (by simp)]
    rfl
  exact ⟨ho, by decide, genericDecodeNextMessage_consumes_frame _ _ ho (by decide) (.inl rfl)⟩

end IrStream

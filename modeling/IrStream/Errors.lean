import IrStream.Frames
/-!
# What the rejections say about the bytes

`IRErrorCode_Incomplete_IR` and `IRErrorCode_Corrupted_IR` against the grammar of `Wire`.
When `generic_decode_next_message` reports incomplete IR, the bytes it was given start a
frame and end before it does, with one exception: an `int32_t` length whose first byte
has its sign bit set, after a `VarStrLenInt` or `LogtypeStrLenInt` tag. No frame starts so,
since the length is negative whatever follows; the decoder reads it as a `size_t` near
`2^64` and reports the string as incomplete, where the doc comments of `parse_logtype` and
`parse_dictionary_var` answer invalid IR with corrupted IR (the slip is stated in `Answers`,
`genericDecodeNextMessage_negative_int32_length`). When a tag appears where the grammar does not
allow it, the answer is corrupted IR, whatever follows.

Each parser gets the lemma that its incomplete answer leaves bytes that some record of the
grammar starts with; the frame-level result assembles them.
-/

namespace IrStream

open Decoder

/-- `b` ends before `l` does: some non-empty bytes after `b` make `l`. -/
def ProperPrefix (b l : Bytes) : Prop := ∃ x, x ≠ [] ∧ b ++ x = l

/-- The first of the bytes has its top bit set: an `int32_t` they start is negative. -/
def SignBitSet (b : Bytes) : Prop := ∃ c y, b = c :: y ∧ 2 ^ 7 ≤ c.toNat

/-- `b` is variable records of the encoding, then a `VarStrLenInt` or `LogtypeStrLenInt`
tag and a length whose sign bit is set. -/
def NegativeLength (P : Protocol) (e : Encoding) (b : Bytes) : Prop :=
  ∃ (vs : List (VarRecord e)) (t : Byte) (y : Bytes), b = varsToBytes P vs ++ t :: y ∧
    (t = P.varStrLen .int ∨ t = P.logtypeStrLen .int) ∧ SignBitSet y

theorem ProperPrefix.append_left {b l : Bytes} (a : Bytes) (h : ProperPrefix b l) :
    ProperPrefix (a ++ b) (a ++ l) := by
  obtain ⟨x, hx, rfl⟩ := h
  exact ⟨x, hx, List.append_assoc _ _ _⟩

theorem ProperPrefix.append_right {b l : Bytes} (h : ProperPrefix b l) (c : Bytes) :
    ProperPrefix b (l ++ c) := by
  obtain ⟨x, hx, rfl⟩ := h
  exact ⟨x ++ c, by simp [hx], by simp⟩

/-! ## Length fields -/

section Lengths

variable {w : LengthWidth} {b : Bytes}

theorem signBitSet_append_zeros (k : Nat) : SignBitSet (b ++ List.replicate k 0) ↔ SignBitSet b := by
  rcases b with _ | ⟨c, y⟩
  · cases k <;> simp [SignBitSet, List.replicate_succ]
  · simp [SignBitSet]

theorem signBitSet_of_take {n : Nat} (h : SignBitSet (b.take n)) : SignBitSet b := by
  obtain ⟨c, y, hb, hc⟩ := h
  rcases b with _ | ⟨c', y'⟩ <;> rcases n with _ | n <;> simp at hb
  exact ⟨c', y', rfl, hb.1 ▸ hc⟩

/-- Four bytes read as an `int32_t` are non-negative exactly when the sign bit is clear. -/
theorem bigEndian_lt_two_pow_31 (hb : b.length = 4) : bigEndian b < 2 ^ 31 ↔ ¬ SignBitSet b := by
  rcases b with _ | ⟨c, y⟩
  · cases hb
  · have hy : y.length = 3 := by simpa using hb
    have hs : SignBitSet (c :: y) ↔ 2 ^ 7 ≤ c.toNat :=
      ⟨fun ⟨_, _, h, hc⟩ => by cases h; exact hc, fun hc => ⟨c, y, rfl, hc⟩⟩
    have := bigEndian_lt y
    rw [hy] at this
    rw [hs, bigEndian_cons, hy]
    omega

/-- A length field's value stays below `2^63` unless it is an `int32_t` with its sign bit
set. -/
theorem value_lt_two_pow_63 (hb : b.length = w.size) :
    w.value b < 2 ^ 63 ↔ ¬ (w = .int ∧ SignBitSet b) := by
  have hlt := bigEndian_lt b
  cases w <;> simp only [LengthWidth.value, LengthWidth.size] at hb hlt ⊢ <;> rw [hb] at hlt
  · simp only [reduceCtorEq, false_and, not_false_eq_true, iff_true]
    omega
  · simp only [reduceCtorEq, false_and, not_false_eq_true, iff_true]
    omega
  · rw [toNat_signExtend_int32, BitVec.toNat_ofNat, Nat.mod_eq_of_lt (by omega), true_and,
      ← bigEndian_lt_two_pow_31 hb]
    split <;> omega

/-- Bytes short of a length field that would not make an `int32_t` negative start the
payload of some string of the width. -/
theorem exists_payload_of_length_lt (hb : b.length < w.size) (hs : ¬ (w = .int ∧ SignBitSet b)) :
    ∃ s : LengthPrefixed, s.width = w ∧ ProperPrefix b s.payload := by
  have hz : List.replicate (w.size - b.length) (0 : Byte) ≠ [] := by simp; omega
  have hlen : (b ++ List.replicate (w.size - b.length) (0 : Byte)).length = w.size := by simp; omega
  have hv := (value_lt_two_pow_63 hlen).2 (by rwa [signBitSet_append_zeros])
  obtain ⟨hfits, hbe⟩ := value_lt_limit hlen hv
  generalize List.replicate (w.size - b.length) (0 : Byte) = z at hz hlen hv hfits hbe
  refine ⟨⟨w, List.replicate (w.value (b ++ z)) 0, by simpa using hfits⟩, rfl,
    z ++ List.replicate (w.value (b ++ z)) 0, by simp [hz], ?_⟩
  simp only [LengthPrefixed.payload, List.length_replicate, hbe, List.append_assoc]

/-- A length field followed by fewer bytes than the non-negative length it holds starts the
payload of the string of that length. -/
theorem exists_payload_of_string_lt (hb : w.size ≤ b.length)
    (hv : w.value (b.take w.size) < 2 ^ 63)
    (hlt : (b.drop w.size).length < w.value (b.take w.size)) :
    ∃ s : LengthPrefixed, s.width = w ∧ ProperPrefix b s.payload := by
  obtain ⟨hfits, hbe⟩ := value_lt_limit (List.length_take_of_le hb) hv
  generalize w.value (b.take w.size) = n at hv hlt hfits hbe
  have hz : List.replicate (n - (b.drop w.size).length) (0 : Byte) ≠ [] := by
    simp only [ne_eq, List.replicate_eq_nil_iff]
    omega
  have hlen : (b.drop w.size ++ List.replicate (n - (b.drop w.size).length) (0 : Byte)).length = n := by
    simp only [List.length_append, List.length_replicate]
    omega
  refine ⟨⟨w, _, by rw [hlen]; exact hfits⟩, rfl, _, hz, ?_⟩
  simp only [LengthPrefixed.payload, hlen, hbe, ← List.append_assoc, List.take_append_drop]

end Lengths

/-! ## Fields that run out -/

section Fields

variable {P : Protocol} {e : Encoding} {r r' : Reader}

/-- Bytes short of an `n`-byte integer start the bytes of some value. -/
theorem exists_beBytes_of_length_lt {n : Nat} {b : Bytes} (h : b.length < n) :
    ∃ v : BitVec (8 * n), ProperPrefix b (beBytes n v.toNat) := by
  have hlen : (b ++ List.replicate (n - b.length) (0 : Byte)).length = n := by simp; omega
  refine ⟨BitVec.ofNat (8 * n) (bigEndian (b ++ List.replicate (n - b.length) 0)), _, ?_,
    (beBytes_ofNat_bigEndian hlen).symm⟩
  simp only [ne_eq, List.replicate_eq_nil_iff]
  omega

/-- A string parser answers incomplete IR only for a tag of its kind followed by bytes that
start the payload of a string of the tag's width, or by a negative `int32_t` length. -/
theorem parseLengthPrefixed_eq_incomplete {lenTag : LengthWidth → Byte} {tag : Byte}
    (h : parseLengthPrefixed lenTag tag r = (.error .incompleteIR, r')) :
    ∃ w, tag = lenTag w ∧ ((∃ s : LengthPrefixed, s.width = w ∧ ProperPrefix r.rest s.payload) ∨
      (w = .int ∧ SignBitSet r.rest)) := by
  rcases decodeLengthOf_cases lenTag tag with ⟨w, rfl, hw⟩ | ⟨-, hc⟩
  · refine ⟨w, rfl, ?_⟩
    unfold parseLengthPrefixed at h
    rw [hw] at h
    rcases bind_eq_error.1 h with h | ⟨n, r₁, h₁, h₂⟩
    · obtain ⟨hlt, -, -⟩ := decodeLength_eq_error.1 h
      by_cases hs : w = .int ∧ SignBitSet r.rest
      · exact .inr hs
      · exact .inl (exists_payload_of_length_lt hlt hs)
    · obtain ⟨hsize, rfl, rfl⟩ := decodeLength_eq_ok.1 h₁
      obtain ⟨hlt, -, -⟩ := readExact_eq_error.1 h₂
      rw [Reader.rest_skip] at hlt
      by_cases hv : w.value (r.rest.take w.size) < 2 ^ 63
      · exact .inl (exists_payload_of_string_lt hsize hv hlt)
      · have := (not_iff_not.2 (value_lt_two_pow_63 (List.length_take_of_le hsize))).1 hv
        exact .inr ⟨(not_not.1 this).1, signBitSet_of_take (not_not.1 this).2⟩
  · rw [parseLengthPrefixed, hc] at h
    cases h

/-- The timestamp parser answers incomplete IR only for a timestamp tag of the encoding
followed by bytes that start the payload of a record of that tag. -/
theorem parseTimestamp_eq_incomplete {tag : Byte}
    (h : parseTimestamp P e tag r = (.error .incompleteIR, r')) :
    ∃ t : TimestampRecord e, t.tag P = tag ∧ ProperPrefix r.rest t.payload := by
  rcases parseTimestamp_cases (P := P) e tag with ⟨n, mk, hmk, hp⟩ | ⟨-, hc⟩
  · rw [hp] at h
    obtain ⟨hlt, -, -⟩ := decodeInt_eq_error.1 ((bind_eq_error.1 h).resolve_right nofun)
    obtain ⟨v, hv⟩ := exists_beBytes_of_length_lt hlt
    exact ⟨mk v, (hmk v).1, (hmk v).2 ▸ hv⟩
  · rw [hc] at h
    cases h

end Fields

/-! ## Variable records that run out -/

section Variables

variable {P : Protocol} {e : Encoding} {r r' : Reader} {tag : Byte} {b : Bool} {E : List e.Var}
  {D : List Bytes}

theorem ProperPrefix.isPrefix {b l : Bytes} (h : ProperPrefix b l) : b <+: l := by
  obtain ⟨x, -, hx⟩ := h
  exact ⟨x, hx⟩

/-- One pass of the variable loop answers incomplete IR only on bytes that start the payload
of a record of its tag, or on a negative `int32_t` length after `VarStrLenInt`. -/
theorem decodeVariable_eq_incomplete (hr : r.rest.length < 2 ^ 63)
    (hb : isVariableTag P e tag = some b)
    (h : decodeVariable P e tag b E D r = (.error .incompleteIR, r')) :
    (∃ v : VarRecord e, v.tag P = tag ∧ r.rest <+: v.payload) ∨
      (tag = P.varStrLen .int ∧ SignBitSet r.rest) := by
  rcases bind_eq_error.1 h with h | ⟨⟨E₁, D₁⟩, r₁, h₁, h₂⟩
  · rcases isVariableTag_eq_some hb with ⟨rfl, w, rfl⟩ | ⟨rfl, rfl⟩
    · rw [appendVariable, if_neg Bool.false_ne_true] at h
      obtain ⟨w', hw', hcase⟩ :=
        parseLengthPrefixed_eq_incomplete ((bind_eq_error.1 h).resolve_right nofun)
      obtain rfl := Protocol.varStrLen_inj.1 hw'
      rcases hcase with ⟨s, rfl, hp⟩ | ⟨rfl, hs⟩
      · exact .inl ⟨.dictionary s, rfl, hp.isPrefix⟩
      · exact .inr ⟨rfl, hs⟩
    · rw [appendVariable, if_pos rfl] at h
      obtain ⟨hlt, -, -⟩ := decodeInt_eq_error.1 ((bind_eq_error.1 h).resolve_right nofun)
      obtain ⟨v, hv⟩ := exists_beBytes_of_length_lt hlt
      exact .inl ⟨.encoded v, rfl, hv.isPrefix⟩
  · obtain ⟨hnil, -, -⟩ := readTag_eq_error.1 ((bind_eq_error.1 h₂).resolve_right nofun)
    obtain ⟨v, rfl, hrest, -, -, -⟩ := appendVariable_eq_ok hr hb h₁
    exact .inl ⟨v, rfl, by simp only [hrest, hnil, List.append_nil, List.prefix_refl]⟩

/-- The variable loop answers incomplete IR only when the bytes from its tag on are variable
records followed by the start of one more, or by `VarStrLenInt` and a negative length. -/
theorem decodeVariables_eq_incomplete (hr : r.rest.length < 2 ^ 63)
    (h : decodeVariables P e tag E D r = (.error .incompleteIR, r')) :
    ∃ (vs : List (VarRecord e)) (y : Bytes), tag :: r.rest = varsToBytes P vs ++ y ∧
      ((∃ v : VarRecord e, y <+: v.toBytes P ∧ y ≠ []) ∨
        (∃ z, y = P.varStrLen .int :: z ∧ SignBitSet z)) := by
  induction tag, E, D, r using decodeVariables.induct P e with
  | case1 tag E D r hnone =>
    rw [decodeVariables_of_none hnone] at h
    cases h
  | case2 tag E D r b hb t E₁ D₁ r₁ hstep ih =>
    rw [decodeVariables_of_ok hb hstep] at h
    have hlen := decodeVariable_shrinks P e hstep
    obtain ⟨vs, y, hy, hcase⟩ := ih (by omega) h
    obtain ⟨v, rfl, hr₁, -, -, -⟩ := decodeVariable_eq_ok hr hb hstep
    refine ⟨v :: vs, y, ?_, hcase⟩
    rw [varsToBytes_cons, List.append_assoc, ← hy, hr₁]
    rfl
  | case3 tag E D r b hb code r₁ hstep =>
    rw [decodeVariables_of_error hb hstep] at h
    cases h
    rcases decodeVariable_eq_incomplete hr hb hstep with ⟨v, rfl, x, hx⟩ | ⟨rfl, hs⟩
    · exact ⟨[], _, rfl, .inl ⟨v, ⟨x, by rw [VarRecord.toBytes, ← hx]; rfl⟩, List.cons_ne_nil _ _⟩⟩
    · exact ⟨[], _, rfl, .inr ⟨_, rfl, hs⟩⟩

end Variables

/-! ## Frames that run out -/

section Frames

variable {P : Protocol} {e : Encoding} {r r' : Reader}

/-- The empty logtype, with a one-byte length. -/
def LengthPrefixed.empty : LengthPrefixed := ⟨.uByte, [], by decide⟩

/-- A timestamp record of the encoding, to end a frame with. -/
def TimestampRecord.zero : (e : Encoding) → TimestampRecord e
  | .eightByte => .val 0
  | .fourByte => .deltaByte 0

theorem TimestampRecord.toBytes_ne_nil (t : TimestampRecord e) : t.toBytes P ≠ [] :=
  List.cons_ne_nil _ _

/-- Where `decodeFrame` fails: reading the first tag, at `Eof`, in the variable loop, in the
logtype after variable records, reading the tag after the logtype record, or in the
timestamp after it. -/
theorem decodeFrame_eq_error (hr : r.rest.length < 2 ^ 63) {c : IRErrorCode}
    (h : (decodeFrame P e r).1 = .error c) :
    (r.rest = [] ∧ c = .incompleteIR) ∨ (∃ y, r.rest = P.eof :: y ∧ c = .eof) ∨
    (∃ (t : Byte) (r₁ r₂ : Reader), r.rest = t :: r₁.rest ∧
      decodeVariables P e t [] [] r₁ = (.error c, r₂)) ∨
    (∃ (vs : List (VarRecord e)) (t : Byte) (r₁ r₂ : Reader), r.rest = varsToBytes P vs ++ t :: r₁.rest ∧
      (vs ≠ [] ∨ t ≠ P.eof) ∧ isVariableTag P e t = none ∧ parseLogtype P t r₁ = (.error c, r₂)) ∨
    (∃ (vs : List (VarRecord e)) (s : LengthPrefixed),
      r.rest = varsToBytes P vs ++ s.toBytes P.logtypeStrLen ∧ c = .incompleteIR) ∨
    (∃ (vs : List (VarRecord e)) (s : LengthPrefixed) (t : Byte) (r₁ r₂ : Reader),
      r.rest = varsToBytes P vs ++ (s.toBytes P.logtypeStrLen ++ t :: r₁.rest) ∧
        parseTimestamp P e t r₁ = (.error c, r₂)) := by
  have h' : decodeFrame P e r = (.error c, (decodeFrame P e r).2) := Prod.ext h rfl
  rcases bind_eq_error.1 h' with h₀ | ⟨t, r₀, h₀, h⟩
  · obtain ⟨hnil, rfl, -⟩ := readTag_eq_error.1 h₀
    exact .inl ⟨hnil, rfl⟩
  obtain ⟨y, hy, rfl⟩ := readTag_eq_ok.1 h₀
  have hr₀ : r.rest = t :: (r.skip 1).rest := by rw [Reader.rest_skip_one hy, hy]
  split at h
  · next ht =>
    cases Except.error.inj (congrArg Prod.fst h)
    exact .inr (.inl ⟨y, ht ▸ hy, rfl⟩)
  next ht =>
  rcases bind_eq_error.1 h with h₁ | ⟨⟨t₁, E, D⟩, r₁, h₁, h⟩
  · exact .inr (.inr (.inl ⟨t, _, _, hr₀, h₁⟩))
  obtain ⟨vs, hnone, hvs, -, -, rfl⟩ := decodeVariables_eq_ok (Reader.length_rest_skip_lt hr) h₁
  rw [← hr₀] at hvs
  have hstart : vs ≠ [] ∨ t₁ ≠ P.eof := by
    rcases vs with _ | _
    · have := hr₀.symm.trans hvs
      simp only [varsToBytes_nil, List.nil_append, List.cons.injEq] at this
      exact .inr (this.1 ▸ ht)
    · exact .inl (List.cons_ne_nil _ _)
  rcases bind_eq_error.1 h with h₂ | ⟨lt, r₂, h₂, h⟩
  · exact .inr (.inr (.inr (.inl ⟨vs, t₁, _, _, hvs, hstart, hnone, h₂⟩)))
  obtain ⟨s, rfl, rfl, hrest₂, rfl⟩ :=
    parseLengthPrefixed_eq_ok (Reader.length_rest_skip_lt (Reader.length_rest_skip_lt hr)) h₂
  rw [hrest₂] at hvs
  rcases bind_eq_error.1 h with h₃ | ⟨t₃, r₃, h₃, h⟩
  · obtain ⟨hnil, rfl, -⟩ := readTag_eq_error.1 h₃
    refine .inr (.inr (.inr (.inr (.inl ⟨vs, s, ?_, rfl⟩))))
    rw [hvs, hnil]
    simp [LengthPrefixed.toBytes]
  obtain ⟨y₃, hy₃, rfl⟩ := readTag_eq_ok.1 h₃
  rcases bind_eq_error.1 h with h₄ | ⟨_, _, _, h₄⟩
  · refine .inr (.inr (.inr (.inr (.inr ⟨vs, s, t₃, _, _, ?_, h₄⟩))))
    rw [hvs, hy₃, Reader.rest_skip_one hy₃]
    simp [LengthPrefixed.toBytes]
  · cases h₄

/-- `decodeFrame` answers incomplete IR only on bytes that start a frame of the encoding
and end before it does, or on a negative `int32_t` length. -/
theorem decodeFrame_eq_incomplete (hr : r.rest.length < 2 ^ 63)
    (h : decodeFrame P e r = (.error .incompleteIR, r')) :
    (∃ f : Frame e, ProperPrefix r.rest (f.toBytes P)) ∨ NegativeLength P e r.rest := by
  rcases decodeFrame_eq_error hr (congrArg Prod.fst h) with
    ⟨hnil, -⟩ | ⟨_, -, ⟨⟩⟩ | ⟨t, r₁, r₂, hr₁, h₁⟩ | ⟨vs, t, r₁, r₂, hvs, -, -, h₂⟩ | ⟨vs, s, hvs, -⟩ |
    ⟨vs, s, t, r₁, r₂, hvs, h₄⟩
  · refine .inl ⟨⟨[], .empty, .zero e⟩, _, ?_, by rw [hnil]; rfl⟩
    simp [Frame.toBytes, LengthPrefixed.toBytes]
  · have hlt : r₁.rest.length < 2 ^ 63 := by rw [hr₁, List.length_cons] at hr; omega
    obtain ⟨vs, y, hvs, hcase⟩ := decodeVariables_eq_incomplete hlt h₁
    rw [← hr₁] at hvs
    rcases hcase with ⟨v, ⟨x, hx⟩, -⟩ | ⟨z, rfl, hz⟩
    · refine .inl ⟨⟨vs ++ [v], .empty, .zero e⟩, x ++ (LengthPrefixed.empty.toBytes P.logtypeStrLen ++
        (TimestampRecord.zero e).toBytes P), by simp [LengthPrefixed.toBytes], ?_⟩
      rw [hvs, Frame.toBytes, varsToBytes_append, varsToBytes_cons, varsToBytes_nil, List.append_nil,
        ← hx]
      simp
    · exact .inr ⟨vs, _, z, hvs, .inl rfl, hz⟩
  · obtain ⟨w, rfl, hcase⟩ := parseLengthPrefixed_eq_incomplete h₂
    rcases hcase with ⟨s, rfl, hp⟩ | ⟨rfl, hs⟩
    · refine .inl ⟨⟨vs, s, .zero e⟩, ?_⟩
      rw [hvs]
      exact ((hp.append_right _).append_left [_]).append_left _
    · exact .inr ⟨vs, _, _, hvs, .inr rfl, hs⟩
  · refine .inl ⟨⟨vs, s, .zero e⟩, (TimestampRecord.zero e).toBytes P,
      TimestampRecord.toBytes_ne_nil _, ?_⟩
    rw [hvs]
    simp [Frame.toBytes]
  · obtain ⟨tr, rfl, hp⟩ := parseTimestamp_eq_incomplete h₄
    refine .inl ⟨⟨vs, s, tr⟩, ?_⟩
    rw [hvs]
    simpa [Frame.toBytes, LengthPrefixed.toBytes, TimestampRecord.toBytes] using
      ((hp.append_left [_]).append_left (s.payload)).append_left (P.logtypeStrLen s.width :: [])
        |>.append_left (varsToBytes P vs)

end Frames

/-! ## Tags out of place -/

section Misplaced

variable {P : Protocol} {e : Encoding} {r : Reader} {t : Byte}

theorem isVariableTag_eq_none_of (h : ∀ v : VarRecord e, v.tag P ≠ t) : isVariableTag P e t = none := by
  rcases hv : isVariableTag P e t with _ | b
  · rfl
  · rcases isVariableTag_eq_some hv with ⟨-, w, rfl⟩ | ⟨-, rfl⟩
    · exact absurd rfl (h (.dictionary ⟨w, [], by cases w <;> decide⟩))
    · exact absurd rfl (h (.encoded 0))

theorem parseLengthPrefixed_of_not_tag {lenTag : LengthWidth → Byte} (h : ∀ w, lenTag w ≠ t) :
    parseLengthPrefixed lenTag t r = (.error .corruptedIR, r) := by
  rcases decodeLengthOf_cases lenTag t with ⟨w, rfl, -⟩ | ⟨-, hc⟩
  · exact absurd rfl (h w)
  · rw [parseLengthPrefixed, hc]
    rfl

theorem parseTimestamp_of_not_tag (h : ∀ tr : TimestampRecord e, tr.tag P ≠ t) :
    parseTimestamp P e t r = (.error .corruptedIR, r) := by
  rcases parseTimestamp_cases (P := P) e t with ⟨n, mk, hmk, -⟩ | ⟨-, hc⟩
  · exact absurd (hmk 0).1 (h _)
  · rw [hc]
    rfl

/-- After variable records, a tag that is neither a variable tag of the encoding nor a
logtype tag is corrupted IR, whatever follows, and the reader stops right after it; so is a
first tag that is none of these nor `Eof`. -/
theorem decodeFrame_of_misplacedTag {vs : List (VarRecord e)} {y : Bytes}
    (hr : r.rest = varsToBytes P vs ++ t :: y) (hstart : vs ≠ [] ∨ t ≠ P.eof)
    (hv : ∀ v : VarRecord e, v.tag P ≠ t) (hl : ∀ w, P.logtypeStrLen w ≠ t) :
    (decodeFrame P e r).1 = .error .corruptedIR ∧ (decodeFrame P e r).2.rest = y := by
  rw [decodeFrame_after_vars vs hr hstart (isVariableTag_eq_none_of hv), parseLogtype,
    bind_of_error (parseLengthPrefixed_of_not_tag hl)]
  exact ⟨rfl, by simp [hr]⟩

theorem decodeFrame_misplaced_tag {vs : List (VarRecord e)} {y : Bytes}
    (hr : r.rest = varsToBytes P vs ++ t :: y) (hstart : vs ≠ [] ∨ t ≠ P.eof)
    (hv : ∀ v : VarRecord e, v.tag P ≠ t) (hl : ∀ w, P.logtypeStrLen w ≠ t) :
    (decodeFrame P e r).1 = .error .corruptedIR :=
  (decodeFrame_of_misplacedTag hr hstart hv hl).1

/-- After the logtype record, a tag that is not a timestamp tag of the encoding is
corrupted IR, whatever follows, and the reader stops right after it. -/
theorem decodeFrame_of_misplacedTimestampTag {vs : List (VarRecord e)} {s : LengthPrefixed}
    {y : Bytes} (hr : r.rest = varsToBytes P vs ++ (s.toBytes P.logtypeStrLen ++ t :: y))
    (ht : ∀ tr : TimestampRecord e, tr.tag P ≠ t) :
    (decodeFrame P e r).1 = .error .corruptedIR ∧ (decodeFrame P e r).2.rest = y := by
  have h₁ : r.rest = varsToBytes P vs ++ P.logtypeStrLen s.width :: (s.payload ++ t :: y) := by
    simp [hr, LengthPrefixed.toBytes]
  rw [decodeFrame_after_vars vs h₁ (.inr (Protocol.eof_ne_logtypeStrLen _).symm)
    (isVariableTag_logtypeStrLen e _)]
  have h₂ : (r.skip ((varsToBytes P vs).length + 1)).rest = s.payload ++ t :: y := by simp [h₁]
  have h₃ := Reader.rest_skip_length h₂
  rw [parseLogtype, bind_of_ok (parseLengthPrefixed_payload (fun _ _ => Protocol.logtypeStrLen_inj.1)
    s h₂), bind_of_ok (readTag_of_cons h₃), bind_of_error (parseTimestamp_of_not_tag ht)]
  exact ⟨rfl, Reader.rest_skip_one h₃⟩

theorem decodeFrame_misplaced_timestamp_tag {vs : List (VarRecord e)} {s : LengthPrefixed}
    {y : Bytes} (hr : r.rest = varsToBytes P vs ++ (s.toBytes P.logtypeStrLen ++ t :: y))
    (ht : ∀ tr : TimestampRecord e, tr.tag P ≠ t) :
    (decodeFrame P e r).1 = .error .corruptedIR :=
  (decodeFrame_of_misplacedTimestampTag hr ht).1

end Misplaced

/-! ## What a failed frame leaves -/

section Rejections

variable {P : Protocol} {e : Encoding} (ph : Placeholders) (d : VarDecoders (8 * e.size))
  {r : Reader} {message : Bytes} {timestamp : BitVec 64}

/-- Where `decodeFrame` fails, `generic_decode_next_message` returns its code and reader and
leaves the message and the timestamp as they were. -/
theorem genericDecodeNextMessage_of_frame_error {c : IRErrorCode}
    (h : (decodeFrame P e r).1 = .error c) :
    genericDecodeNextMessage P e ph d r message timestamp =
      ⟨c, (decodeFrame P e r).2, message, timestamp⟩ := by
  unfold genericDecodeNextMessage
  rcases hf : decodeFrame P e r with ⟨c' | x, r'⟩ <;> rw [hf] at h <;> cases h
  rfl

theorem genericDecodeNextMessage_code_of_error {c : IRErrorCode}
    (h : (decodeFrame P e r).1 = .error c) :
    (genericDecodeNextMessage P e ph d r message timestamp).code = c := by
  rw [genericDecodeNextMessage_of_frame_error ph d h]

end Rejections

end IrStream

import IrStream.Errors
import IrStream.Preamble
/-!
# The preamble against the grammar

`get_encoding_type` and the two forms of `decode_preamble` against the magic numbers and the
metadata record of `Wire`, as `Frames` and `Answers` treat the frame parser. A magic number
followed by anything is read as its encoding. Every byte string has one of three shapes for
a metadata record: it starts with one, it is too short for one (it ends inside one), or it
holds a wrong byte where the grammar offers a choice. The shapes are a fact of the grammar
alone; each form of `decode_preamble` then gives one answer per shape. So a record followed
by anything is read back and passed exactly, what the decoders accept is such a record, and
each error code they return names the shape of the bytes.
-/

namespace IrStream

open Decoder

variable {P : Protocol} {e : Encoding} {r r' : Reader} {x : Bytes}

/-! ## The magic number -/

theorem Protocol.length_magicNumber : (P.magicNumber e).length = P.magicNumberLength := by
  cases e
  · exact P.eight_byte_magic_length
  · exact P.four_byte_magic_length

/-- `get_encoding_type` on the bytes of a magic number, whatever follows them. -/
theorem getEncodingType_magicNumber (hr : r.rest = P.magicNumber e ++ x) :
    getEncodingType P r = (.ok (decide (e = .fourByte)), r.skip P.magicNumberLength) := by
  have htake : r.rest.take P.magicNumberLength = P.magicNumber e := by
    rw [hr, ← Protocol.length_magicNumber, List.take_left]
  rw [getEncodingType, bind_of_ok (readExact_of_le (by simp [hr, Protocol.length_magicNumber])),
    htake]
  cases e
  · simp [Protocol.magicNumber, Ne.symm P.magic_ne]
  · simp [Protocol.magicNumber]

/-! ## The metadata record -/

section Metadata

variable {t tag : Byte} {y : Bytes}

theorem LengthWidth.limit_le_of_ne_int {w : LengthWidth} (hw : w ≠ .int) : w.limit ≤ 2 ^ 16 := by
  cases w
  · decide
  · decide
  · exact absurd rfl hw

theorem MetadataRecord.length_toBytes (md : MetadataRecord) :
    (md.toBytes P).length = 2 + md.width.size + md.metadata.length := by
  simp [MetadataRecord.toBytes]
  omega

theorem MetadataRecord.toNat_size (md : MetadataRecord) :
    (BitVec.ofNat 16 md.metadata.length).toNat = md.metadata.length :=
  Nat.mod_eq_of_lt (Nat.lt_of_lt_of_le md.fits (LengthWidth.limit_le_of_ne_int md.width_ne_int))

theorem MetadataRecord.rest_skip_metadata (md : MetadataRecord) (hr : r.rest = md.toBytes P ++ x) :
    (r.skip (2 + md.width.size)).rest = md.metadata ++ x := by
  simp [hr, MetadataRecord.toBytes, Nat.add_comm 2]

/-- A byte is the metadata length tag of a width other than `int`, or neither tag. -/
theorem metadataLength_cases (tag : Byte) :
    (∃ w, w ≠ .int ∧ P.metadataLength w = tag) ∨
      (tag ≠ P.metadataLengthUByte ∧ tag ≠ P.metadataLengthUShort) := by
  by_cases h₁ : tag = P.metadataLengthUByte
  · exact .inl ⟨.uByte, nofun, h₁.symm⟩
  by_cases h₂ : tag = P.metadataLengthUShort
  · exact .inl ⟨.uShort, nofun, h₂.symm⟩
  exact .inr ⟨h₁, h₂⟩

/-- After a length tag of a width other than `int`, the bytes start a string of that width
or end inside one. -/
theorem payload_or_properPrefix {w : LengthWidth} (hw : w ≠ .int) (b : Bytes) :
    ∃ s : LengthPrefixed, s.width = w ∧ (s.payload <+: b ∨ ProperPrefix b s.payload) := by
  rcases Nat.lt_or_ge b.length w.size with hb | hb
  · obtain ⟨s, hs, hp⟩ := exists_payload_of_length_lt hb fun h => hw h.1
    exact ⟨s, hs, .inr hp⟩
  have hv := (value_lt_two_pow_63 (List.length_take_of_le hb)).2 fun h => hw h.1
  rcases Nat.lt_or_ge (b.drop w.size).length (w.value (b.take w.size)) with hl | hl
  · obtain ⟨s, hs, hp⟩ := exists_payload_of_string_lt hb hv hl
    exact ⟨s, hs, .inr hp⟩
  obtain ⟨hfits, hbe⟩ := value_lt_limit (List.length_take_of_le hb) hv
  refine ⟨⟨w, (b.drop w.size).take (w.value (b.take w.size)), by rwa [List.length_take_of_le hl]⟩,
    rfl, .inl ⟨(b.drop w.size).drop (w.value (b.take w.size)), ?_⟩⟩
  simp only [LengthPrefixed.payload, List.length_take_of_le hl, hbe, List.append_assoc,
    List.take_append_drop]

/-- Every byte string starts with a metadata record, ends inside one, or has a second byte
that is neither metadata length tag. -/
theorem metadata_trichotomy (s : Bytes) :
    (∃ md : MetadataRecord, md.toBytes P <+: s) ∨
      (∃ md : MetadataRecord, ProperPrefix s (md.toBytes P)) ∨
      ∃ t tag y, s = t :: tag :: y ∧ tag ≠ P.metadataLengthUByte ∧ tag ≠ P.metadataLengthUShort := by
  rcases s with _ | ⟨t, _ | ⟨tag, y⟩⟩
  · exact .inr (.inl ⟨⟨0, .uByte, [], nofun, by decide⟩, _, List.cons_ne_nil _ _, rfl⟩)
  · exact .inr (.inl ⟨⟨t, .uByte, [], nofun, by decide⟩, _, List.cons_ne_nil _ _, rfl⟩)
  rcases metadataLength_cases (P := P) tag with ⟨w, hw, rfl⟩ | ⟨h₁, h₂⟩
  · obtain ⟨s, rfl, ⟨z, rfl⟩ | hp⟩ := payload_or_properPrefix hw y
    · exact .inl ⟨⟨t, s.width, s.bytes, hw, s.fits⟩, z, rfl⟩
    · exact .inr (.inl ⟨⟨t, s.width, s.bytes, hw, s.fits⟩, hp.append_left [t, _]⟩)
  · exact .inr (.inr ⟨t, tag, y, rfl, h₁, h₂⟩)

/-! ### Each shape, decoded -/

theorem decodeMetadataSize_beBytes {w : LengthWidth} (hw : w ≠ .int) {n : Nat} (hn : n < w.limit)
    (hr : r.rest = beBytes w.size n ++ x) :
    decodeMetadataSize P (P.metadataLength w) r = (.ok (BitVec.ofNat 16 n), r.skip w.size) := by
  cases w with
  | uByte =>
    simp only [LengthWidth.limit, LengthWidth.size] at hn hr
    have hv : r.rest = beBytes 1 (BitVec.ofNat (8 * 1) n).toNat ++ x := by
      rw [hr, BitVec.toNat_ofNat, Nat.mod_eq_of_lt hn]
    rw [show P.metadataLength .uByte = P.metadataLengthUByte from rfl, decodeMetadataSize, if_pos rfl,
      bind_of_ok (decodeInt_of_beBytes hv), pure_apply]
    congr
    apply BitVec.eq_of_toNat_eq
    simp only [BitVec.toNat_setWidth, BitVec.toNat_ofNat]
    omega
  | uShort =>
    simp only [LengthWidth.limit, LengthWidth.size] at hn hr
    have hv : r.rest = beBytes 2 (BitVec.ofNat (8 * 2) n).toNat ++ x := by
      rw [hr, BitVec.toNat_ofNat, Nat.mod_eq_of_lt hn]
    rw [show P.metadataLength .uShort = P.metadataLengthUShort from rfl, decodeMetadataSize,
      if_neg (Ne.symm P.metadata_length_ne), if_pos rfl, bind_of_ok (decodeInt_of_beBytes hv),
      pure_apply]
    rfl
  | int => exact absurd rfl hw

theorem readMetadataInfo_of_cons (hr : r.rest = t :: tag :: y) :
    readMetadataInfo P r = (do let size ← decodeMetadataSize P tag; pure (t, size)) (r.skip 2) := by
  rw [readMetadataInfo, bind_of_ok (readTag_of_cons hr),
    bind_of_ok (readTag_of_cons (Reader.rest_skip_one hr)), Reader.skip_skip]

/-- `read_metadata_info` reads a metadata record's type and length, and stops at the
metadata. -/
theorem readMetadataInfo_toBytes (md : MetadataRecord) (hr : r.rest = md.toBytes P ++ x) :
    readMetadataInfo P r =
      (.ok (md.metadataType, BitVec.ofNat 16 md.metadata.length), r.skip (2 + md.width.size)) := by
  have h₀ : r.rest = md.metadataType :: P.metadataLength md.width ::
      (beBytes md.width.size md.metadata.length ++ (md.metadata ++ x)) := by
    simp [hr, MetadataRecord.toBytes]
  have h₂ : (r.skip 2).rest = beBytes md.width.size md.metadata.length ++ (md.metadata ++ x) := by
    simp [h₀]
  rw [readMetadataInfo_of_cons h₀, bind_of_ok (decodeMetadataSize_beBytes md.width_ne_int md.fits h₂),
    pure_apply, Reader.skip_skip]

theorem readMetadataInfo_of_not_tag (hr : r.rest = t :: tag :: y)
    (h₁ : tag ≠ P.metadataLengthUByte) (h₂ : tag ≠ P.metadataLengthUShort) :
    readMetadataInfo P r = (.error .corruptedIR, r.skip 2) := by
  rw [readMetadataInfo_of_cons hr, decodeMetadataSize, if_neg h₁, if_neg h₂]
  rfl

/-- `decode_preamble` (the form that copies the metadata out) reads a metadata record,
whatever follows it, and moves past exactly the record. -/
theorem decodePreambleCopy_toBytes (md : MetadataRecord) (hr : r.rest = md.toBytes P ++ x) :
    decodePreambleCopy P r = (.ok (md.metadataType, md.metadata), r.skip (md.toBytes P).length) := by
  have hm := md.rest_skip_metadata hr
  rw [decodePreambleCopy, bind_of_ok (readMetadataInfo_toBytes md hr)]
  dsimp only
  rw [md.toNat_size, bind_of_ok (readExact_of_le (by rw [hm, List.length_append]; omega)), hm,
    List.take_left, pure_apply, Reader.skip_skip, MetadataRecord.length_toBytes]

/-- `decode_preamble` (the form that seeks past the metadata) reads a metadata record,
whatever follows it, returns where the metadata starts and its size, and moves past exactly
the record. -/
theorem decodePreambleSeek_toBytes (md : MetadataRecord) (hr : r.rest = md.toBytes P ++ x) :
    decodePreambleSeek P r = (.ok (md.metadataType, r.pos + (2 + md.width.size),
      BitVec.ofNat 16 md.metadata.length), r.skip (md.toBytes P).length) := by
  have hlen : (md.toBytes P).length ≤ r.rest.length := by simp [hr]
  have hpos := Reader.pos_skip (n := 2 + md.width.size)
    (Nat.le_trans (by rw [MetadataRecord.length_toBytes]; omega) hlen)
  have hend : (r.skip (2 + md.width.size)).pos + md.metadata.length ≤
      (r.skip (2 + md.width.size)).bytes.length := by
    have := r.pos_le
    simp only [Reader.rest, List.length_drop, MetadataRecord.length_toBytes] at hlen
    simp only [Reader.skip_bytes, hpos]
    omega
  rw [decodePreambleSeek, bind_of_ok (readMetadataInfo_toBytes md hr)]
  dsimp only
  rw [bind_of_ok (getPos_apply _), bind_of_ok (by rw [seekFromBegin_apply, md.toNat_size, dif_pos hend]),
    pure_apply]
  refine Prod.ext (by simp only [hpos]) (Reader.ext rfl ?_)
  show (r.skip (2 + md.width.size)).pos + md.metadata.length = (r.skip (md.toBytes P).length).pos
  rw [Reader.pos_skip hlen, hpos, MetadataRecord.length_toBytes, Nat.add_assoc]

/-- On bytes that end inside a metadata record, `decode_preamble` (copy form) answers
incomplete IR: any other answer it would give again on the whole record. -/
theorem decodePreambleCopy_of_properPrefix {md : MetadataRecord}
    (h : ProperPrefix r.rest (md.toBytes P)) : (decodePreambleCopy P r).1 = .error .incompleteIR := by
  obtain ⟨x, hx, hmx⟩ := h
  have hs := decodePreambleCopy_toBytes (x := []) md (r := r.append x)
    (by rw [Reader.rest_append, hmx, List.append_nil])
  exact (stable_decodePreambleCopy P).incomplete_of_append hx (by rwa [hmx])

/-- On bytes that end inside a metadata record, `decode_preamble` (seek form) answers
incomplete IR. -/
theorem decodePreambleSeek_of_properPrefix {md : MetadataRecord}
    (h : ProperPrefix r.rest (md.toBytes P)) : (decodePreambleSeek P r).1 = .error .incompleteIR := by
  obtain ⟨x, hx, hmx⟩ := h
  have hs := decodePreambleSeek_toBytes (x := []) md (r := r.append x)
    (by rw [Reader.rest_append, hmx, List.append_nil])
  exact (stable_decodePreambleSeek P).incomplete_of_append hx (by rwa [hmx])

theorem decodePreambleCopy_of_not_tag (hr : r.rest = t :: tag :: y)
    (h₁ : tag ≠ P.metadataLengthUByte) (h₂ : tag ≠ P.metadataLengthUShort) :
    decodePreambleCopy P r = (.error .corruptedIR, r.skip 2) :=
  bind_of_error (readMetadataInfo_of_not_tag hr h₁ h₂)

theorem decodePreambleSeek_of_not_tag (hr : r.rest = t :: tag :: y)
    (h₁ : tag ≠ P.metadataLengthUByte) (h₂ : tag ≠ P.metadataLengthUShort) :
    decodePreambleSeek P r = (.error .corruptedIR, r.skip 2) :=
  bind_of_error (readMetadataInfo_of_not_tag hr h₁ h₂)

/-! ### What the answers say -/

/-- What each code of `decode_preamble` says about the bytes after the magic number. -/
def MetadataAnswer (P : Protocol) : IRErrorCode → Bytes → Prop
  | .success, s => ∃ md : MetadataRecord, md.toBytes P <+: s
  | .incompleteIR, s => ∃ md : MetadataRecord, ProperPrefix s (md.toBytes P)
  | .corruptedIR, s =>
    ∃ t tag y, s = t :: tag :: y ∧ tag ≠ P.metadataLengthUByte ∧ tag ≠ P.metadataLengthUShort
  | _, _ => False

/-- A code that each shape of bytes fixes as `MetadataAnswer` says is `c` exactly when the
bytes are as `c` says. -/
theorem code_eq_iff_metadataAnswer {s : Bytes} {k : IRErrorCode}
    (h₁ : ∀ md : MetadataRecord, md.toBytes P <+: s → k = .success)
    (h₂ : ∀ md : MetadataRecord, ProperPrefix s (md.toBytes P) → k = .incompleteIR)
    (h₃ : ∀ t tag y, s = t :: tag :: y → tag ≠ P.metadataLengthUByte →
      tag ≠ P.metadataLengthUShort → k = .corruptedIR)
    (c : IRErrorCode) : k = c ↔ MetadataAnswer P c s := by
  constructor
  · rintro rfl
    rcases metadata_trichotomy (P := P) s with ⟨md, h⟩ | ⟨md, h⟩ | ⟨t, tag, y, hs, ht₁, ht₂⟩
    · rw [h₁ md h]
      exact ⟨md, h⟩
    · rw [h₂ md h]
      exact ⟨md, h⟩
    · rw [h₃ t tag y hs ht₁ ht₂]
      exact ⟨t, tag, y, hs, ht₁, ht₂⟩
  · match c with
    | .success => exact fun ⟨md, h⟩ => h₁ md h
    | .incompleteIR => exact fun ⟨md, h⟩ => h₂ md h
    | .corruptedIR => exact fun ⟨t, tag, y, hs, ht₁, ht₂⟩ => h₃ t tag y hs ht₁ ht₂
    | .decodeError | .eof => exact False.elim

/-- Both forms of `decode_preamble` return `c` exactly when the bytes after the magic number
are as `c` says: a metadata record and anything after it, a proper prefix of one, or a
length tag that is neither metadata length tag. -/
theorem decodePreamble_code_iff (c : IRErrorCode) :
    (code (decodePreambleSeek P r).1 = c ↔ MetadataAnswer P c r.rest) ∧
      (code (decodePreambleCopy P r).1 = c ↔ MetadataAnswer P c r.rest) :=
  ⟨code_eq_iff_metadataAnswer (fun md ⟨_, hx⟩ => by rw [decodePreambleSeek_toBytes md hx.symm]; rfl)
      (fun _ h => by rw [decodePreambleSeek_of_properPrefix h]; rfl)
      (fun _ _ _ hs h₁ h₂ => by rw [decodePreambleSeek_of_not_tag hs h₁ h₂]; rfl) c,
    code_eq_iff_metadataAnswer (fun md ⟨_, hx⟩ => by rw [decodePreambleCopy_toBytes md hx.symm]; rfl)
      (fun _ h => by rw [decodePreambleCopy_of_properPrefix h]; rfl)
      (fun _ _ _ hs h₁ h₂ => by rw [decodePreambleCopy_of_not_tag hs h₁ h₂]; rfl) c⟩

/-- `decode_preamble` (copy form) succeeds exactly on a metadata record: it returns the
record's type and metadata, and moves past exactly the record. -/
theorem decodePreambleCopy_eq_ok {metadataType : Byte} {metadata : Bytes} :
    decodePreambleCopy P r = (.ok (metadataType, metadata), r') ↔
      ∃ md : MetadataRecord, md.metadataType = metadataType ∧ md.metadata = metadata ∧
        r.rest = md.toBytes P ++ r'.rest ∧ r' = r.skip (md.toBytes P).length := by
  constructor
  · intro h
    rcases metadata_trichotomy (P := P) r.rest with ⟨md, x, hx⟩ | ⟨_, hp⟩ | ⟨_, _, _, hs, h₁, h₂⟩
    · rw [decodePreambleCopy_toBytes md hx.symm, Prod.mk.injEq, Except.ok.injEq, Prod.mk.injEq] at h
      obtain ⟨⟨rfl, rfl⟩, rfl⟩ := h
      exact ⟨md, rfl, rfl, by rw [Reader.rest_skip, ← hx, List.drop_left], rfl⟩
    · have := decodePreambleCopy_of_properPrefix hp
      rw [h] at this
      cases this
    · rw [decodePreambleCopy_of_not_tag hs h₁ h₂] at h
      cases h
  · rintro ⟨md, rfl, rfl, hr, rfl⟩
    exact decodePreambleCopy_toBytes md hr

/-- `decode_preamble` (seek form) succeeds exactly on a metadata record: it returns the
record's type, where its metadata starts and the metadata's size, and moves past exactly the
record. -/
theorem decodePreambleSeek_eq_ok {metadataType : Byte} {metadataPos : Nat}
    {metadataSize : BitVec 16} :
    decodePreambleSeek P r = (.ok (metadataType, metadataPos, metadataSize), r') ↔
      ∃ md : MetadataRecord, md.metadataType = metadataType ∧
        r.pos + (2 + md.width.size) = metadataPos ∧
        BitVec.ofNat 16 md.metadata.length = metadataSize ∧
        r.rest = md.toBytes P ++ r'.rest ∧ r' = r.skip (md.toBytes P).length := by
  constructor
  · intro h
    rcases metadata_trichotomy (P := P) r.rest with ⟨md, x, hx⟩ | ⟨_, hp⟩ | ⟨_, _, _, hs, h₁, h₂⟩
    · rw [decodePreambleSeek_toBytes md hx.symm, Prod.mk.injEq, Except.ok.injEq, Prod.mk.injEq,
        Prod.mk.injEq] at h
      obtain ⟨⟨rfl, rfl, rfl⟩, rfl⟩ := h
      exact ⟨md, rfl, rfl, rfl, by rw [Reader.rest_skip, ← hx, List.drop_left], rfl⟩
    · have := decodePreambleSeek_of_properPrefix hp
      rw [h] at this
      cases this
    · rw [decodePreambleSeek_of_not_tag hs h₁ h₂] at h
      cases h
  · rintro ⟨md, rfl, rfl, rfl, hr, rfl⟩
    exact decodePreambleSeek_toBytes md hr

/-- `decode_preamble` accepts exactly the metadata records: in either form it succeeds on the
bytes after the magic number if and only if they start with a metadata record, whose values
it returns and past which it moves. -/
theorem decodePreamble_eq_ok_iff {metadataType : Byte} {metadataPos : Nat}
    {metadataSize : BitVec 16} {metadata : Bytes} :
    (decodePreambleSeek P r = (.ok (metadataType, metadataPos, metadataSize), r') ↔
      ∃ md : MetadataRecord, md.metadataType = metadataType ∧
        r.pos + (2 + md.width.size) = metadataPos ∧
        BitVec.ofNat 16 md.metadata.length = metadataSize ∧
        r.rest = md.toBytes P ++ r'.rest ∧ r' = r.skip (md.toBytes P).length) ∧
    (decodePreambleCopy P r = (.ok (metadataType, metadata), r') ↔
      ∃ md : MetadataRecord, md.metadataType = metadataType ∧ md.metadata = metadata ∧
        r.rest = md.toBytes P ++ r'.rest ∧ r' = r.skip (md.toBytes P).length) :=
  ⟨decodePreambleSeek_eq_ok, decodePreambleCopy_eq_ok⟩

end Metadata

end IrStream

import IrStream.Fields
/-!
# The wire format

The grammar of an IR stream, as the spec's wire-format summary gives it: a frame is
variable records, a logtype record and a timestamp record; the preamble's metadata record
is a type byte, a length tag, the length and the metadata. Every value of these types is
well formed: a string fits its length field, and a timestamp record is one of its
encoding's kinds. The grammar is unambiguous: a frame's bytes, whatever follows them,
determine the frame (`Frame.toBytes_append_inj`).
-/

namespace IrStream

/-- A string with its length field: the field's width and the string, which the width
can count. -/
@[ext] structure LengthPrefixed where
  width : LengthWidth
  bytes : Bytes
  fits : bytes.length < width.limit

/-- What follows a length-prefixed string's tag: the length, then the string. -/
def LengthPrefixed.payload (s : LengthPrefixed) : Bytes :=
  beBytes s.width.size s.bytes.length ++ s.bytes

/-- The record of a length-prefixed string, under the length tags `lenTag` of its kind. -/
def LengthPrefixed.toBytes (lenTag : LengthWidth → Byte) (s : LengthPrefixed) : Bytes :=
  lenTag s.width :: s.payload

/-- A variable record: an encoded variable, or a dictionary variable. -/
inductive VarRecord (e : Encoding)
  | encoded (v : e.Var)
  | dictionary (s : LengthPrefixed)

/-- A timestamp record: `TimestampVal` and an `int64_t` for the eight-byte encoding, a
`TimestampDelta…` tag and an `int8_t`, `int16_t` or `int32_t` for the four-byte one. -/
inductive TimestampRecord : Encoding → Type
  | val (ts : BitVec 64) : TimestampRecord .eightByte
  | deltaByte (delta : BitVec 8) : TimestampRecord .fourByte
  | deltaShort (delta : BitVec 16) : TimestampRecord .fourByte
  | deltaInt (delta : BitVec 32) : TimestampRecord .fourByte

/-- A frame: its variable records, its logtype and its timestamp record. -/
structure Frame (e : Encoding) where
  vars : List (VarRecord e)
  logtype : LengthPrefixed
  timestamp : TimestampRecord e

/-- The preamble's metadata record: the metadata's type, the width of its length
(`LengthUByte` or `LengthUShort`) and the metadata. -/
structure MetadataRecord where
  metadataType : Byte
  width : LengthWidth
  metadata : Bytes
  width_ne_int : width ≠ .int
  fits : metadata.length < width.limit

variable (P : Protocol) {e : Encoding}

namespace VarRecord

/-- The tag of a variable record. -/
def tag : VarRecord e → Byte
  | .encoded _ => P.varEncoding e
  | .dictionary s => P.varStrLen s.width

/-- What follows a variable record's tag. -/
def payload : VarRecord e → Bytes
  | .encoded v => beBytes e.size v.toNat
  | .dictionary s => s.payload

/-- The bytes of a variable record. -/
def toBytes (v : VarRecord e) : Bytes := v.tag P :: v.payload

/-- Whether the record is of an encoded variable. -/
def isEncoded : VarRecord e → Bool
  | .encoded _ => true
  | .dictionary _ => false

/-- The encoded variable of a record, if it is one. -/
def encodedVar? : VarRecord e → Option e.Var
  | .encoded v => some v
  | .dictionary _ => none

/-- The dictionary variable of a record, if it is one. -/
def dictionaryVar? : VarRecord e → Option Bytes
  | .encoded _ => none
  | .dictionary s => some s.bytes

end VarRecord

namespace TimestampRecord

/-- The timestamp a record carries, a delta sign-extended to 64 bits. -/
def value : TimestampRecord e → BitVec 64
  | .val ts => ts
  | .deltaByte delta => delta.signExtend 64
  | .deltaShort delta => delta.signExtend 64
  | .deltaInt delta => delta.signExtend 64

/-- The tag of a timestamp record. -/
def tag : TimestampRecord e → Byte
  | .val _ => P.timestampVal
  | .deltaByte _ => P.timestampDeltaByte
  | .deltaShort _ => P.timestampDeltaShort
  | .deltaInt _ => P.timestampDeltaInt

/-- What follows a timestamp record's tag: the value, big-endian. -/
def payload : TimestampRecord e → Bytes
  | .val ts => beBytes 8 ts.toNat
  | .deltaByte delta => beBytes 1 delta.toNat
  | .deltaShort delta => beBytes 2 delta.toNat
  | .deltaInt delta => beBytes 4 delta.toNat

/-- The bytes of a timestamp record. -/
def toBytes (t : TimestampRecord e) : Bytes := t.tag P :: t.payload

end TimestampRecord

/-- The bytes of a list of variable records. -/
def varsToBytes : List (VarRecord e) → Bytes
  | [] => []
  | v :: vs => v.toBytes P ++ varsToBytes vs

namespace Frame

/-- The bytes of a frame. -/
def toBytes (f : Frame e) : Bytes :=
  varsToBytes P f.vars ++ (f.logtype.toBytes P.logtypeStrLen ++ f.timestamp.toBytes P)

/-- The frame's encoded variables, in record order. -/
def encodedVars (f : Frame e) : List e.Var := f.vars.filterMap VarRecord.encodedVar?

/-- The frame's dictionary variables, in record order. -/
def dictVars (f : Frame e) : List Bytes := f.vars.filterMap VarRecord.dictionaryVar?

end Frame

/-- The metadata length tag of each width. -/
def Protocol.metadataLength : LengthWidth → Byte
  | .uByte => P.metadataLengthUByte
  | _ => P.metadataLengthUShort

/-- The bytes of the metadata record. -/
def MetadataRecord.toBytes (m : MetadataRecord) : Bytes :=
  m.metadataType :: P.metadataLength m.width :: (beBytes m.width.size m.metadata.length ++ m.metadata)

/-! ## The grammar is unambiguous -/

theorem LengthWidth.limit_le (w : LengthWidth) : w.limit ≤ 256 ^ w.size := by
  cases w <;> decide

@[simp] theorem varsToBytes_nil : varsToBytes P ([] : List (VarRecord e)) = [] := rfl

@[simp] theorem varsToBytes_cons (v : VarRecord e) (vs : List (VarRecord e)) :
    varsToBytes P (v :: vs) = v.toBytes P ++ varsToBytes P vs := rfl

theorem varsToBytes_append (vs vs' : List (VarRecord e)) :
    varsToBytes P (vs ++ vs') = varsToBytes P vs ++ varsToBytes P vs' := by
  induction vs <;> simp [*]

variable {P}

/-- A length-prefixed string's record, whatever follows it, determines the string. -/
theorem LengthPrefixed.toBytes_append_inj {lenTag : LengthWidth → Byte}
    (hinj : Function.Injective lenTag) {s s' : LengthPrefixed} {x x' : Bytes}
    (h : s.toBytes lenTag ++ x = s'.toBytes lenTag ++ x') : s = s' ∧ x = x' := by
  simp only [toBytes, payload, List.cons_append, List.cons.injEq, List.append_assoc] at h
  have hw := hinj h.1
  obtain ⟨hl, hr⟩ := List.append_inj h.2 (by simp [hw])
  have hlen : s.bytes.length = s'.bytes.length :=
    beBytes_inj (Nat.lt_of_lt_of_le s.fits (LengthWidth.limit_le _))
      (Nat.lt_of_lt_of_le s'.fits (hw ▸ LengthWidth.limit_le _)) (hw ▸ hl)
  obtain ⟨hb, hx⟩ := List.append_inj hr hlen
  exact ⟨LengthPrefixed.ext hw hb, hx⟩

/-- A variable record, whatever follows it, determines the record. -/
theorem VarRecord.toBytes_append_inj {v v' : VarRecord e} {x x' : Bytes}
    (h : v.toBytes P ++ x = v'.toBytes P ++ x') : v = v' ∧ x = x' := by
  cases v <;> cases v' <;>
    simp only [toBytes, tag, payload, List.cons_append, List.cons.injEq] at h
  · obtain ⟨hv, hx⟩ := List.append_inj h.2 (by simp)
    have := two_pow_eight_mul e.size
    refine ⟨congrArg _ (BitVec.eq_of_toNat_eq (beBytes_inj ?_ ?_ hv)), hx⟩ <;>
      exact this ▸ BitVec.isLt _
  · exact absurd h.1 (Protocol.varEncoding_ne_varStrLen _ _)
  · exact absurd h.1.symm (Protocol.varEncoding_ne_varStrLen _ _)
  · obtain ⟨hs, hx⟩ := LengthPrefixed.toBytes_append_inj (fun _ _ => Protocol.varStrLen_inj.1)
      (by simpa only [LengthPrefixed.toBytes, List.cons_append, List.cons.injEq] using h)
    exact ⟨congrArg _ hs, hx⟩

/-- A timestamp record, whatever follows it, determines the record. -/
theorem TimestampRecord.toBytes_append_inj {t t' : TimestampRecord e} {x x' : Bytes}
    (h : t.toBytes P ++ x = t'.toBytes P ++ x') : t = t' ∧ x = x' := by
  obtain ⟨h₁, h₂, h₃⟩ := P.timestampDelta_ne
  cases t <;> cases t' <;> simp only [toBytes, tag, payload, List.cons_append, List.cons.injEq] at h
  all_goals first
    | exact absurd h.1 ‹_›
    | exact absurd h.1.symm ‹_›
    | obtain ⟨hv, hx⟩ := List.append_inj h.2 (by simp)
      exact ⟨congrArg _ (BitVec.eq_of_toNat_eq (beBytes_inj (BitVec.isLt _) (BitVec.isLt _) hv)), hx⟩

/-- Variable records followed by a logtype record, whatever follows them, determine the
records and the logtype. -/
theorem varsToBytes_logtype_inj {vs vs' : List (VarRecord e)} {s s' : LengthPrefixed}
    {x x' : Bytes}
    (h : varsToBytes P vs ++ (s.toBytes P.logtypeStrLen ++ x) =
      varsToBytes P vs' ++ (s'.toBytes P.logtypeStrLen ++ x')) :
    vs = vs' ∧ s = s' ∧ x = x' := by
  induction vs generalizing vs' with
  | nil =>
    cases vs' with
    | nil =>
      obtain ⟨hs, hx⟩ := LengthPrefixed.toBytes_append_inj (fun _ _ => Protocol.logtypeStrLen_inj.1) h
      exact ⟨rfl, hs, hx⟩
    | cons v' vs' =>
      cases v' <;> simp only [varsToBytes, VarRecord.toBytes, VarRecord.tag, LengthPrefixed.toBytes,
        List.nil_append, List.cons_append, List.append_assoc, List.cons.injEq] at h
      · exact absurd h.1.symm (Protocol.varEncoding_ne_logtypeStrLen _ _)
      · exact absurd h.1.symm (Protocol.varStrLen_ne_logtypeStrLen _ _)
  | cons v vs ih =>
    cases vs' with
    | nil =>
      cases v <;> simp only [varsToBytes, VarRecord.toBytes, VarRecord.tag, LengthPrefixed.toBytes,
        List.nil_append, List.cons_append, List.append_assoc, List.cons.injEq] at h
      · exact absurd h.1 (Protocol.varEncoding_ne_logtypeStrLen _ _)
      · exact absurd h.1 (Protocol.varStrLen_ne_logtypeStrLen _ _)
    | cons v' vs' =>
      simp only [varsToBytes_cons, List.append_assoc] at h
      obtain ⟨rfl, h'⟩ := VarRecord.toBytes_append_inj h
      obtain ⟨rfl, hs, hx⟩ := ih h'
      exact ⟨rfl, hs, hx⟩

/-- A frame's bytes, whatever follows them, determine the frame. -/
theorem Frame.toBytes_append_inj {f f' : Frame e} {x x' : Bytes}
    (h : f.toBytes P ++ x = f'.toBytes P ++ x') : f = f' ∧ x = x' := by
  simp only [toBytes, List.append_assoc] at h
  obtain ⟨hv, hs, h⟩ := varsToBytes_logtype_inj h
  obtain ⟨ht, hx⟩ := TimestampRecord.toBytes_append_inj h
  cases f
  cases f'
  exact ⟨by simp_all, hx⟩

end IrStream

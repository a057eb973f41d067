import IrStream.Basic
/-!
# The reader and the decoding monad

`ReaderInterface` as the decoder uses it, over a byte buffer: a failed read leaves the
reader where it was, and `try_seek_from_begin` fails exactly when its target lies past the
end of the bytes (the spec's reader contract). Positions are `Nat`; a reader's positions
stay far below `2^64`, so the `size_t` arithmetic on them never wraps.

A `Decoder` is a step of a decoding function: the value it computes, or the error code it
returns early with, and the reader as it leaves it. Every read that comes up short makes
the C++ caller return `IRErrorCode_Incomplete_IR`, and the primitives here do that.

`Decoder.Stable` is what the frame parser's answer being settled by the bytes it read
means: unless the answer is `IRErrorCode_Incomplete_IR`, appending bytes to the reader
changes nothing. The primitives are stable and `bind` keeps it.
-/

namespace IrStream

/-- A reader over a byte buffer: its bytes and the position of the next byte to read. -/
@[ext] structure Reader where
  bytes : Bytes
  pos : Nat
  pos_le : pos ≤ bytes.length

namespace Reader

variable (r : Reader) (n : Nat)

/-- The bytes from the position on. -/
def rest : Bytes := r.bytes.drop r.pos

/-- A reader at the start of `bytes`. -/
def ofBytes (bytes : Bytes) : Reader := ⟨bytes, 0, Nat.zero_le _⟩

/-- The reader `n` bytes further on (at most to the end). -/
def skip : Reader := ⟨r.bytes, min (r.pos + n) r.bytes.length, Nat.min_le_right _ _⟩

/-- The same reader once the bytes `s` have arrived after its buffer. -/
def append (s : Bytes) : Reader := ⟨r.bytes ++ s, r.pos, by simp; have := r.pos_le; omega⟩

/-- `try_read_exact_length`, through which `try_read_numeric_value` and `try_read_string`
read: the next `n` bytes, or `none` (`ErrorCode_Truncated`) when fewer remain. -/
def tryReadExactLength : Option (Bytes × Reader) :=
  if n ≤ r.rest.length then some (r.rest.take n, r.skip n) else none

/-- `get_pos`. -/
def getPos : Nat := r.pos

/-- `try_seek_from_begin`. -/
def trySeekFromBegin (pos : Nat) : Option Reader :=
  if h : pos ≤ r.bytes.length then some ⟨r.bytes, pos, h⟩ else none

variable {r n}

@[simp] theorem skip_bytes : (r.skip n).bytes = r.bytes := rfl

@[simp] theorem rest_skip : (r.skip n).rest = r.rest.drop n := by
  have := r.pos_le
  simp only [rest, skip, List.drop_drop]
  rcases Nat.le_total (r.pos + n) r.bytes.length with h | h
  · rw [Nat.min_eq_left h, Nat.add_comm]
  · rw [Nat.min_eq_right h, List.drop_eq_nil_of_le (Nat.le_refl _),
      List.drop_eq_nil_of_le (by omega)]

theorem pos_skip (h : n ≤ r.rest.length) : (r.skip n).pos = r.pos + n := by
  have := r.pos_le
  simp only [skip, rest, List.length_drop] at h ⊢
  omega

@[simp] theorem skip_zero (r : Reader) : r.skip 0 = r := by
  ext1
  · rfl
  · simp [skip, Nat.min_eq_left r.pos_le]

theorem skip_skip (r : Reader) (a b : Nat) : (r.skip a).skip b = r.skip (a + b) := by
  have := r.pos_le
  ext1
  · rfl
  · simp only [skip]; omega

theorem rest_skip_length {a b : Bytes} (hr : r.rest = a ++ b) : (r.skip a.length).rest = b := by
  simp [hr]

theorem rest_skip_one {b : Byte} {c : Bytes} (hr : r.rest = b :: c) : (r.skip 1).rest = c := by
  simp [hr]

theorem length_rest_skip_lt {m : Nat} (hr : r.rest.length < m) : (r.skip n).rest.length < m := by
  simp only [rest_skip, List.length_drop]
  omega

@[simp] theorem append_bytes (s : Bytes) : (r.append s).bytes = r.bytes ++ s := rfl

@[simp] theorem append_pos (s : Bytes) : (r.append s).pos = r.pos := rfl

@[simp] theorem append_nil : r.append [] = r := Reader.ext (List.append_nil _) rfl

@[simp] theorem append_append (s t : Bytes) : (r.append s).append t = r.append (s ++ t) :=
  Reader.ext (List.append_assoc _ _ _) rfl

@[simp] theorem rest_append (s : Bytes) : (r.append s).rest = r.rest ++ s := by
  simp [rest, append, List.drop_append_of_le_length r.pos_le]

@[simp] theorem rest_ofBytes (bytes : Bytes) : (ofBytes bytes).rest = bytes := rfl

theorem skip_append (s : Bytes) (h : n ≤ r.rest.length) :
    (r.append s).skip n = (r.skip n).append s := by
  have := pos_skip h
  simp only [skip, append, rest, List.length_drop, List.length_append] at h this ⊢
  ext1
  · rfl
  · simp only; omega

end Reader

/-- A step of a decoding function. -/
def Decoder (α : Type) : Type := Reader → Except IRErrorCode α × Reader

namespace Decoder

instance : Monad Decoder where
  pure a r := (.ok a, r)
  bind m f r := match m r with
    | (.ok a, r') => f a r'
    | (.error e, r') => (.error e, r')

variable {α β : Type}

/-- The code a step returns: `IRErrorCode_Success`, or the code it returned early with. -/
def code : Except IRErrorCode α → IRErrorCode
  | .ok _ => .success
  | .error e => e

/-- Return early with the error code `e`. -/
def fail (e : IRErrorCode) : Decoder α := fun r => (.error e, r)

/-- Read `n` bytes. -/
def readExact (n : Nat) : Decoder Bytes := fun r =>
  match r.tryReadExactLength n with
  | some (b, r') => (.ok b, r')
  | none => (.error .incompleteIR, r)

/-- `try_read_numeric_value` of an `encoded_tag_t`. -/
def readTag : Decoder Byte := fun r =>
  match r.tryReadExactLength 1 with
  | some (b :: _, r') => (.ok b, r')
  | _ => (.error .incompleteIR, r)

/-- `decode_int` of an `n`-byte integer. -/
def decodeInt (n : Nat) : Decoder (BitVec (8 * n)) := do
  let bytes ← readExact n
  pure (BitVec.ofNat (8 * n) (bigEndian bytes))

/-- `get_pos`. -/
def getPos : Decoder Nat := fun r => (.ok r.getPos, r)

/-- `try_seek_from_begin`. -/
def seekFromBegin (pos : Nat) : Decoder Unit := fun r =>
  match r.trySeekFromBegin pos with
  | some r' => (.ok (), r')
  | none => (.error .incompleteIR, r)

/-! ## Running a step -/

variable {m : Decoder α} {f : α → Decoder β} {r r' : Reader} {a : α} {b : β}
  {e : IRErrorCode}

@[simp] theorem pure_apply (x : α) (r : Reader) : (pure x : Decoder α) r = (.ok x, r) := rfl

@[simp] theorem fail_apply (e : IRErrorCode) (r : Reader) :
    (fail e : Decoder α) r = (.error e, r) := rfl

theorem bind_apply : (m >>= f) r = match m r with
    | (.ok a, r') => f a r'
    | (.error e, r') => (.error e, r') := rfl

@[simp] theorem getPos_apply (r : Reader) : getPos r = (.ok r.pos, r) := rfl

theorem seekFromBegin_apply (pos : Nat) (r : Reader) :
    seekFromBegin pos r =
      if h : pos ≤ r.bytes.length then (.ok (), ⟨r.bytes, pos, h⟩) else (.error .incompleteIR, r) := by
  unfold seekFromBegin Reader.trySeekFromBegin
  by_cases h : pos ≤ r.bytes.length <;> simp [h]

theorem bind_of_ok (h : m r = (.ok a, r')) : (m >>= f) r = f a r' := by
  show (match m r with | (.ok a, r') => f a r' | (.error e, r') => (.error e, r')) = _
  rw [h]

theorem bind_of_error (h : m r = (.error e, r')) : (m >>= f) r = (.error e, r') := by
  show (match m r with | (.ok a, r') => f a r' | (.error e, r') => (.error e, r')) = _
  rw [h]

theorem bind_apply_of_eq {m' : Decoder α} {r₁ : Reader} (h : m r = m' r₁) :
    (m >>= f) r = (m' >>= f) r₁ := by
  rw [bind_apply, bind_apply, h]

theorem bind_eq_ok {r'' : Reader} :
    (m >>= f) r = (.ok b, r'') ↔ ∃ a r', m r = (.ok a, r') ∧ f a r' = (.ok b, r'') := by
  rcases h : m r with ⟨_ | a, r'⟩
  · simp [bind_of_error h]
  · rw [bind_of_ok h]
    refine ⟨fun hf => ⟨a, r', rfl, hf⟩, ?_⟩
    rintro ⟨a', r₁, he, hf⟩
    simp only [Prod.mk.injEq, Except.ok.injEq] at he
    rwa [he.1, he.2]

theorem bind_eq_error {r'' : Reader} :
    (m >>= f) r = (.error e, r'') ↔
      m r = (.error e, r'') ∨ ∃ a r', m r = (.ok a, r') ∧ f a r' = (.error e, r'') := by
  rcases h : m r with ⟨_ | a, r'⟩
  · simp [bind_of_error h]
  · rw [bind_of_ok h]
    refine ⟨fun hf => .inr ⟨a, r', rfl, hf⟩, ?_⟩
    rintro (he | ⟨a', r₁, he, hf⟩)
    · cases he
    · simp only [Prod.mk.injEq, Except.ok.injEq] at he
      rwa [he.1, he.2]

theorem readExact_of_le {n : Nat} (h : n ≤ r.rest.length) :
    readExact n r = (.ok (r.rest.take n), r.skip n) := by
  simp [readExact, Reader.tryReadExactLength, h]

theorem readExact_of_lt {n : Nat} (h : r.rest.length < n) :
    readExact n r = (.error .incompleteIR, r) := by
  simp [readExact, Reader.tryReadExactLength, Nat.not_le.2 h]

theorem readTag_of_cons {x : Byte} {t : Bytes} (h : r.rest = x :: t) :
    readTag r = (.ok x, r.skip 1) := by
  simp [readTag, Reader.tryReadExactLength, h]

theorem readTag_of_nil (h : r.rest = []) : readTag r = (.error .incompleteIR, r) := by
  simp [readTag, Reader.tryReadExactLength, h]

theorem decodeInt_of_le {n : Nat} (h : n ≤ r.rest.length) :
    decodeInt n r = (.ok (BitVec.ofNat (8 * n) (bigEndian (r.rest.take n))), r.skip n) := by
  simp only [decodeInt, bind_of_ok (readExact_of_le h), pure_apply]

theorem decodeInt_of_lt {n : Nat} (h : r.rest.length < n) :
    decodeInt n r = (.error .incompleteIR, r) := by
  simp only [decodeInt, bind_of_error (readExact_of_lt h)]

theorem readExact_eq_ok {n : Nat} {x : Bytes} :
    readExact n r = (.ok x, r') ↔ n ≤ r.rest.length ∧ x = r.rest.take n ∧ r' = r.skip n := by
  rcases Nat.lt_or_ge r.rest.length n with h | h
  · simp [readExact_of_lt h, Nat.not_le.2 h]
  · simp only [readExact_of_le h, Prod.mk.injEq, Except.ok.injEq, h, true_and]
    exact ⟨fun ⟨h₁, h₂⟩ => ⟨h₁.symm, h₂.symm⟩, fun ⟨h₁, h₂⟩ => ⟨h₁.symm, h₂.symm⟩⟩

theorem readExact_eq_error {n : Nat} :
    readExact n r = (.error e, r') ↔ r.rest.length < n ∧ e = .incompleteIR ∧ r' = r := by
  rcases Nat.lt_or_ge r.rest.length n with h | h
  · simp only [readExact_of_lt h, Prod.mk.injEq, Except.error.injEq, h, true_and]
    exact ⟨fun ⟨h₁, h₂⟩ => ⟨h₁.symm, h₂.symm⟩, fun ⟨h₁, h₂⟩ => ⟨h₁.symm, h₂.symm⟩⟩
  · simp [readExact_of_le h, Nat.not_lt.2 h]

theorem readTag_eq_ok {x : Byte} :
    readTag r = (.ok x, r') ↔ ∃ t, r.rest = x :: t ∧ r' = r.skip 1 := by
  rcases hr : r.rest with _ | ⟨y, t⟩
  · simp [readTag_of_nil hr]
  · simp only [readTag_of_cons hr, Prod.mk.injEq, Except.ok.injEq, List.cons.injEq]
    exact ⟨fun ⟨h₁, h₂⟩ => ⟨t, ⟨h₁, rfl⟩, h₂.symm⟩, fun ⟨_, ⟨h₁, _⟩, h₂⟩ => ⟨h₁, h₂.symm⟩⟩

theorem readTag_eq_error : readTag r = (.error e, r') ↔ r.rest = [] ∧ e = .incompleteIR ∧ r' = r := by
  rcases hr : r.rest with _ | ⟨y, t⟩
  · simp only [readTag_of_nil hr, Prod.mk.injEq, Except.error.injEq, true_and]
    exact ⟨fun ⟨h₁, h₂⟩ => ⟨h₁.symm, h₂.symm⟩, fun ⟨h₁, h₂⟩ => ⟨h₁.symm, h₂.symm⟩⟩
  · simp [readTag_of_cons hr]

theorem decodeInt_eq_ok {n : Nat} {v : BitVec (8 * n)} :
    decodeInt n r = (.ok v, r') ↔ n ≤ r.rest.length ∧
      v = BitVec.ofNat (8 * n) (bigEndian (r.rest.take n)) ∧ r' = r.skip n := by
  simp only [decodeInt, bind_eq_ok, readExact_eq_ok, pure_apply, Prod.mk.injEq, Except.ok.injEq]
  constructor
  · rintro ⟨_, _, ⟨h, rfl, rfl⟩, rfl, rfl⟩
    exact ⟨h, rfl, rfl⟩
  · rintro ⟨h, rfl, rfl⟩
    exact ⟨_, _, ⟨h, rfl, rfl⟩, rfl, rfl⟩

theorem decodeInt_eq_error {n : Nat} :
    decodeInt n r = (.error e, r') ↔ r.rest.length < n ∧ e = .incompleteIR ∧ r' = r := by
  simp only [decodeInt, bind_eq_error, readExact_eq_error, readExact_eq_ok, pure_apply]
  constructor
  · rintro (h | ⟨_, _, _, h⟩)
    · exact h
    · cases h
  · exact fun h => .inl h

/-- The value `decode_int` reads back from the bytes of `v`. -/
theorem ofNat_bigEndian_beBytes (n : Nat) (v : BitVec (8 * n)) :
    BitVec.ofNat (8 * n) (bigEndian (beBytes n v.toNat)) = v := by
  apply BitVec.eq_of_toNat_eq
  have := v.isLt
  rw [two_pow_eight_mul] at this
  simp [bigEndian_beBytes, Nat.mod_eq_of_lt this]

/-- The bytes `decode_int` read are those of the value it returns. -/
theorem beBytes_ofNat_bigEndian {n : Nat} {l : Bytes} (hl : l.length = n) :
    beBytes n (BitVec.ofNat (8 * n) (bigEndian l)).toNat = l := by
  subst hl
  rw [BitVec.toNat_ofNat, two_pow_eight_mul, Nat.mod_eq_of_lt (bigEndian_lt l),
    beBytes_bigEndian]

/-- `decode_int` on the bytes of a value returns it. -/
theorem decodeInt_of_beBytes {n : Nat} {v : BitVec (8 * n)} {x : Bytes}
    (hr : r.rest = beBytes n v.toNat ++ x) : decodeInt n r = (.ok v, r.skip n) := by
  rw [decodeInt_of_le (by simp [hr]), hr, List.take_left' (length_beBytes _ _),
    ofNat_bigEndian_beBytes]

/-- What `decode_int` read are the bytes of the value it returns. -/
theorem decodeInt_eq_ok_beBytes {n : Nat} {v : BitVec (8 * n)} (h : decodeInt n r = (.ok v, r')) :
    r.rest = beBytes n v.toNat ++ r'.rest ∧ r' = r.skip n := by
  obtain ⟨hn, rfl, rfl⟩ := decodeInt_eq_ok.1 h
  rw [Reader.rest_skip, beBytes_ofNat_bigEndian (List.length_take_of_le hn), List.take_append_drop]
  exact ⟨rfl, rfl⟩

/-! ## Reading forward -/

/-- On success `m` leaves the reader over the same bytes, with a suffix of what was left. -/
def ReadsForward (m : Decoder α) : Prop :=
  ∀ r a r', m r = (.ok a, r') → r'.bytes = r.bytes ∧ r'.rest <:+ r.rest

theorem readsForward_pure (x : α) : ReadsForward (pure x : Decoder α) := by
  intro r a r' h
  cases h
  exact ⟨rfl, List.suffix_refl _⟩

theorem readsForward_fail (e : IRErrorCode) : ReadsForward (fail e : Decoder α) := by
  intro r a r' h
  cases h

theorem ReadsForward.bind (hm : ReadsForward m) (hf : ∀ a, ReadsForward (f a)) :
    ReadsForward (m >>= f) := by
  intro r b r'' h
  obtain ⟨a, r', h₁, h₂⟩ := bind_eq_ok.1 h
  obtain ⟨hb₁, hs₁⟩ := hm r a r' h₁
  obtain ⟨hb₂, hs₂⟩ := hf a r' b r'' h₂
  exact ⟨hb₂.trans hb₁, hs₂.trans hs₁⟩

theorem ReadsForward.ite {p : Prop} [Decidable p] {m₁ m₂ : Decoder α} (h₁ : ReadsForward m₁)
    (h₂ : ReadsForward m₂) : ReadsForward (if p then m₁ else m₂) := by
  split <;> assumption

theorem readsForward_readExact (n : Nat) : ReadsForward (readExact n) := by
  intro r a r' h
  rcases Nat.lt_or_ge r.rest.length n with hn | hn
  · rw [readExact_of_lt hn] at h; cases h
  · rw [readExact_of_le hn] at h
    cases h
    exact ⟨rfl, by simpa using List.drop_suffix n r.rest⟩

theorem readsForward_decodeInt (n : Nat) : ReadsForward (decodeInt n) :=
  (readsForward_readExact n).bind fun _ => readsForward_pure _

/-- A successful tag read leaves one byte fewer. -/
theorem readTag_ok {x : Byte} (h : readTag r = (.ok x, r')) :
    r'.bytes = r.bytes ∧ r.rest = x :: r'.rest := by
  rcases hr : r.rest with _ | ⟨y, t⟩
  · rw [readTag_of_nil hr] at h; cases h
  · rw [readTag_of_cons hr] at h
    cases h
    simp [hr]

theorem readsForward_readTag : ReadsForward readTag := by
  intro r x r' h
  obtain ⟨hb, hr⟩ := readTag_ok h
  exact ⟨hb, hr ▸ List.suffix_cons x r'.rest⟩

/-! ## Stability under more input -/

/-- Unless `m` reports `IRErrorCode_Incomplete_IR`, it answers the same on a reader with
more bytes appended, and leaves that reader at the same position. -/
def Stable (m : Decoder α) : Prop :=
  ∀ r s, (m r).1 ≠ .error .incompleteIR → m (r.append s) = ((m r).1, (m r).2.append s)

theorem stable_pure (x : α) : Stable (pure x : Decoder α) := fun _ _ _ => rfl

theorem stable_fail (e : IRErrorCode) : Stable (fail e : Decoder α) := fun _ _ _ => rfl

theorem Stable.bind (hm : Stable m) (hf : ∀ a, Stable (f a)) : Stable (m >>= f) := by
  intro r s h
  rcases hr : m r with ⟨e | a, r₁⟩
  · rw [bind_of_error hr] at h ⊢
    have he : e ≠ .incompleteIR := fun he => h (by rw [he])
    rw [bind_of_error (by rw [hm r s (by rw [hr]; simpa using he), hr])]
  · rw [bind_of_ok hr] at h ⊢
    rw [bind_of_ok (by rw [hm r s (by rw [hr]; simp), hr]), hf a r₁ s h]

theorem Stable.ite {p : Prop} [Decidable p] {m₁ m₂ : Decoder α} (h₁ : Stable m₁)
    (h₂ : Stable m₂) : Stable (if p then m₁ else m₂) := by
  split <;> assumption

theorem stable_readExact (n : Nat) : Stable (readExact n) := by
  intro r s h
  rcases Nat.lt_or_ge r.rest.length n with hn | hn
  · rw [readExact_of_lt hn] at h; exact absurd rfl h
  · rw [readExact_of_le hn, readExact_of_le (by simp; omega), Reader.skip_append s hn]
    simp [List.take_append_of_le_length hn]

theorem stable_readTag : Stable readTag := by
  intro r s h
  rcases hr : r.rest with _ | ⟨x, t⟩
  · rw [readTag_of_nil hr] at h; exact absurd rfl h
  · have h1 : 1 ≤ r.rest.length := by simp [hr]
    rw [readTag_of_cons hr, readTag_of_cons (x := x) (t := t ++ s) (by simp [hr]),
      Reader.skip_append s h1]

theorem stable_decodeInt (n : Nat) : Stable (decodeInt n) :=
  (stable_readExact n).bind fun _ => stable_pure _

theorem stable_getPos : Stable getPos := fun _ _ _ => rfl

theorem stable_seekFromBegin (pos : Nat) : Stable (seekFromBegin pos) := by
  intro r s h
  by_cases hp : pos ≤ r.bytes.length
  · simp only [seekFromBegin, Reader.trySeekFromBegin, hp, dif_pos, Reader.append_bytes,
      List.length_append, show pos ≤ r.bytes.length + s.length by omega]
    rfl
  · simp [seekFromBegin, Reader.trySeekFromBegin, hp] at h

/-- A stable `m` that, once the bytes `s` arrive, succeeds by reading to their end answers
incomplete before they arrive: any other answer it would give again, and stop inside the
shorter buffer. -/
theorem Stable.incomplete_of_append (hm : Stable m) {s : Bytes} (hs : s ≠ [])
    (h : m (r.append s) = (.ok a, (r.append s).skip (r.rest ++ s).length)) :
    (m r).1 = .error .incompleteIR := by
  by_contra hne
  have h' := congrArg Prod.snd ((hm r s hne).symm.trans h)
  have hb : (m r).2.bytes = r.bytes := List.append_cancel_right (congrArg Reader.bytes h')
  have hp := congrArg Reader.pos h'
  rw [Reader.append_pos, Reader.pos_skip (by rw [Reader.rest_append]), Reader.append_pos] at hp
  have hle := (m r).2.pos_le
  have := r.pos_le
  have := List.length_pos.2 hs
  simp only [Reader.rest, List.length_append, List.length_drop, hb] at hp hle
  omega

/-! ## The codes of failures -/

/-- Every failure of `m` carries a code of `S`. -/
def FailsWithin (S : IRErrorCode → Prop) (m : Decoder α) : Prop :=
  ∀ r c r', m r = (.error c, r') → S c

variable {S : IRErrorCode → Prop}

theorem FailsWithin.of_fst {m : Decoder α} {r : Reader} {c : IRErrorCode} (hm : FailsWithin S m)
    (h : (m r).1 = .error c) : S c :=
  hm r c (m r).2 (Prod.ext h rfl)

theorem failsWithin_pure (x : α) : FailsWithin S (pure x : Decoder α) := by
  intro r c r' h
  cases h

theorem failsWithin_fail {c : IRErrorCode} (hc : S c) : FailsWithin S (fail c : Decoder α) := by
  intro r c' r' h
  cases h
  exact hc

theorem FailsWithin.bind (hm : FailsWithin S m) (hf : ∀ a, FailsWithin S (f a)) :
    FailsWithin S (m >>= f) := by
  intro r c r'' h
  rcases bind_eq_error.1 h with h | ⟨a, r', h₁, h₂⟩
  · exact hm r c r'' h
  · exact hf a r' c r'' h₂

theorem FailsWithin.ite {p : Prop} [Decidable p] {m₁ m₂ : Decoder α} (h₁ : FailsWithin S m₁)
    (h₂ : FailsWithin S m₂) : FailsWithin S (if p then m₁ else m₂) := by
  split <;> assumption

theorem failsWithin_readExact (hi : S .incompleteIR) (n : Nat) : FailsWithin S (readExact n) := by
  intro r c r' h
  obtain ⟨-, rfl, -⟩ := readExact_eq_error.1 h
  exact hi

theorem failsWithin_readTag (hi : S .incompleteIR) : FailsWithin S readTag := by
  intro r c r' h
  obtain ⟨-, rfl, -⟩ := readTag_eq_error.1 h
  exact hi

theorem failsWithin_decodeInt (hi : S .incompleteIR) (n : Nat) : FailsWithin S (decodeInt n) :=
  (failsWithin_readExact hi n).bind fun _ => failsWithin_pure _

end Decoder

end IrStream

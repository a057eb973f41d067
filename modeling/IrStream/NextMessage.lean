import IrStream.Fields
import IrStream.DecodeMessage
/-!
# Decoding the next message

`generic_decode_next_message` and its two instances. A frame is read tag by tag: variable
records while the tag is a variable tag, then the logtype record, then the timestamp
record. Every pass of the variable loop reads at least its next tag, so the loop ends;
`decodeVariable_shrinks` is that argument.
-/

namespace IrStream

open Decoder

variable (P : Protocol) (e : Encoding)

/-- The variable a variable tag announces, appended to its list. -/
def appendVariable (encodedTag : Byte) (isEncodedVar : Bool) (encodedVars : List e.Var)
    (dictVars : List Bytes) : Decoder (List e.Var × List Bytes) :=
  if isEncodedVar then do
    let encodedVariable ← decodeInt e.size
    pure (encodedVars ++ [encodedVariable], dictVars)
  else do
    let varStr ← parseDictionaryVar P encodedTag
    pure (encodedVars, dictVars ++ [varStr])

/-- One pass of the variable loop: the variable, then the next tag. -/
def decodeVariable (encodedTag : Byte) (isEncodedVar : Bool) (encodedVars : List e.Var)
    (dictVars : List Bytes) : Decoder (Byte × List e.Var × List Bytes) := do
  let vars ← appendVariable P e encodedTag isEncodedVar encodedVars dictVars
  let encodedTag ← readTag
  pure (encodedTag, vars)

theorem readsForward_appendVariable (tag : Byte) (isEnc : Bool) (E : List e.Var)
    (D : List Bytes) : ReadsForward (appendVariable P e tag isEnc E D) := by
  unfold appendVariable
  split
  · exact (readsForward_decodeInt _).bind fun _ => readsForward_pure _
  · exact (readsForward_parseLengthPrefixed _ _).bind fun _ => readsForward_pure _

theorem decodeVariable_shrinks {tag : Byte} {isEnc : Bool} {E : List e.Var} {D : List Bytes}
    {r r' : Reader} {x : Byte × List e.Var × List Bytes}
    (h : decodeVariable P e tag isEnc E D r = (.ok x, r')) : r'.rest.length < r.rest.length := by
  obtain ⟨vars, r₁, h₁, h₂⟩ := bind_eq_ok.1 h
  obtain ⟨tag', r₂, h₂, h₃⟩ := bind_eq_ok.1 h₂
  cases h₃
  have hs := (readsForward_appendVariable P e tag isEnc E D r vars r₁ h₁).2.length_le
  have := congrArg List.length (readTag_ok h₂).2
  simp only [List.length_cons] at this
  omega

/-- The `while (is_variable_tag(...))` loop: variable records from `encodedTag` on, each
appended to `encoded_vars` or `dict_vars`, and the first tag that is not a variable tag. -/
def decodeVariables (encodedTag : Byte) (encodedVars : List e.Var) (dictVars : List Bytes)
    (r : Reader) : Except IRErrorCode (Byte × List e.Var × List Bytes) × Reader :=
  match isVariableTag P e encodedTag with
  | none => (.ok (encodedTag, encodedVars, dictVars), r)
  | some isEncodedVar =>
    match h : decodeVariable P e encodedTag isEncodedVar encodedVars dictVars r with
    | (.ok (encodedTag, encodedVars, dictVars), r') =>
      decodeVariables encodedTag encodedVars dictVars r'
    | (.error code, r') => (.error code, r')
termination_by r.rest.length
decreasing_by exact decodeVariable_shrinks P e h

section Loop

variable {P e} {tag tag' : Byte} {b : Bool} {E E' : List e.Var} {D D' : List Bytes}
  {r r' : Reader}

theorem decodeVariables_of_none (h : isVariableTag P e tag = none) :
    decodeVariables P e tag E D r = (.ok (tag, E, D), r) := by
  rw [decodeVariables.eq_1, h]

theorem decodeVariables_of_ok (h : isVariableTag P e tag = some b)
    (hv : decodeVariable P e tag b E D r = (.ok (tag', E', D'), r')) :
    decodeVariables P e tag E D r = decodeVariables P e tag' E' D' r' := by
  rw [decodeVariables.eq_1]
  simp only [h]
  split
  · rename_i heq
    rw [hv] at heq
    cases heq
    rfl
  · rename_i heq
    rw [hv] at heq
    cases heq

theorem decodeVariables_of_error {code : IRErrorCode} (h : isVariableTag P e tag = some b)
    (hv : decodeVariable P e tag b E D r = (.error code, r')) :
    decodeVariables P e tag E D r = (.error code, r') := by
  rw [decodeVariables.eq_1]
  simp only [h]
  split
  · rename_i heq
    rw [hv] at heq
    cases heq
  · rename_i heq
    rw [hv] at heq
    cases heq
    rfl

end Loop

/-- `generic_decode_next_message` up to its `parse_timestamp`: the frame's logtype, encoded
variables, dictionary variables and timestamp. -/
def decodeFrame : Decoder (Bytes × List e.Var × List Bytes × BitVec 64) := do
  let encodedTag ← readTag
  if encodedTag = P.eof then fail .eof else do
  -- Handle variables
  let (encodedTag, encodedVars, dictVars) ← decodeVariables P e encodedTag [] []
  -- Handle logtype
  let logtype ← parseLogtype P encodedTag
  -- For the eight-byte encoding the timestamp is the timestamp, for the four-byte one a delta
  let encodedTag ← readTag
  let timestamp ← parseTimestamp P e encodedTag
  pure (logtype, encodedVars, dictVars, timestamp)

/-- What `generic_decode_next_message` leaves: the code it returns, the reader, and its
`message` and `timestamp` reference parameters. -/
structure Outcome where
  code : IRErrorCode
  reader : Reader
  message : Bytes
  timestamp : BitVec 64

/-! ## More input changes no decision -/

theorem stable_appendVariable (tag : Byte) (isEnc : Bool) (E : List e.Var) (D : List Bytes) :
    Stable (appendVariable P e tag isEnc E D) := by
  unfold appendVariable
  split
  · exact (stable_decodeInt _).bind fun _ => stable_pure _
  · exact (stable_parseLengthPrefixed _ _).bind fun _ => stable_pure _

theorem stable_decodeVariable (tag : Byte) (isEnc : Bool) (E : List e.Var) (D : List Bytes) :
    Stable (decodeVariable P e tag isEnc E D) :=
  (stable_appendVariable P e tag isEnc E D).bind fun _ => stable_readTag.bind fun _ => stable_pure _

theorem stable_decodeVariables (tag : Byte) (E : List e.Var) (D : List Bytes) :
    Stable (decodeVariables P e tag E D) := by
  intro r s
  induction tag, E, D, r using decodeVariables.induct P e with
  | case1 tag E D r hnone =>
    intro _
    simp only [decodeVariables_of_none hnone]
  | case2 tag E D r b hb t E₁ D₁ r₁ hstep ih =>
    intro hc
    rw [decodeVariables_of_ok hb hstep] at hc ⊢
    have hstep' := stable_decodeVariable P e tag b E D r s (by rw [hstep]; exact Except.noConfusion)
    rw [hstep] at hstep'
    rw [decodeVariables_of_ok hb hstep', ih hc]
  | case3 tag E D r b hb code r₁ hstep =>
    intro hc
    rw [decodeVariables_of_error hb hstep] at hc ⊢
    have hstep' := stable_decodeVariable P e tag b E D r s (by rw [hstep]; exact hc)
    rw [hstep] at hstep'
    rw [decodeVariables_of_error hb hstep']

theorem readsForward_decodeVariables (tag : Byte) (E : List e.Var) (D : List Bytes) :
    ReadsForward (decodeVariables P e tag E D) := by
  intro r
  induction tag, E, D, r using decodeVariables.induct P e with
  | case1 tag E D r hnone =>
    intro a r' h
    rw [decodeVariables_of_none hnone] at h
    cases h
    exact ⟨rfl, List.suffix_refl _⟩
  | case2 tag E D r b hb t E₁ D₁ r₁ hstep ih =>
    intro a r' h
    rw [decodeVariables_of_ok hb hstep] at h
    have h₁ := ((readsForward_appendVariable P e tag b E D).bind fun _ =>
      readsForward_readTag.bind fun _ => readsForward_pure _) r _ r₁ hstep
    obtain ⟨hb₂, hs₂⟩ := ih a r' h
    exact ⟨hb₂.trans h₁.1, hs₂.trans h₁.2⟩
  | case3 tag E D r b hb code r₁ hstep =>
    intro a r' h
    rw [decodeVariables_of_error hb hstep] at h
    cases h

/-- A frame that `decodeFrame` reads takes at least its first tag: the reader moves on. -/
theorem decodeFrame_shrinks {r r' : Reader} {v : Bytes × List e.Var × List Bytes × BitVec 64}
    (h : decodeFrame P e r = (.ok v, r')) : r'.rest.length < r.rest.length := by
  obtain ⟨t, r₀, h₀, h⟩ := bind_eq_ok.1 h
  have hle := (ReadsForward.ite (readsForward_fail _) <|
    (readsForward_decodeVariables P e _ _ _).bind fun _ => (readsForward_parseLengthPrefixed _ _).bind
      fun _ => readsForward_readTag.bind fun _ => (readsForward_parseTimestamp _ _).bind fun _ =>
        readsForward_pure _) r₀ v r' h |>.2.length_le
  have := congrArg List.length (readTag_ok h₀).2
  simp only [List.length_cons] at this
  omega

theorem stable_decodeFrame : Stable (decodeFrame P e) :=
  stable_readTag.bind fun _ => Stable.ite (stable_fail _) <|
    (stable_decodeVariables P e _ _ _).bind fun _ => (stable_parseLengthPrefixed _ _).bind fun _ =>
      stable_readTag.bind fun _ => (stable_parseTimestamp _ _).bind fun _ => stable_pure _

section Failures

variable {S : IRErrorCode → Prop} (hi : S .incompleteIR)
include hi

/-- The variable loop fails only as incomplete IR: it reads a dictionary variable only under
a `VarStrLen…` tag. -/
theorem failsWithin_decodeVariables (tag : Byte) (E : List e.Var) (D : List Bytes) :
    FailsWithin S (decodeVariables P e tag E D) := by
  have hstep (tag : Byte) (b : Bool) (hb : isVariableTag P e tag = some b) (E : List e.Var)
      (D : List Bytes) : FailsWithin S (decodeVariable P e tag b E D) := by
    refine FailsWithin.bind ?_ fun _ => (failsWithin_readTag hi).bind fun _ => failsWithin_pure _
    rcases isVariableTag_eq_some hb with ⟨rfl, w, rfl⟩ | ⟨rfl, rfl⟩
    · rw [appendVariable, if_neg Bool.false_ne_true]
      exact (failsWithin_parseLengthPrefixed_tag hi (fun _ _ => Protocol.varStrLen_inj.1) w).bind
        fun _ => failsWithin_pure _
    · exact (failsWithin_decodeInt hi _).bind fun _ => failsWithin_pure _
  intro r
  induction tag, E, D, r using decodeVariables.induct P e with
  | case1 tag E D r hnone =>
    intro c r' h
    rw [decodeVariables_of_none hnone] at h
    cases h
  | case2 tag E D r b hb t E₁ D₁ r₁ hstep' ih =>
    rw [decodeVariables_of_ok hb hstep']
    exact ih
  | case3 tag E D r b hb code r₁ hstep' =>
    intro c r' h
    rw [decodeVariables_of_error hb hstep'] at h
    cases h
    exact hstep tag b hb E D r code r₁ hstep'

variable (hc : S .corruptedIR)
include hc

/-- `decodeFrame` fails only with `IRErrorCode_Eof`, `IRErrorCode_Corrupted_IR` or
`IRErrorCode_Incomplete_IR`, or codes of any set holding them. -/
theorem failsWithin_decodeFrame (he : S .eof) : FailsWithin S (decodeFrame P e) :=
  (failsWithin_readTag hi).bind fun _ => FailsWithin.ite (failsWithin_fail he) <|
    (failsWithin_decodeVariables P e hi _ _ _).bind fun _ =>
      (failsWithin_parseLengthPrefixed hi hc _ _).bind fun _ => (failsWithin_readTag hi).bind fun _ =>
        (failsWithin_parseTimestamp hi hc _ _).bind fun _ => failsWithin_pure _

end Failures

variable (ph : Placeholders)

/-- `generic_decode_next_message`. The timestamp is written as soon as `parse_timestamp`
succeeds, the message only when `decode_message` does; an `EncodingException` from it is
`IRErrorCode_Decode_Error`. -/
def genericDecodeNextMessage (d : VarDecoders (8 * e.size)) (reader : Reader) (message : Bytes)
    (timestamp : BitVec 64) : Outcome :=
  match decodeFrame P e reader with
  | (.error code, reader) => ⟨code, reader, message, timestamp⟩
  | (.ok (logtype, encodedVars, dictVars, ts), reader) =>
    match decodeMessage ph d logtype encodedVars dictVars with
    | .error _ => ⟨.decodeError, reader, message, ts⟩
    | .ok m => ⟨.success, reader, m, ts⟩

/-- `four_byte_encoding::decode_next_message`. -/
def FourByteEncoding.decodeNextMessage (d : VarDecoders 32) (reader : Reader) (message : Bytes)
    (timestampDelta : BitVec 64) : Outcome :=
  genericDecodeNextMessage P .fourByte ph d reader message timestampDelta

/-- `eight_byte_encoding::decode_next_message`. -/
def EightByteEncoding.decodeNextMessage (d : VarDecoders 64) (reader : Reader) (message : Bytes)
    (timestamp : BitVec 64) : Outcome :=
  genericDecodeNextMessage P .eightByte ph d reader message timestamp

/-! ## Decisions are final -/

/-- `generic_decode_next_message` leaves the reader where `decodeFrame` does. -/
theorem genericDecodeNextMessage_reader (d : VarDecoders (8 * e.size)) (r : Reader)
    (message : Bytes) (timestamp : BitVec 64) :
    (genericDecodeNextMessage P e ph d r message timestamp).reader = (decodeFrame P e r).2 := by
  unfold genericDecodeNextMessage
  rcases decodeFrame P e r with ⟨_ | ⟨L, E, D, ts⟩, r'⟩
  · rfl
  · dsimp only
    split <;> rfl

/-- `generic_decode_next_message` reads the bytes only through `decodeFrame`: on two readers
where `decodeFrame` gives the same answer, it gives the same code, message and timestamp. -/
theorem genericDecodeNextMessage_congr (d : VarDecoders (8 * e.size)) {r₁ r₂ r₁' r₂' : Reader}
    {res : Except IRErrorCode (Bytes × List e.Var × List Bytes × BitVec 64)} (message : Bytes)
    (timestamp : BitVec 64) (h₁ : decodeFrame P e r₁ = (res, r₁'))
    (h₂ : decodeFrame P e r₂ = (res, r₂')) :
    genericDecodeNextMessage P e ph d r₂ message timestamp =
      { genericDecodeNextMessage P e ph d r₁ message timestamp with reader := r₂' } := by
  unfold genericDecodeNextMessage
  rw [h₁, h₂]
  rcases res with _ | ⟨L, E, D, ts⟩
  · rfl
  · dsimp only
    split <;> rfl

/-- Unless `decodeFrame` answers incomplete IR, the call answers the same on a longer buffer. -/
theorem genericDecodeNextMessage_append_of_frame (d : VarDecoders (8 * e.size)) (r : Reader)
    (s message : Bytes) (timestamp : BitVec 64) (hf : (decodeFrame P e r).1 ≠ .error .incompleteIR) :
    genericDecodeNextMessage P e ph d (r.append s) message timestamp =
      { genericDecodeNextMessage P e ph d r message timestamp with
        reader := (decodeFrame P e r).2.append s } :=
  genericDecodeNextMessage_congr P e ph d message timestamp rfl (stable_decodeFrame P e r s hf)

/-- Once `generic_decode_next_message` answers anything but `IRErrorCode_Incomplete_IR`,
more bytes after the reader's buffer change nothing: the same code, message and timestamp,
and the reader at the same position, over the longer buffer. -/
theorem genericDecodeNextMessage_append (d : VarDecoders (8 * e.size)) (r : Reader)
    (s message : Bytes) (timestamp : BitVec 64)
    (h : (genericDecodeNextMessage P e ph d r message timestamp).code ≠ .incompleteIR) :
    genericDecodeNextMessage P e ph d (r.append s) message timestamp =
      { genericDecodeNextMessage P e ph d r message timestamp with
        reader := (genericDecodeNextMessage P e ph d r message timestamp).reader.append s } := by
  have hf : (decodeFrame P e r).1 ≠ .error .incompleteIR := fun hf => h <| by
    unfold genericDecodeNextMessage
    rw [← Prod.mk.eta (p := decodeFrame P e r), hf]
  rw [genericDecodeNextMessage_append_of_frame P e ph d r s message timestamp hf,
    genericDecodeNextMessage_reader]

/-- A frame of a dictionary variable `b`, the logtype `a` and a dictionary placeholder, and
the timestamp delta `5`, then the first two bytes of the next frame: the call renders `ab`,
stops at the frame's end, and does the same on the longer buffer. -/
theorem genericDecodeNextMessage_append_frame :
    let r := Reader.ofBytes [0x11, 0x01, 0x62, 0x21, 0x02, 0x61, 0x13, 0x31, 0x05]
    let o := genericDecodeNextMessage Protocol.sample .fourByte Placeholders.sample
      (VarDecoders.sample 32) r [] 0
    o.code = .success ∧ o.message = [0x61, 0x62] ∧ o.reader.rest = [] ∧
      genericDecodeNextMessage Protocol.sample .fourByte Placeholders.sample (VarDecoders.sample 32)
          (r.append [0x21, 0x01]) [] 0 = { o with reader := o.reader.append [0x21, 0x01] } := by
  intro r o
  have ho : o.code = .success ∧ o.message = [0x61, 0x62] ∧ o.reader.rest = [] := by
    change (genericDecodeNextMessage _ _ _ _ r [] 0).code = _ ∧
      (genericDecodeNextMessage _ _ _ _ r [] 0).message = _ ∧
      (genericDecodeNextMessage _ _ _ _ r [] 0).reader.rest = _
    rw [genericDecodeNextMessage, decodeFrame, bind_of_ok (readTag_of_cons (r := r) rfl),
      if_neg (by decide), bind_apply,
      @decodeVariables_of_ok Protocol.sample .fourByte 0x11 _ false [] _ [] _ (r.skip 1) _
        (by decide) rfl,
      @decodeVariables_of_none Protocol.sample .fourByte 0x21 _ _ _ (by decide)]
    simp only [r]
    exact ⟨rfl, rfl, rfl⟩
  exact ⟨ho.1, ho.2.1, ho.2.2,
    genericDecodeNextMessage_append _ _ _ _ _ _ _ _ (by rw [ho.1]; nofun)⟩

end IrStream

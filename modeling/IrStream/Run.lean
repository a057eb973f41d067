import IrStream.Answers
import IrStream.Stream
/-!
# Reading a stream message after message

The spec's lifecycle of a stream (section 3): the magic number fixes the encoding, the
metadata is read at once, and `decode_next_message` is then called again from where it left
the reader for as long as it returns `IRErrorCode_Success`; messages come out in wire order
(section 5). `readMessages` and `readStream` are that caller's loop, built from the decoder's
functions alone. A call that succeeds moves the reader on (`genericDecodeNextMessage_shrinks`),
so the loop ends.

The run lemmas follow from the step lemmas of `Stream`, `Frames` and `Answers` by induction
over the frames or over the loop: a stream reads back as the messages it was made from, a run
that ends in `IRErrorCode_Eof` read frames and then the `Eof` tag, and a stream cut short reads
back as the messages of its complete frames, then `IRErrorCode_Incomplete_IR`.
-/

namespace IrStream

open Decoder

variable (P : Protocol) (e : Encoding) (ph : Placeholders)

/-! ## The loop -/

section Step

variable {P e ph} {d : VarDecoders (8 * e.size)} {r : Reader} {message : Bytes}
  {timestamp : BitVec 64}

/-- `generic_decode_next_message` succeeds only on a frame that `decodeFrame` reads and whose
logtype `decode_message` renders: the message is the rendering, the timestamp the frame's. -/
theorem genericDecodeNextMessage_eq_success {o : Outcome}
    (ho : genericDecodeNextMessage P e ph d r message timestamp = o) (h : o.code = .success) :
    ∃ L E D, decodeFrame P e r = (.ok (L, E, D, o.timestamp), o.reader) ∧
      decodeMessage ph d L E D = .ok o.message := by
  subst ho
  unfold genericDecodeNextMessage at h ⊢
  rcases hf : decodeFrame P e r with ⟨c | ⟨L, E, D, ts⟩, r'⟩
  · simp only [hf] at h
    exact absurd h ((failsWithin_decodeFrame P e (S := fun c => c ≠ .success) nofun nofun
      nofun).of_fst (congrArg Prod.fst hf))
  · rcases hm : decodeMessage ph d L E D with ex | m
    · simp only [hf, hm] at h
      cases h
    · simp only [hm]
      exact ⟨L, E, D, rfl, hm⟩

theorem genericDecodeNextMessage_shrinks
    (h : (genericDecodeNextMessage P e ph d r message timestamp).code = .success) :
    (genericDecodeNextMessage P e ph d r message timestamp).reader.rest.length < r.rest.length := by
  obtain ⟨L, E, D, hf, -⟩ := genericDecodeNextMessage_eq_success rfl h
  exact decodeFrame_shrinks P e hf

end Step

/-- The messages of a stream as the spec's lifecycle reads them: from `reader` on,
`decode_next_message` is called again where it left the reader for as long as it returns
`IRErrorCode_Success`. The messages and timestamps it returned, in wire order, and the first
outcome that is not a success. Each call gets the message and timestamp the call before left,
as a caller that reuses its buffers passes them. -/
def readMessages (d : VarDecoders (8 * e.size)) (reader : Reader) (message : Bytes)
    (timestamp : BitVec 64) : List (Bytes × BitVec 64) × Outcome :=
  let o := genericDecodeNextMessage P e ph d reader message timestamp
  if h : o.code = .success then
    Prod.map (List.cons (o.message, o.timestamp)) id (readMessages d o.reader o.message o.timestamp)
  else ([], o)
termination_by reader.rest.length
decreasing_by exact genericDecodeNextMessage_shrinks h

/-- The body of the sample stream of `Stream`: `sampleFrame`, then the `Eof` tag. -/
def sampleBody : Bytes :=
  [sampleFrame].flatMap (Frame.toBytes Protocol.sample) ++ [Protocol.sample.eof]

section Run

variable {P e ph} {d : VarDecoders (8 * e.size)} {r r' : Reader} {message m : Bytes}
  {timestamp ts : BitVec 64}

theorem readMessages_of_success
    (h : genericDecodeNextMessage P e ph d r message timestamp = ⟨.success, r', m, ts⟩) :
    readMessages P e ph d r message timestamp =
      Prod.map (List.cons (m, ts)) id (readMessages P e ph d r' m ts) := by
  rw [readMessages]
  simp only [h, dite_true]

theorem readMessages_of_code_success
    (h : (genericDecodeNextMessage P e ph d r message timestamp).code = .success) :
    readMessages P e ph d r message timestamp =
      let o := genericDecodeNextMessage P e ph d r message timestamp
      Prod.map (List.cons (o.message, o.timestamp)) id
        (readMessages P e ph d o.reader o.message o.timestamp) := by
  rw [readMessages]
  exact dif_pos h

theorem readMessages_of_ne_success
    (h : (genericDecodeNextMessage P e ph d r message timestamp).code ≠ .success) :
    readMessages P e ph d r message timestamp =
      ([], genericDecodeNextMessage P e ph d r message timestamp) := by
  rw [readMessages]
  exact dif_neg h

/-- Where `decodeFrame` answers incomplete IR, the loop stops at once with no message. -/
theorem readMessages_of_incomplete (h : (decodeFrame P e r).1 = .error .incompleteIR) :
    (readMessages P e ph d r message timestamp).1 = [] ∧
      (readMessages P e ph d r message timestamp).2.code = .incompleteIR := by
  have hcode : (genericDecodeNextMessage P e ph d r message timestamp).code = .incompleteIR :=
    (genericDecodeNextMessage_code_eq_error_iff ph d (c := .incompleteIR) nofun nofun).2 h
  rw [readMessages_of_ne_success (by rw [hcode]; nofun)]
  exact ⟨rfl, hcode⟩

/-- Bytes after the buffer leave a call that succeeds as it was: on the longer buffer the loop
takes the same message and goes on from the same position. -/
theorem readMessages_append_of_success (s : Bytes)
    (hs : (genericDecodeNextMessage P e ph d r message timestamp).code = .success) :
    let o := genericDecodeNextMessage P e ph d r message timestamp
    readMessages P e ph d (r.append s) message timestamp =
      Prod.map (List.cons (o.message, o.timestamp)) id
        (readMessages P e ph d (o.reader.append s) o.message o.timestamp) := by
  obtain ⟨L, E, D, hf, -⟩ := genericDecodeNextMessage_eq_success rfl hs
  have hstep := genericDecodeNextMessage_append_of_frame P e ph d r s message timestamp
    (by rw [hf]; nofun)
  rw [hf] at hstep
  rw [readMessages_of_code_success (by rw [hstep]; exact hs), hstep]

/-- Bytes after the buffer leave a call that stops the loop for any reason but the want of
bytes as it was: on the longer buffer the loop stops with the same answer at the same place. -/
theorem readMessages_append_of_stop (s : Bytes)
    (hs : (genericDecodeNextMessage P e ph d r message timestamp).code ≠ .success)
    (hi : (genericDecodeNextMessage P e ph d r message timestamp).code ≠ .incompleteIR) :
    let o := genericDecodeNextMessage P e ph d r message timestamp
    readMessages P e ph d (r.append s) message timestamp =
      ([], { o with reader := o.reader.append s }) := by
  have hstep := genericDecodeNextMessage_append_of_frame P e ph d r s message timestamp
    fun hf => hi ((genericDecodeNextMessage_code_eq_error_iff ph d (c := .incompleteIR) nofun
      nofun).2 hf)
  dsimp only
  rw [readMessages_of_ne_success (by rw [hstep]; exact hs), hstep, genericDecodeNextMessage_reader]

/-- From the first frame of a stream's body (its frames, then the `Eof` tag), the loop reads
every message, in order, and stops with `IRErrorCode_Eof` just past the `Eof` tag. -/
theorem readMessages_frames {frames : List (Frame e)} {msgs : List (Message e)}
    (hf : List.Forall₂ (Frame.Encodes ph) frames msgs) (hd : ∀ m ∈ msgs, m.Decodes d) {x : Bytes}
    (hr : r.rest = frames.flatMap (Frame.toBytes P) ++ P.eof :: x) (message : Bytes)
    (timestamp : BitVec 64) :
    (readMessages P e ph d r message timestamp).1 = msgs.map (fun m => (m.text, m.timestamp.value)) ∧
      (readMessages P e ph d r message timestamp).2.code = .eof ∧
      (readMessages P e ph d r message timestamp).2.reader =
        r.skip ((frames.flatMap (Frame.toBytes P)).length + 1) := by
  induction hf generalizing r message timestamp with
  | nil =>
    have ho : genericDecodeNextMessage P e ph d r message timestamp =
        ⟨.eof, r.skip 1, message, timestamp⟩ := by
      rw [genericDecodeNextMessage, decodeFrame_eof hr]
    rw [readMessages_of_ne_success (by rw [ho]; nofun), ho]
    exact ⟨rfl, rfl, rfl⟩
  | @cons f msg frames msgs hfm _ ih =>
    rw [List.flatMap_cons, List.append_assoc] at hr
    rw [readMessages_of_success
      (genericDecodeNextMessage_encodes hfm (hd msg (.head _)) hr message timestamp)]
    obtain ⟨h₁, h₂, h₃⟩ := ih (fun m hm => hd m (.tail _ hm))
      (by rw [Reader.rest_skip, hr, List.drop_left]) msg.text msg.timestamp.value
    refine ⟨by rw [Prod.map_fst, h₁, List.map_cons], h₂, ?_⟩
    rw [Prod.map_snd, id, h₃, Reader.skip_skip, List.flatMap_cons, List.length_append, Nat.add_assoc]

/-- A run that stops with `IRErrorCode_Eof` read a stream body: frames, each rendered to the
message the run returned for it and carrying its timestamp, then the `Eof` tag, just past
which the run stops. -/
theorem readMessages_eq_eof (hr : r.rest.length < 2 ^ 63)
    (h : (readMessages P e ph d r message timestamp).2.code = .eof) :
    ∃ frames : List (Frame e),
      r.rest = frames.flatMap (Frame.toBytes P) ++
        P.eof :: (readMessages P e ph d r message timestamp).2.reader.rest ∧
      (readMessages P e ph d r message timestamp).2.reader =
        r.skip ((frames.flatMap (Frame.toBytes P)).length + 1) ∧
      List.Forall₂ (fun f msg => decodeMessage ph d f.logtype.bytes f.encodedVars f.dictVars =
        .ok msg.1 ∧ msg.2 = f.timestamp.value) frames (readMessages P e ph d r message timestamp).1 := by
  induction r, message, timestamp using readMessages.induct P e ph d with
  | case1 r message timestamp o hs ih =>
    obtain ⟨L, E, D, hf, hm⟩ := genericDecodeNextMessage_eq_success rfl hs
    obtain ⟨f, hrest, hr₁, rfl, rfl, rfl, hts⟩ := decodeFrame_eq_ok hr hf
    simp only [readMessages_of_code_success hs, Prod.map_fst, Prod.map_snd, id] at h ⊢
    obtain ⟨frames, h₁, h₂, h₃⟩ := ih (by rw [hr₁]; exact Reader.length_rest_skip_lt hr) h
    refine ⟨f :: frames, ?_, ?_, .cons ⟨hm, hts⟩ h₃⟩
    · rw [List.flatMap_cons, List.append_assoc, ← h₁]
      exact hrest
    · rw [h₂, hr₁, Reader.skip_skip, List.flatMap_cons, List.length_append, Nat.add_assoc]
  | case2 r message timestamp o hs =>
    rw [readMessages_of_ne_success hs] at h ⊢
    obtain ⟨y, hy⟩ := decodeFrame_eq_eof hr ((genericDecodeNextMessage_code_eq_error_iff ph d
      (c := .eof) nofun nofun).1 h)
    have ho : genericDecodeNextMessage P e ph d r message timestamp =
        ⟨.eof, r.skip 1, message, timestamp⟩ := by
      rw [genericDecodeNextMessage, decodeFrame_eof hy]
    refine ⟨[], ?_, by rw [ho]; rfl, .nil⟩
    rw [ho, Reader.rest_skip, hy]
    rfl

theorem readMessages_eq_eof_sample :
    let run := readMessages Protocol.sample .fourByte Placeholders.sample (VarDecoders.sample 32)
      (Reader.ofBytes sampleBody) [] 0
    ∃ frames : List (Frame .fourByte),
      sampleBody = frames.flatMap (Frame.toBytes Protocol.sample) ++
        Protocol.sample.eof :: run.2.reader.rest ∧
      run.2.reader = (Reader.ofBytes sampleBody).skip
        ((frames.flatMap (Frame.toBytes Protocol.sample)).length + 1) ∧
      List.Forall₂ (fun f msg => decodeMessage Placeholders.sample (VarDecoders.sample 32)
        f.logtype.bytes f.encodedVars f.dictVars = .ok msg.1 ∧ msg.2 = f.timestamp.value) frames run.1 :=
  readMessages_eq_eof (by decide)
    (readMessages_frames (P := Protocol.sample) (r := Reader.ofBytes sampleBody) sampleFrame_encodes
      sampleMessage_decodes rfl [] 0).2.1

/-- More bytes after the buffer never change the messages the loop has read: its messages on
`r` come first among those on `r` with `s` appended; and unless it stopped with
`IRErrorCode_Incomplete_IR`, it reads the same messages on the longer buffer and stops with
the same answer, at the same position. -/
theorem readMessages_append (s : Bytes) :
    (readMessages P e ph d r message timestamp).1 <+:
        (readMessages P e ph d (r.append s) message timestamp).1 ∧
      ((readMessages P e ph d r message timestamp).2.code ≠ .incompleteIR →
        readMessages P e ph d (r.append s) message timestamp =
          ((readMessages P e ph d r message timestamp).1,
            { (readMessages P e ph d r message timestamp).2 with
              reader := (readMessages P e ph d r message timestamp).2.reader.append s })) := by
  induction r, message, timestamp using readMessages.induct P e ph d with
  | case1 r message timestamp o hs ih =>
    obtain ⟨L, E, D, hf, -⟩ := genericDecodeNextMessage_eq_success rfl hs
    have hstep := genericDecodeNextMessage_append_of_frame P e ph d r s message timestamp
      (by rw [hf]; nofun)
    simp only [hf] at hstep
    rw [readMessages_of_code_success hs, readMessages_of_code_success (by rw [hstep]; exact hs)]
    simp only [hstep, Prod.map_fst, Prod.map_snd, id, List.prefix_cons_inj]
    exact ⟨ih.1, fun hc => by rw [ih.2 hc]; rfl⟩
  | case2 r message timestamp o hs =>
    rw [readMessages_of_ne_success hs]
    refine ⟨List.nil_prefix, fun hc => ?_⟩
    have hstep := genericDecodeNextMessage_append_of_frame P e ph d r s message timestamp
      fun hf => hc ((genericDecodeNextMessage_code_eq_error_iff ph d (c := .incompleteIR) nofun
        nofun).2 hf)
    rw [readMessages_of_ne_success (by rw [hstep]; exact hs), hstep, genericDecodeNextMessage_reader]

/-- A stream body cut short reads back as the messages of the frames that lie wholly in the
bytes, in order, then `IRErrorCode_Incomplete_IR`. -/
theorem readMessages_truncated {frames : List (Frame e)} {msgs : List (Message e)}
    (hf : List.Forall₂ (Frame.Encodes ph) frames msgs) (hd : ∀ m ∈ msgs, m.Decodes d)
    (hb : ProperPrefix r.rest (frames.flatMap (Frame.toBytes P) ++ [P.eof])) (message : Bytes)
    (timestamp : BitVec 64) :
    ∃ k, (readMessages P e ph d r message timestamp).1 =
        (msgs.take k).map (fun m => (m.text, m.timestamp.value)) ∧
      (readMessages P e ph d r message timestamp).2.code = .incompleteIR ∧
      (frames.take k).flatMap (Frame.toBytes P) <+: r.rest ∧
      (k < frames.length → ¬ (frames.take (k + 1)).flatMap (Frame.toBytes P) <+: r.rest) := by
  induction hf generalizing r message timestamp with
  | nil =>
    obtain ⟨x, hx, hrx⟩ := hb
    have hlen := congrArg List.length hrx
    have := List.length_pos.2 hx
    simp only [List.flatMap_nil, List.nil_append, List.length_append, List.length_singleton] at hlen
    have hi : (decodeFrame P e r).1 = .error .incompleteIR :=
      congrArg Prod.fst (bind_of_error (readTag_of_nil (List.eq_nil_of_length_eq_zero (by omega))))
    exact ⟨0, (readMessages_of_incomplete hi).1, (readMessages_of_incomplete hi).2, List.nil_prefix,
      nofun⟩
  | @cons f msg frames msgs hfm _ ih =>
    obtain ⟨z, hz, hrz⟩ := hb
    rw [List.flatMap_cons, List.append_assoc] at hrz
    by_cases hp : f.toBytes P <+: r.rest
    · obtain ⟨y, hy⟩ := hp
      rw [← hy, List.append_assoc] at hrz
      rw [readMessages_of_success
        (genericDecodeNextMessage_encodes hfm (hd msg (.head _)) hy.symm message timestamp)]
      have hb : ProperPrefix (r.skip (f.toBytes P).length).rest
          (frames.flatMap (Frame.toBytes P) ++ [P.eof]) := by
        rw [Reader.rest_skip, ← hy, List.drop_left]
        exact ⟨z, hz, List.append_cancel_left hrz⟩
      obtain ⟨k, h₁, h₂, h₃, h₄⟩ := ih (fun m hm => hd m (.tail _ hm)) hb msg.text msg.timestamp.value
      rw [Reader.rest_skip, ← hy, List.drop_left] at h₃ h₄
      refine ⟨k + 1, by rw [Prod.map_fst, h₁, List.take_succ_cons, List.map_cons], h₂, ?_⟩
      simp only [← hy, List.take_succ_cons, List.flatMap_cons, List.prefix_append_right_inj,
        List.length_cons, Nat.add_lt_add_iff_right]
      exact ⟨h₃, h₄⟩
    · have hpp : ProperPrefix r.rest (f.toBytes P) := by
        rcases List.prefix_or_prefix_of_prefix ⟨z, hrz⟩ ⟨_, rfl⟩ with ⟨u, hu⟩ | h
        · exact ⟨u, by rintro rfl; exact hp ⟨[], by simpa using hu.symm⟩, hu⟩
        · exact absurd h hp
      have hi := decodeFrame_of_properPrefix hpp
      refine ⟨0, (readMessages_of_incomplete hi).1, (readMessages_of_incomplete hi).2,
        List.nil_prefix, fun _ h => hp ?_⟩
      rwa [List.take_succ_cons, List.take_zero, List.flatMap_cons, List.flatMap_nil,
        List.append_nil] at h

theorem readMessages_truncated_sample :
    let run := readMessages Protocol.sample .fourByte Placeholders.sample (VarDecoders.sample 32)
      (Reader.ofBytes (sampleBody.take 5)) [] 0
    ∃ k, run.1 = ([sampleMessage].take k).map (fun m => (m.text, m.timestamp.value)) ∧
      run.2.code = .incompleteIR ∧
      ([sampleFrame].take k).flatMap (Frame.toBytes Protocol.sample) <+: sampleBody.take 5 ∧
      (k < [sampleFrame].length →
        ¬ ([sampleFrame].take (k + 1)).flatMap (Frame.toBytes Protocol.sample) <+: sampleBody.take 5) :=
  readMessages_truncated (P := Protocol.sample) (r := Reader.ofBytes (sampleBody.take 5))
    sampleFrame_encodes sampleMessage_decodes ⟨sampleBody.drop 5, by decide, List.take_append_drop 5 _⟩
    [] 0

end Run

/-! ## A whole stream -/

/-- The spec's lifecycle of a whole stream: `get_encoding_type` fixes the encoding, the copy
form of `decode_preamble` reads the metadata at once, and the messages follow, read with
that encoding's variable decoders. An error of the first two ends the stream with its code. -/
def readStream (d : (e : Encoding) → VarDecoders (8 * e.size)) (reader : Reader) :
    Except IRErrorCode (Byte × Bytes × List (Bytes × BitVec 64) × Outcome) :=
  match getEncodingType P reader with
  | (.error code, _) => .error code
  | (.ok isFourByte, reader) =>
    match decodePreambleCopy P reader with
    | (.error code, _) => .error code
    | (.ok (metadataType, metadata), reader) =>
      let encoding : Encoding := if isFourByte then .fourByte else .eightByte
      .ok (metadataType, metadata, readMessages P encoding ph (d encoding) reader [] 0)

/-- The spec's round trip, read as its lifecycle reads a stream: the bytes of a magic number,
a metadata record, frames of messages and the `Eof` tag, followed by anything, read back as
the metadata's type and bytes and the messages' texts and timestamps in order, the run
stopping with `IRErrorCode_Eof` just past the stream. -/
theorem readStream_streamToBytes (d : (e : Encoding) → VarDecoders (8 * e.size))
    (md : MetadataRecord) {frames : List (Frame e)} {msgs : List (Message e)}
    (hf : List.Forall₂ (Frame.Encodes ph) frames msgs) (hd : ∀ m ∈ msgs, m.Decodes (d e))
    (x : Bytes) :
    ∃ o : Outcome, readStream P ph d (Reader.ofBytes (streamToBytes P e md frames ++ x)) =
        .ok (md.metadataType, md.metadata, msgs.map (fun m => (m.text, m.timestamp.value)), o) ∧
      o.code = .eof ∧ o.reader.rest = x := by
  have h₁ : (Reader.ofBytes (streamToBytes P e md frames ++ x)).rest =
      P.magicNumber e ++ (md.toBytes P ++ (frames.flatMap (Frame.toBytes P) ++ P.eof :: x)) := by
    simp [streamToBytes]
  have h₂ : ((Reader.ofBytes (streamToBytes P e md frames ++ x)).skip P.magicNumberLength).rest =
      md.toBytes P ++ (frames.flatMap (Frame.toBytes P) ++ P.eof :: x) := by
    rw [Reader.rest_skip, h₁, ← Protocol.length_magicNumber, List.drop_left]
  have h₃ : (((Reader.ofBytes (streamToBytes P e md frames ++ x)).skip P.magicNumberLength).skip
      (md.toBytes P).length).rest = frames.flatMap (Frame.toBytes P) ++ P.eof :: x := by
    rw [Reader.rest_skip, h₂, List.drop_left]
  have he : (if decide (e = .fourByte) then Encoding.fourByte else .eightByte) = e := by
    cases e <;> rfl
  obtain ⟨hm, hc, hp⟩ := readMessages_frames (d := d e) hf hd h₃ [] 0
  refine ⟨_, ?_, hc, by rw [hp, Reader.rest_skip, h₃, List.drop_append]; rfl⟩
  rw [readStream, getEncodingType_magicNumber h₁]
  dsimp only
  rw [decodePreambleCopy_toBytes md h₂]
  dsimp only
  rw [he, ← hm]

theorem readStream_streamToBytes_sample :
    ∃ o : Outcome, readStream Protocol.sample Placeholders.sample
        (fun e => VarDecoders.sample (8 * e.size))
        (Reader.ofBytes (streamToBytes Protocol.sample .fourByte sampleMetadata [sampleFrame] ++ [])) =
        .ok (sampleMetadata.metadataType, sampleMetadata.metadata,
          [sampleMessage].map (fun m => (m.text, m.timestamp.value)), o) ∧
      o.code = .eof ∧ o.reader.rest = [] :=
  readStream_streamToBytes Protocol.sample .fourByte Placeholders.sample _ sampleMetadata
    sampleFrame_encodes sampleMessage_decodes []

end IrStream

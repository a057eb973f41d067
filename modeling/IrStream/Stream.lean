import Mathlib.Data.List.Forall2
import IrStream.PreambleGrammar
import IrStream.Render
/-!
# Whole streams

What an encoder writes, as the spec describes it (the encoder is not part of the sources),
and what the decoder gives back. A message is a template of segments (static text, float,
integer and dictionary variables) and a timestamp record. Its frame holds the template's
variables as variable records, in any order that keeps each kind in template order and with
any length tag wide enough for each string, then the logtype: the static text with every
placeholder and escape byte escaped, and a placeholder for each variable
(`Frame.Encodes`). A stream is the magic number of its encoding, the metadata record, the
frames and `Eof` (`streamToBytes`).

`streamToBytes_decodes` is the round trip: `get_encoding_type` gives back the encoding,
`decode_preamble` the metadata, and `decode_next_message`, called frame after frame, each
message's text and timestamp, then `Eof`, as long as the variable decoders give back the
text each encoded variable was made from. It is assembled from the token reading of the
renderer (`tokenize_escapeStatic`, `render_template`) and from `decodeFrame_toBytes`.
-/

namespace IrStream

open Decoder LogtypeToken

/-! ## Messages and streams -/

/-- Whether static text escapes the byte: a placeholder or the escape itself. -/
def Placeholders.Reserved (ph : Placeholders) (c : Byte) : Prop :=
  c = ph.float ∨ c = ph.integer ∨ c = ph.dictionary ∨ c = ph.escapeCharacter

instance (ph : Placeholders) : DecidablePred ph.Reserved :=
  fun _ => inferInstanceAs (Decidable (_ ∨ _ ∨ _ ∨ _))

/-- Static text as a logtype holds it: every placeholder and escape byte escaped. -/
def escapeStatic (ph : Placeholders) (t : Bytes) : Bytes :=
  t.flatMap fun c => if ph.Reserved c then [ph.escapeCharacter, c] else [c]

/-- A piece of a message's template: static text, a float or an integer variable with its
text and the encoding of that text, or a dictionary variable. -/
inductive Segment (w : Nat)
  | static (text : Bytes)
  | float (text : Bytes) (v : BitVec w)
  | integer (text : Bytes) (v : BitVec w)
  | dictionary (value : Bytes)

namespace Segment

variable {w : Nat}

/-- The text the segment stands for. -/
def text : Segment w → Bytes
  | static t | float t _ | integer t _ | dictionary t => t

/-- The segment's part of the logtype. -/
def logtype (ph : Placeholders) : Segment w → Bytes
  | static t => escapeStatic ph t
  | float .. => [ph.float]
  | integer .. => [ph.integer]
  | dictionary _ => [ph.dictionary]

/-- The segment's encoded variable, if it has one. -/
def encodedVars : Segment w → List (BitVec w)
  | float _ v | integer _ v => [v]
  | _ => []

/-- The segment's dictionary variable, if it has one. -/
def dictVars : Segment w → List Bytes
  | dictionary s => [s]
  | _ => []

/-- The variable decoders give back the text the segment's encoded variable was made from. -/
def Decodes (d : VarDecoders w) : Segment w → Prop
  | float t v => d.decodeFloatVar v = .ok t
  | integer t v => d.decodeIntegerVar v = .ok t
  | _ => True

end Segment

/-- A message: its template and its timestamp record. -/
structure Message (e : Encoding) where
  template : List (Segment (8 * e.size))
  timestamp : TimestampRecord e

namespace Message

variable {e : Encoding} (m : Message e)

/-- The message's text. -/
def text : Bytes := m.template.flatMap Segment.text

/-- The message's logtype. -/
def logtype (ph : Placeholders) : Bytes := m.template.flatMap (Segment.logtype ph)

/-- The message's encoded variables, in template order. -/
def encodedVars : List e.Var := m.template.flatMap Segment.encodedVars

/-- The message's dictionary variables, in template order. -/
def dictVars : List Bytes := m.template.flatMap Segment.dictVars

/-- The variable decoders give back the text of each of the message's encoded variables. -/
def Decodes (d : VarDecoders (8 * e.size)) : Prop := ∀ s ∈ m.template, s.Decodes d

end Message

variable (P : Protocol) {e : Encoding}

/-- The frame carries the message: the message's logtype, its encoded and its dictionary
variables each in template order, and its timestamp record. -/
structure Frame.Encodes (ph : Placeholders) (f : Frame e) (m : Message e) : Prop where
  logtype : f.logtype.bytes = m.logtype ph
  encodedVars : f.encodedVars = m.encodedVars
  dictVars : f.dictVars = m.dictVars
  timestamp : f.timestamp = m.timestamp

/-- The bytes of a stream: the magic number of its encoding, the metadata record, the
frames and `Eof`. -/
def streamToBytes (e : Encoding) (md : MetadataRecord) (frames : List (Frame e)) : Bytes :=
  P.magicNumber e ++ md.toBytes P ++ frames.flatMap (Frame.toBytes P) ++ [P.eof]

/-- Where the frame `i` of a stream starts: past the magic number, the metadata record and
the frames before it. -/
def frameStart (md : MetadataRecord) (frames : List (Frame e)) (i : Nat) : Nat :=
  P.magicNumberLength + (md.toBytes P).length + ((frames.take i).flatMap (Frame.toBytes P)).length

/-! ## Escaped static text reads back as itself -/

section Static

variable {ph : Placeholders} {w : Nat} {d : VarDecoders w} {ts : List LogtypeToken}
  {E : List (BitVec w)} {D : List Bytes}

/-- The token a byte of escaped static text reads as. -/
def staticToken (ph : Placeholders) (c : Byte) : LogtypeToken :=
  if ph.Reserved c then escaped c else byte c

theorem staticToken_static (ph : Placeholders) (c : Byte) : staticToken ph c ≠ danglingEscape ∧
    (staticToken ph c).isEncoded = false ∧ (staticToken ph c).isDictionary = false := by
  unfold staticToken
  split <;> exact ⟨nofun, rfl, rfl⟩

theorem escapeStatic_cons (c : Byte) (t : Bytes) : escapeStatic ph (c :: t) =
    (if ph.Reserved c then [ph.escapeCharacter, c] else [c]) ++ escapeStatic ph t :=
  List.flatMap_cons _ _ _

theorem tokenize_escapeStatic (t rest : Bytes) :
    tokenize ph (escapeStatic ph t ++ rest) = t.map (staticToken ph) ++ tokenize ph rest := by
  induction t with
  | nil => rfl
  | cons c t ih =>
    rw [escapeStatic_cons, List.append_assoc, List.map_cons, List.cons_append, staticToken]
    split
    · rw [List.cons_append, List.cons_append, List.nil_append, tokenize_escape_cons, ih]
    · next hc =>
      simp only [Placeholders.Reserved, not_or] at hc
      rw [List.cons_append, List.nil_append, tokenize_byte hc.1 hc.2.1 hc.2.2.1 hc.2.2.2, ih]

theorem renderFails_staticTokens (t : Bytes) :
    RenderFails d (t.map (staticToken ph) ++ ts) E D ↔ RenderFails d ts E D := by
  induction t with
  | nil => rfl
  | cons c t ih =>
    obtain ⟨h₁, h₂, h₃⟩ := staticToken_static ph c
    rw [List.map_cons, List.cons_append, renderFails_cons_of_static h₁ h₂ h₃, ih]

theorem renderTokens_staticTokens (t : Bytes) :
    renderTokens d (t.map (staticToken ph) ++ ts) E D = t ++ renderTokens d ts E D := by
  induction t with
  | nil => rfl
  | cons c t ih =>
    rw [List.map_cons, List.cons_append, staticToken]
    split <;> rw [renderTokens, ih, List.cons_append]

end Static

/-! ## A message's logtype renders to its text -/

section Render

variable (ph : Placeholders) {w : Nat} {d : VarDecoders w}

/-- A segment's part of the logtype renders to the segment's text, taking the segment's
own variable, and leaves the question of failure to what follows it. -/
theorem render_segment (s : Segment w) (hs : s.Decodes d) (rest : Bytes) (E : List (BitVec w))
    (D : List Bytes) :
    (RenderFails d (tokenize ph (s.logtype ph ++ rest)) (s.encodedVars ++ E) (s.dictVars ++ D) ↔
        RenderFails d (tokenize ph rest) E D) ∧
      renderTokens d (tokenize ph (s.logtype ph ++ rest)) (s.encodedVars ++ E) (s.dictVars ++ D) =
        s.text ++ renderTokens d (tokenize ph rest) E D := by
  obtain ⟨h₁, h₂, h₃⟩ := ph.distinct
  cases s with
  | static t =>
    rw [Segment.logtype, tokenize_escapeStatic]
    exact ⟨renderFails_staticTokens t, renderTokens_staticTokens t⟩
  | float t v =>
    have hf : (float.format d v).toOption = some t := by
      simp only [format, show d.decodeFloatVar v = .ok t from hs, Except.toOption]
    simp only [Segment.logtype, Segment.encodedVars, Segment.dictVars, Segment.text,
      List.singleton_append, List.nil_append, tokenize_float]
    refine ⟨by simp [renderFails_encoded_cons (t := float) rfl, hf], ?_⟩
    simp [renderTokens, encodedText, hf]
  | integer t v =>
    have hf : (integer.format d v).toOption = some t := by
      simp only [format, show d.decodeIntegerVar v = .ok t from hs, Except.toOption]
    simp only [Segment.logtype, Segment.encodedVars, Segment.dictVars, Segment.text,
      List.singleton_append, List.nil_append, tokenize_integer h₁]
    refine ⟨by simp [renderFails_encoded_cons (t := integer) rfl, hf], ?_⟩
    simp [renderTokens, encodedText, hf]
  | dictionary s =>
    simp only [Segment.logtype, Segment.encodedVars, Segment.dictVars, Segment.text,
      List.singleton_append, List.nil_append, tokenize_dictionary h₂ h₃]
    exact ⟨renderFails_dictionary_cons, by simp [renderTokens]⟩

/-- The logtype of segments renders to their texts, each taking its own variable. -/
theorem render_template (segs : List (Segment w)) (hs : ∀ s ∈ segs, s.Decodes d) (rest : Bytes)
    (E : List (BitVec w)) (D : List Bytes) :
    (RenderFails d (tokenize ph (segs.flatMap (Segment.logtype ph) ++ rest))
        (segs.flatMap Segment.encodedVars ++ E) (segs.flatMap Segment.dictVars ++ D) ↔
        RenderFails d (tokenize ph rest) E D) ∧
      renderTokens d (tokenize ph (segs.flatMap (Segment.logtype ph) ++ rest))
          (segs.flatMap Segment.encodedVars ++ E) (segs.flatMap Segment.dictVars ++ D) =
        segs.flatMap Segment.text ++ renderTokens d (tokenize ph rest) E D := by
  induction segs with
  | nil => exact ⟨Iff.rfl, rfl⟩
  | cons s segs ih =>
    obtain ⟨hf, ht⟩ := ih fun s' h => hs s' (List.mem_cons_of_mem _ h)
    obtain ⟨hf₀, ht₀⟩ := render_segment ph s (hs s (List.mem_cons_self _ _))
      (segs.flatMap (Segment.logtype ph) ++ rest) (segs.flatMap Segment.encodedVars ++ E)
      (segs.flatMap Segment.dictVars ++ D)
    simp only [List.flatMap_cons, List.append_assoc]
    exact ⟨hf₀.trans hf, by rw [ht₀, ht]⟩

/-- Escape idempotence: a logtype that escapes every placeholder and escape byte of a text
renders to that text with any variables, and takes none of them. -/
theorem decodeMessage_escapeStatic (t : Bytes) (E : List (BitVec w)) (D : List Bytes) :
    decodeMessage ph d (escapeStatic ph t) E D = .ok t := by
  have h : tokenize ph (escapeStatic ph t) = t.map (staticToken ph) ++ [] := by
    simpa only [List.append_nil, tokenize_nil] using @tokenize_escapeStatic ph t []
  rw [decodeMessage_of_not_renderFails ph d _ _ _
      (by rw [h, renderFails_staticTokens]; exact not_renderFails_nil),
    h, renderTokens_staticTokens, renderTokens_nil, List.append_nil]

/-- `decode_message` renders a message's logtype with its variables to its text. -/
theorem decodeMessage_logtype {d : VarDecoders (8 * e.size)} (m : Message e) (hm : m.Decodes d) :
    decodeMessage ph d (m.logtype ph) m.encodedVars m.dictVars = .ok m.text := by
  obtain ⟨hf, ht⟩ := render_template ph m.template hm [] [] []
  simp only [List.append_nil] at hf ht
  rw [Message.logtype, Message.encodedVars, Message.dictVars,
    decodeMessage_of_not_renderFails ph d _ _ _ (by rw [hf]; exact not_renderFails_nil), ht]
  simp [tokenize, renderTokens, Message.text]

end Render

/-! ## The decoder on a stream -/

section Decode

variable {P} {r : Reader} {x : Bytes}

/-- `decode_next_message` on the frame of a message returns the message's text and
timestamp, and moves past exactly the frame. -/
theorem genericDecodeNextMessage_encodes {ph : Placeholders} {d : VarDecoders (8 * e.size)}
    {f : Frame e} {m : Message e} (hf : f.Encodes ph m) (hm : m.Decodes d)
    (hr : r.rest = f.toBytes P ++ x) (message : Bytes) (timestamp : BitVec 64) :
    genericDecodeNextMessage P e ph d r message timestamp =
      ⟨.success, r.skip (f.toBytes P).length, m.text, m.timestamp.value⟩ := by
  rw [genericDecodeNextMessage, decodeFrame_toBytes f hr]
  dsimp only
  rw [hf.logtype, hf.encodedVars, hf.dictVars, hf.timestamp, decodeMessage_logtype ph m hm]

theorem genericDecodeNextMessage_eof {ph : Placeholders} {d : VarDecoders (8 * e.size)}
    (hr : r.rest = P.eof :: x) (message : Bytes) (timestamp : BitVec 64) :
    (genericDecodeNextMessage P e ph d r message timestamp).code = .eof := by
  rw [genericDecodeNextMessage, decodeFrame_eof hr]

end Decode

/-! ## The round trip -/

section RoundTrip

variable {frames : List (Frame e)}

theorem frameStart_zero (md : MetadataRecord) :
    frameStart P md frames 0 = P.magicNumberLength + (md.toBytes P).length := by
  simp [frameStart]

/-- The stream past its magic number: the metadata record, the frames, then `Eof`. -/
theorem rest_skip_magicNumber (md : MetadataRecord) (frames : List (Frame e)) :
    ((Reader.ofBytes (streamToBytes P e md frames)).skip P.magicNumberLength).rest =
      md.toBytes P ++ (frames.flatMap (Frame.toBytes P) ++ [P.eof]) := by
  rw [Reader.rest_skip, Reader.rest_ofBytes, streamToBytes, List.append_assoc, List.append_assoc,
    List.drop_left' Protocol.length_magicNumber]

theorem frameStart_succ (md : MetadataRecord) {i : Nat} (hi : i < frames.length) :
    frameStart P md frames (i + 1) = frameStart P md frames i + (frames[i].toBytes P).length := by
  simp only [frameStart, List.take_succ, List.getElem?_eq_getElem hi, Option.toList_some,
    List.flatMap_append, List.flatMap_cons, List.flatMap_nil, List.append_nil, List.length_append,
    Nat.add_assoc]

/-- The stream from the start of frame `i` on: the frames from `i` on, then `Eof`. -/
theorem rest_frameStart (md : MetadataRecord) (frames : List (Frame e)) (i : Nat) :
    ((Reader.ofBytes (streamToBytes P e md frames)).skip (frameStart P md frames i)).rest =
      (frames.drop i).flatMap (Frame.toBytes P) ++ [P.eof] := by
  have h : streamToBytes P e md frames = (P.magicNumber e ++ md.toBytes P ++
      (frames.take i).flatMap (Frame.toBytes P)) ++
        ((frames.drop i).flatMap (Frame.toBytes P) ++ [P.eof]) := by
    rw [streamToBytes, ← List.take_append_drop i frames, List.flatMap_append, List.take_append_drop]
    simp only [List.append_assoc]
  rw [Reader.rest_skip, Reader.rest_ofBytes, h, List.drop_left']
  simp [frameStart, Protocol.length_magicNumber, Nat.add_assoc]

/-- What decoding the bytes `s`, as the stream of the metadata record `md` and of the
messages `msgs` in the frames `frames`, gives back: `get_encoding_type` the encoding,
`decode_preamble` the metadata's type and bytes (or, in the form that seeks past them, where
they start and their size), `decode_next_message` at each frame the
text and timestamp of its message with the reader at the next frame, and `Eof` at the end. -/
structure DecodesAs (ph : Placeholders) (d : VarDecoders (8 * e.size)) (s : Bytes)
    (md : MetadataRecord) (frames : List (Frame e)) (msgs : List (Message e)) : Prop where
  encodingType : getEncodingType P (Reader.ofBytes s) =
    (.ok (decide (e = .fourByte)), (Reader.ofBytes s).skip P.magicNumberLength)
  preamble : decodePreambleCopy P ((Reader.ofBytes s).skip P.magicNumberLength) =
    (.ok (md.metadataType, md.metadata), (Reader.ofBytes s).skip (frameStart P md frames 0))
  preambleSeek : decodePreambleSeek P ((Reader.ofBytes s).skip P.magicNumberLength) =
    (.ok (md.metadataType, P.magicNumberLength + (2 + md.width.size),
      BitVec.ofNat 16 md.metadata.length), (Reader.ofBytes s).skip (frameStart P md frames 0))
  messages : ∀ (i : Nat) (hi : i < msgs.length) (message : Bytes) (timestamp : BitVec 64),
    genericDecodeNextMessage P e ph d ((Reader.ofBytes s).skip (frameStart P md frames i)) message
        timestamp =
      ⟨.success, (Reader.ofBytes s).skip (frameStart P md frames (i + 1)), msgs[i].text,
        msgs[i].timestamp.value⟩
  eof : ∀ (message : Bytes) (timestamp : BitVec 64),
    (genericDecodeNextMessage P e ph d ((Reader.ofBytes s).skip (frameStart P md frames msgs.length))
      message timestamp).code = .eof

/-- The round trip: the decoder gives back the encoding, the metadata and each message of a
stream in turn, then `Eof`, whatever order each frame puts its variables in and whatever
length tags it uses, as long as the variable decoders give back the text each encoded
variable was made from. -/
theorem streamToBytes_decodes (ph : Placeholders) (d : VarDecoders (8 * e.size))
    (md : MetadataRecord) {msgs : List (Message e)} (hf : List.Forall₂ (Frame.Encodes ph) frames msgs)
    (hd : ∀ m ∈ msgs, m.Decodes d) :
    DecodesAs P ph d (streamToBytes P e md frames) md frames msgs where
  encodingType := getEncodingType_magicNumber
    (by rw [Reader.rest_ofBytes, streamToBytes, List.append_assoc, List.append_assoc])
  preamble := by
    rw [frameStart_zero, ← Reader.skip_skip]
    exact decodePreambleCopy_toBytes md (rest_skip_magicNumber P md frames)
  preambleSeek := by
    have hpos : ((Reader.ofBytes (streamToBytes P e md frames)).skip P.magicNumberLength).pos =
        P.magicNumberLength :=
      (Reader.pos_skip (by simp [streamToBytes, Protocol.length_magicNumber])).trans (Nat.zero_add _)
    rw [decodePreambleSeek_toBytes md (rest_skip_magicNumber P md frames), hpos, Reader.skip_skip,
      frameStart_zero]
  messages i hi message timestamp := by
    obtain ⟨hlen, hget⟩ := List.forall₂_iff_get.1 hf
    have hi' : i < frames.length := hlen ▸ hi
    have hr := rest_frameStart P md frames i
    rw [List.drop_eq_getElem_cons hi', List.flatMap_cons, List.append_assoc] at hr
    rw [genericDecodeNextMessage_encodes (hget i hi' hi) (hd _ (List.getElem_mem hi)) hr,
      Reader.skip_skip, frameStart_succ P md hi']
    rfl
  eof message timestamp := by
    refine genericDecodeNextMessage_eof (x := []) ?_ message timestamp
    rw [rest_frameStart, List.drop_eq_nil_of_le (by rw [hf.length_eq]), List.flatMap_nil]
    rfl

/-- A message whose static text holds the escape byte, with an integer variable and a
dictionary variable holding the float placeholder byte. -/
def sampleMessage : Message .fourByte :=
  ⟨[.static [0x61, 0x5C], .integer [0x2A] 42, .dictionary [0x11]], .deltaByte 5⟩

/-- A frame of `sampleMessage` that writes the dictionary variable first. -/
def sampleFrame : Frame .fourByte :=
  ⟨[.dictionary ⟨.uByte, [0x11], by decide⟩, .encoded 42],
    ⟨.uByte, [0x61, 0x5C, 0x5C, 0x12, 0x13], by decide⟩, .deltaByte 5⟩

/-- Two bytes of metadata of type 1 under `LengthUByte`. -/
def sampleMetadata : MetadataRecord := ⟨0x01, .uByte, [0x7B, 0x7D], nofun, by decide⟩

theorem sampleFrame_encodes :
    List.Forall₂ (Frame.Encodes Placeholders.sample) [sampleFrame] [sampleMessage] :=
  .cons ⟨by decide, by decide, by decide, rfl⟩ .nil

theorem sampleMessage_decodes : ∀ m ∈ [sampleMessage], m.Decodes (VarDecoders.sample 32) := by
  intro m hm s hs
  rw [List.mem_singleton.1 hm] at hs
  rcases List.mem_cons.1 hs with rfl | hs
  · exact True.intro
  rcases List.mem_cons.1 hs with rfl | hs
  · exact rfl
  rw [List.mem_singleton.1 hs]
  exact True.intro

theorem streamToBytes_decodes_sample :
    List.Forall₂ (Frame.Encodes Placeholders.sample) [sampleFrame] [sampleMessage] ∧
      (∀ m ∈ [sampleMessage], m.Decodes (VarDecoders.sample 32)) ∧
      DecodesAs Protocol.sample (e := .fourByte) Placeholders.sample (VarDecoders.sample 32)
        (streamToBytes Protocol.sample .fourByte sampleMetadata [sampleFrame]) sampleMetadata
        [sampleFrame] [sampleMessage] :=
  ⟨sampleFrame_encodes, sampleMessage_decodes,
    streamToBytes_decodes Protocol.sample (e := .fourByte) Placeholders.sample (VarDecoders.sample 32)
      sampleMetadata sampleFrame_encodes sampleMessage_decodes⟩

end RoundTrip

end IrStream

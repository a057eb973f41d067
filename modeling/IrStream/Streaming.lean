import IrStream.Run
/-!
# A caller that decodes while the bytes arrive

The spec's lifecycle calls `decode_next_message` on one reader again and again; a caller that
reads a stream while it is being written calls it before all the bytes are there.
`generic_decode_next_message` answers `IRErrorCode_Incomplete_IR` when the frame's bytes run
out, and a retry after more bytes may succeed only if the reader can resume (spec, error
model): the caller keeps the position of the frame's start and seeks back to it (the spec's
open question on the reader's position after an error). `Client` is that caller. Bytes arrive
at the end of its buffer, and each call either takes a message, or on
`IRErrorCode_Incomplete_IR` goes back to the frame's start to try again later, or stops for
good on any other answer.

`Client.run_agrees_readMessages`: over every interleaving of arrivals and calls, the messages
the client took are the first of those that the loop of `Run` reads from the stream's start on
all the bytes that arrived, whatever bytes follow; and once a call changes nothing, they are all
that loop reads there, and it stops with the client's answer. The client loses, repeats and
reorders no message, and takes none that later bytes would contradict. The step lemmas rest on
the decoder deciding each frame whatever bytes come after it (`readMessages_append_of_success`,
`readMessages_append_of_stop`).

`Client.run_calls_readMessages`: the client catches up. Once no more bytes arrive, one call more
than the bytes left brings it to a state that a further call leaves as it was, since each
success takes a frame's bytes and a retry on the same bytes answers the same. With the stream
round trip of `Run` this gives `Client.run_calls_frames`: however a stream's body is cut into
pieces, the client ends with all its messages and `IRErrorCode_Eof`.
-/

namespace IrStream

open Decoder

/-- What happens next at a caller: bytes arrive at the end of its buffer, or it calls
`decode_next_message`. -/
inductive Action where
  | arrive (bytes : Bytes)
  | call
  deriving Repr, DecidableEq

/-- The bytes an action adds to the buffer. -/
def Action.bytes : Action → Bytes
  | .arrive bytes => bytes
  | .call => []

/-- A caller decoding a stream as it arrives. -/
structure Client where
  /-- The reader over the bytes so far, where the next call reads. -/
  reader : Reader
  /-- The messages taken so far, with their timestamps, in order. -/
  messages : List (Bytes × BitVec 64)
  /-- The message buffer passed to the next call. -/
  message : Bytes
  /-- The timestamp buffer passed to the next call. -/
  timestamp : BitVec 64
  /-- The answer of the last call. -/
  code : IRErrorCode

/-- The client has stopped: its last call answered neither a success nor incomplete IR. -/
def Client.Stopped (c : Client) : Prop := c.code ≠ .success ∧ c.code ≠ .incompleteIR

instance (c : Client) : Decidable c.Stopped := inferInstanceAs (Decidable (_ ∧ _))

/-- A client before any byte has arrived, with its buffers. -/
def Client.init (message : Bytes) (timestamp : BitVec 64) : Client :=
  ⟨.ofBytes [], [], message, timestamp, .success⟩

variable (P : Protocol) (e : Encoding) (ph : Placeholders) (d : VarDecoders (8 * e.size))

/-- One action at the client. A call on a stopped client does nothing; otherwise it calls
`generic_decode_next_message` at the reader: a success takes the message and moves on,
`IRErrorCode_Incomplete_IR` leaves the reader at the frame's start, and any other answer stops
the client where the decoder left the reader. -/
def Client.step (c : Client) : Action → Client
  | .arrive bytes => { c with reader := c.reader.append bytes }
  | .call =>
    if c.Stopped then c else
      let o := genericDecodeNextMessage P e ph d c.reader c.message c.timestamp
      if o.code = .success then
        ⟨o.reader, c.messages ++ [(o.message, o.timestamp)], o.message, o.timestamp, .success⟩
      else if o.code = .incompleteIR then { c with code := .incompleteIR }
      else ⟨o.reader, c.messages, o.message, o.timestamp, o.code⟩

/-- The client after the actions `acts`, from no bytes and the buffers `message` and
`timestamp`. -/
def Client.run (acts : List Action) (message : Bytes) (timestamp : BitVec 64) : Client :=
  acts.foldl (Client.step P e ph d) (Client.init message timestamp)

/-- The client agrees with the loop of `Run` on the bytes `arrived` so far: whatever bytes `s`
follow, the loop from the stream's start with the buffers `message` and `timestamp` reads the
client's messages first; then, if the client has stopped, nothing more, stopping with the
client's answer, and if not, what the loop reads from the client's reader. -/
def Client.Agrees (message : Bytes) (timestamp : BitVec 64) (arrived : Bytes) (c : Client) :
    Prop :=
  ∀ s, readMessages P e ph d (.ofBytes (arrived ++ s)) message timestamp =
    if c.Stopped then (c.messages, ⟨c.code, c.reader.append s, c.message, c.timestamp⟩)
    else Prod.map (c.messages ++ ·) id (readMessages P e ph d (c.reader.append s) c.message c.timestamp)

/-- Everything a call can do. -/
theorem Client.step_call_cases (c : Client) :
    let o := genericDecodeNextMessage P e ph d c.reader c.message c.timestamp
    c.Stopped ∧ c.step P e ph d .call = c ∨
    ¬ c.Stopped ∧ o.code = .success ∧ c.step P e ph d .call =
      ⟨o.reader, c.messages ++ [(o.message, o.timestamp)], o.message, o.timestamp, .success⟩ ∨
    ¬ c.Stopped ∧ o.code = .incompleteIR ∧ c.step P e ph d .call = { c with code := .incompleteIR } ∨
    ¬ c.Stopped ∧ o.code ≠ .success ∧ o.code ≠ .incompleteIR ∧
      c.step P e ph d .call = ⟨o.reader, c.messages, o.message, o.timestamp, o.code⟩ := by
  dsimp only [Client.step]
  split_ifs <;> simp [*]

/-! ## Calls until nothing changes -/

section Calls

variable {c : Client}

/-- A client that one call leaves unchanged stays so under any number of calls. -/
theorem Client.foldl_calls_of_step (hq : c.step P e ph d .call = c) (n : Nat) :
    (List.replicate n Action.call).foldl (Client.step P e ph d) c = c := by
  induction n with
  | zero => rfl
  | succ n ih => rw [List.replicate_succ, List.foldl_cons, hq, ih]

/-- After a call, either the next call changes nothing or the call took a frame's bytes. -/
theorem Client.step_call_progress (c : Client) :
    (c.step P e ph d .call).step P e ph d .call = c.step P e ph d .call ∨
      (c.step P e ph d .call).reader.rest.length < c.reader.rest.length := by
  rcases c.step_call_cases P e ph d with ⟨-, hc⟩ | ⟨-, ho, hc⟩ | ⟨-, ho, hc⟩ | ⟨-, ho, hi, hc⟩
  · left
    rw [hc, hc]
  · right
    rw [hc]
    exact genericDecodeNextMessage_shrinks ho
  · left
    rw [hc]
    simp [Client.step, Client.Stopped, ho]
  · left
    rw [hc]
    exact if_pos ⟨ho, hi⟩

/-- One call more than the bytes left on the reader brings any client to a state that a
further call leaves as it was. -/
theorem Client.foldl_calls_step (n : Nat) (c : Client) (hn : c.reader.rest.length < n) :
    let c' := (List.replicate n Action.call).foldl (Client.step P e ph d) c
    c'.step P e ph d .call = c' := by
  induction n generalizing c with
  | zero => exact absurd hn (Nat.not_lt_zero _)
  | succ n ih =>
    dsimp only
    rw [List.replicate_succ, List.foldl_cons]
    rcases c.step_call_progress P e ph d with hq | hlt
    · rw [Client.foldl_calls_of_step P e ph d hq]
      exact hq
    · exact ih _ (by omega)

end Calls

section Agrees

variable {P e ph d} {message : Bytes} {timestamp : BitVec 64} {arrived : Bytes} {c : Client}

/-- Before any byte, the client agrees with the loop from the stream's start. -/
theorem Client.agrees_init : (Client.init message timestamp).Agrees P e ph d message timestamp [] := by
  intro s
  have : (Reader.ofBytes []).append s = .ofBytes s := Reader.ext (List.nil_append s) rfl
  simp [Client.init, Client.Stopped, this]
  rfl

/-- Each action keeps the agreement, over the bytes that arrived with it. -/
theorem Client.Agrees.step (h : c.Agrees P e ph d message timestamp arrived) (a : Action) :
    (c.step P e ph d a).Agrees P e ph d message timestamp (arrived ++ a.bytes) := by
  intro s
  cases a with
  | arrive bytes =>
    rw [Action.bytes, List.append_assoc, h]
    simp only [Client.step, Client.Stopped, Reader.append_append]
  | call =>
    rw [Action.bytes, List.append_nil, h]
    rcases c.step_call_cases P e ph d with ⟨-, hc⟩ | ⟨hs, ho, hc⟩ | ⟨hs, ho, hc⟩ | ⟨hs, ho, hi, hc⟩
    · rw [hc]
    · rw [hc, if_neg hs, if_neg fun h => h.1 rfl, readMessages_append_of_success s ho]
      simp only [List.append_assoc, List.singleton_append]
      rfl
    · rw [hc, if_neg hs]
      rfl
    · rw [hc, if_neg hs, readMessages_append_of_stop s ho hi]
      simp [Client.Stopped, ho, hi]

/-- The agreement holds after every sequence of actions. -/
theorem Client.Agrees.foldl (h : c.Agrees P e ph d message timestamp arrived) (acts : List Action) :
    (acts.foldl (Client.step P e ph d) c).Agrees P e ph d message timestamp
      (arrived ++ acts.flatMap Action.bytes) := by
  induction acts generalizing c arrived with
  | nil => simpa using h
  | cons a acts ih =>
    rw [List.foldl_cons, List.flatMap_cons, ← List.append_assoc]
    exact ih (h.step a)

/-- An agreeing client's messages come first among those the loop reads, whatever follows. -/
theorem Client.Agrees.messages_prefix_readMessages (h : c.Agrees P e ph d message timestamp arrived)
    (s : Bytes) :
    c.messages <+: (readMessages P e ph d (.ofBytes (arrived ++ s)) message timestamp).1 := by
  rw [h s]
  split_ifs
  · exact List.prefix_refl _
  · exact List.prefix_append _ _

/-- Once a call leaves an agreeing client as it was, the loop on the bytes so far reads just
the client's messages and stops with its answer and its buffers. -/
theorem Client.Agrees.of_step_call (h : c.Agrees P e ph d message timestamp arrived)
    (hq : c.step P e ph d .call = c) :
    let run := readMessages P e ph d (.ofBytes arrived) message timestamp
    run.1 = c.messages ∧ run.2.code = c.code ∧ run.2.message = c.message ∧
      run.2.timestamp = c.timestamp := by
  have hr := h []
  rw [List.append_nil, Reader.append_nil] at hr
  dsimp only
  rw [hr]
  rcases c.step_call_cases P e ph d with ⟨hs, -⟩ | ⟨-, -, hc⟩ | ⟨hs, ho, hc⟩ | ⟨hs, ho, hi, hc⟩
  · rw [if_pos hs]
    exact ⟨rfl, rfl, rfl, rfl⟩
  · have := congrArg (fun c => c.messages.length) (hc.symm.trans hq)
    simp at this
  · have hf := (genericDecodeNextMessage_code_eq_error_iff ph d (c := .incompleteIR) nofun nofun).1 ho
    rw [if_neg hs, readMessages_of_ne_success (by rw [ho]; nofun),
      genericDecodeNextMessage_of_frame_error ph d hf]
    exact ⟨List.append_nil _, congrArg Client.code (hc.symm.trans hq), rfl, rfl⟩
  · have hcode := congrArg Client.code (hc.symm.trans hq)
    exact absurd ⟨hcode ▸ ho, hcode ▸ hi⟩ hs

end Agrees

/-- Over every interleaving of arrivals and calls, the client's messages are the first of
those that the loop of `Run` reads from the stream's start on the bytes that arrived, whatever
bytes follow; once a call changes nothing, they are all the loop reads on those bytes, and the
loop stops with the client's answer and leaves its buffers as the client's. -/
theorem Client.run_agrees_readMessages (acts : List Action) (message : Bytes)
    (timestamp : BitVec 64) :
    let c := Client.run P e ph d acts message timestamp
    let arrived := acts.flatMap Action.bytes
    (∀ s, c.messages <+: (readMessages P e ph d (.ofBytes (arrived ++ s)) message timestamp).1) ∧
      (c.step P e ph d .call = c →
        let run := readMessages P e ph d (.ofBytes arrived) message timestamp
        run.1 = c.messages ∧ run.2.code = c.code ∧ run.2.message = c.message ∧
          run.2.timestamp = c.timestamp) := by
  have h : (Client.run P e ph d acts message timestamp).Agrees P e ph d message timestamp
      ([] ++ acts.flatMap Action.bytes) := Client.agrees_init.foldl acts
  rw [List.nil_append] at h
  exact ⟨h.messages_prefix_readMessages, h.of_step_call⟩

/-- After any actions, one call more than the bytes left on the reader leaves a client that
agrees with the loop on all the bytes that arrived and that a further call leaves as it was. -/
theorem Client.run_calls_agrees (acts : List Action) (message : Bytes) (timestamp : BitVec 64) :
    let n := (Client.run P e ph d acts message timestamp).reader.rest.length + 1
    let c := Client.run P e ph d (acts ++ List.replicate n .call) message timestamp
    c.Agrees P e ph d message timestamp (acts.flatMap Action.bytes) ∧ c.step P e ph d .call = c := by
  intro n c
  have h : c.Agrees P e ph d message timestamp
      ([] ++ (acts ++ List.replicate n Action.call).flatMap Action.bytes) :=
    Client.agrees_init.foldl _
  simp only [List.nil_append, List.flatMap_append, List.flatMap_replicate, Action.bytes,
    List.flatten_replicate_nil, List.append_nil] at h
  refine ⟨h, ?_⟩
  simp only [c, Client.run, List.foldl_append]
  exact Client.foldl_calls_step P e ph d n _ (Nat.lt_succ_self _)

/-- A client that is sent no more bytes and then calls once more than the bytes left on its
reader reaches a state that a further call leaves as it was, with just the messages the loop of
`Run` reads on all the bytes that arrived, and with the loop's answer and buffers: the client
catches up, whatever the interleaving before. -/
theorem Client.run_calls_readMessages (acts : List Action) (message : Bytes)
    (timestamp : BitVec 64) :
    let n := (Client.run P e ph d acts message timestamp).reader.rest.length + 1
    let c := Client.run P e ph d (acts ++ List.replicate n .call) message timestamp
    let run := readMessages P e ph d (.ofBytes (acts.flatMap Action.bytes)) message timestamp
    c.step P e ph d .call = c ∧ run.1 = c.messages ∧ run.2.code = c.code ∧
      run.2.message = c.message ∧ run.2.timestamp = c.timestamp := by
  obtain ⟨h, hq⟩ := Client.run_calls_agrees P e ph d acts message timestamp
  exact ⟨hq, h.of_step_call hq⟩

/-- The spec's round trip for a caller that decodes while the bytes arrive: however the bytes
of a stream's body (its frames, then the `Eof` tag, then anything) are cut into pieces and
interleaved with calls, one call more than the bytes then left brings the client to every
message, in order, and to `IRErrorCode_Eof`. -/
theorem Client.run_calls_frames {frames : List (Frame e)} {msgs : List (Message e)}
    (hf : List.Forall₂ (Frame.Encodes ph) frames msgs) (hd : ∀ m ∈ msgs, m.Decodes d)
    {acts : List Action} {x : Bytes}
    (hacts : acts.flatMap Action.bytes = frames.flatMap (Frame.toBytes P) ++ P.eof :: x)
    (message : Bytes) (timestamp : BitVec 64) :
    let n := (Client.run P e ph d acts message timestamp).reader.rest.length + 1
    let c := Client.run P e ph d (acts ++ List.replicate n .call) message timestamp
    c.messages = msgs.map (fun m => (m.text, m.timestamp.value)) ∧ c.code = .eof := by
  obtain ⟨h, hq⟩ := Client.run_calls_agrees P e ph d acts message timestamp
  obtain ⟨h₁, h₂, -⟩ := readMessages_frames hf hd (r := .ofBytes (acts.flatMap Action.bytes))
    (by rw [Reader.rest_ofBytes, hacts]) message timestamp
  obtain ⟨e₁, e₂, -, -⟩ := h.of_step_call hq
  exact ⟨e₁.symm.trans h₁, e₂.symm.trans h₂⟩

/-- The sample body, cut after its fourth byte with a call in between. -/
theorem Client.run_calls_frames_sample :
    let acts := [Action.arrive (sampleBody.take 4), .call, .arrive (sampleBody.drop 4)]
    let run := Client.run Protocol.sample .fourByte Placeholders.sample (VarDecoders.sample 32)
    let c := run (acts ++ List.replicate ((run acts [] 0).reader.rest.length + 1) .call) [] 0
    c.messages = [sampleMessage].map (fun m => (m.text, m.timestamp.value)) ∧ c.code = .eof :=
  Client.run_calls_frames _ _ _ _ sampleFrame_encodes sampleMessage_decodes (x := []) (by decide) [] 0

end IrStream

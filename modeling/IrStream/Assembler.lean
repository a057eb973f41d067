import IrStream.Errors
/-!
# The spec's message assembler, and how the decoder refines it

The spec draws the message assembler (section 4.5) as a state machine. From `Start` it reads a
tag and classifies it: the `Eof` tag terminates with `Eof`, a variable tag reads the variable
and the next tag and classifies again, a logtype tag reads the logtype, then the timestamp tag,
then the timestamp's payload, and any other tag is corrupted. `assemblerStep` is that machine,
with the decoder's field parsers as its reads: a read that fails terminates with the read's
code. `assemblerRun` runs it, and `terminate` is absorbing.

`decodeFrame_refines_assembler`: within `r.rest.length + 3` transitions the machine terminates
at the reader `decodeFrame` leaves, with `decodeFrame`'s answer, except at one point. The
machine classifies every tag it reads before the logtype, so it terminates with `Eof` at an
`Eof` tag after variable records; `generic_decode_next_message` checks for `Eof` only at the
frame's first tag, and `parse_logtype` answers `IRErrorCode_Corrupted_IR` there.
-/

namespace IrStream

open Decoder

variable (P : Protocol) (e : Encoding)

/-- The states of the spec's message assembler, with what it has read of the frame. -/
inductive AssemblerState (e : Encoding)
  | start
  | classify (tag : Byte) (encodedVars : List e.Var) (dictVars : List Bytes)
  | readTimestampTag (logtype : Bytes) (encodedVars : List e.Var) (dictVars : List Bytes)
  | readTimestampPayload (tag : Byte) (logtype : Bytes) (encodedVars : List e.Var)
      (dictVars : List Bytes)
  | terminate (result : Except IRErrorCode (Bytes × List e.Var × List Bytes × BitVec 64))

/-- A read of the machine: on success it moves to `next`, on failure it terminates with the
read's code. -/
def assemblerRead {α : Type} (m : Decoder α) (next : α → AssemblerState e) (r : Reader) :
    AssemblerState e × Reader :=
  match m r with
  | (.ok a, r) => (next a, r)
  | (.error code, r) => (.terminate (.error code), r)

/-- One transition of the spec's message assembler. -/
def assemblerStep : AssemblerState e → Reader → AssemblerState e × Reader
  | .start, r => assemblerRead e readTag (fun tag => .classify tag [] []) r
  | .classify tag encodedVars dictVars, r =>
    if tag = P.eof then (.terminate (.error .eof), r) else
    match isVariableTag P e tag with
    | some isEncodedVar =>
      assemblerRead e (decodeVariable P e tag isEncodedVar encodedVars dictVars)
        (fun (tag, encodedVars, dictVars) => .classify tag encodedVars dictVars) r
    | none => assemblerRead e (parseLogtype P tag) (.readTimestampTag · encodedVars dictVars) r
  | .readTimestampTag logtype encodedVars dictVars, r =>
    assemblerRead e readTag (.readTimestampPayload · logtype encodedVars dictVars) r
  | .readTimestampPayload tag logtype encodedVars dictVars, r =>
    assemblerRead e (parseTimestamp P e tag)
      (fun timestamp => .terminate (.ok (logtype, encodedVars, dictVars, timestamp))) r
  | .terminate result, r => (.terminate result, r)

/-- `n` transitions of the spec's message assembler. -/
def assemblerRun : Nat → AssemblerState e → Reader → AssemblerState e × Reader
  | 0, s, r => (s, r)
  | n + 1, s, r => assemblerRun n (assemblerStep P e s r).1 (assemblerStep P e s r).2

/-- The code's answer where the machine terminates after the frame's first tag: the machine's,
except that its `Eof` is corrupted IR. -/
def eofAsCorrupted {α : Type} : Except IRErrorCode α → Except IRErrorCode α
  | .error .eof => .error .corruptedIR
  | result => result

theorem eofAsCorrupted_of_ne {α : Type} {c : IRErrorCode} (h : c ≠ .eof) :
    eofAsCorrupted (.error c : Except IRErrorCode α) = .error c := by
  cases c <;> first | rfl | exact absurd rfl h

/-- From `s` at `r` the machine terminates within `n` transitions, at the reader of `answer`
and with its result, the machine's `Eof` being corrupted IR in `answer`. -/
def Simulates (n : Nat) (s : AssemblerState e) (r : Reader)
    (answer : Except IRErrorCode (Bytes × List e.Var × List Bytes × BitVec 64) × Reader) : Prop :=
  ∃ res, assemblerRun P e n s r = (.terminate res, answer.2) ∧ answer.1 = eofAsCorrupted res

section Run

variable {P e} {n : Nat} {s s' : AssemblerState e} {r r₁ : Reader}
  {answer : Except IRErrorCode (Bytes × List e.Var × List Bytes × BitVec 64) × Reader}

@[simp] theorem assemblerRun_terminate (n : Nat) (res) (r : Reader) :
    assemblerRun P e n (.terminate res) r = (.terminate res, r) := by
  induction n with
  | zero => rfl
  | succ n ih => exact ih

theorem assemblerRun_mono {res} {r' : Reader} (h : assemblerRun P e n s r = (.terminate res, r'))
    {n' : Nat} (hn : n ≤ n') : assemblerRun P e n' s r = (.terminate res, r') := by
  induction n generalizing s r n' with
  | zero => cases h; simp
  | succ n ih =>
    obtain ⟨n', rfl⟩ : ∃ m, n' = m + 1 := ⟨n' - 1, by omega⟩
    exact ih h (by omega)

theorem Simulates.mono (h : Simulates P e n s r answer) {n' : Nat} (hn : n ≤ n') :
    Simulates P e n' s r answer :=
  let ⟨res, hrun, hres⟩ := h
  ⟨res, assemblerRun_mono hrun hn, hres⟩

theorem simulates_terminate {res} :
    Simulates P e n (.terminate res) r answer ↔ answer = (eofAsCorrupted res, r) := by
  simp only [Simulates, assemblerRun_terminate, Prod.mk.injEq, AssemblerState.terminate.injEq]
  constructor
  · rintro ⟨res, ⟨rfl, hr⟩, h⟩
    exact Prod.ext h hr.symm
  · rintro rfl
    exact ⟨res, ⟨rfl, rfl⟩, rfl⟩

/-- One transition, then the rest of the run. -/
theorem Simulates.step (hs : assemblerStep P e s r = (s', r₁))
    (h : Simulates P e n s' r₁ answer) : Simulates P e (n + 1) s r answer := by
  obtain ⟨res, hrun, hres⟩ := h
  exact ⟨res, by simp only [assemblerRun, hs, hrun], hres⟩

/-- A transition that is one read simulates the read followed by what simulates the rest. -/
theorem Simulates.read {α : Type} {m : Decoder α} {next : α → AssemblerState e}
    {k : α → Decoder (Bytes × List e.Var × List Bytes × BitVec 64)}
    (hs : assemblerStep P e s r = assemblerRead e m next r) (hm : FailsWithin (· ≠ .eof) m)
    (hk : ∀ a r₁, m r = (.ok a, r₁) → Simulates P e n (next a) r₁ (k a r₁)) :
    Simulates P e (n + 1) s r ((m >>= k) r) := by
  rcases h : m r with ⟨c | a, r₁⟩
  · refine Simulates.step (by rw [hs, assemblerRead, h]) (simulates_terminate.2 ?_)
    rw [bind_of_error h, eofAsCorrupted_of_ne (hm r c r₁ h)]
  · refine Simulates.step (by rw [hs, assemblerRead, h]) ?_
    rw [bind_of_ok h]
    exact hk a r₁ h

theorem assemblerStep_classify_of_some {tag : Byte} {b : Bool} {E : List e.Var} {D : List Bytes}
    (h : isVariableTag P e tag = some b) :
    assemblerStep P e (.classify tag E D) r =
      assemblerRead e (decodeVariable P e tag b E D) (fun (tag, E, D) => .classify tag E D) r := by
  rw [assemblerStep, if_neg (ne_eof_of_isVariableTag h), h]

theorem assemblerStep_classify_of_none {tag : Byte} {E : List e.Var} {D : List Bytes}
    (hne : tag ≠ P.eof) (h : isVariableTag P e tag = none) :
    assemblerStep P e (.classify tag E D) r =
      assemblerRead e (parseLogtype P tag) (.readTimestampTag · E D) r := by
  rw [assemblerStep, if_neg hne, h]

/-- The frame after its first classification: from `classify tag E D` the machine simulates the
rest of `decodeFrame`, the variable loop from `tag` on and then the logtype and timestamp. -/
theorem simulates_classify (tag : Byte) (E : List e.Var) (D : List Bytes) (r : Reader) :
    Simulates P e (r.rest.length + 3) (.classify tag E D) r
      ((do
        let (encodedTag, encodedVars, dictVars) ← decodeVariables P e tag E D
        let logtype ← parseLogtype P encodedTag
        let encodedTag ← readTag
        let timestamp ← parseTimestamp P e encodedTag
        pure (logtype, encodedVars, dictVars, timestamp)) r) := by
  induction tag, E, D, r using decodeVariables.induct P e with
  | case1 tag E D r hnone =>
    rw [bind_of_ok (decodeVariables_of_none hnone)]
    by_cases heof : tag = P.eof
    · subst heof
      refine Simulates.step (by rw [assemblerStep, if_pos rfl]) (simulates_terminate.2 ?_)
      have hl : parseLogtype P P.eof r = (.error .corruptedIR, r) :=
        parseLengthPrefixed_of_not_tag fun w => (P.eof_ne_logtypeStrLen w).symm
      exact bind_of_error hl
    · refine Simulates.read (assemblerStep_classify_of_none heof hnone)
        (failsWithin_parseLengthPrefixed nofun nofun _ _) fun logtype r₁ _ => ?_
      refine Simulates.read rfl (failsWithin_readTag nofun) fun t r₂ _ => ?_
      exact Simulates.read rfl (failsWithin_parseTimestamp nofun nofun e t) fun _ _ _ =>
        simulates_terminate.2 rfl
  | case2 tag E D r b hb t E₁ D₁ r₁ hstep ih =>
    rw [bind_apply_of_eq (decodeVariables_of_ok hb hstep)]
    refine Simulates.step (by rw [assemblerStep_classify_of_some hb, assemblerRead, hstep])
      (ih.mono ?_)
    have := decodeVariable_shrinks P e hstep
    omega
  | case3 tag E D r b hb c r₁ hstep =>
    have hv := decodeVariables_of_error hb hstep
    refine Simulates.step (by rw [assemblerStep_classify_of_some hb, assemblerRead, hstep])
      (simulates_terminate.2 ?_)
    rw [bind_of_error hv, eofAsCorrupted_of_ne
      (failsWithin_decodeVariables (S := (· ≠ .eof)) P e nofun _ _ _ _ _ _ hv)]

/-- The machine's variable loop is the code's: where `decodeVariables` goes on at `t`, the
machine reaches `classify t` with the same variables, at the same reader. -/
theorem assemblerRun_of_decodeVariables {tag t : Byte} {E E' : List e.Var} {D D' : List Bytes}
    {r' : Reader} (h : decodeVariables P e tag E D r = (.ok (t, E', D'), r')) :
    ∃ k, ∀ n, assemblerRun P e (k + n) (.classify tag E D) r =
      assemblerRun P e n (.classify t E' D') r' := by
  induction tag, E, D, r using decodeVariables.induct P e with
  | case1 tag E D r hnone =>
    rw [decodeVariables_of_none hnone] at h
    cases h
    exact ⟨0, fun n => by rw [Nat.zero_add]⟩
  | case2 tag E D r b hb t₁ E₁ D₁ r₁ hstep ih =>
    rw [decodeVariables_of_ok hb hstep] at h
    obtain ⟨k, hk⟩ := ih h
    refine ⟨k + 1, fun n => ?_⟩
    rw [Nat.add_right_comm, assemblerRun, assemblerStep_classify_of_some hb, assemblerRead, hstep]
    exact hk n
  | case3 tag E D r b hb c r₁ hstep =>
    rw [decodeVariables_of_error hb hstep] at h
    cases h

end Run

/-- `decodeFrame` refines the spec's message assembler. Started at the frame, the machine
terminates within `r.rest.length + 3` transitions, at the reader `decodeFrame` leaves and with
`decodeFrame`'s answer, except that an `Eof` it reaches after the frame's first tag is corrupted
IR to `decodeFrame`. -/
theorem decodeFrame_refines_assembler (r : Reader) :
    ∃ res r', assemblerRun P e (r.rest.length + 3) .start r = (.terminate res, r') ∧
      decodeFrame P e r = (if r.rest.head? = some P.eof then res else eofAsCorrupted res, r') := by
  rcases hr : r.rest with _ | ⟨t, y⟩
  · refine ⟨.error .incompleteIR, r, ?_, ?_⟩
    · simp only [assemblerRun, assemblerStep, assemblerRead, readTag_of_nil hr,
        assemblerRun_terminate]
    · rw [decodeFrame, bind_of_error (readTag_of_nil hr)]
      rfl
  · have h₀ := readTag_of_cons hr
    have hlen : (r.skip 1).rest.length + 3 + 1 = (t :: y).length + 3 := by simp [hr]
    by_cases ht : t = P.eof
    · subst ht
      refine ⟨.error .eof, r.skip 1, ?_, ?_⟩
      · rw [← hlen]
        simp only [assemblerRun, assemblerStep, assemblerRead, h₀, if_pos, assemblerRun_terminate]
      · rw [decodeFrame, bind_of_ok h₀, if_pos rfl]
        simp
    · obtain ⟨res, hrun, hres⟩ := hlen ▸
        Simulates.step (by rw [assemblerStep, assemblerRead, h₀])
          (simulates_classify (P := P) (e := e) t [] [] (r.skip 1))
      refine ⟨res, _, hrun, ?_⟩
      rw [decodeFrame, bind_of_ok h₀, if_neg ht, ← hres]
      simp [ht]

/-- Where the code leaves the spec's machine: on variable records followed by the `Eof` tag, the
machine terminates with `Eof` and `decodeFrame` answers corrupted IR. -/
theorem assembler_eof_after_variables {r : Reader} {vs : List (VarRecord e)} {y : Bytes}
    (hvs : vs ≠ []) (hr : r.rest = varsToBytes P vs ++ P.eof :: y) :
    (∃ n r', assemblerRun P e n .start r = (.terminate (.error .eof), r')) ∧
      (decodeFrame P e r).1 = .error .corruptedIR := by
  refine ⟨?_, decodeFrame_misplaced_tag hr (.inl hvs) VarRecord.tag_ne_eof
    fun w => (P.eof_ne_logtypeStrLen w).symm⟩
  obtain ⟨v, vs, rfl⟩ := List.exists_cons_of_ne_nil hvs
  have hr₀ : r.rest = v.tag P :: (v.payload ++ (varsToBytes P vs ++ P.eof :: y)) := by
    simp [hr, VarRecord.toBytes]
  have h₀ := readTag_of_cons hr₀
  have hvars : decodeVariables P e (v.tag P) [] [] (r.skip 1) = decodeVariables P e P.eof _ _ _ :=
    decodeVariables_append_varsToBytes (v :: vs) (y := y) (by simp [hr₀, VarRecord.toBytes])
  obtain ⟨k, hk⟩ := assemblerRun_of_decodeVariables
    (hvars.trans (decodeVariables_of_none (isVariableTag_eq_none_of VarRecord.tag_ne_eof)))
  refine ⟨1 + (k + 1), (r.skip 1).skip (varsToBytes P (v :: vs)).length, ?_⟩
  rw [Nat.add_comm, assemblerRun, assemblerStep, assemblerRead, h₀]
  dsimp only
  rw [hk 1, assemblerRun, assemblerStep, if_pos rfl, assemblerRun_terminate]

/-- On an encoded variable followed by the `Eof` tag. -/
theorem assembler_eof_after_variables_sample :
    let r := Reader.ofBytes
      (varsToBytes Protocol.sample [VarRecord.encoded (e := .fourByte) 5] ++ [Protocol.sample.eof])
    (∃ n r', assemblerRun Protocol.sample .fourByte n .start r = (.terminate (.error .eof), r')) ∧
      (decodeFrame Protocol.sample .fourByte r).1 = .error .corruptedIR :=
  assembler_eof_after_variables Protocol.sample .fourByte (List.cons_ne_nil _ _) rfl

end IrStream

import IrStream.Basic
/-!
# The message renderer

`decode_message` fills a logtype's placeholders with the message's variables. It walks the
logtype once, appending the static text since the last placeholder in one piece whenever
it meets a placeholder or an escape, and skips the byte after an escape so that it is kept
as static text. It throws `EncodingException` when a placeholder finds its list used up,
when the logtype ends in an escape, or when a variable decoder throws.
-/

namespace IrStream

/-- `VariablePlaceholder::Float`, `::Integer`, `::Dictionary` and
`cVariablePlaceholderEscapeCharacter`, declared outside the sources. They are the labels
of `decode_message`'s `switch`, so they are distinct. -/
structure Placeholders where
  float : Byte
  integer : Byte
  dictionary : Byte
  escapeCharacter : Byte
  nodup : [float, integer, dictionary, escapeCharacter].Nodup

theorem Placeholders.ne_escapeCharacter (ph : Placeholders) :
    ph.float ≠ ph.escapeCharacter ∧ ph.integer ≠ ph.escapeCharacter ∧
      ph.dictionary ≠ ph.escapeCharacter := by
  have := ph.nodup
  simp only [List.nodup_cons, List.mem_cons, List.mem_singleton, not_or, List.not_mem_nil,
    not_false_eq_true, List.nodup_nil, and_true] at this
  exact ⟨this.1.2.2, this.2.1.2, this.2.2⟩

theorem Placeholders.distinct (ph : Placeholders) :
    ph.integer ≠ ph.float ∧ ph.dictionary ≠ ph.float ∧ ph.dictionary ≠ ph.integer := by
  have := ph.nodup
  simp only [List.nodup_cons, List.mem_cons, List.mem_singleton, not_or, List.not_mem_nil,
    not_false_eq_true, List.nodup_nil, and_true] at this
  exact ⟨Ne.symm this.1.1, Ne.symm this.1.2.1, Ne.symm this.2.1.1⟩

/-- The `EncodingException`s `decode_message` throws (always with `ErrorCode_Corrupt`),
by their message, and the one a variable decoder throws on an encoding it cannot render. -/
inductive EncodingException
  | tooFewEncodedVars
  | tooFewDictionaryVars
  | unexpectedEscapeCharacter
  | undecodableVar
  deriving DecidableEq, Repr

/-- `decode_float_var` and `decode_integer_var` for one `encoded_variable_t`, declared
outside the sources. They may throw for encodings no encoder produces. -/
structure VarDecoders (w : Nat) where
  decodeFloatVar : BitVec w → Except EncodingException Bytes
  decodeIntegerVar : BitVec w → Except EncodingException Bytes

/-- The placeholders of the spec's scenarios. -/
def Placeholders.sample : Placeholders where
  float := 0x11
  integer := 0x12
  dictionary := 0x13
  escapeCharacter := 0x5C
  nodup := by decide

/-- Variable decoders that render an encoded variable as its low byte, to run the model on
concrete messages. -/
def VarDecoders.sample (w : Nat) : VarDecoders w where
  decodeFloatVar v := .ok [v.setWidth 8]
  decodeIntegerVar v := .ok [v.setWidth 8]

/-- Variable decoders for an encoder that packs a float literal `a.b` of two digits as the
token `10 * a + b`: the float decoder renders the tokens below 100 and throws on the others,
which that encoder never produces (spec 4.7). -/
def VarDecoders.digits (w : Nat) : VarDecoders w where
  decodeFloatVar v :=
    if v.toNat < 100 then .ok [0x30 + .ofNat 8 (v.toNat / 10), 0x2E, 0x30 + .ofNat 8 (v.toNat % 10)]
    else .error .undecodableVar
  decodeIntegerVar v := .ok [v.setWidth 8]

section

variable (ph : Placeholders) {w : Nat} (d : VarDecoders w) (logtype : Bytes)
  (encodedVars : List (BitVec w)) (dictionaryVars : List Bytes)

/-- The `for` loop of `decode_message` from `cur_pos` on, where `rest` is the logtype from
`cur_pos` on. It returns `next_static_text_begin_pos` and the message at the loop's end. -/
def decodeMessageLoop : (rest : Bytes) → (curPos nextStaticTextBeginPos dictionaryVarsIx
    encodedVarsIx : Nat) → (message : Bytes) → Except EncodingException (Nat × Bytes)
  | [], _, nextStaticTextBeginPos, _, _, message => .ok (nextStaticTextBeginPos, message)
  | c :: rest, curPos, next, dictionaryVarsIx, encodedVarsIx, message =>
    let staticText := (logtype.drop next).take (curPos - next)
    if c = ph.float then
      match encodedVars[encodedVarsIx]? with
      | none => .error .tooFewEncodedVars
      | some v => do
        let text ← d.decodeFloatVar v
        decodeMessageLoop rest (curPos + 1) (curPos + 1) dictionaryVarsIx (encodedVarsIx + 1)
          (message ++ staticText ++ text)
    else if c = ph.integer then
      match encodedVars[encodedVarsIx]? with
      | none => .error .tooFewEncodedVars
      | some v => do
        let text ← d.decodeIntegerVar v
        decodeMessageLoop rest (curPos + 1) (curPos + 1) dictionaryVarsIx (encodedVarsIx + 1)
          (message ++ staticText ++ text)
    else if c = ph.dictionary then
      match dictionaryVars[dictionaryVarsIx]? with
      | none => .error .tooFewDictionaryVars
      | some s =>
        decodeMessageLoop rest (curPos + 1) (curPos + 1) (dictionaryVarsIx + 1) encodedVarsIx
          (message ++ staticText ++ s)
    else if c = ph.escapeCharacter then
      -- The escape must be followed by the character it escapes, which is then static text.
      match rest with
      | [] => .error .unexpectedEscapeCharacter
      | _ :: rest =>
        decodeMessageLoop rest (curPos + 2) (curPos + 1) dictionaryVarsIx encodedVarsIx
          (message ++ staticText)
    else
      decodeMessageLoop rest (curPos + 1) next dictionaryVarsIx encodedVarsIx message

/-! ### One step of the loop

The equations Lean generates for `decodeMessageLoop` split on whether a byte follows, which
only the escape branch reads; these give each branch for any rest of the logtype. -/

section Steps

variable {rest : Bytes} {curPos next dictionaryVarsIx encodedVarsIx : Nat} {message : Bytes}

theorem decodeMessageLoop_float :
    decodeMessageLoop ph d logtype encodedVars dictionaryVars (ph.float :: rest) curPos next
        dictionaryVarsIx encodedVarsIx message =
      match encodedVars[encodedVarsIx]? with
      | none => .error .tooFewEncodedVars
      | some v => (d.decodeFloatVar v).bind fun text =>
        decodeMessageLoop ph d logtype encodedVars dictionaryVars rest (curPos + 1) (curPos + 1)
          dictionaryVarsIx (encodedVarsIx + 1)
          (message ++ (logtype.drop next).take (curPos - next) ++ text) := by
  cases rest <;> simp only [decodeMessageLoop, if_true] <;> rfl

theorem decodeMessageLoop_integer (h : ph.integer ≠ ph.float) :
    decodeMessageLoop ph d logtype encodedVars dictionaryVars (ph.integer :: rest) curPos next
        dictionaryVarsIx encodedVarsIx message =
      match encodedVars[encodedVarsIx]? with
      | none => .error .tooFewEncodedVars
      | some v => (d.decodeIntegerVar v).bind fun text =>
        decodeMessageLoop ph d logtype encodedVars dictionaryVars rest (curPos + 1) (curPos + 1)
          dictionaryVarsIx (encodedVarsIx + 1)
          (message ++ (logtype.drop next).take (curPos - next) ++ text) := by
  cases rest <;> simp only [decodeMessageLoop, if_neg h, if_true] <;> rfl

theorem decodeMessageLoop_dictionary (h₁ : ph.dictionary ≠ ph.float)
    (h₂ : ph.dictionary ≠ ph.integer) :
    decodeMessageLoop ph d logtype encodedVars dictionaryVars (ph.dictionary :: rest) curPos next
        dictionaryVarsIx encodedVarsIx message =
      match dictionaryVars[dictionaryVarsIx]? with
      | none => .error .tooFewDictionaryVars
      | some s =>
        decodeMessageLoop ph d logtype encodedVars dictionaryVars rest (curPos + 1) (curPos + 1)
          (dictionaryVarsIx + 1) encodedVarsIx
          (message ++ (logtype.drop next).take (curPos - next) ++ s) := by
  cases rest <;> simp only [decodeMessageLoop, if_neg h₁, if_neg h₂, if_true]

theorem decodeMessageLoop_escape_nil :
    decodeMessageLoop ph d logtype encodedVars dictionaryVars [ph.escapeCharacter] curPos next
      dictionaryVarsIx encodedVarsIx message = .error .unexpectedEscapeCharacter := by
  obtain ⟨h₁, h₂, h₃⟩ := ph.ne_escapeCharacter
  simp [decodeMessageLoop, Ne.symm h₁, Ne.symm h₂, Ne.symm h₃]

theorem decodeMessageLoop_escape_cons {c : Byte} :
    decodeMessageLoop ph d logtype encodedVars dictionaryVars (ph.escapeCharacter :: c :: rest)
        curPos next dictionaryVarsIx encodedVarsIx message =
      decodeMessageLoop ph d logtype encodedVars dictionaryVars rest (curPos + 2) (curPos + 1)
        dictionaryVarsIx encodedVarsIx (message ++ (logtype.drop next).take (curPos - next)) := by
  obtain ⟨h₁, h₂, h₃⟩ := ph.ne_escapeCharacter
  simp [decodeMessageLoop, Ne.symm h₁, Ne.symm h₂, Ne.symm h₃]

theorem decodeMessageLoop_static {c : Byte} (h₁ : c ≠ ph.float) (h₂ : c ≠ ph.integer)
    (h₃ : c ≠ ph.dictionary) (h₄ : c ≠ ph.escapeCharacter) :
    decodeMessageLoop ph d logtype encodedVars dictionaryVars (c :: rest) curPos next
        dictionaryVarsIx encodedVarsIx message =
      decodeMessageLoop ph d logtype encodedVars dictionaryVars rest (curPos + 1) next
        dictionaryVarsIx encodedVarsIx message := by
  cases rest <;> simp [decodeMessageLoop, h₁, h₂, h₃, h₄]

end Steps

/-- `decode_message`. -/
def decodeMessage : Except EncodingException Bytes := do
  let (next, message) ← decodeMessageLoop ph d logtype encodedVars dictionaryVars logtype 0 0 0 0 []
  -- Add remainder
  pure (if next < logtype.length then message ++ logtype.drop next else message)

end

end IrStream

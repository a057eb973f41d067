import IrStream.DecodeMessage
/-!
# The renderer against the spec's token reading

The spec reads a logtype left to right as tokens: an escape with the byte it escapes, an
escape that ends the logtype, a float, integer or dictionary placeholder, or any other
byte. Each token has its text: the escaped byte, the next encoded variable through its
decoder, the next dictionary variable, or the byte itself (`renderTokens`). Rendering fails
on a dangling escape, on more placeholders of a kind than variables of it, or when a
variable decoder throws on the variable its placeholder takes (`RenderFails`).

`decodeMessage_eq_renderTokens` shows that `decode_message`, with its cursor, its pending
static text and its skip past an escaped byte, computes exactly that. The loop lemma
`decodeMessageLoop_tokens` carries the message so far and the pending static text in
front of the rendering of the rest of the logtype.
-/

namespace IrStream

/-- A token of a logtype, as the spec splits it. -/
inductive LogtypeToken
  | escaped (c : Byte)
  | danglingEscape
  | float
  | integer
  | dictionary
  | byte (c : Byte)
  deriving DecidableEq, Repr

namespace LogtypeToken

/-- Whether the token is a float or an integer placeholder, which take the next encoded
variable. -/
def isEncoded : LogtypeToken → Bool
  | float | integer => true
  | _ => false

/-- Whether the token is a dictionary placeholder. -/
def isDictionary : LogtypeToken → Bool
  | dictionary => true
  | _ => false

/-- The text an encoded placeholder gives the variable `v`. -/
def format {w : Nat} (d : VarDecoders w) : LogtypeToken → BitVec w → Except EncodingException Bytes
  | float, v => d.decodeFloatVar v
  | integer, v => d.decodeIntegerVar v
  | _, _ => .ok []

end LogtypeToken

open LogtypeToken

section

variable (ph : Placeholders) {w : Nat} (d : VarDecoders w)

/-- The logtype's tokens, left to right. -/
def tokenize : Bytes → List LogtypeToken
  | [] => []
  | c :: rest =>
    if c = ph.escapeCharacter then
      match rest with
      | [] => [danglingEscape]
      | c' :: rest => escaped c' :: tokenize rest
    else if c = ph.float then float :: tokenize rest
    else if c = ph.integer then integer :: tokenize rest
    else if c = ph.dictionary then dictionary :: tokenize rest
    else byte c :: tokenize rest

/-- The text of the encoded placeholder `t` for the first of the encoded variables left,
if there is one and its decoder renders it. -/
def encodedText (t : LogtypeToken) : List (BitVec w) → Bytes
  | v :: _ => ((t.format d v).toOption).getD []
  | [] => []

/-- The tokens' texts, each placeholder taking the first variable of its kind left. -/
def renderTokens : List LogtypeToken → List (BitVec w) → List Bytes → Bytes
  | [], _, _ => []
  | escaped c :: ts, E, D => c :: renderTokens ts E D
  | danglingEscape :: ts, E, D => renderTokens ts E D
  | float :: ts, E, D => encodedText d float E ++ renderTokens ts E.tail D
  | integer :: ts, E, D => encodedText d integer E ++ renderTokens ts E.tail D
  | dictionary :: ts, E, D => D.headD [] ++ renderTokens ts E D.tail
  | byte c :: ts, E, D => c :: renderTokens ts E D

/-- Rendering the tokens with the encoded variables `E` and the dictionary variables `D`
fails: a dangling escape, more float and integer placeholders than encoded variables, more
dictionary placeholders than dictionary variables, or a decoder that throws on the variable
its placeholder takes. -/
def RenderFails (ts : List LogtypeToken) (E : List (BitVec w)) (D : List Bytes) : Prop :=
  danglingEscape ∈ ts ∨ E.length < (ts.filter isEncoded).length ∨
    D.length < (ts.filter isDictionary).length ∨
    ∃ p ∈ (ts.filter isEncoded).zip E, (p.1.format d p.2).toOption = none

instance (ts : List LogtypeToken) (E : List (BitVec w)) (D : List Bytes) :
    Decidable (RenderFails d ts E D) :=
  inferInstanceAs (Decidable (_ ∨ _ ∨ _ ∨ _))

end

/-! ## One token at a time -/

section Steps

variable {ph : Placeholders} {w : Nat} {d : VarDecoders w} {ts : List LogtypeToken}
  {E : List (BitVec w)} {D : List Bytes} {c : Byte} {rest : Bytes}

theorem tokenize_nil : tokenize ph [] = [] := rfl

theorem renderTokens_nil : renderTokens d [] E D = [] := rfl

theorem tokenize_escape_nil : tokenize ph [ph.escapeCharacter] = [danglingEscape] := by
  simp [tokenize]

theorem tokenize_escape_cons :
    tokenize ph (ph.escapeCharacter :: c :: rest) = escaped c :: tokenize ph rest := by
  simp [tokenize]

theorem tokenize_float : tokenize ph (ph.float :: rest) = float :: tokenize ph rest := by
  rw [tokenize.eq_def]
  simp [ph.ne_escapeCharacter.1]

theorem tokenize_integer (h : ph.integer ≠ ph.float) :
    tokenize ph (ph.integer :: rest) = integer :: tokenize ph rest := by
  rw [tokenize.eq_def]
  simp [ph.ne_escapeCharacter.2.1, h]

theorem tokenize_dictionary (h₁ : ph.dictionary ≠ ph.float) (h₂ : ph.dictionary ≠ ph.integer) :
    tokenize ph (ph.dictionary :: rest) = dictionary :: tokenize ph rest := by
  rw [tokenize.eq_def]
  simp [ph.ne_escapeCharacter.2.2, h₁, h₂]

theorem tokenize_byte (h₁ : c ≠ ph.float) (h₂ : c ≠ ph.integer) (h₃ : c ≠ ph.dictionary)
    (h₄ : c ≠ ph.escapeCharacter) : tokenize ph (c :: rest) = byte c :: tokenize ph rest := by
  rw [tokenize.eq_def]
  simp [h₁, h₂, h₃, h₄]

theorem not_renderFails_nil : ¬ RenderFails d [] E D := by
  simp [RenderFails]

theorem renderFails_danglingEscape : RenderFails d (danglingEscape :: ts) E D :=
  .inl (List.mem_cons_self _ _)

/-- A token that takes no variable leaves the question to the tokens after it. -/
theorem renderFails_cons_of_static {t : LogtypeToken} (ht : t ≠ danglingEscape)
    (he : t.isEncoded = false) (hd : t.isDictionary = false) :
    RenderFails d (t :: ts) E D ↔ RenderFails d ts E D := by
  simp [RenderFails, List.filter_cons, he, hd, Ne.symm ht]

theorem renderFails_encoded_nil {t : LogtypeToken} (ht : t.isEncoded) :
    RenderFails d (t :: ts) [] D :=
  .inr (.inl (by simp [List.filter_cons, ht]))

theorem renderFails_encoded_cons {t : LogtypeToken} {v : BitVec w} (ht : t.isEncoded) :
    RenderFails d (t :: ts) (v :: E) D ↔
      (t.format d v).toOption = none ∨ RenderFails d ts E D := by
  have hd : t ≠ danglingEscape := by rintro rfl; cases ht
  have hdict : t.isDictionary = false := by cases t <;> simp_all [isDictionary, isEncoded]
  simp only [RenderFails, List.filter_cons, ht, hdict, if_true, Bool.false_eq_true, if_false,
    List.length_cons, List.mem_cons, hd.symm, false_or, Nat.add_lt_add_iff_right,
    List.zip_cons_cons, or_and_right, exists_or, exists_eq_left,
    or_left_comm (b := (t.format d v).toOption = none)]

theorem renderFails_dictionary_nil : RenderFails d (dictionary :: ts) E [] :=
  .inr (.inr (.inl (by simp [List.filter_cons, isDictionary])))

theorem renderFails_dictionary_cons {s : Bytes} :
    RenderFails d (dictionary :: ts) E (s :: D) ↔ RenderFails d ts E D := by
  simp [RenderFails, List.filter_cons, isDictionary, isEncoded]

end Steps

/-! ## The loop against the tokens -/

section Loop

variable (ph : Placeholders) {w : Nat} (d : VarDecoders w) (L : Bytes) (E : List (BitVec w))
  (D : List Bytes)

theorem drop_add_of_drop_eq {α : Type} {l a rest : List α} {n : Nat} (h : l.drop n = a ++ rest) :
    l.drop (n + a.length) = rest := by
  rw [← List.drop_drop, h, List.drop_left]

theorem drop_eq_cons_of_getElem? {α : Type} {l : List α} {n : Nat} {a : α} (h : l[n]? = some a) :
    l.drop n = a :: l.drop (n + 1) := by
  obtain ⟨hn, rfl⟩ := List.getElem?_eq_some_iff.1 h
  exact List.drop_eq_getElem_cons hn

/-- `decode_message`'s loop from `cur_pos` on, with the remainder added to its message:
the message so far, then the static text pending since `next_static_text_begin_pos`, then
the rendering of the tokens of the rest of the logtype; or nothing when those fail. -/
theorem decodeMessageLoop_tokens (rest : Bytes) (cur next di ei : Nat) (msg : Bytes)
    (hrest : L.drop cur = rest) (hnext : next ≤ cur) :
    (decodeMessageLoop ph d L E D rest cur next di ei msg).toOption.map
        (fun r => r.2 ++ L.drop r.1) =
      if RenderFails d (tokenize ph rest) (E.drop ei) (D.drop di) then none
      else some (msg ++ (L.drop next).take (cur - next) ++
        renderTokens d (tokenize ph rest) (E.drop ei) (D.drop di)) := by
  induction rest, cur, next, di, ei, msg using decodeMessageLoop.induct ph d L E D with
  | case1 cur next di ei msg =>
    have hlen : (L.drop next).length ≤ cur - next := by
      have := List.length_eq_zero.2 hrest
      simp only [List.length_drop] at this ⊢
      omega
    simp [decodeMessageLoop, tokenize, not_renderFails_nil, renderTokens, Except.toOption,
      List.take_of_length_le hlen]
  | case2 rest cur next di ei msg hv =>
    simp [decodeMessageLoop_float, hv, tokenize_float, Except.toOption,
      List.drop_eq_nil_of_le (List.getElem?_eq_none_iff.1 hv), renderFails_encoded_nil (t := float) rfl]
  | case3 rest cur next di ei msg static v hv ih =>
    have hrest' : L.drop (cur + 1) = rest := by rw [← List.tail_drop, hrest]; rfl
    rw [decodeMessageLoop_float, hv, tokenize_float, drop_eq_cons_of_getElem? hv]
    cases hf : d.decodeFloatVar v with
    | error ex =>
      simp [hf, Except.toOption, LogtypeToken.format, Except.bind,
        renderFails_encoded_cons (t := float) rfl]
    | ok text =>
      simp only [static] at ih
      simp only [hf, Except.bind]
      rw [ih text hrest' le_rfl]
      simp [renderTokens, encodedText, LogtypeToken.format, hf, Except.toOption,
        renderFails_encoded_cons (t := float) rfl]
  | case4 rest cur next di ei msg hv hne =>
    simp [decodeMessageLoop_integer ph d L E D hne, hv, tokenize_integer hne, Except.toOption,
      List.drop_eq_nil_of_le (List.getElem?_eq_none_iff.1 hv),
      renderFails_encoded_nil (t := integer) rfl]
  | case5 rest cur next di ei msg static v hv hne ih =>
    rw [decodeMessageLoop_integer ph d L E D hne, hv, tokenize_integer hne, drop_eq_cons_of_getElem? hv]
    cases hf : d.decodeIntegerVar v with
    | error ex =>
      simp [hf, Except.toOption, LogtypeToken.format, Except.bind,
        renderFails_encoded_cons (t := integer) rfl]
    | ok text =>
      simp only [static] at ih
      simp only [hf, Except.bind]
      rw [ih text (drop_add_of_drop_eq (a := [_]) hrest) le_rfl]
      simp [renderTokens, encodedText, LogtypeToken.format, hf, Except.toOption,
        renderFails_encoded_cons (t := integer) rfl]
  | case6 rest cur next di ei msg hv h₁ h₂ =>
    simp [decodeMessageLoop_dictionary ph d L E D h₁ h₂, hv, tokenize_dictionary h₁ h₂, Except.toOption,
      List.drop_eq_nil_of_le (List.getElem?_eq_none_iff.1 hv), renderFails_dictionary_nil]
  | case7 rest cur next di ei msg static s hs h₁ h₂ ih =>
    simp only [static] at ih
    rw [decodeMessageLoop_dictionary ph d L E D h₁ h₂, hs,
      ih (drop_add_of_drop_eq (a := [_]) hrest) le_rfl,
      tokenize_dictionary h₁ h₂, drop_eq_cons_of_getElem? hs]
    simp [renderTokens, renderFails_dictionary_cons]
  | case8 cur next di ei msg =>
    simp [decodeMessageLoop_escape_nil, tokenize_escape_nil, Except.toOption,
      renderFails_danglingEscape]
  | case9 cur next di ei msg static c rest h₁ h₂ h₃ ih =>
    simp only [static] at ih
    have hnext : L.drop (cur + 1) = c :: rest := drop_add_of_drop_eq (a := [_]) hrest
    rw [decodeMessageLoop_escape_cons, ih (drop_add_of_drop_eq (a := [_, _]) hrest) (by omega),
      tokenize_escape_cons, show cur + 2 - (cur + 1) = 1 by omega, hnext]
    simp [renderTokens, renderFails_cons_of_static (t := escaped c) (by simp) rfl rfl]
  | case10 c rest cur next di ei msg h₁ h₂ h₃ h₄ ih =>
    have hpending : (L.drop next).take (cur + 1 - next) = (L.drop next).take (cur - next) ++ [c] := by
      rw [show cur + 1 - next = cur - next + 1 by omega, List.take_succ, List.getElem?_drop,
        show next + (cur - next) = cur by omega, ← List.head?_drop, hrest]
      rfl
    rw [decodeMessageLoop_static ph d L E D h₁ h₂ h₃ h₄, ih (drop_add_of_drop_eq (a := [_]) hrest)
      (by omega), tokenize_byte h₁ h₂ h₃ h₄, hpending]
    simp [renderTokens, renderFails_cons_of_static (t := byte c) (by simp) rfl rfl]
/-- `decode_message` is its loop from the start of the logtype, with the logtype from the
last pending static text on added. -/
theorem decodeMessage_toOption :
    (decodeMessage ph d L E D).toOption =
      (decodeMessageLoop ph d L E D L 0 0 0 0 []).toOption.map (fun r => r.2 ++ L.drop r.1) := by
  rw [decodeMessage]
  rcases decodeMessageLoop ph d L E D L 0 0 0 0 [] with _ | ⟨next, msg⟩
  · rfl
  · have hfinish : (if next < L.length then msg ++ L.drop next else msg) = msg ++ L.drop next := by
      split
      · rfl
      · rw [List.drop_eq_nil_of_le (by omega), List.append_nil]
    exact congrArg some hfinish

theorem decodeMessageLoop_tokens_start :
    (decodeMessageLoop ph d L E D L 0 0 0 0 []).toOption.map (fun r => r.2 ++ L.drop r.1) =
      if RenderFails d (tokenize ph L) E D then none
      else some (renderTokens d (tokenize ph L) E D) := by
  have h := decodeMessageLoop_tokens ph d L E D L 0 0 0 0 [] rfl le_rfl
  simpa only [List.drop_zero, Nat.sub_self, List.take_zero, List.nil_append] using h

/-- When rendering the logtype's tokens does not fail, `decode_message` returns their
texts. -/
theorem decodeMessage_of_not_renderFails (h : ¬ RenderFails d (tokenize ph L) E D) :
    decodeMessage ph d L E D = .ok (renderTokens d (tokenize ph L) E D) := by
  have h' := (decodeMessage_toOption ph d L E D).trans (decodeMessageLoop_tokens_start ph d L E D)
  rw [if_neg h] at h'
  cases hm : decodeMessage ph d L E D <;> simp only [hm, Except.toOption] at h'
  · cases h'
  · rw [Option.some_inj.1 h']

/-! ## The renderer -/

/-- `decode_message` throws exactly when rendering the logtype's tokens fails: a dangling
escape, more float and integer placeholders than encoded variables, more dictionary
placeholders than dictionary variables, or a variable decoder that throws on the variable
its placeholder takes. Otherwise it returns the tokens' texts in order; variables left over
are ignored. -/
theorem decodeMessage_eq_renderTokens (L : Bytes) (E : List (BitVec w)) (D : List Bytes) :
    (decodeMessage ph d L E D).toOption =
      if RenderFails d (tokenize ph L) E D then none
      else some (renderTokens d (tokenize ph L) E D) := by
  rw [decodeMessage_toOption, decodeMessageLoop_tokens_start]

/-- Rendering fails for more than the placeholder counts and a dangling escape: a variable
decoder may throw on its variable. The logtype is one float placeholder and the token `100`
is one that the encoder of `VarDecoders.digits` never produces; that decoder renders the
token `42` of the literal `4.2`. -/
theorem decodeMessage_throws_in_decoder :
    decodeMessage Placeholders.sample (VarDecoders.digits 32) [0x11] [(42 : BitVec 32)] [] =
        .ok [0x34, 0x2E, 0x32] ∧
      (∃ ex, decodeMessage Placeholders.sample (VarDecoders.digits 32) [0x11]
        [(100 : BitVec 32)] [] = .error ex) ∧
      ¬ (danglingEscape ∈ tokenize Placeholders.sample [0x11] ∨
        [(100 : BitVec 32)].length < ((tokenize Placeholders.sample [0x11]).filter isEncoded).length ∨
        ([] : List Bytes).length <
          ((tokenize Placeholders.sample [0x11]).filter isDictionary).length) :=
  ⟨rfl, ⟨_, rfl⟩, by decide⟩

end Loop

end IrStream

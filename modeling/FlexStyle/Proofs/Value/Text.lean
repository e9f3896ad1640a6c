import FlexStyle.Proofs.Token
import FlexStyle.Proofs.Value.Grammar

/-!
# Values read back from their texts

- `Value.bare_text`: a value is written without blanks and without the marks of declarations.
- `Value.spells_text`, `Value.ofText?_text`: its text spells that value, and is read as it under the
  kind of the value.
- `Kind.apart`, `Value.ofText?_of_apart`: kinds under which the text is not read at all.
-/

namespace FlexStyle

/-! ## Colors -/

theorem Name.isBare_of_isHexDigit {c : Char} (h : isHexDigit c = true) :
    Text.isBare c = true := by
  rcases isDigit_or_of_isHexDigit h with hdigit | halpha
  · simp [Text.isBare, Char.isAlphanum, hdigit]
  · simp [Text.isBare, Char.isAlphanum, halpha]

namespace Color

/-- The digits of a color, without the hash. -/
def digits (color : Color) : List Char :=
  channelText color.red ++ channelText color.green ++ channelText color.blue ++
    if color.alpha = 255 then [] else channelText color.alpha

theorem toList_text (color : Color) : color.text.toList = '#' :: color.digits := by
  rw [text, digits, String.toList_ofList, List.cons_append, List.cons_append, List.cons_append]

theorem digits_ne_nil (color : Color) : color.digits ≠ [] := by simp [digits, channelText]

/-- Channels are written in hexadecimal digits. -/
theorem isHexDigit_channelText (channel : UInt8) :
    ∀ c ∈ channelText channel, Name.isHexDigit c = true := by
  have hdigit : ∀ n < 16, Name.isHexDigit (Nat.digitChar n) = true := by decide
  have hlt : channel.toNat < 256 := channel.toNat_lt
  intro c hc
  simp only [channelText, List.mem_cons, List.not_mem_nil, or_false] at hc
  rcases hc with rfl | rfl
  · exact hdigit _ (by omega)
  · exact hdigit _ (by omega)

theorem isHexDigit_digits (color : Color) : ∀ c ∈ color.digits, Name.isHexDigit c = true := by
  intro c hc
  simp only [digits, List.mem_append] at hc
  rcases hc with ((hc | hc) | hc) | hc
  · exact isHexDigit_channelText _ c hc
  · exact isHexDigit_channelText _ c hc
  · exact isHexDigit_channelText _ c hc
  · split at hc
    · cases hc
    · exact isHexDigit_channelText _ c hc

theorem bare_text (color : Color) : Text.Bare color.text.toList := by
  have hhash : Text.Bare ['#'] := by decide
  rw [toList_text]
  exact hhash.append fun c hc => Name.isBare_of_isHexDigit (color.isHexDigit_digits c hc)

/-- The two digits of a channel are read back as the channel. -/
theorem channel_channelText (c : UInt8) :
    channel (Nat.digitChar (c.toNat / 16)) (Nat.digitChar (c.toNat % 16)) = c := by
  have hdigit : ∀ n < 16, Name.hexDigit (Nat.digitChar n) = n := by decide
  have hlt : c.toNat < 256 := c.toNat_lt
  rw [channel, Name.hexNumber, List.foldl_cons, List.foldl_cons, List.foldl_nil,
    hdigit _ (by omega), hdigit _ (by omega), Nat.mul_zero, Nat.zero_add, Nat.div_add_mod,
    UInt8.ofNat_toNat]

/-- The digits of a color are read back as the color. -/
theorem ofDigits?_digits (color : Color) : ofDigits? color.digits = some color := by
  obtain ⟨r, g, b, a⟩ := color
  unfold digits
  split
  · -- the opacity that is left out is full
    obtain rfl : a = 255 := ‹_›
    simp only [channelText, List.cons_append, List.nil_append, List.append_nil, ofDigits?,
      channel_channelText]
  · simp only [channelText, List.cons_append, List.nil_append, ofDigits?, channel_channelText]

/-- A color is read from its own digits. -/
theorem ofHex?_digits (color : Color) :
    ofHex? ("#" ++ String.ofList color.digits) = some color := by
  have htext : ("#" ++ String.ofList color.digits).toList = '#' :: color.digits := by
    simp [String.toList_append]
  have htrim : Text.trim Text.isBlank ('#' :: color.digits) = '#' :: color.digits := by
    rw [← color.toList_text]
    exact Text.trim_of_forall fun c hc => Text.isBlank_of_isBare (color.bare_text c hc)
  simp only [ofHex?, htext, htrim]
  rw [if_pos (List.all_eq_true.mpr color.isHexDigit_digits)]
  exact color.ofDigits?_digits

end Color

/-! ## The characters of a value -/

theorem Name.bare_of_isWord {name : List Char} (h : isWord name = true) : Text.Bare name := by
  intro c hc
  rcases isAlpha_or_of_isWord h c hc with hc | rfl
  · simp [Text.isBare, Char.isAlphanum, hc]
  · decide

theorem Numeral.Plain.bare_magnitude (p : Plain) : Text.Bare p.magnitude := by
  refine (Text.bare_of_digits p.whole_digits).append ?_
  split
  · decide
  · have hpoint : Text.Bare ['.'] := by decide
    exact hpoint.append (Text.bare_of_digits p.fraction_digits)

/-- Numbers are written in bare characters. -/
theorem Binary.bare_text {f : Format} (x : Binary f) : Text.Bare x.text.toList := by
  obtain ⟨p, -, hmagnitude, -⟩ := (Decimal.shortest f x.code).exists_plain x.negative
  have hdigits := hmagnitude ▸ p.bare_magnitude
  unfold text
  split
  · decide
  · rw [String.toList_append]
    refine Text.Bare.append ?_ ?_
    · split <;> decide
    · split
      · decide
      · rwa [String.toList_ofList]

theorem Decimal.bare_integerText (n : Int) : Text.Bare (integerText n) := by
  have hdigits : Text.Bare (Nat.toDigits 10 n.natAbs) :=
    Text.bare_of_digits fun c hc => Nat.isDigit_of_mem_toDigits (by decide) (by decide) hc
  have hsign : Text.Bare ['-'] := by decide
  unfold integerText
  dsimp only
  split
  · exact hsign.append hdigits
  · exact hdigits

/-- The names of keywords are words. -/
theorem Keyword.isWord_name {e : Enumeration} (k : Keyword e) :
    Name.isWord k.name.toList = true := by
  have hall : ∀ name ∈ e.names, Name.isWord name.toList = true := by
    cases e <;> decide
  exact hall _ (List.getElem_mem _)

/-- The suffixes of units are words. -/
theorem LengthUnit.isWord_suffix (unit : LengthUnit) : Name.isWord unit.suffix.toList = true := by
  cases unit <;> decide

/-- A value is written in bare characters. -/
theorem Value.bare_text (v : Value) : Text.Bare v.text.toList := by
  cases v with
  | none => decide
  | auto => decide
  | integer n =>
    rw [text, String.toList_ofList]
    exact Decimal.bare_integerText _
  | keyword k => exact Name.bare_of_isWord k.isWord_name
  | ratio x => exact x.bare_text
  | percentage x =>
    rw [text, String.toList_append]
    exact x.bare_text.append (by decide)
  | number x => exact x.bare_text
  | length x unit =>
    rw [text, String.toList_append]
    exact x.bare_text.append (Name.bare_of_isWord unit.isWord_suffix)
  | color color => exact color.bare_text

theorem Binary.text_ne_nil {f : Format} (x : Binary f) : x.text.toList ≠ [] := by
  obtain ⟨p, -, hmagnitude, -⟩ := (Decimal.shortest f x.code).exists_plain x.negative
  obtain ⟨c, rest, hp, -⟩ := p.exists_magnitude
  unfold text
  split
  · decide
  · cases x.isInfinite <;> simp [← hmagnitude, hp]

/-- No value is written as nothing. -/
theorem Value.text_ne_nil (v : Value) : v.text.toList ≠ [] := by
  cases v with
  | none => decide
  | auto => decide
  | integer n =>
    rw [text, String.toList_ofList, Decimal.integerText]
    split <;> simp [Nat.toDigits_ne_nil]
  | keyword k =>
    intro hnil
    have hword := k.isWord_name
    rw [show k.name.toList = [] from hnil] at hword
    cases hword
  | ratio x => exact x.text_ne_nil
  | percentage x => simp [text, String.toList_append]
  | number x => exact x.text_ne_nil
  | length x unit => simp [text, String.toList_append, x.text_ne_nil]
  | color color => simp [text, Color.text]

/-! ## Numbers -/

theorem Token.list_nil : list [] = [] := list_of_next_none (by decide +kernel)

/-- A length is one token, in whatever unit it is given. -/
theorem Token.next_length (p : Numeral.Plain) (unit : LengthUnit) :
    next (p.text ++ unit.suffix.toList) =
      some (.dimension (Number.tokenized p) unit.suffix, []) := by
  have hunit : Number.Ends unit.suffix.toList ∧ Name.starts unit.suffix.toList = true := by
    cases unit <;> decide
  have hnext := next_dimension p hunit.1 hunit.2 (Name.read_word unit.isWord_suffix)
  rwa [String.ofList_toList] at hnext

namespace Number

/-- A plain numeral is one number token. -/
theorem list_text (p : Numeral.Plain) :
    Token.list p.text = [.number (tokenized p) (ofPlain p).integer?] := by
  rw [Token.list_of_next (Token.next_number p), Token.list_nil]

/-- Whether the tokenizer reads the digits of a number as that number. -/
def ReadsBack (x : Single) : Prop := ∃ i, Token.list x.text.toList = [.number x i]

theorem readsBack_iff {x : Single} {p : Numeral.Plain} (htext : x.text.toList = p.text) :
    ReadsBack x ↔ tokenized p = x := by
  rw [ReadsBack, htext, list_text]
  constructor
  · rintro ⟨i, hlist⟩
    exact (Token.number.inj (List.cons.inj hlist).1).1
  · rintro rfl
    exact ⟨_, rfl⟩

/-- The tokenizer's number is that of the digits, if the digits are read back. -/
theorem exists_plain_of_readsBack {x : Single} (hfinite : x.isFinite = true) (h : ReadsBack x) :
    ∃ p : Numeral.Plain, x.text.toList = p.text ∧ tokenized p = x := by
  obtain ⟨p, htext, -⟩ := Binary.exists_plain hfinite
  exact ⟨p, htext, (readsBack_iff htext).mp h⟩

end Number

/-- The number of a percentage is read from what is written before the sign. -/
theorem Reader.percentageOf_text {x : Single} (h : x.isFinite = true) (fraction : Single) :
    percentageOf (Value.percentage x).text.toList fraction = x := by
  have htrim : Text.trim Text.isBlank (Value.percentage x).text.toList =
      x.text.toList ++ ['%'] := by
    rw [Text.trim_of_forall fun c hc => Text.isBlank_of_isBare (Value.bare_text _ c hc), Value.text,
      String.toList_append]
    rfl
  simp only [percentageOf, htrim, List.reverse_append, List.reverse_cons, List.reverse_nil,
    List.nil_append, List.singleton_append, List.reverse_reverse, Binary.read?_text h,
    Option.getD_some]

/-! ## The token of a value -/

namespace Value

/-- Whether the number of a value is finite, and its digits are read back where they are left to
the tokenizer. -/
def ReadsBack : Value → Prop
  | .ratio x => x.isFinite = true ∧ Number.ReadsBack x
  | .percentage x => x.isFinite = true
  | .number x => x.isFinite = true ∧ Number.ReadsBack x
  | .length x _ => x.isFinite = true ∧ Number.ReadsBack x
  | _ => True

/-- The token that a value is written as. -/
def IsToken (token : Token) : Value → Prop
  | .none => token = .word "none"
  | .auto => token = .word "auto"
  | .keyword k => token = .word k.name
  | .ratio x => ∃ i, token = .number x i
  | .percentage _ => ∃ fraction, token = .percentage fraction
  | .number x => ∃ i, token = .number x i
  | .length x unit => token = .dimension x unit.suffix
  | .integer n => ∃ x, token = .number x (some n)
  | .color c => token = .hash (String.ofList c.digits)

variable {v : Value}

/-- A value is written as one token. -/
theorem exists_token (h : v.ReadsBack) :
    ∃ token, Token.next v.text.toList = some (token, []) ∧ v.IsToken token := by
  cases v with
  | none => exact ⟨_, Token.next_word (by decide), rfl⟩
  | auto => exact ⟨_, Token.next_word (by decide), rfl⟩
  | integer n =>
    have hnext := Token.next_number (.ofInt n.toInt)
    rw [Numeral.Plain.text_ofInt, Number.integer?_ofInt] at hnext
    exact ⟨_, by rw [text, String.toList_ofList, hnext], _, rfl⟩
  | keyword k => exact ⟨_, Token.next_word k.isWord_name, by rw [String.ofList_toList]; rfl⟩
  | ratio x =>
    obtain ⟨p, htext, rfl⟩ := Number.exists_plain_of_readsBack h.1 h.2
    exact ⟨_, htext ▸ Token.next_number p, _, rfl⟩
  | percentage x =>
    obtain ⟨p, htext, -⟩ := Binary.exists_plain h
    obtain ⟨fraction, hnext⟩ := Token.next_percentage p
    refine ⟨_, ?_, fraction, rfl⟩
    rw [text, String.toList_append, htext]
    exact hnext
  | number x =>
    obtain ⟨p, htext, rfl⟩ := Number.exists_plain_of_readsBack h.1 h.2
    exact ⟨_, htext ▸ Token.next_number p, _, rfl⟩
  | length x unit =>
    obtain ⟨p, htext, hx⟩ := Number.exists_plain_of_readsBack h.1 h.2
    refine ⟨_, ?_, rfl⟩
    rw [text, String.toList_append, htext, Token.next_length, hx]
  | color c =>
    refine ⟨_, ?_, rfl⟩
    rw [text, c.toList_text]
    exact Token.next_hash c.digits_ne_nil c.isHexDigit_digits

/-! ## Reading a value back -/

/-- The text of a value has no blanks to be trimmed away. -/
theorem ofText?_eq_some_iff {kind : Kind} {w : Value} :
    ofText? kind v.text = some w ↔ w.kind = kind ∧ Spells v.text.toList w := by
  have htrim : Text.trim Text.isBlank v.text.toList = v.text.toList :=
    Text.trim_of_forall fun c hc => Text.isBlank_of_isBare (v.bare_text c hc)
  rw [ofText?_eq_some_iff_spells, htrim]

/-- The text of a value spells that value. -/
theorem spells_text (h : v.ReadsBack) (hrange : v.inRange = true) : Spells v.text.toList v := by
  obtain ⟨token, hnext, htoken⟩ := exists_token h
  have tokens : Token.list v.text.toList = [token] := by
    rw [Token.list_of_next hnext, Token.list_nil]
  cases v with
  | none =>
    cases htoken
    exact .none tokens (Text.sameIgnoringCase_self _)
  | auto =>
    cases htoken
    exact .auto tokens (Text.sameIgnoringCase_self _)
  | integer n =>
    obtain ⟨x, rfl⟩ := htoken
    exact .integer tokens
  | keyword k =>
    cases htoken
    exact .keyword tokens (Text.sameIgnoringCase_self _)
  | ratio x =>
    obtain ⟨i, rfl⟩ := htoken
    obtain ⟨hfinite, hsign⟩ := (Bool.and_eq_true _ _).mp hrange
    exact .width tokens hfinite (of_decide_eq_true hsign)
  | percentage x =>
    obtain ⟨fraction, rfl⟩ := htoken
    obtain ⟨hfinite, hsign⟩ := (Bool.and_eq_true _ _).mp hrange
    -- the number is read from the whole text, since nothing follows the token
    have hleading : Token.leading (Value.percentage x).text.toList =
        (Value.percentage x).text.toList := by
      rw [Token.leading, hnext]
      simp
    refine .percentage tokens ?_ hfinite (of_decide_eq_true hsign)
    rw [hleading, Reader.percentageOf_text hfinite]
  | number x =>
    obtain ⟨i, rfl⟩ := htoken
    exact .number tokens h.1
  | length x unit =>
    cases htoken
    obtain ⟨hfinite, hsign⟩ := (Bool.and_eq_true _ _).mp hrange
    exact .length tokens (Text.sameIgnoringCase_self _) hfinite (of_decide_eq_true hsign)
  | color c =>
    cases htoken
    exact .color tokens c.ofHex?_digits

/-- A value is read from its text, under its own kind. -/
theorem ofText?_text (h : v.ReadsBack) (hrange : v.inRange = true) :
    ofText? v.kind v.text = some v :=
  ofText?_eq_some_iff.mpr ⟨rfl, spells_text h hrange⟩

end Value

/-! ## Reading a value under another kind -/

/-- Whether no value of the second kind has a text that is read under the first. -/
def Kind.apart : Kind → Kind → Bool
  | .length, .percentage => true
  | .length, .auto => true
  | .percentage, .auto => true
  | .number, .length => true
  | .number, .percentage => true
  | .number, .auto => true
  | .keyword .flexDirection, .keyword .flexWrap => true
  | _, _ => false

/-- The two enumerations that share an argument have no word in common. -/
theorem Keyword.ofName?_flexWrap (k : Keyword .flexWrap) :
    ofName? .flexDirection k.name = none := by
  have hall : ∀ place : Fin Enumeration.flexWrap.names.length,
      ofName? .flexDirection (Keyword.mk place : Keyword .flexWrap).name = none := by
    decide +kernel
  exact hall k.place

/-- Whether a token starts no value of a kind of numbers. -/
def Kind.refuses : Kind → Token → Bool
  | .length, .percentage _ => true
  | .length, .word _ => true
  | .percentage, .word _ => true
  | .number, .dimension _ _ => true
  | .number, .percentage _ => true
  | .number, .word _ => true
  | _, _ => false

/-- What spells a value has a token that its kind does not refuse. -/
theorem Spells.exists_token {text : List Char} {v : Value} (h : Spells text v) :
    ∃ token rest, Token.list text = token :: rest ∧ v.kind.refuses token = false := by
  cases h <;> exact ⟨_, _, ‹Token.list text = _›, rfl⟩

theorem Value.ofText?_of_refuses {v : Value} {kind : Kind} {token : Token}
    (hnext : Token.next v.text.toList = some (token, [])) (h : kind.refuses token = true) :
    ofText? kind v.text = Option.none := by
  rw [Option.eq_none_iff_forall_ne_some]
  intro w hw
  obtain ⟨rfl, hspells⟩ := ofText?_eq_some_iff.mp hw
  obtain ⟨first, rest, tokens, hfirst⟩ := hspells.exists_token
  rw [Token.list_of_next hnext] at tokens
  cases tokens
  rw [h] at hfirst
  cases hfirst

/-- The text of a value is refused under kinds that are tried before its own. -/
theorem Value.ofText?_of_apart {v : Value} (h : v.ReadsBack) {kind : Kind}
    (hapart : kind.apart v.kind = true) : ofText? kind v.text = Option.none := by
  cases v with
  | auto =>
    obtain ⟨token, hnext, rfl⟩ := exists_token h
    refine ofText?_of_refuses hnext ?_
    cases kind <;> first | rfl | simp [Kind.apart, Value.kind] at hapart
  | percentage x =>
    obtain ⟨token, hnext, fraction, rfl⟩ := exists_token h
    refine ofText?_of_refuses hnext ?_
    cases kind <;> first | rfl | simp [Kind.apart, Value.kind] at hapart
  | length x unit =>
    obtain ⟨token, hnext, rfl⟩ := exists_token h
    refine ofText?_of_refuses hnext ?_
    cases kind <;> first | rfl | simp [Kind.apart, Value.kind] at hapart
  | @keyword e k =>
    obtain ⟨token, hnext, rfl⟩ := exists_token h
    obtain ⟨rfl, rfl⟩ : kind = .keyword .flexDirection ∧ e = .flexWrap := by
      unfold Kind.apart at hapart
      split at hapart <;> simp_all [Value.kind]
    rw [Option.eq_none_iff_forall_ne_some]
    intro w hw
    obtain ⟨hkind, hspells⟩ := ofText?_eq_some_iff.mp hw
    cases hspells with
    | keyword tokens same =>
      cases hkind
      rw [Token.list_of_next hnext, Token.list_nil] at tokens
      cases tokens
      rw [← Keyword.ofName?_eq_some_iff, k.ofName?_flexWrap] at same
      cases same
    | _ => cases hkind
  | _ => cases kind <;> simp [Kind.apart, Value.kind] at hapart

end FlexStyle

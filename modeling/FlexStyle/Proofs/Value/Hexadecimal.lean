import FlexStyle.Proofs.Value.Text

/-!
# Colors and their digits

A color is written as a hash with two hexadecimal digits for each of its channels, or with one that
counts twice; the opacity may be left out. The name of the hash token is trimmed once more before
its digits are counted. The name of a token has no blanks unless they are escaped or lie beyond
those of CSS, and such blanks at its end are overlooked.

- `Color.allDigits`: the eight digits that some digits stand for.
- `Color.Spelled`: whether some digits stand for a color; `Color.ofDigits?_eq_some_iff` says that
  they are read as the colors that they stand for.
- `Color.ofHex?_hash_iff`: what names of hash tokens are read as colors.
- `Raw.toValue?_color_iff`: what texts are accepted as colors, and that the text of a color is.
-/

namespace FlexStyle

namespace Text

/-- Where the first character stays, a text is trimmed at its end only. -/
theorem trim_cons {p : Char → Bool} {c : Char} (h : p c = false) (rest : List Char) :
    trim p (c :: rest) = c :: rest.rdropWhile p := by
  have hc : ¬ p c = true := by simp [h]
  rw [trim, List.dropWhile_cons_of_neg hc, List.reverse_cons, List.dropWhile_append,
    List.rdropWhile]
  split
  case isTrue hempty =>
    rw [List.isEmpty_iff.mp hempty, List.dropWhile_cons_of_neg hc]
    rfl
  case isFalse => rw [List.reverse_append, List.reverse_singleton, List.singleton_append]

/-- The blanks at the end of a text are what has been trimmed away there. -/
theorem rdropWhile_eq_iff {p : Char → Bool} {text front : List Char}
    (hfront : ∀ c ∈ front, p c = false) :
    text.rdropWhile p = front ↔ ∃ back, text = front ++ back ∧ ∀ c ∈ back, p c = true := by
  constructor
  · rintro rfl
    exact ⟨text.rtakeWhile p, List.rdropWhile_append_rtakeWhile.symm,
      fun c hc => List.mem_rtakeWhile_imp hc⟩
  · rintro ⟨back, rfl, hback⟩
    rw [List.rdropWhile, List.reverse_append,
      List.dropWhile_append_of_pos fun c hc => hback c (List.mem_reverse.mp hc)]
    refine (List.rdropWhile_eq_self_iff (p := p)).mpr fun hne => ?_
    simp [hfront _ (List.getLast_mem hne)]

end Text

/-! ## Digits -/

namespace Name

/-- A hexadecimal digit is the letter or the figure of its value. -/
theorem digitChar_hexDigit {c : Char} (h : isHexDigit c = true) :
    hexDigit c < 16 ∧ Nat.digitChar (hexDigit c) = c.toLower := by
  have hall : ∀ n < 103, isHexDigit (Char.ofNat n) = true →
      hexDigit (Char.ofNat n) < 16 ∧
        Nat.digitChar (hexDigit (Char.ofNat n)) = (Char.ofNat n).toLower := by
    decide
  have hlt : c.toNat < 103 := by
    simp only [isHexDigit, Bool.or_eq_true, Bool.and_eq_true, decide_eq_true_eq, Text.isDigit_iff,
      Char.le_def] at h
    rcases h with (h | h) | h
    · omega
    · exact Nat.lt_succ_of_le h.2
    · exact Nat.lt_of_le_of_lt h.2 (by decide)
  have hc := hall c.toNat hlt
  rw [Char.ofNat_toNat] at hc
  exact hc h

end Name

namespace Color

/-- The channels of a color in the order in which they are written. -/
def channels (c : Color) : List UInt8 := [c.red, c.green, c.blue, c.alpha]

/-- Eight digits: single ones count twice, and an opacity that is left out is full. -/
def allDigits (digits : List Char) : List Char :=
  let pairs := if digits.length ≤ 4 then digits.flatMap fun d => [d, d] else digits
  if pairs.length = 6 then pairs ++ ['f', 'f'] else pairs

/-- Whether some characters are the digits of a color, in either case: there are three, four, six
or eight of them, and they are those of its channels. -/
structure Spelled (digits : List Char) (c : Color) : Prop where
  hexadecimal : ∀ d ∈ digits, Name.isHexDigit d = true
  count : digits.length ∈ [3, 4, 6, 8]
  channels : c.channels.flatMap channelText = allDigits (digits.map Char.toLower)

theorem channelText_injective {x y : UInt8} (h : channelText x = channelText y) : x = y := by
  simp only [channelText, List.cons.injEq] at h
  rw [← channel_channelText x, ← channel_channelText y, h.1, h.2.1]

/-- A channel is written with the digits that it is read from. -/
theorem channelText_channel {high low : Char} (hhigh : Name.isHexDigit high = true)
    (hlow : Name.isHexDigit low = true) :
    channelText (channel high low) = [high.toLower, low.toLower] := by
  obtain ⟨hhigh16, hhigh⟩ := Name.digitChar_hexDigit hhigh
  obtain ⟨hlow16, hlow⟩ := Name.digitChar_hexDigit hlow
  have hnat : (channel high low).toNat = 16 * Name.hexDigit high + Name.hexDigit low := by
    rw [channel, Name.hexNumber, List.foldl_cons, List.foldl_cons, List.foldl_nil, Nat.mul_zero,
      Nat.zero_add, UInt8.toNat_ofNat_of_lt' (by rw [UInt8.size]; omega)]
  rw [channelText, hnat, ← hhigh, ← hlow]
  congr 2
  · omega
  · congr 1
    omega

theorem channel_eq_iff {high low : Char} (hhigh : Name.isHexDigit high = true)
    (hlow : Name.isHexDigit low = true) (x : UInt8) :
    channel high low = x ↔ channelText x = [high.toLower, low.toLower] := by
  rw [← channelText_channel hhigh hlow]
  exact ⟨fun h => h ▸ rfl, fun h => (channelText_injective h).symm⟩

/-- A color of eight digits is the one that is written with them. -/
theorem eq_iff_channels {r r' g g' b b' a a' : Char}
    (h : ∀ d ∈ [r, r', g, g', b, b', a, a'], Name.isHexDigit d = true) (c : Color) :
    (⟨channel r r', channel g g', channel b b', channel a a'⟩ : Color) = c ↔
      c.channels.flatMap channelText = [r, r', g, g', b, b', a, a'].map Char.toLower := by
  obtain ⟨red, green, blue, alpha⟩ := c
  rw [Color.mk.injEq, channel_eq_iff (h r (by simp)) (h r' (by simp)),
    channel_eq_iff (h g (by simp)) (h g' (by simp)),
    channel_eq_iff (h b (by simp)) (h b' (by simp)),
    channel_eq_iff (h a (by simp)) (h a' (by simp))]
  simp only [channels, channelText, List.flatMap_cons, List.flatMap_nil, List.cons_append,
    List.nil_append, List.map_cons, List.map_nil, List.cons.injEq, and_true, and_assoc]

/-- Digits are read as the color that they stand for. -/
theorem ofDigits?_eq_some_iff {digits : List Char} {c : Color}
    (h : ∀ d ∈ digits, Name.isHexDigit d = true) :
    ofDigits? digits = some c ↔ Spelled digits c := by
  have hspelled : Spelled digits c ↔ digits.length ∈ [3, 4, 6, 8] ∧
      c.channels.flatMap channelText = allDigits (digits.map Char.toLower) :=
    ⟨fun hs => ⟨hs.count, hs.channels⟩, fun hs => ⟨h, hs.1, hs.2⟩⟩
  have hfull : (255 : UInt8) = channel 'f' 'f' := by decide
  rw [hspelled]
  -- the numbers of digits that are read
  match digits, h with
  | [r, g, b], h =>
    simp only [List.forall_mem_cons] at h
    rw [ofDigits?, Option.some.injEq, hfull, eq_iff_channels (by simp [h]; decide)]
    exact ⟨fun hc => ⟨by simp, hc⟩, And.right⟩
  | [r, g, b, a], h =>
    simp only [List.forall_mem_cons] at h
    rw [ofDigits?, Option.some.injEq, eq_iff_channels (by simp [h])]
    exact ⟨fun hc => ⟨by simp, hc⟩, And.right⟩
  | [r, r', g, g', b, b'], h =>
    simp only [List.forall_mem_cons] at h
    rw [ofDigits?, Option.some.injEq, hfull, eq_iff_channels (by simp [h]; decide)]
    exact ⟨fun hc => ⟨by simp, hc⟩, And.right⟩
  | [r, r', g, g', b, b', a, a'], h =>
    rw [ofDigits?, Option.some.injEq, eq_iff_channels h]
    exact ⟨fun hc => ⟨by simp, hc⟩, And.right⟩
  | [], _ | [_], _ | [_, _], _ | [_, _, _, _, _], _ | [_, _, _, _, _, _, _], _ =>
    simp [ofDigits?]
  | _ :: _ :: _ :: _ :: _ :: _ :: _ :: _ :: _ :: rest, _ => simp [ofDigits?]

/-- The name of a hash token is read as a color if hexadecimal digits are all that is in it, but for
blanks at its end. -/
theorem ofHex?_hash_iff {name : String} {c : Color} :
    ofHex? ("#" ++ name) = some c ↔
      ∃ digits blanks, name.toList = digits ++ blanks ∧ Spelled digits c ∧
        ∀ b ∈ blanks, Text.isBlank b = true := by
  have htext : Text.trim Text.isBlank ("#" ++ name).toList =
      '#' :: name.toList.rdropWhile Text.isBlank := by
    rw [String.toList_append]
    exact Text.trim_cons (by decide) name.toList
  have hfront : ∀ {digits : List Char}, (∀ d ∈ digits, Name.isHexDigit d = true) →
      ∀ d ∈ digits, Text.isBlank d = false :=
    fun hdigits d hd => Text.isBlank_of_isBare (Name.isBare_of_isHexDigit (hdigits d hd))
  simp only [ofHex?, htext]
  constructor
  · intro hread
    split at hread
    case isFalse => cases hread
    case isTrue hall =>
      have hhex := List.all_eq_true.mp hall
      obtain ⟨blanks, hname, hblanks⟩ := (Text.rdropWhile_eq_iff (hfront hhex)).mp rfl
      exact ⟨_, blanks, hname, (ofDigits?_eq_some_iff hhex).mp hread, hblanks⟩
  · rintro ⟨digits, blanks, hname, hspelled, hblanks⟩
    have hhex := hspelled.hexadecimal
    rw [(Text.rdropWhile_eq_iff (hfront hhex)).mpr ⟨blanks, hname, hblanks⟩,
      if_pos (List.all_eq_true.mpr hhex)]
    exact (ofDigits?_eq_some_iff hhex).mpr hspelled

end Color

/-! ## Texts of colors -/

/-- **A text is accepted as a color** exactly if it consists of one hash token, blanks and comments
aside, and the name of the token of the digits of that color, but for blanks at its end. What a
color is written as is read as that color. -/
theorem Raw.toValue?_color_iff (text : String) (v : Value) :
    ((Raw.text text).toValue? .color = some v ↔
      ∃ name digits blanks c, Token.list (Text.trim Text.isBlank text.toList) = [.hash name] ∧
        name.toList = digits ++ blanks ∧ Color.Spelled digits c ∧
        (∀ b ∈ blanks, Text.isBlank b = true) ∧ v = .color c) ∧
      ∀ c : Color, Color.ofHex? c.text = some c := by
  refine ⟨Value.ofText?_eq_some_iff_spells.trans ⟨?_, ?_⟩, fun c => ?_⟩
  · rintro ⟨hkind, hspells⟩
    cases hspells with
    | color tokens read =>
      obtain ⟨digits, blanks, hname, hspelled, hblanks⟩ := Color.ofHex?_hash_iff.mp read
      exact ⟨_, digits, blanks, _, tokens, hname, hspelled, hblanks, rfl⟩
    | _ => cases hkind
  · rintro ⟨name, digits, blanks, c, tokens, hname, hspelled, hblanks, rfl⟩
    have hread := Color.ofHex?_hash_iff.mpr ⟨digits, blanks, hname, hspelled, hblanks⟩
    exact ⟨rfl, .color tokens hread⟩
  · have htext : c.text = "#" ++ String.ofList c.digits := by
      refine String.toList_inj.mp ?_
      simp [c.toList_text, String.toList_append]
    rw [htext, c.ofHex?_digits]

/-- An escaped blank at the end of a name is no digit, and is overlooked. -/
theorem Raw.not_every_color_is_of_digits :
    ¬ ∀ (text : String) (c : Color), (Raw.text text).toValue? .color = some (.color c) →
      ∃ name, Token.list (Text.trim Text.isBlank text.toList) = [.hash name] ∧
        Color.Spelled name.toList c := by
  intro hall
  obtain ⟨hread, htokens⟩ :
      (Raw.text "#abc\\20").toValue? .color = some (.color ⟨0xAA, 0xBB, 0xCC, 0xFF⟩) ∧
        Token.list (Text.trim Text.isBlank "#abc\\20".toList) = [.hash "abc "] := by
    decide +kernel
  obtain ⟨name, hname, hspelled⟩ := hall _ _ hread
  rw [htokens] at hname
  cases hname
  exact absurd (hspelled.hexadecimal ' ' (by decide)) (by decide)

end FlexStyle

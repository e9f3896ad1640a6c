import FlexStyle.Proofs.Token.Written
import FlexStyle.Proofs.Value.Grammar

/-!
# Comments in front of values

A comment in front of a text changes none of its tokens, and so none of the values that are read
from tokens alone. Percentages are not: the number before the percent sign is read as it is written,
but behind a comment it is computed from its token, as a hundred times a hundredth. Both are
rounded, and they need not be the same.

- `Token.list_comment`, `Token.leading_comment`: the tokens of a text behind a comment, and what is
  written up to the first of them.
- `WritesPercentage`: texts that start with the number of a percentage.
- `Spells.congr`: what values depend on besides tokens.
- `Raw.toValue?_comment_iff`: a comment changes nothing, unless the text is a percentage whose two
  numbers differ.
-/

namespace FlexStyle

/-- A comment, as characters. -/
def comment (body : List Char) : List Char := '/' :: '*' :: (body ++ ['*', '/'])

/-! ## Tokens behind a comment -/

/-- A comment ends where it is closed for the first time. -/
theorem Extent.afterComment_append {body : List Char} (h : ¬ ['*', '/'] <:+: body)
    (rest : List Char) : afterComment (body ++ '*' :: '/' :: rest) = rest := by
  induction body with
  | nil => rfl
  | cons c body ih =>
    have hbody : ¬ ['*', '/'] <:+: body := fun hinfix => h (List.infix_cons hinfix)
    have hopen : ∀ after, c = '*' → body ++ '*' :: '/' :: rest = '/' :: after → False := by
      rintro after rfl heq
      cases body with
      | nil => cases heq
      | cons d body =>
        cases heq
        exact h ⟨[], body, rfl⟩
    rw [List.cons_append, afterComment.eq_3 _ _ hopen]
    exact ih hbody

namespace Token

variable {body text : List Char}

/-- The blank that a comment is takes nothing away from what follows. -/
theorem next_comment (h : ¬ ['*', '/'] <:+: body) : next (comment body ++ text) = next text := by
  have hscan : scan (comment body ++ text) = some (.blank, text) := by
    have hafter : Extent.afterComment (body ++ ['*', '/'] ++ text) = text := by
      rw [List.append_assoc]
      exact Extent.afterComment_append h text
    rw [comment, List.cons_append, List.cons_append, scan, scanFrom, if_neg (by decide),
      if_pos (by rfl), List.tail_cons, hafter]
  rw [next]
  split
  · rename_i hnone
    rw [hscan] at hnone
    cases hnone
  · rename_i hsome
    rw [hscan] at hsome
    cases hsome
    rfl
  · rename_i hblank hsome
    rw [hscan] at hsome
    cases hsome
    exact absurd rfl hblank

theorem list_comment (h : ¬ ['*', '/'] <:+: body) : list (comment body ++ text) = list text := by
  rw [list, list, next_comment h]

/-- Only a space and a stroke may start what is blank. -/
theorem scanFrom_ne_blank {c : Char} (hspace : Text.isSpace c = false) (hslash : c ≠ '/')
    (rest : List Char) : (scanFrom c rest).1 ≠ .blank := by
  intro hblank
  rcases hscan : scanFrom c rest with ⟨token, after⟩
  obtain rfl : token = .blank := by rw [hscan] at hblank; exact hblank
  unfold scanFrom at hscan
  rw [hspace, if_neg Bool.false_ne_true, if_neg (by simp [hslash])] at hscan
  split at hscan
  · cases hscan
  split at hscan
  · have hnumeric := isNumeric_read (c :: rest)
    rw [hscan] at hnumeric
    cases hnumeric
  split at hscan
  · cases hscan
  split at hscan
  · cases hscan
  split at hscan
  · cases hscan
  · rename_i hbracket
    cases hscan
    obtain ⟨bracket, hopening | hclosing⟩ := bracket?_eq_some hbracket
    · cases hopening
    · cases hclosing
  split at hscan
  · obtain ⟨name, hword⟩ := readWord_cases (c :: rest)
    rw [hscan] at hword
    simp at hword
  · cases hscan

/-- What is written up to the first token includes the comment. -/
theorem leading_comment (h : ¬ ['*', '/'] <:+: body) {token : Token} {rest : List Char}
    (hnext : next text = some (token, rest)) :
    leading (comment body ++ text) = comment body ++ leading text := by
  have hlt := length_next_lt hnext
  rw [leading, leading, next_comment h, hnext]
  dsimp only
  rw [List.length_append, Nat.add_sub_assoc (Nat.le_of_lt hlt), List.take_length_add_append]

end Token

/-! ## Written percentages -/

/-- The number of a percentage as it is computed from its token. -/
def Number.Parts.hundredfold (parts : Number.Parts) : Single :=
  (parts.value / 100).convert .single * 100

/-- Whether a text starts with a number and a percent sign, and nothing but blanks follows. -/
def WritesPercentage (text : List Char) (parts : Number.Parts) : Prop :=
  Number.starts text = true ∧
    ∃ rest, Number.readParts text = (parts, '%' :: rest) ∧ Token.list rest = []

/-- The percentage of a number, if there is one. -/
def Value.percentage? (x : Single) : Option Value :=
  (Reader.sized x).toOption.map .percentage

theorem Value.percentage?_eq_some_iff {x : Single} {v : Value} :
    percentage? x = some v ↔ (x.isFinite = true ∧ 0 ≤ x) ∧ .percentage x = v := by
  unfold percentage?
  constructor
  · intro h
    cases hsized : Reader.sized x with
    | error e =>
      rw [hsized] at h
      cases h
    | ok y =>
      obtain ⟨rfl, hsize⟩ := Reader.sized_eq_ok hsized
      rw [hsized] at h
      exact ⟨hsize, Option.some.inj h⟩
  · rintro ⟨⟨hfinite, hsign⟩, rfl⟩
    rw [Reader.sized_of_inRange hfinite hsign]
    rfl

namespace Reader

/-- Behind a comment, the number is computed from the token. -/
theorem percentageOf_slash (more : List Char) (fraction : Single) :
    percentageOf ('/' :: more) fraction = fraction * 100 := by
  have hprefix : Text.trim Text.isBlank ('/' :: more) <+: '/' :: more :=
    List.rdropWhile_prefix Text.isBlank _
  have hnone : ∀ numeral, numeral ++ ['%'] = Text.trim Text.isBlank ('/' :: more) →
      Numeral.read? .single numeral = none := by
    intro numeral htrim
    rw [← htrim] at hprefix
    cases numeral with
    | nil => cases (List.cons_prefix_cons.mp hprefix).1
    | cons c numeral =>
      obtain rfl := (List.cons_prefix_cons.mp hprefix).1
      exact Number.read?_slash .single numeral
  unfold percentageOf
  dsimp only
  split
  · rename_i reversed hreversed
    rw [hnone reversed.reverse]
    · rfl
    · rw [← List.reverse_reverse (Text.trim _ _), hreversed, List.reverse_cons]
  · rfl

/-- A numeral alone in front of the percent sign is read as it is written. -/
theorem percentageOf_numeral {numeral : List Char} {x : Single} (fraction : Single)
    (htight : Text.isTight Text.isBlank (numeral ++ ['%']) = true)
    (h : Numeral.read? .single numeral = some x) :
    percentageOf (numeral ++ ['%']) fraction = x := by
  unfold percentageOf
  rw [Text.trim_of_isTight htight, List.reverse_append]
  simp [h]

end Reader

namespace WritesPercentage

variable {text : List Char} {parts : Number.Parts}

/-- A percentage is what a number token with a percent sign is made of. -/
theorem exists_of_scan {rest : List Char} {fraction : Single}
    (hscan : Token.scan text = some (.percentage fraction, rest)) (hrest : Token.list rest = []) :
    ∃ parts, WritesPercentage text parts := by
  cases text with
  | nil => cases hscan
  | cons c text =>
    obtain ⟨hstarts, hread⟩ := Token.read_of_scanFrom (Option.some.inj hscan) rfl
    unfold Number.read at hread
    dsimp only at hread
    split at hread
    · rename_i after hparts
      cases hread
      exact ⟨_, hstarts, _, Prod.ext rfl hparts, hrest⟩
    · split at hread <;> cases hread

/-- The token of a percentage. -/
theorem next (h : WritesPercentage text parts) :
    ∃ rest, Token.next text =
        some (.percentage ((parts.value / 100).convert .single), rest) ∧ Token.list rest = [] ∧
      Number.readParts text = (parts, '%' :: rest) := by
  obtain ⟨hstarts, rest, hparts, hrest⟩ := h
  have hread : Number.read text = (.percentage ((parts.value / 100).convert .single), rest) := by
    unfold Number.read
    simp only [hparts]
  have hscan := Token.scan_of_starts hstarts
  rw [hread] at hscan
  exact ⟨rest, Token.next_of_scan hscan (by simp), hrest, hparts⟩

theorem list (h : WritesPercentage text parts) :
    Token.list text = [.percentage ((parts.value / 100).convert .single)] := by
  obtain ⟨rest, hnext, hrest, -⟩ := h.next
  rw [Token.list_of_next hnext, hrest]

/-- What is written of a percentage, the percent sign left aside, is a numeral. -/
theorem percentageOf_leading (h : WritesPercentage text parts)
    (htight : Text.isTight Text.isBlank text = true) (fraction : Single) :
    Reader.percentageOf (Token.leading text) fraction = parts.nearest .single := by
  obtain ⟨rest, hnext, -, hparts⟩ := h.next
  obtain ⟨numeral, rfl, hread⟩ := Number.exists_numeral h.1 hparts
  have hleading : Token.leading (numeral ++ '%' :: rest) = numeral ++ ['%'] := by
    rw [Token.leading, hnext]
    dsimp only
    rw [List.append_cons, List.length_append, Nat.add_sub_cancel, List.take_left]
  rw [hleading]
  refine Reader.percentageOf_numeral fraction ?_ (hread .single)
  -- the percent sign is no blank, and what is in front of the text is none
  rw [Text.isTight, Bool.and_eq_true] at htight ⊢
  refine ⟨?_, by simp; decide⟩
  cases numeral with
  | nil => rfl
  | cons c numeral => exact htight.1

/-- A percentage that does not start with its number has a comment in front of it. -/
theorem exists_leading {fraction : Single} (hlist : Token.list text = [.percentage fraction])
    (htight : Text.isTight Text.isBlank text = true) (h : ¬ ∃ parts, WritesPercentage text parts) :
    ∃ more, Token.leading text = '/' :: more := by
  obtain ⟨rest, hnext, hrest⟩ := Token.list_eq_cons_iff.mp hlist
  have hlt := Token.length_next_lt hnext
  cases text with
  | nil => cases hlt
  | cons c text =>
    have hslash : c = '/' := by
      by_contra hslash
      have hspace : Text.isSpace c = false := by
        by_contra hspace
        have hblank := Text.isBlank_of_isSpace (by simpa using hspace)
        simp [Text.isTight, hblank] at htight
      -- the token in front would be the only one
      have hscan : Token.scan (c :: text) = some (Token.scanFrom c text) := rfl
      have hfirst := Token.next_of_scan hscan (Token.scanFrom_ne_blank hspace hslash text)
      rw [hnext] at hfirst
      exact h (exists_of_scan hfirst.symm hrest)
    obtain ⟨n, hn⟩ : ∃ n, (c :: text).length - rest.length = n + 1 :=
      ⟨_, (Nat.succ_pred_eq_of_pos (Nat.sub_pos_of_lt hlt)).symm⟩
    rw [Token.leading, hnext, hslash]
    dsimp only
    rw [← hslash, hn, List.take_succ_cons]
    exact ⟨_, rfl⟩

end WritesPercentage

/-! ## Values behind a comment -/

/-- The tokens of a text spell a value, and what is written matters for percentages alone. -/
theorem Spells.congr {text text' : List Char} {v : Value}
    (hlist : Token.list text = Token.list text')
    (hpercentage : ∀ fraction, v.kind = .percentage → Token.list text = [.percentage fraction] →
      Reader.percentageOf (Token.leading text) fraction =
        Reader.percentageOf (Token.leading text') fraction)
    (h : Spells text v) : Spells text' v := by
  cases h with
  | none tokens same => exact .none (hlist ▸ tokens) same
  | auto tokens same => exact .auto (hlist ▸ tokens) same
  | keyword tokens same => exact .keyword (hlist ▸ tokens) same
  | integer tokens => exact .integer (hlist ▸ tokens)
  | number tokens finite => exact .number (hlist ▸ tokens) finite
  | width tokens finite sign => exact .width (hlist ▸ tokens) finite sign
  | quotient tokens finite signs => exact .quotient (hlist ▸ tokens) finite signs
  | percentage tokens written finite sign =>
    exact .percentage (hlist ▸ tokens) (written.trans (hpercentage _ rfl tokens)) finite sign
  | pixels tokens finite sign => exact .pixels (hlist ▸ tokens) finite sign
  | length tokens same finite sign => exact .length (hlist ▸ tokens) same finite sign
  | color tokens digits => exact .color (hlist ▸ tokens) digits

namespace Raw

/-- A single percentage is the number that is made of it. -/
theorem toValue?_percentage {text : String} {fraction : Single}
    (htight : Text.isTight Text.isBlank text.toList = true)
    (hlist : Token.list text.toList = [.percentage fraction]) :
    (Raw.text text).toValue? .percentage =
      Value.percentage? (Reader.percentageOf (Token.leading text.toList) fraction) := by
  ext v
  rw [(toValue?_text_iff .percentage text).1 v, Text.trim_of_isTight htight,
    Value.percentage?_eq_some_iff]
  constructor
  · rintro ⟨hkind, hspells⟩
    cases hspells with
    | percentage tokens written finite sign =>
      rw [hlist] at tokens
      cases tokens
      subst written
      exact ⟨⟨finite, sign⟩, rfl⟩
    | _ => cases hkind
  · rintro ⟨⟨finite, sign⟩, rfl⟩
    exact ⟨rfl, .percentage hlist rfl finite sign⟩

variable {text text' body : String} {parts : Number.Parts}

/-- Texts with the same tokens have the same value, if they write the same percentage. -/
theorem toValue?_congr (kind : Kind) (htight : Text.isTight Text.isBlank text.toList = true)
    (htight' : Text.isTight Text.isBlank text'.toList = true)
    (hlist : Token.list text.toList = Token.list text'.toList)
    (hpercentage : ∀ fraction, kind = .percentage →
      Token.list text'.toList = [.percentage fraction] →
      Reader.percentageOf (Token.leading text.toList) fraction =
        Reader.percentageOf (Token.leading text'.toList) fraction) :
    (Raw.text text).toValue? kind = (Raw.text text').toValue? kind := by
  ext v
  rw [(toValue?_text_iff kind _).1 v, (toValue?_text_iff kind _).1 v,
    Text.trim_of_isTight htight, Text.trim_of_isTight htight']
  refine and_congr_right fun hkind => ⟨?_, ?_⟩
  · exact Spells.congr hlist fun fraction hv htokens =>
      hpercentage fraction (hkind ▸ hv) (hlist ▸ htokens)
  · exact Spells.congr hlist.symm fun fraction hv htokens =>
      (hpercentage fraction (hkind ▸ hv) htokens).symm

theorem toList_comment (body text : String) :
    ("/*" ++ body ++ "*/" ++ text).toList = comment body.toList ++ text.toList := by
  simp [comment, String.toList_append]

theorem isTight_comment (htight : Text.isTight Text.isBlank text.toList = true) :
    Text.isTight Text.isBlank ("/*" ++ body ++ "*/" ++ text).toList = true := by
  obtain ⟨-, hlast⟩ := (Bool.and_eq_true _ _).mp htight
  rw [toList_comment, Text.isTight, Bool.and_eq_true]
  refine ⟨rfl, ?_⟩
  rw [List.getLast?_append]
  cases hend : text.toList.getLast? with
  | none =>
    rw [comment, ← List.cons_append, ← List.cons_append, List.getLast?_append]
    rfl
  | some c => simpa [hend] using hlast

/-- A percentage behind a comment is computed from its token. -/
theorem percentageOf_comment {fraction : Single} (hbody : ¬ ['*', '/'] <:+: body.toList)
    (hlist : Token.list text.toList = [.percentage fraction]) :
    Reader.percentageOf (Token.leading ("/*" ++ body ++ "*/" ++ text).toList) fraction =
      fraction * 100 := by
  obtain ⟨rest, hnext, -⟩ := Token.list_eq_cons_iff.mp hlist
  rw [toList_comment, Token.leading_comment hbody hnext]
  exact Reader.percentageOf_slash _ _

/-- The two numbers of a percentage: behind a comment, and alone. -/
theorem toValue?_of_writesPercentage (htight : Text.isTight Text.isBlank text.toList = true)
    (hbody : ¬ ['*', '/'] <:+: body.toList) (h : WritesPercentage text.toList parts) :
    (Raw.text ("/*" ++ body ++ "*/" ++ text)).toValue? .percentage =
        Value.percentage? parts.hundredfold ∧
      (Raw.text text).toValue? .percentage = Value.percentage? (parts.nearest .single) := by
  constructor
  · rw [toValue?_percentage (isTight_comment htight)
      (by rw [toList_comment, Token.list_comment hbody, h.list]), percentageOf_comment hbody h.list]
    rfl
  · rw [toValue?_percentage htight h.list, h.percentageOf_leading htight]

/-- A comment changes nothing if no number of a percentage starts the text. -/
theorem toValue?_comment (kind : Kind) (htight : Text.isTight Text.isBlank text.toList = true)
    (hbody : ¬ ['*', '/'] <:+: body.toList)
    (h : kind = .percentage → ¬ ∃ parts, WritesPercentage text.toList parts) :
    (Raw.text ("/*" ++ body ++ "*/" ++ text)).toValue? kind = (Raw.text text).toValue? kind := by
  refine toValue?_congr kind (isTight_comment htight) htight
    (by rw [toList_comment, Token.list_comment hbody]) fun fraction hkind htokens => ?_
  -- a percentage behind a comment of its own is computed in any case
  obtain ⟨more, hmore⟩ := WritesPercentage.exists_leading htokens htight (h hkind)
  rw [percentageOf_comment hbody htokens, hmore, Reader.percentageOf_slash]

/-- **A comment in front of a text does not change its value**, of whatever kind, unless the text is
a percentage and the number computed from its token gives another one than the number nearest to
what is written. The latter is the percentage of the text alone, the former that of the text behind
the comment. -/
theorem toValue?_comment_iff (kind : Kind) (htight : Text.isTight Text.isBlank text.toList = true)
    (hbody : ¬ ['*', '/'] <:+: body.toList) :
    ((Raw.text ("/*" ++ body ++ "*/" ++ text)).toValue? kind = (Raw.text text).toValue? kind ↔
      ∀ parts, kind = .percentage → WritesPercentage text.toList parts →
        Value.percentage? parts.hundredfold = Value.percentage? (parts.nearest .single)) ∧
      ∀ parts, WritesPercentage text.toList parts →
        (Raw.text ("/*" ++ body ++ "*/" ++ text)).toValue? .percentage =
            Value.percentage? parts.hundredfold ∧
          (Raw.text text).toValue? .percentage = Value.percentage? (parts.nearest .single) := by
  have hwritten : ∀ parts, WritesPercentage text.toList parts → _ :=
    fun _ => toValue?_of_writesPercentage htight hbody
  refine ⟨⟨?_, fun h => ?_⟩, hwritten⟩
  · rintro heq parts rfl hparts
    obtain ⟨hcommented, hdirect⟩ := hwritten parts hparts
    rw [← hcommented, ← hdirect, heq]
  · by_cases hcase : kind = .percentage ∧ ∃ parts, WritesPercentage text.toList parts
    · obtain ⟨rfl, parts, hparts⟩ := hcase
      obtain ⟨hcommented, hdirect⟩ := hwritten parts hparts
      rw [hcommented, hdirect, h parts rfl hparts]
    · exact toValue?_comment kind htight hbody fun hkind hparts => hcase ⟨hkind, hparts⟩

/-- Half a hundred is the same number either way. -/
theorem toValue?_comment_half :
    Text.isTight Text.isBlank "50%".toList = true ∧ ¬ ['*', '/'] <:+: " half ".toList ∧
      (Raw.text ("/*" ++ " half " ++ "*/" ++ "50%")).toValue? .percentage =
        (Raw.text "50%").toValue? .percentage := by
  have htight : Text.isTight Text.isBlank "50%".toList = true := by decide
  have hbody : ¬ ['*', '/'] <:+: " half ".toList := by decide
  refine ⟨htight, hbody, (toValue?_comment_iff .percentage htight hbody).1.mpr ?_⟩
  rintro parts - ⟨-, rest, hparts, -⟩
  have hread : Number.readParts "50%".toList = (⟨false, ['5', '0'], [], none⟩, ['%']) := rfl
  rw [hread] at hparts
  cases hparts
  decide +kernel

/-- Fifteen per cent are read as they are written, but behind a comment as the number above. -/
theorem not_every_comment_is_ignored :
    ¬ ∀ (kind : Kind) (text body : String), Text.isTight Text.isBlank text.toList = true →
      ¬ ['*', '/'] <:+: body.toList →
      (Raw.text ("/*" ++ body ++ "*/" ++ text)).toValue? kind = (Raw.text text).toValue? kind := by
  intro h
  have hfifteen := h .percentage "15%" "" (by decide) (by decide)
  revert hfifteen
  decide +kernel

end Raw

end FlexStyle

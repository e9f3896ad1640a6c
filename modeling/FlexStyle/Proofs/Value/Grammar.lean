import FlexStyle.Proofs.Text
import FlexStyle.Proofs.Value.Reader
import FlexStyle.Value.Raw
import Mathlib.Data.List.Nodup

/-!
# The grammar of values

A text stands for a value exactly if its tokens, blanks and comments left aside, spell that value.
The tokens are those of the whole text, also inside of brackets, which the readers pass over. So
there is no text that stands for a value and has anything else in it.

- `Spells`: the rows of tokens that spell a value.
- `Reader.Reads`: what a reader makes of a whole text; `Reader.token_reads_iff` and the lemmas after
  it say of each reader which rows of tokens it takes.
- `Raw.toValue?_text_iff`: a text is accepted as what it spells, and as nothing else.
-/

namespace FlexStyle

/-! ## Rows of tokens -/

namespace Name

theorem read_of_nil {text : List Char} (h : (read text).1 = []) : (read text).2 = text := by
  fun_cases read text with
  | case1 => rfl
  | case2 c rest hpart name after hread => simp [read, hpart] at h
  | case3 c rest hpart hescape name after hread => simp [read, hpart, hescape] at h
  | case4 c rest hpart hescape => rfl

/-- Where a name starts, it is not empty. -/
theorem read_ne_nil {text : List Char} (h : starts text = true) : (read text).1 ≠ [] := by
  intro hnil
  have hlt := length_read_lt h
  rw [read_of_nil hnil] at hlt
  exact Nat.lt_irrefl _ hlt

end Name

namespace Token

variable {text : List Char} {token : Token} {tokens : List Token}

theorem list_eq_nil_iff : list text = [] ↔ next text = none := by
  refine ⟨fun h => ?_, list_of_next_none⟩
  cases hnext : next text with
  | none => rfl
  | some found =>
    rw [list_of_next hnext] at h
    cases h

/-- The tokens of a text begin with the next one. -/
theorem list_eq_cons_iff :
    list text = token :: tokens ↔ ∃ rest, next text = some (token, rest) ∧ list rest = tokens := by
  constructor
  · intro h
    cases hnext : next text with
    | none =>
      rw [list_of_next_none hnext] at h
      cases h
    | some found =>
      rw [list_of_next hnext] at h
      cases h
      exact ⟨found.2, rfl, rfl⟩
  · rintro ⟨rest, hnext, rfl⟩
    exact list_of_next hnext

/-- What is written up to the end of the first token that is not blank. -/
def leading (text : List Char) : List Char :=
  match next text with
  | some (_, rest) => text.take (text.length - rest.length)
  | none => []

/-! ## Units -/

theorem unit_ne_of_read {text rest : List Char} {x : Single} {unit : String}
    (h : Number.read text = (.dimension x unit, rest)) : unit ≠ "" := by
  unfold Number.read at h
  dsimp only at h
  split at h
  · cases h
  · split at h
    · rename_i hstarts
      cases h
      simpa using Name.read_ne_nil hstarts
    · cases h

/-- Whether a token starts with a number. -/
def isNumeric : Token → Bool
  | number _ _ | percentage _ | dimension _ _ => true
  | _ => false

theorem isNumeric_read (text : List Char) : (Number.read text).1.isNumeric = true := by
  unfold Number.read
  dsimp only
  repeat' split
  all_goals rfl

theorem bracket?_eq_some {c : Char} (h : bracket? c = some token) :
    ∃ bracket, token = .opening bracket ∨ token = .closing bracket := by
  unfold bracket? at h
  repeat' split at h
  all_goals cases h
  all_goals first | exact ⟨_, .inl rfl⟩ | exact ⟨_, .inr rfl⟩

theorem readWord_cases (text : List Char) :
    ∃ name, (readWord text).1 ∈ [.word name, .function name, .address] := by
  refine ⟨String.ofList (Name.read text).1, ?_⟩
  unfold readWord
  dsimp only
  repeat' split
  all_goals simp

/-- The tokens that start with a number are read where a number starts, and nowhere else. -/
theorem read_of_scanFrom {c : Char} {text rest : List Char}
    (h : scanFrom c text = (token, rest)) (hnumeric : token.isNumeric = true) :
    Number.starts (c :: text) = true ∧ Number.read (c :: text) = (token, rest) := by
  unfold scanFrom at h
  split at h
  · cases h
    cases hnumeric
  split at h
  · cases h
    cases hnumeric
  split at h
  · cases h
    cases hnumeric
  split at h
  · exact ⟨‹_›, h⟩
  split at h
  · cases h
    cases hnumeric
  split at h
  · cases h
    cases hnumeric
  split at h
  · cases h
    cases hnumeric
  · rename_i hbracket
    cases h
    obtain ⟨bracket, rfl | rfl⟩ := bracket?_eq_some hbracket <;> cases hnumeric
  split at h
  · obtain ⟨name, hword⟩ := readWord_cases (c :: text)
    rw [h] at hword
    simp only [List.mem_cons, List.not_mem_nil, or_false] at hword
    rcases hword with rfl | rfl | rfl <;> cases hnumeric
  · cases h
    cases hnumeric

/-- Only numbers have units, and no unit is empty. -/
theorem unit_ne_of_next {rest : List Char} {x : Single} {unit : String}
    (h : next text = some (.dimension x unit, rest)) : unit ≠ "" := by
  fun_induction next text with
  | case1 => cases h
  | case2 text after hscan ih => exact ih h
  | case3 text found after hblank hscan =>
    cases h
    cases text with
    | nil => cases hscan
    | cons c text => exact unit_ne_of_read (read_of_scanFrom (Option.some.inj hscan) rfl).2

end Token

/-! ## Words and units -/

theorem Enumeration.nodup_names (e : Enumeration) : e.names.Nodup := by
  cases e <;> simp [names]

theorem Enumeration.lower_of_mem_names {e : Enumeration} {name : String} (h : name ∈ e.names) :
    Text.lower name = name := by
  have hall : ∀ name ∈ e.names, ∀ c ∈ name.toList, c.isUpper = false := by
    cases e <;> simp [names]
  exact Text.lower_eq_self (hall name h)

/-- A keyword is found under its own name. -/
theorem Keyword.ofName?_name {e : Enumeration} (k : Keyword e) : ofName? e k.name = some k := by
  obtain ⟨place⟩ := k
  have hfind : e.names.findFinIdx? (Text.sameIgnoringCase e.names[place.val]) = some place := by
    refine List.findFinIdx?_eq_some_iff.mpr ⟨Text.sameIgnoringCase_self _, fun j hj hsame => ?_⟩
    -- names in lower case differ in more than their case
    have hlower : Text.lower e.names[place.val] = Text.lower e.names[j.val] :=
      Text.sameIgnoringCase_iff.mp hsame
    rw [Enumeration.lower_of_mem_names (List.getElem_mem _),
      Enumeration.lower_of_mem_names (List.getElem_mem _)] at hlower
    exact Nat.ne_of_gt hj ((List.Nodup.getElem_inj_iff e.nodup_names).mp hlower)
  rw [ofName?, name]
  exact congrArg (Option.map Keyword.mk) hfind

/-- The words of an enumeration differ in more than their case. -/
theorem Keyword.ofName?_eq_some_iff {e : Enumeration} {name : String} {k : Keyword e} :
    ofName? e name = some k ↔ Text.sameIgnoringCase name k.name = true := by
  constructor
  · intro h
    obtain ⟨place, hfind, rfl⟩ := Option.map_eq_some_iff.mp h
    exact (List.findFinIdx?_eq_some_iff.mp hfind).1
  · intro h
    have hlower : Text.lower name = Text.lower k.name := Text.sameIgnoringCase_iff.mp h
    have hword : Text.sameIgnoringCase name = Text.sameIgnoringCase k.name := by
      funext other
      rw [Text.sameIgnoringCase, Text.sameIgnoringCase, hlower]
    rw [ofName?, hword]
    exact k.ofName?_name

theorem LengthUnit.ofSuffix?_suffix (unit : LengthUnit) : ofSuffix? unit.suffix = some unit := by
  cases unit <;> decide +kernel

/-- A suffix names a unit, in any case of its letters. -/
theorem LengthUnit.ofSuffix?_eq_some_iff {name : String} {unit : LengthUnit} (h : name ≠ "") :
    ofSuffix? name = some unit ↔ Text.sameIgnoringCase name unit.suffix = true := by
  have hne : name.isEmpty = false := by simpa using h
  have hempty : unit.suffix.isEmpty = false := by cases unit <;> decide
  constructor
  · intro hfind
    rw [ofSuffix?, hne, if_neg Bool.false_ne_true] at hfind
    have hsame := List.find?_some hfind
    exact Text.sameIgnoringCase_iff.mpr (Text.sameIgnoringCase_iff.mp hsame).symm
  · intro hsame
    have hlower : Text.lower name = Text.lower unit.suffix := Text.sameIgnoringCase_iff.mp hsame
    rw [← unit.ofSuffix?_suffix, ofSuffix?, ofSuffix?, hne, hempty]
    simp only [Text.sameIgnoringCase, hlower]

/-! ## Readers of whole texts -/

namespace Reader

variable {α β : Type} {text : List Char}

/-- Whether a reader reads something from a text, and the text ends there. -/
def Reads (reader : Reader α) (text : List Char) (a : α) : Prop :=
  ∃ after, reader { rest := text } = (.ok a, after) ∧ after.isExhausted = true

/-- What a mapped reader reads comes from what the reader reads. -/
theorem map_reads_iff {f : α → β} {reader : Reader α} {b : β} :
    (reader.map f).Reads text b ↔ ∃ a, reader.Reads text a ∧ f a = b := by
  constructor
  · rintro ⟨after, hread, hend⟩
    obtain ⟨a, hread, hb⟩ := map_eq_ok hread
    exact ⟨a, ⟨after, hread, hend⟩, hb⟩
  · rintro ⟨a, ⟨after, hread, hend⟩, rfl⟩
    exact ⟨after, by simp only [map, hread, Except.map], hend⟩

/-- A token that a reader takes opens no block, if the reader takes no function and no bracket. -/
theorem opens?_of_ok {meaning : Token → Except ReadError α} {e : ReadError}
    (hfunction : ∀ name, meaning (.function name) = .error e)
    (hopening : ∀ bracket, meaning (.opening bracket) = .error e) {found : Token} {a : α}
    (h : meaning found = .ok a) : found.opens? = none := by
  cases found with
  | function name =>
    rw [hfunction] at h
    cases h
  | opening bracket =>
    rw [hopening] at h
    cases h
  | _ => rfl

/-- A reader of one token reads a text that consists of this token. If the token opened a block, the
text could go on, since the block would be passed over. -/
theorem token_reads_iff {meaning : Token → Except ReadError α} {e : ReadError} {a : α}
    (hfunction : ∀ name, meaning (.function name) = .error e)
    (hopening : ∀ bracket, meaning (.opening bracket) = .error e) :
    (token meaning).Reads text a ↔ ∃ found, Token.list text = [found] ∧ meaning found = .ok a := by
  constructor
  · rintro ⟨after, hread, hend⟩
    obtain ⟨found, rest, hnext, hmeaning, rfl⟩ := token_eq_ok hread
    have hnone := Cursor.isExhausted_iff.mp hend
    rw [opens?_of_ok hfunction hopening hmeaning] at hnone
    exact ⟨found, Token.list_eq_cons_iff.mpr ⟨rest, hnext, Token.list_of_next_none hnone⟩, hmeaning⟩
  · rintro ⟨found, hlist, hmeaning⟩
    obtain ⟨rest, hnext, hrest⟩ := Token.list_eq_cons_iff.mp hlist
    have hcursor : Cursor.next { rest := text } = (some found, ⟨rest, found.opens?⟩) :=
      Cursor.next_of_some hnext
    refine ⟨⟨rest, found.opens?⟩, ?_, Cursor.isExhausted_iff.mpr ?_⟩
    · simp only [token, hcursor, hmeaning]
    · rw [opens?_of_ok hfunction hopening hmeaning]
      exact Token.list_eq_nil_iff.mp hrest

theorem word_reads_iff {expected : String} {u : Unit} :
    (word expected).Reads text u ↔
      ∃ name, Token.list text = [.word name] ∧ Text.sameIgnoringCase name expected = true := by
  rw [word, token_reads_iff]
  · constructor
    · rintro ⟨found, hlist, hmeaning⟩
      split at hmeaning
      · split at hmeaning
        · exact ⟨_, hlist, ‹_›⟩
        · cases hmeaning
      · cases hmeaning
    · rintro ⟨name, hlist, hname⟩
      exact ⟨_, hlist, if_pos hname⟩
  · exact fun _ => rfl
  · exact fun _ => rfl

/-- A keyword is read from one word, in any case of its letters. -/
theorem keyword_reads_iff {e : Enumeration} {k : Keyword e} :
    (keyword e).Reads text k ↔
      ∃ name, Token.list text = [.word name] ∧ Text.sameIgnoringCase name k.name = true := by
  rw [keyword, token_reads_iff]
  · constructor
    · rintro ⟨found, hlist, hmeaning⟩
      split at hmeaning
      · split at hmeaning
        · rename_i hname
          cases hmeaning
          exact ⟨_, hlist, Keyword.ofName?_eq_some_iff.mp hname⟩
        · cases hmeaning
      · cases hmeaning
    · rintro ⟨name, hlist, hname⟩
      refine ⟨_, hlist, ?_⟩
      simp only [Keyword.ofName?_eq_some_iff.mpr hname]
  · exact fun _ => rfl
  · exact fun _ => rfl

/-- An integer is read from one number token that has an integer value. -/
theorem integer_reads_iff {n : Int32} :
    integer.Reads text n ↔ ∃ x, Token.list text = [.number x (some n)] := by
  rw [integer, token_reads_iff]
  · constructor
    · rintro ⟨found, hlist, hmeaning⟩
      split at hmeaning
      · cases hmeaning
        exact ⟨_, hlist⟩
      · cases hmeaning
    · rintro ⟨x, hlist⟩
      exact ⟨_, hlist, rfl⟩
  · exact fun _ => rfl
  · exact fun _ => rfl

/-- A number is read from one finite number token. -/
theorem number_reads_iff {x : Single} :
    number.Reads text x ↔ ∃ i, Token.list text = [.number x i] ∧ x.isFinite = true := by
  rw [number, token_reads_iff]
  · constructor
    · rintro ⟨found, hlist, hmeaning⟩
      split at hmeaning
      · split at hmeaning
        · cases hmeaning
          exact ⟨_, hlist, ‹_›⟩
        · cases hmeaning
      · cases hmeaning
    · rintro ⟨i, hlist, hfinite⟩
      exact ⟨_, hlist, if_pos hfinite⟩
  · exact fun _ => rfl
  · exact fun _ => rfl

/-- A color is read from one hash token with the digits of a color. -/
theorem color_reads_iff {c : Color} :
    color.Reads text c ↔
      ∃ name, Token.list text = [.hash name] ∧ Color.ofHex? ("#" ++ name) = some c := by
  rw [color, token_reads_iff]
  · constructor
    · rintro ⟨found, hlist, hmeaning⟩
      split at hmeaning
      · split at hmeaning
        · cases hmeaning
          exact ⟨_, hlist, ‹_›⟩
        · cases hmeaning
      · cases hmeaning
    · rintro ⟨name, hlist, hname⟩
      refine ⟨_, hlist, ?_⟩
      simp only [hname]
  · exact fun _ => rfl
  · exact fun _ => rfl

/-- A length is read from one dimension token, or from a bare number, in range. -/
theorem length_reads_iff {x : Single} {unit : LengthUnit} :
    length.Reads text (x, unit) ↔
      x.isFinite = true ∧ 0 ≤ x ∧
        ((∃ suffix, Token.list text = [.dimension x suffix] ∧
            Text.sameIgnoringCase suffix unit.suffix = true) ∨
          ∃ i, Token.list text = [.number x i] ∧ unit = .px) := by
  rw [length, token_reads_iff]
  · constructor
    · rintro ⟨found, hlist, hmeaning⟩
      split at hmeaning
      · split at hmeaning
        · rename_i hsuffix
          obtain ⟨rfl, rfl, hfinite, hsign⟩ := map_sized_eq_ok hmeaning
          obtain ⟨rest, hnext, -⟩ := Token.list_eq_cons_iff.mp hlist
          exact ⟨hfinite, hsign, .inl ⟨_, hlist,
            (LengthUnit.ofSuffix?_eq_some_iff (Token.unit_ne_of_next hnext)).mp hsuffix⟩⟩
        · cases hmeaning
      · obtain ⟨rfl, rfl, hfinite, hsign⟩ := map_sized_eq_ok hmeaning
        exact ⟨hfinite, hsign, .inr ⟨_, hlist, rfl⟩⟩
      · cases hmeaning
    · rintro ⟨hfinite, hsign, ⟨suffix, hlist, hsuffix⟩ | ⟨i, hlist, rfl⟩⟩
      · obtain ⟨rest, hnext, -⟩ := Token.list_eq_cons_iff.mp hlist
        refine ⟨_, hlist, ?_⟩
        simp only [(LengthUnit.ofSuffix?_eq_some_iff (Token.unit_ne_of_next hnext)).mpr hsuffix,
          sized_of_inRange hfinite hsign, Except.map]
      · refine ⟨_, hlist, ?_⟩
        simp only [sized_of_inRange hfinite hsign, Except.map]
  · exact fun _ => rfl
  · exact fun _ => rfl

/-- A percentage is read from one percentage token, in range. -/
theorem percentage_reads_iff {x : Single} :
    percentage.Reads text x ↔
      ∃ fraction, Token.list text = [.percentage fraction] ∧
        x = percentageOf (Token.leading text) fraction ∧ x.isFinite = true ∧ 0 ≤ x := by
  have hleading : ∀ {found : Token} {rest : List Char}, Token.next text = some (found, rest) →
      Cursor.upTo { rest := text } ⟨rest, found.opens?⟩ = Token.leading text := by
    intro found rest hnext
    rw [Cursor.upTo, Token.leading, hnext]
  constructor
  · rintro ⟨after, hread, hend⟩
    have hnone := Cursor.isExhausted_iff.mp hend
    unfold percentage at hread
    rcases Cursor.next_cases { rest := text } with ⟨-, hnext⟩ | ⟨found, rest, hnext, hfound⟩
    · rw [hnext] at hread
      cases hread
    · rw [hfound] at hread
      split at hread
      · rename_i heq
        cases heq
        rw [hleading hnext] at hread
        obtain ⟨hsized, rfl⟩ := Prod.mk.inj hread
        obtain ⟨rfl, hsize⟩ := sized_eq_ok hsized
        exact ⟨_, Token.list_eq_cons_iff.mpr ⟨rest, hnext, Token.list_of_next_none hnone⟩, rfl,
          hsize⟩
      · cases hread
  · rintro ⟨fraction, hlist, rfl, hfinite, hsign⟩
    obtain ⟨rest, hnext, hrest⟩ := Token.list_eq_cons_iff.mp hlist
    have hcursor : Cursor.next { rest := text } =
        (some (.percentage fraction), ⟨rest, (Token.percentage fraction).opens?⟩) :=
      Cursor.next_of_some hnext
    refine ⟨⟨rest, none⟩, ?_, Cursor.isExhausted_iff.mpr (Token.list_eq_nil_iff.mp hrest)⟩
    simp only [percentage, hcursor, hleading hnext, sized_of_inRange hfinite hsign]
    rfl

theorem number_eq_of_next {x : Single} {i : Option Int32} {rest : List Char}
    (hnext : Token.next text = some (.number x i, rest)) (hfinite : x.isFinite = true) :
    number ⟨text, none⟩ = (.ok x, ⟨rest, none⟩) := by
  have hcursor : Cursor.next ⟨text, none⟩ = (some (.number x i), ⟨rest, none⟩) :=
    Cursor.next_of_some hnext
  simp only [number, token, hcursor, if_pos hfinite]

/-- A ratio is one number, or the quotient of two with a stroke between them. -/
theorem ratio_reads_iff {x : Single} :
    ratio.Reads text x ↔
      (∃ i, Token.list text = [.number x i] ∧ x.isFinite = true ∧ 0 ≤ x) ∨
        ∃ width i height j,
          Token.list text = [.number width i, .delimiter '/', .number height j] ∧
          width.isFinite = true ∧ height.isFinite = true ∧ ¬ width < 0 ∧ ¬ height ≤ 0 ∧
          x = width / height := by
  constructor
  · rintro ⟨after, hread, hend⟩
    exact ratio_eq_ok hread hend
  · rintro (⟨i, hlist, hfinite, hsign⟩ | ⟨width, i, height, j, hlist, hw, hh, hw₀, hh₀, rfl⟩)
    · obtain ⟨rest, hnext, hrest⟩ := Token.list_eq_cons_iff.mp hlist
      have hend := Token.list_eq_nil_iff.mp hrest
      -- where the stroke is looked for, the text is over
      have hnone : Cursor.next ⟨rest, none⟩ = (none, ⟨[], none⟩) := Cursor.next_of_none hend
      refine ⟨⟨rest, none⟩, ?_, Cursor.isExhausted_iff.mpr hend⟩
      simp only [ratio, number_eq_of_next hnext hfinite, hnone, quotient_one hfinite hsign]
    · obtain ⟨rest, hnext, hrest⟩ := Token.list_eq_cons_iff.mp hlist
      obtain ⟨rest', hstroke, hrest'⟩ := Token.list_eq_cons_iff.mp hrest
      obtain ⟨rest'', hnext', hend⟩ := Token.list_eq_cons_iff.mp hrest'
      have hcursor : Cursor.next ⟨rest, none⟩ = (some (.delimiter '/'), ⟨rest', none⟩) :=
        Cursor.next_of_some hstroke
      refine ⟨⟨rest'', none⟩, ?_, Cursor.isExhausted_iff.mpr (Token.list_eq_nil_iff.mp hend)⟩
      simp only [ratio, number_eq_of_next hnext hw, hcursor, number_eq_of_next hnext' hh,
        quotient_of_signs hw₀ hh₀]

end Reader

/-! ## Spellings -/

/-- Whether a text spells a value: which tokens it consists of. Words and units are spelled in
either case. -/
inductive Spells (text : List Char) : Value → Prop where
  | none {name : String} (tokens : Token.list text = [.word name])
      (same : Text.sameIgnoringCase name "none" = true) : Spells text .none
  | auto {name : String} (tokens : Token.list text = [.word name])
      (same : Text.sameIgnoringCase name "auto" = true) : Spells text .auto
  | keyword {name : String} {e : Enumeration} {k : Keyword e}
      (tokens : Token.list text = [.word name])
      (same : Text.sameIgnoringCase name k.name = true) : Spells text (.keyword k)
  | integer {x : Single} {n : Int32} (tokens : Token.list text = [.number x (some n)]) :
      Spells text (.integer n)
  | number {x : Single} {i : Option Int32} (tokens : Token.list text = [.number x i])
      (finite : x.isFinite = true) : Spells text (.number x)
  /-- The width of a ratio whose height is one. -/
  | width {x : Single} {i : Option Int32} (tokens : Token.list text = [.number x i])
      (finite : x.isFinite = true) (sign : 0 ≤ x) : Spells text (.ratio x)
  /-- A width and a height. Their quotient need not be finite. -/
  | quotient {width height : Single} {i j : Option Int32}
      (tokens : Token.list text = [.number width i, .delimiter '/', .number height j])
      (finite : width.isFinite = true ∧ height.isFinite = true)
      (signs : 0 ≤ width ∧ 0 < height) : Spells text (.ratio (width / height))
  | percentage {x fraction : Single} (tokens : Token.list text = [.percentage fraction])
      (written : x = Reader.percentageOf (Token.leading text) fraction)
      (finite : x.isFinite = true) (sign : 0 ≤ x) : Spells text (.percentage x)
  /-- A bare number of pixels. -/
  | pixels {x : Single} {i : Option Int32} (tokens : Token.list text = [.number x i])
      (finite : x.isFinite = true) (sign : 0 ≤ x) : Spells text (.pixels x)
  | length {x : Single} {name : String} {unit : LengthUnit}
      (tokens : Token.list text = [.dimension x name])
      (same : Text.sameIgnoringCase name unit.suffix = true)
      (finite : x.isFinite = true) (sign : 0 ≤ x) : Spells text (.length x unit)
  | color {name : String} {c : Color} (tokens : Token.list text = [.hash name])
      (digits : Color.ofHex? ("#" ++ name) = some c) : Spells text (.color c)

namespace Reader

variable {text : List Char} {v : Value}

/-- What is spelled is read. -/
theorem reads_of_spells (h : Spells text v) : (value v.kind).Reads text v := by
  cases h with
  | none tokens same => exact map_reads_iff.mpr ⟨(), word_reads_iff.mpr ⟨_, tokens, same⟩, rfl⟩
  | auto tokens same => exact map_reads_iff.mpr ⟨(), word_reads_iff.mpr ⟨_, tokens, same⟩, rfl⟩
  | keyword tokens same =>
    exact map_reads_iff.mpr ⟨_, keyword_reads_iff.mpr ⟨_, tokens, same⟩, rfl⟩
  | integer tokens => exact map_reads_iff.mpr ⟨_, integer_reads_iff.mpr ⟨_, tokens⟩, rfl⟩
  | number tokens finite =>
    exact map_reads_iff.mpr ⟨_, number_reads_iff.mpr ⟨_, tokens, finite⟩, rfl⟩
  | width tokens finite sign =>
    exact map_reads_iff.mpr ⟨_, ratio_reads_iff.mpr (.inl ⟨_, tokens, finite, sign⟩), rfl⟩
  | quotient tokens finite signs =>
    refine map_reads_iff.mpr ⟨_, ratio_reads_iff.mpr (.inr ⟨_, _, _, _, tokens, finite.1, finite.2,
      ?_, ?_, rfl⟩), rfl⟩
    · exact (Binary.not_lt_zero_iff finite.1).mpr signs.1
    · exact (Binary.not_le_zero_iff finite.2).mpr signs.2
  | percentage tokens written finite sign =>
    exact map_reads_iff.mpr
      ⟨_, percentage_reads_iff.mpr ⟨_, tokens, written, finite, sign⟩, rfl⟩
  | pixels tokens finite sign =>
    exact map_reads_iff.mpr ⟨(_, .px), length_reads_iff.mpr ⟨finite, sign, .inr ⟨_, tokens, rfl⟩⟩,
      rfl⟩
  | length tokens same finite sign =>
    exact map_reads_iff.mpr ⟨(_, _), length_reads_iff.mpr ⟨finite, sign, .inl ⟨_, tokens, same⟩⟩,
      rfl⟩
  | color tokens digits =>
    exact map_reads_iff.mpr ⟨_, color_reads_iff.mpr ⟨_, tokens, digits⟩, rfl⟩

/-- What is read is spelled. -/
theorem spells_of_reads {kind : Kind} (h : (value kind).Reads text v) :
    v.kind = kind ∧ Spells text v := by
  cases kind with
  | none =>
    obtain ⟨_, hread, rfl⟩ := map_reads_iff.mp h
    obtain ⟨name, tokens, same⟩ := word_reads_iff.mp hread
    exact ⟨rfl, .none tokens same⟩
  | auto =>
    obtain ⟨_, hread, rfl⟩ := map_reads_iff.mp h
    obtain ⟨name, tokens, same⟩ := word_reads_iff.mp hread
    exact ⟨rfl, .auto tokens same⟩
  | integer =>
    obtain ⟨n, hread, rfl⟩ := map_reads_iff.mp h
    obtain ⟨x, tokens⟩ := integer_reads_iff.mp hread
    exact ⟨rfl, .integer tokens⟩
  | keyword e =>
    obtain ⟨k, hread, rfl⟩ := map_reads_iff.mp h
    obtain ⟨name, tokens, same⟩ := keyword_reads_iff.mp hread
    exact ⟨rfl, .keyword tokens same⟩
  | ratio =>
    obtain ⟨x, hread, rfl⟩ := map_reads_iff.mp h
    refine ⟨rfl, ?_⟩
    obtain ⟨i, tokens, finite, sign⟩ | ⟨width, i, height, j, tokens, hw, hh, hw₀, hh₀, rfl⟩ :=
      ratio_reads_iff.mp hread
    · exact .width tokens finite sign
    · exact .quotient tokens ⟨hw, hh⟩
        ⟨(Binary.not_lt_zero_iff hw).mp hw₀, (Binary.not_le_zero_iff hh).mp hh₀⟩
  | percentage =>
    obtain ⟨x, hread, rfl⟩ := map_reads_iff.mp h
    obtain ⟨fraction, tokens, written, finite, sign⟩ := percentage_reads_iff.mp hread
    exact ⟨rfl, .percentage tokens written finite sign⟩
  | number =>
    obtain ⟨x, hread, rfl⟩ := map_reads_iff.mp h
    obtain ⟨i, tokens, finite⟩ := number_reads_iff.mp hread
    exact ⟨rfl, .number tokens finite⟩
  | length =>
    obtain ⟨⟨x, unit⟩, hread, rfl⟩ := map_reads_iff.mp h
    obtain ⟨finite, sign, ⟨name, tokens, same⟩ | ⟨i, tokens, rfl⟩⟩ := length_reads_iff.mp hread
    · exact ⟨rfl, .length tokens same finite sign⟩
    · exact ⟨rfl, .pixels tokens finite sign⟩
  | color =>
    obtain ⟨c, hread, rfl⟩ := map_reads_iff.mp h
    obtain ⟨name, tokens, digits⟩ := color_reads_iff.mp hread
    exact ⟨rfl, .color tokens digits⟩

end Reader

/-- A text is read as what it spells, blanks at its ends left aside. -/
theorem Value.ofText?_eq_some_iff_spells {kind : Kind} {text : String} {v : Value} :
    ofText? kind text = some v ↔
      v.kind = kind ∧ Spells (Text.trim Text.isBlank text.toList) v := by
  refine ofText?_eq_some.trans ⟨Reader.spells_of_reads, ?_⟩
  rintro ⟨rfl, hspells⟩
  exact Reader.reads_of_spells hspells

/-- **A text is accepted as what its tokens spell**, once blanks at its ends are left aside: it is
read as a value of a kind exactly if it spells that value, and as none if it spells no value of the
kind. -/
theorem Raw.toValue?_text_iff (kind : Kind) (text : String) :
    (∀ v, (Raw.text text).toValue? kind = some v ↔
      v.kind = kind ∧ Spells (Text.trim Text.isBlank text.toList) v) ∧
      ((Raw.text text).toValue? kind = none ↔
        ∀ v, v.kind = kind → ¬ Spells (Text.trim Text.isBlank text.toList) v) := by
  have hread : ∀ v, (Raw.text text).toValue? kind = some v ↔
      v.kind = kind ∧ Spells (Text.trim Text.isBlank text.toList) v :=
    fun v => Value.ofText?_eq_some_iff_spells
  refine ⟨hread, ?_⟩
  rw [Option.eq_none_iff_forall_ne_some]
  exact forall_congr' fun v => (not_congr (hread v)).trans not_and

/-- A ratio may be written with blanks and comments, but with no third number. -/
example :
    (Raw.text " 16 /* to */ / 9 ").toValue? .ratio = some (.ratio (16 / 9)) ∧
      (Raw.text "16 / 9 / 4").toValue? .ratio = none := by
  decide +kernel

end FlexStyle

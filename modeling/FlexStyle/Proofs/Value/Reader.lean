import FlexStyle.Proofs.Binary
import FlexStyle.Value.Reader

/-!
# What readers read

A text is the list of its tokens, and a value is read from one of them, or from three if it is a
ratio with a stroke.

- `Token.list_of_next`: the tokens of a text, one by one.
- `Reader.token_eq_ok`, `Reader.map_eq_ok`: a reader has read something.
- `Reader.ratio_eq_ok`: what a ratio is read from.
- `Value.ofText?_eq_some`: the value of a text.
-/

namespace FlexStyle

namespace Token

/-- The tokens of a text are the next one and those of what comes after it. -/
theorem list_of_next {text rest : List Char} {token : Token} (h : next text = some (token, rest)) :
    list text = token :: list rest := by
  rw [list]
  split
  · rename_i hnone
    rw [h] at hnone
    cases hnone
  · rename_i hsome
    rw [h] at hsome
    cases hsome
    rfl

theorem list_of_next_none {text : List Char} (h : next text = none) : list text = [] := by
  rw [list]
  split
  · rfl
  · rename_i hsome
    rw [h] at hsome
    cases hsome

end Token

namespace Cursor

/-- A cursor moves behind the next token, and keeps in mind what that has opened. -/
theorem next_of_some {cursor : Cursor} {token : Token} {rest : List Char}
    (h : Token.next cursor.ahead = some (token, rest)) :
    cursor.next = (some token, ⟨rest, token.opens?⟩) := by
  rw [next, h]

theorem next_of_none {cursor : Cursor} (h : Token.next cursor.ahead = none) :
    cursor.next = (none, ⟨[], none⟩) := by
  rw [next, h]

/-- There is a next token, or none. -/
theorem next_cases (cursor : Cursor) :
    (Token.next cursor.ahead = none ∧ cursor.next = (none, ⟨[], none⟩)) ∨
      ∃ token rest, Token.next cursor.ahead = some (token, rest) ∧
        cursor.next = (some token, ⟨rest, token.opens?⟩) := by
  cases h : Token.next cursor.ahead with
  | none => exact .inl ⟨rfl, next_of_none h⟩
  | some found => exact .inr ⟨found.1, found.2, rfl, next_of_some h⟩

/-- A cursor is at the end if no token comes next. -/
theorem isExhausted_iff {cursor : Cursor} :
    cursor.isExhausted = true ↔ Token.next cursor.ahead = none := by
  rw [isExhausted]
  rcases cursor.next_cases with ⟨hnone, hnext⟩ | ⟨token, rest, hsome, hnext⟩
  · rw [hnone, hnext]; simp
  · rw [hsome, hnext]; simp

end Cursor

namespace Reader

variable {α β : Type} {cursor after : Cursor}

/-- A reader of one token has taken a token that means what was read. -/
theorem token_eq_ok {meaning : Token → Except ReadError α} {a : α}
    (h : token meaning cursor = (.ok a, after)) :
    ∃ found rest, Token.next cursor.ahead = some (found, rest) ∧ meaning found = .ok a ∧
      after = ⟨rest, found.opens?⟩ := by
  unfold token at h
  rcases cursor.next_cases with ⟨-, hnext⟩ | ⟨found, rest, hsome, hnext⟩
  · rw [hnext] at h
    cases h
  · rw [hnext] at h
    obtain ⟨hmeaning, hafter⟩ := Prod.mk.inj h
    exact ⟨found, rest, hsome, hmeaning, hafter.symm⟩

/-- What a mapped reader has read comes from what the reader has read. -/
theorem map_eq_ok {f : α → β} {reader : Reader α} {b : β}
    (h : reader.map f cursor = (.ok b, after)) :
    ∃ a, reader cursor = (.ok a, after) ∧ f a = b := by
  unfold map at h
  rcases hread : reader cursor with ⟨result, cursor'⟩
  rw [hread] at h
  cases result with
  | error e => cases h
  | ok a =>
    cases h
    exact ⟨a, rfl, rfl⟩

/-! ## Numbers -/

/-- A size that is accepted is finite and not negative. -/
theorem sized_eq_ok {x y : Single} (h : sized x = .ok y) :
    y = x ∧ x.isFinite = true ∧ 0 ≤ x := by
  unfold sized at h
  split at h
  · cases h
  · rename_i hsize
    cases h
    simp only [Bool.or_eq_true, Bool.not_eq_true', decide_eq_true_eq, not_or,
      Bool.not_eq_false] at hsize
    exact ⟨rfl, hsize.1, (Binary.not_lt_zero_iff hsize.1).mp hsize.2⟩

/-- Finite numbers that are not negative are accepted as sizes. -/
theorem sized_of_inRange {x : Single} (hfinite : x.isFinite = true) (hsign : 0 ≤ x) :
    sized x = .ok x := by
  rw [sized, hfinite, if_neg]
  simpa using (Binary.not_lt_zero_iff hfinite).mpr hsign

/-- A quotient that is accepted is that of a width and of a height above zero. -/
theorem quotient_eq_ok {width height x : Single} (h : quotient width height = .ok x) :
    ¬ width < 0 ∧ ¬ height ≤ 0 ∧ x = width / height := by
  unfold quotient at h
  split at h
  · cases h
  · rename_i hsign
    cases h
    simpa using hsign

theorem quotient_of_signs {width height : Single} (hwidth : ¬ width < 0)
    (hheight : ¬ height ≤ 0) : quotient width height = .ok (width / height) := by
  rw [quotient, if_neg]
  simp [hwidth, hheight]

/-- A ratio with one is the number itself. -/
theorem quotient_one {x : Single} (hfinite : x.isFinite = true) (hsign : 0 ≤ x) :
    quotient x 1 = .ok x := by
  have hone : ¬ (1 : Single) ≤ 0 := by decide +kernel
  rw [quotient_of_signs ((Binary.not_lt_zero_iff hfinite).mpr hsign) hone, Binary.div_one hfinite]

/-- A number is read from a number token, and is finite. -/
theorem number_eq_ok {x : Single} (h : number cursor = (.ok x, after)) :
    x.isFinite = true ∧ ∃ i rest, Token.next cursor.ahead = some (.number x i, rest) ∧
      after = ⟨rest, none⟩ := by
  obtain ⟨found, rest, hnext, hmeaning, hafter⟩ := token_eq_ok h
  cases found with
  | number y i =>
    obtain ⟨hfinite, hx⟩ : y.isFinite = true ∧ y = x := by
      dsimp only at hmeaning
      split at hmeaning
      · cases hmeaning
        exact ⟨‹_›, rfl⟩
      · cases hmeaning
    subst hx
    exact ⟨hfinite, i, rest, hnext, hafter⟩
  | _ => cases hmeaning

theorem map_sized_eq_ok {x y : Single} {unit unit' : LengthUnit}
    (h : (sized x).map (·, unit) = .ok (y, unit')) :
    y = x ∧ unit' = unit ∧ x.isFinite = true ∧ 0 ≤ x := by
  cases hx : sized x with
  | error e =>
    rw [hx] at h
    cases h
  | ok z =>
    rw [hx] at h
    cases h
    exact ⟨(sized_eq_ok hx).1, rfl, (sized_eq_ok hx).2⟩

/-- A percentage that is read is finite and not negative. -/
theorem percentage_eq_ok {x : Single} (h : percentage cursor = (.ok x, after)) :
    x.isFinite = true ∧ 0 ≤ x := by
  unfold percentage at h
  split at h
  · obtain ⟨rfl, hsize⟩ := sized_eq_ok (Prod.mk.inj h).1
    exact hsize
  · cases h

/-- A length that is read is finite and not negative. -/
theorem length_eq_ok {x : Single} {unit : LengthUnit} (h : length cursor = (.ok (x, unit), after)) :
    x.isFinite = true ∧ 0 ≤ x := by
  obtain ⟨found, rest, -, hmeaning, -⟩ := token_eq_ok h
  split at hmeaning
  · -- a dimension, in a unit that is known
    split at hmeaning
    · obtain ⟨rfl, -, hsize⟩ := map_sized_eq_ok hmeaning
      exact hsize
    · cases hmeaning
  · -- a bare number of pixels
    obtain ⟨rfl, -, hsize⟩ := map_sized_eq_ok hmeaning
    exact hsize
  · cases hmeaning

/-- A ratio is read from a number alone, and is that number, or from two with a stroke between
them, and is their quotient. -/
theorem ratio_eq_ok {text : List Char} {x : Single}
    (h : ratio { rest := text } = (.ok x, after)) (hend : after.isExhausted = true) :
    (∃ i, Token.list text = [.number x i] ∧ x.isFinite = true ∧ 0 ≤ x) ∨
      ∃ width i height j,
        Token.list text = [.number width i, .delimiter '/', .number height j] ∧
        width.isFinite = true ∧ height.isFinite = true ∧ ¬ width < 0 ∧ ¬ height ≤ 0 ∧
        x = width / height := by
  have hnone := Cursor.isExhausted_iff.mp hend
  unfold ratio at h
  rcases hwidth : number { rest := text } with ⟨result, cursor⟩
  rw [hwidth] at h
  cases result with
  | error e => cases h
  | ok width =>
    obtain ⟨hfinite, i, rest, hnext, rfl⟩ := number_eq_ok hwidth
    have hfirst : Token.list text = .number width i :: Token.list rest := Token.list_of_next hnext
    dsimp only at h
    split at h
    · -- a stroke follows, and then the height
      rename_i stroke hstroke
      rcases Cursor.next_cases ⟨rest, none⟩ with ⟨-, hnext'⟩ | ⟨found, rest', hnext', hfound⟩
      · rw [hnext'] at hstroke
        cases hstroke
      · rw [hfound] at hstroke
        cases hstroke
        split at h
        · cases h
        · rename_i height after' hheight
          obtain ⟨hfinite', j, rest'', hnext'', rfl⟩ := number_eq_ok hheight
          obtain ⟨hquotient, rfl⟩ := Prod.mk.inj h
          obtain ⟨hw, hh, hx⟩ := quotient_eq_ok hquotient
          have hsecond : Token.list rest = .delimiter '/' :: Token.list rest' :=
            Token.list_of_next hnext'
          have hthird : Token.list rest' = .number height j :: Token.list rest'' :=
            Token.list_of_next hnext''
          have hlast : Token.list rest'' = [] := Token.list_of_next_none hnone
          refine .inr ⟨width, i, height, j, ?_, hfinite, hfinite', hw, hh, hx⟩
          rw [hfirst, hsecond, hthird, hlast]
    · -- the width stands alone
      obtain ⟨hquotient, rfl⟩ := Prod.mk.inj h
      obtain ⟨hw, -, hx⟩ := quotient_eq_ok hquotient
      rw [Binary.div_one hfinite] at hx
      subst hx
      have hlast : Token.list rest = [] := Token.list_of_next_none hnone
      refine .inl ⟨i, ?_, hfinite, (Binary.not_lt_zero_iff hfinite).mp hw⟩
      rw [hfirst, hlast]

end Reader

/-- The value of a text is read from the whole of it. -/
theorem Value.ofText?_eq_some {kind : Kind} {text : String} {v : Value} :
    Value.ofText? kind text = some v ↔
      ∃ after, Reader.value kind { rest := Text.trim Text.isBlank text.toList } = (.ok v, after) ∧
        after.isExhausted = true := by
  unfold Value.ofText?
  rcases Reader.value kind { rest := Text.trim Text.isBlank text.toList } with ⟨result, after⟩
  cases result with
  | error e => simp
  | ok w => simp [and_comm]

end FlexStyle

import FlexStyle.Text
import Mathlib.Data.List.DropRight
import Mathlib.Data.List.TakeWhile

/-!
# Pieces of text that stay as they are

- `Text.lower_eq_self`, `Text.trim_eq_self`: texts that lower case and trimming do not change.
- `Text.isTight`, `Text.isTight_trim`: texts with nothing to be trimmed away.
- `Text.isBare`: the characters that values are written with.
- `Text.words_intercalate`: pieces without spaces, put together with a space between two, are the
  words of what they make.
-/

namespace FlexStyle.Text

/-! ## Classes of characters -/

theorem isDigit_iff {c : Char} : c.isDigit = true ↔ 48 ≤ c.toNat ∧ c.toNat ≤ 57 := by
  show (decide _ && decide _) = true ↔ _
  rw [Bool.and_eq_true, decide_eq_true_eq, decide_eq_true_eq]
  rfl

theorem isUpper_iff {c : Char} : c.isUpper = true ↔ 65 ≤ c.toNat ∧ c.toNat ≤ 90 := by
  show decide _ = true ↔ _
  rw [decide_eq_true_eq]
  rfl

theorem isAlpha_iff {c : Char} :
    c.isAlpha = true ↔ (65 ≤ c.toNat ∧ c.toNat ≤ 90) ∨ 97 ≤ c.toNat ∧ c.toNat ≤ 122 := by
  show (c.isUpper || (decide _ && decide _)) = true ↔ _
  rw [Bool.or_eq_true, isUpper_iff, Bool.and_eq_true, decide_eq_true_eq, decide_eq_true_eq]
  rfl

/-- Only capitals have another letter in lower case. -/
theorem toLower_of_not_isUpper {c : Char} (h : c.isUpper = false) : c.toLower = c :=
  dif_neg (of_decide_eq_false h)

theorem not_isUpper_of_isDigit {c : Char} (h : c.isDigit = true) : c.isUpper = false := by
  rw [isDigit_iff] at h
  rw [Bool.eq_false_iff, ne_eq, isUpper_iff]
  omega

theorem not_isDigit_of_isAlpha {c : Char} (h : c.isAlpha = true) : c.isDigit = false := by
  rw [isAlpha_iff] at h
  rw [Bool.eq_false_iff, ne_eq, isDigit_iff]
  omega

/-- A text without capitals is in lower case. -/
theorem lower_eq_self {text : String} (h : ∀ c ∈ text.toList, c.isUpper = false) :
    lower text = text := by
  refine String.toList_inj.mp ?_
  rw [lower, String.toList_map]
  exact (List.map_congr_left fun c hc => toLower_of_not_isUpper (h c hc)).trans (List.map_id _)

/-- Small letters are 32 behind the capitals. -/
theorem toNat_toLower_of_isUpper {c : Char} (h : c.isUpper = true) :
    c.toLower.toNat = c.toNat + 32 := by
  have hrange := isUpper_iff.mp h
  have hlower : c.toLower.val = c.val + 32 := congrArg Char.val (dif_pos (of_decide_eq_true h))
  show c.toLower.val.toNat = c.val.toNat + 32
  rw [hlower, UInt32.toNat_add, Nat.mod_eq_of_lt]
  · rfl
  · show c.toNat + 32 < 2 ^ 32
    omega

theorem not_isUpper_toLower (c : Char) : c.toLower.isUpper = false := by
  cases hupper : c.isUpper with
  | false => rw [toLower_of_not_isUpper hupper, hupper]
  | true =>
    have hrange := isUpper_iff.mp hupper
    rw [Bool.eq_false_iff, ne_eq, isUpper_iff, toNat_toLower_of_isUpper hupper]
    omega

/-- A character that is no letter is the lower case of itself alone. -/
theorem toLower_eq_iff {c x : Char} (hx : x.isAlpha = false) : c.toLower = x ↔ c = x := by
  cases hupper : c.isUpper with
  | false => rw [toLower_of_not_isUpper hupper]
  | true =>
    have hrange := isUpper_iff.mp hupper
    rw [Bool.eq_false_iff, ne_eq, isAlpha_iff] at hx
    constructor
    · rintro rfl
      rw [toNat_toLower_of_isUpper hupper] at hx
      omega
    · rintro rfl
      omega

/-- Spaces are the same in lower case. -/
theorem isSpace_toLower (c : Char) : isSpace c.toLower = isSpace c := by
  have hspace : ∀ x, x.isAlpha = false → decide (c.toLower = x) = decide (c = x) :=
    fun x hx => decide_eq_decide.mpr (toLower_eq_iff hx)
  rw [isSpace, isNewline, hspace ' ' rfl, hspace '\t' rfl, hspace '\n' rfl, hspace '\x0c' rfl,
    hspace '\r' rfl]
  rfl

/-- Texts are the same up to case if they are the same in lower case. -/
theorem sameIgnoringCase_iff {a b : String} : sameIgnoringCase a b = true ↔ lower a = lower b :=
  decide_eq_true_iff

@[simp] theorem sameIgnoringCase_self (text : String) : sameIgnoringCase text text = true := by
  simp [sameIgnoringCase]

/-! ## Bare characters -/

/-- The characters that values are written with: no blanks, and none that end a declaration. -/
def isBare (c : Char) : Bool := c.isAlphanum || c = '-' || c = '.' || c = '%' || c = '#'

/-- Bare characters are not trimmed away. -/
theorem isBlank_of_isBare {c : Char} (h : isBare c = true) : isBlank c = false := by
  have hrange : 33 ≤ c.toNat ∧ c.toNat ≤ 126 := by
    simp only [isBare, Bool.or_eq_true, decide_eq_true_eq] at h
    rcases h with (((h | rfl) | rfl) | rfl) | rfl
    · rw [Char.isAlphanum, Bool.or_eq_true, isAlpha_iff, isDigit_iff] at h
      omega
    all_goals decide
  simp only [isBlank, Bool.or_eq_false_iff, Bool.and_eq_false_iff, decide_eq_false_iff_not]
  omega

/-- Bare characters do not separate words. -/
theorem isSpace_of_isBare {c : Char} (h : isBare c = true) : isSpace c = false := by
  by_contra hspace
  have hblank := isBlank_of_isSpace (Bool.not_eq_false _ ▸ hspace)
  rw [isBlank_of_isBare h] at hblank
  cases hblank

/-- Bare characters separate neither declarations nor their parts. -/
theorem ne_of_isBare {c : Char} (h : isBare c = true) : c ≠ ':' ∧ c ≠ ';' := by
  constructor <;> rintro rfl <;> exact absurd h (by decide)

/-- Whether a text consists of bare characters. -/
def Bare (text : List Char) : Prop := ∀ c ∈ text, isBare c = true

-- over the text: another instance goes through all characters there are
instance (text : List Char) : Decidable (Bare text) :=
  decidable_of_iff (text.all isBare = true) List.all_eq_true

theorem Bare.append {first second : List Char} (h₁ : Bare first) (h₂ : Bare second) :
    Bare (first ++ second) := by
  intro c hc
  rcases List.mem_append.mp hc with hc | hc
  · exact h₁ c hc
  · exact h₂ c hc

/-- Digits are bare. -/
theorem bare_of_digits {digits : List Char} (h : ∀ c ∈ digits, c.isDigit = true) :
    Bare digits := by
  intro c hc
  simp [isBare, Char.isAlphanum, h c hc]

/-! ## Trimming -/

/-- A text is trimmed already if the characters at its ends are of another class. -/
theorem trim_eq_self {p : Char → Bool} {text : List Char}
    (hfirst : text.head?.all (!p ·) = true) (hlast : text.getLast?.all (!p ·) = true) :
    trim p text = text := by
  have hdrop : ∀ {row : List Char}, row.head?.all (!p ·) = true → row.dropWhile p = row := by
    intro row hrow
    cases row with
    | nil => rfl
    | cons c rest => exact List.dropWhile_cons_of_neg (by simpa using hrow)
  rw [trim, hdrop hfirst, hdrop (by rwa [List.head?_reverse]), List.reverse_reverse]

/-- Whether the characters at the ends of a text are of another class. -/
def isTight (p : Char → Bool) (text : List Char) : Bool :=
  text.head?.all (!p ·) && text.getLast?.all (!p ·)

/-- Trimming leaves a text alone if nothing is to be trimmed at its ends. -/
theorem trim_of_isTight {p : Char → Bool} {text : List Char} (h : isTight p text = true) :
    trim p text = text := by
  obtain ⟨hfirst, hlast⟩ := (Bool.and_eq_true _ _).mp h
  exact trim_eq_self hfirst hlast

/-- What is left when a text has been trimmed is a part of it. -/
theorem trim_sublist (p : Char → Bool) (text : List Char) : (trim p text).Sublist text := by
  have hend : (trim p text).Sublist (text.dropWhile p) := by
    rw [← List.reverse_sublist, trim, List.reverse_reverse]
    exact List.dropWhile_sublist p
  exact hend.trans (List.dropWhile_sublist p)

/-- Trimming leaves no character of the class at the ends. -/
theorem isTight_trim (p : Char → Bool) (text : List Char) : isTight p (trim p text) = true := by
  have hfirst : ∀ row : List Char, (row.dropWhile p).head?.all (!p ·) = true := by
    intro row
    have hhead := List.head?_dropWhile_not p row
    cases h : (row.dropWhile p).head? with
    | none => rfl
    | some c =>
      rw [h] at hhead
      simpa using hhead
  rw [isTight, Bool.and_eq_true]
  constructor
  · -- the first character is the one that is left in front
    have hprefix : trim p text <+: text.dropWhile p := List.rdropWhile_prefix p _
    cases htrim : trim p text with
    | nil => rfl
    | cons c rest =>
      rw [htrim] at hprefix
      obtain ⟨after, hafter⟩ := hprefix
      have hhead := hfirst text
      rwa [← hafter] at hhead
  · rw [trim, List.getLast?_reverse]
    exact hfirst _

/-- Trimming leaves a text alone if nothing in it is to be trimmed. -/
theorem trim_of_forall {p : Char → Bool} {text : List Char} (h : ∀ c ∈ text, p c = false) :
    trim p text = text := by
  refine trim_eq_self ?_ ?_
  · cases hhead : text.head? with
    | none => rfl
    | some c => simp [h c (List.mem_of_mem_head? hhead)]
  · cases hlast : text.getLast? with
    | none => rfl
    | some c => simp [h c (List.mem_of_mem_getLast? hlast)]

/-- Characters of the class in front of a text are trimmed away. -/
theorem trim_append_left {p : Char → Bool} (lead text : List Char)
    (h : ∀ c ∈ lead, p c = true) : trim p (lead ++ text) = trim p text := by
  rw [trim, trim, List.dropWhile_append_of_pos h]

/-! ## Words -/

/-- Pieces without spaces are the words of a text that has a space between two of them. -/
theorem words_intercalate {pieces : List (List Char)}
    (h : ∀ piece ∈ pieces, piece ≠ [] ∧ ∀ c ∈ piece, isSpace c = false) :
    words ([' '].intercalate pieces) = pieces := by
  induction pieces with
  | nil => rfl
  | cons piece rest ih =>
    obtain ⟨hne, hspace⟩ := h piece List.mem_cons_self
    have hrest := ih fun other hmem => h other (List.mem_cons_of_mem _ hmem)
    cases rest with
    | nil =>
      rw [List.intercalate_singleton, words, List.splitOnP_eq_singleton hspace]
      simp [hne]
    | cons next rest =>
      rw [List.intercalate_cons_cons, List.append_assoc, List.singleton_append, words,
        List.splitOnP_append_cons_of_forall_mem hspace ' ' (by decide),
        List.filter_cons_of_pos (by simp [hne])]
      exact congrArg _ hrest

/-- Joined pieces hold their own characters, and spaces. -/
theorem mem_intercalate {pieces : List (List Char)} {c : Char}
    (h : c ∈ [' '].intercalate pieces) : c = ' ' ∨ ∃ piece ∈ pieces, c ∈ piece := by
  induction pieces with
  | nil => cases h
  | cons piece rest ih =>
    cases rest with
    | nil =>
      rw [List.intercalate_singleton] at h
      exact .inr ⟨piece, List.mem_cons_self, h⟩
    | cons next rest =>
      rw [List.intercalate_cons_cons, List.mem_append, List.mem_append] at h
      rcases h with (h | h) | h
      · exact .inr ⟨piece, List.mem_cons_self, h⟩
      · exact .inl (List.mem_singleton.mp h)
      · rcases ih h with h | ⟨other, hmem, hc⟩
        · exact .inl h
        · exact .inr ⟨other, List.mem_cons_of_mem _ hmem, hc⟩

theorem intercalate_ne_nil {piece : List Char} (h : piece ≠ []) (rest : List (List Char)) :
    [' '].intercalate (piece :: rest) ≠ [] := by
  cases rest <;> simp [List.intercalate_cons_cons, h]

/-- The ends of what pieces make are ends of pieces, so that nothing is trimmed away. -/
theorem trim_intercalate {pieces : List (List Char)}
    (h : ∀ piece ∈ pieces, piece ≠ [] ∧ ∀ c ∈ piece, isSpace c = false) :
    trim isSpace ([' '].intercalate pieces) = [' '].intercalate pieces := by
  refine trim_eq_self ?_ ?_
  · cases pieces with
    | nil => rfl
    | cons piece rest =>
      obtain ⟨hne, hspace⟩ := h piece List.mem_cons_self
      obtain ⟨c, tail, rfl⟩ := List.exists_cons_of_ne_nil hne
      have hc := hspace c List.mem_cons_self
      cases rest <;> simp [List.intercalate_cons_cons, hc]
  · -- the last character is that of the last piece
    induction pieces with
    | nil => rfl
    | cons piece rest ih =>
      cases rest with
      | nil =>
        obtain ⟨hne, hspace⟩ := h piece List.mem_cons_self
        have hlast := hspace _ (List.getLast_mem hne)
        simp [List.getLast?_eq_some_getLast hne, hlast]
      | cons next rest =>
        have hrest := ih fun other hmem => h other (List.mem_cons_of_mem _ hmem)
        have hne := intercalate_ne_nil (h next (by simp)).1 rest
        rw [List.getLast?_eq_some_getLast hne] at hrest
        rw [List.intercalate_cons_cons, List.getLast?_append, List.getLast?_eq_some_getLast hne]
        exact hrest

end FlexStyle.Text

import FlexStyle.Proofs.Table.Application
import FlexStyle.Proofs.Tree.History
import Mathlib.Data.List.Induction

/-!
# The words of `flex-flow`

Unlike all other properties, `flex-flow` may leave one of its two fields alone. A value with one
word in place of a value with two is an update, and updates put no initial values back; and a
`flex-flow` of another group, passed later, takes the place of the one that was passed before. So
the box of a node may hold another word than the last one that a live entry carries. There are
exactly two ways in which it comes to that.

- `Table.lastWord?`: the word that the live entries ask for in a field of `flex-flow`.
- `Table.Stale`: no live entry carries a word, and the record keeps one of former times.
- `Table.Displaced`: a removal puts back another word than the last one, which has been forgotten.
- `Table.keyword_applyBox_iff`: one application gives the field the right word, but for these two.
- `Tree.Traced.keyword_eq_iff`: the same of the box of any node that does not wait, in terms of the
  last application of the node.
-/

namespace FlexStyle

/-- The word that a property with values has for a field of `flex-flow`. -/
def Property.word? (field : KeywordField) (p : Property) (values : List Value) :
    Option (Keyword field.enumeration) :=
  match p with
  | keyword field' =>
    if field' = field then values.head?.bind (·.asKeyword? field.enumeration) else none
  | flexFlow => (values.filterMap (·.asKeyword? field.enumeration)).getLast?
  | _ => none

/-- Only the longhand and `flex-flow` write words to a field. -/
theorem Property.eq_or_eq_of_writes {field : KeywordField} {p : Property}
    (h : p.writes (.keyword field) = true) : p = .keyword field ∨ p = .flexFlow := by
  cases p with
  | keyword field' =>
    have heq : field = field' := by simpa [writes] using h
    exact .inl (by rw [heq])
  | flexFlow => exact .inr rfl
  | _ => cases h

/-- The word that a live entry carries. -/
def Entry.word? (field : KeywordField) (entry : Entry Property) :
    Option (Keyword field.enumeration) :=
  if entry.isRemoved then none else entry.key.word? field entry.values

namespace Table

variable {t : Table Property} {field : KeywordField} {metrics : RelativeMetrics}
  {initial style : BoxStyle} {rows : List (Entry Property)}

/-- The last word that some entries carry. -/
def lastWordOf? (field : KeywordField) (rows : List (Entry Property)) :
    Option (Keyword field.enumeration) := rows.reverse.findSome? (·.word? field)

/-- The last word that live entries carry, in the order of application. -/
def lastWord? (t : Table Property) (field : KeywordField) : Option (Keyword field.enumeration) :=
  t.liveList.reverse.findSome? fun (_, p, values) => p.word? field values

/-- The last word that entries of the longhand carry. -/
def longhandWord? (field : KeywordField) (rows : List (Entry Property)) :
    Option (Keyword field.enumeration) :=
  rows.reverse.findSome? fun entry => if entry.key = .keyword field then entry.word? field else none

/-- The word that removals after a `flex-flow` put back: that of the longhand, or else the initial
one, if a property that writes the field is removed. -/
def restored? (field : KeywordField) (initial : BoxStyle) (before after : List (Entry Property)) :
    Option (Keyword field.enumeration) :=
  if kinGone (.keyword field) after then
    (longhandWord? field before).or
      (if writerGone (.keyword field) after then some (initial.keyword field) else none)
  else none

/-- Whether a record keeps a word that no live entry carries: none carries any, and no removal since
the last application puts the initial word back. -/
def Stale (t : Table Property) (field : KeywordField) (initial style : BoxStyle) : Prop :=
  t.lastWord? field = none ∧ writerGone (.keyword field) t.rows = false ∧
    style.keyword field ≠ initial.keyword field

instance (t : Table Property) (field : KeywordField) (initial style : BoxStyle) :
    Decidable (t.Stale field initial style) :=
  inferInstanceAs (Decidable (_ ∧ _ ∧ _))

/-- Whether a `flex-flow` without a word for the field takes the place of an earlier one with the
last word, and a removal further on puts back another word. -/
def Displaced (t : Table Property) (field : KeywordField) (initial : BoxStyle) : Prop :=
  ∃ before cover after word other, t.rows = before ++ cover :: after ∧
    cover.isRemoved = false ∧ cover.key = .flexFlow ∧
    (∀ entry ∈ cover :: after, entry.word? field = none) ∧
    lastWordOf? field before = some word ∧ restored? field initial before after = some other ∧
    other ≠ word

/-! ## Words and assignments -/

theorem lastWord?_eq (t : Table Property) (field : KeywordField) :
    t.lastWord? field = lastWordOf? field t.rows := by
  rw [lastWord?, lastWordOf?, liveList_eq_list, rows, ← List.map_reverse, ← List.filter_reverse,
    List.findSome?_map, ← List.map_reverse, List.findSome?_map]
  induction t.list.reverse with
  | nil => rfl
  | cons item items ih =>
    obtain ⟨g, entry⟩ := item
    cases hrem : entry.isRemoved with
    | false =>
      rw [List.filter_cons_of_pos (by simpa using hrem), List.findSome?_cons, List.findSome?_cons,
        ih]
      simp [Entry.word?, hrem]
    | true =>
      rw [List.filter_cons_of_neg (by simpa using hrem), List.findSome?_cons, ih]
      simp [Entry.word?, hrem]

/-- One word of `flex-flow` is written to the field of its enumeration. -/
theorem bind_at?_flowAssignment? (hf : (Field.keyword field).isFlow = true) (v : Value) :
    (Property.flowAssignment? v).bind (·.at? (.keyword field)) =
      (v.asKeyword? field.enumeration).map Datum.keyword := by
  unfold Property.flowAssignment?
  cases field <;> cases hf
  case flexDirection =>
    show _ = (v.asKeyword? .flexDirection).map Datum.keyword
    cases v.asKeyword? .flexDirection with
    | some k => rfl
    | none => cases v.asKeyword? .flexWrap <;> rfl
  case flexWrap =>
    show _ = (v.asKeyword? .flexWrap).map Datum.keyword
    cases hdirection : v.asKeyword? .flexDirection with
    | none => cases v.asKeyword? .flexWrap <;> rfl
    | some k =>
      -- a keyword is of one enumeration
      cases v with
      | @keyword e k' => cases e <;> first | rfl | cases hdirection
      | _ => cases hdirection

/-- What an entry writes to a field of `flex-flow` is the word that it has for the field. -/
theorem writtenTo?_keyword (hf : (Field.keyword field).isFlow = true) (p : Property)
    (values : List Value) :
    writtenTo? metrics (.keyword field) (p, values) =
      (p.word? field values).map Datum.keyword := by
  rw [writtenTo?]
  cases p with
  | keyword field' =>
    by_cases heq : field' = field
    · subst heq
      rw [Property.word?, if_pos rfl]
      show lastTo? _ ((values.head?.bind _).toList.map _) = _
      cases values.head?.bind (·.asKeyword? field'.enumeration) with
      | none => rfl
      | some k => simp [Assignment.at?]
    · rw [Property.word?, if_neg heq]
      refine Property.lastTo?_assignments_of_not_writes ?_
      simpa [Property.writes] using Ne.symm heq
  | flexFlow =>
    show ((values.filterMap Property.flowAssignment?).filterMap _).getLast? =
      (values.filterMap _).getLast?.map _
    rw [List.filterMap_filterMap, ← List.getLast?_map, List.map_filterMap]
    simp only [bind_at?_flowAssignment? hf]
  | edges shorthand => cases shorthand <;> exact Property.lastTo?_assignments_of_not_writes rfl
  | _ => exact Property.lastTo?_assignments_of_not_writes rfl

theorem writtenTo?_of_live (hf : (Field.keyword field).isFlow = true) {entry : Entry Property}
    (hlive : entry.isRemoved = false) :
    writtenTo? metrics (.keyword field) (entry.key, entry.values) =
      (entry.word? field).map Datum.keyword := by
  rw [writtenTo?_keyword hf, Entry.word?, hlive]
  rfl

/-! ## Rows of entries -/

/-- Whether every live entry of the longhand carries a word. -/
def Spoken (field : KeywordField) (rows : List (Entry Property)) : Prop :=
  ∀ entry ∈ rows, entry.isRemoved = false → entry.key = .keyword field →
    entry.word? field ≠ none

theorem Tidy.spoken (h : t.Tidy) (field : KeywordField) : Spoken field t.rows := by
  intro entry hrow hlive hkey
  obtain ⟨g, hmem⟩ := exists_mem_of_mem_rows hrow
  have hadmits := h.admits (find?_of_mem h.keyed hmem) hlive
  rw [hkey] at hadmits
  obtain ⟨v, hvalues, hv⟩ := hadmits.eq_singleton rfl
  obtain ⟨k, hk⟩ := Property.exists_keyword hv
  simp [Entry.word?, hlive, hkey, hvalues, Property.word?, hk]

theorem isRemoved_of_word? {entry : Entry Property} {word : Keyword field.enumeration}
    (h : entry.word? field = some word) : entry.isRemoved = false := by
  by_contra hrem
  rw [Entry.word?, if_pos (by simpa using hrem)] at h
  cases h

theorem key_of_word? (hf : (Field.keyword field).isFlow = true) {entry : Entry Property}
    {word : Keyword field.enumeration} (h : entry.word? field = some word) :
    entry.key = .keyword field ∨ entry.key = .flexFlow := by
  have hwritten : writtenTo? ⟨0, 0, 0, 0, 0⟩ (.keyword field) (entry.key, entry.values) ≠ none := by
    rw [writtenTo?_of_live hf (isRemoved_of_word? h), h]
    exact Option.some_ne_none _
  exact Property.eq_or_eq_of_writes (writes_of_writtenTo? hwritten)

theorem lastWordOf?_append (before after : List (Entry Property)) :
    lastWordOf? field (before ++ after) =
      (lastWordOf? field after).or (lastWordOf? field before) := by
  rw [lastWordOf?, List.reverse_append, List.findSome?_append]
  rfl

theorem lastWordOf?_eq_none_iff :
    lastWordOf? field rows = none ↔ ∀ entry ∈ rows, entry.word? field = none := by
  rw [lastWordOf?, List.findSome?_eq_none_iff]
  simp only [List.mem_reverse]

/-- The entry that carries the last word, and what comes before and after it. -/
theorem exists_of_lastWordOf? {word : Keyword field.enumeration}
    (h : lastWordOf? field rows = some word) :
    ∃ before carrier after, rows = before ++ carrier :: after ∧
      carrier.word? field = some word ∧ ∀ entry ∈ after, entry.word? field = none := by
  obtain ⟨after, carrier, before, hsplit, hword, hafter⟩ := List.findSome?_eq_some_iff.mp h
  refine ⟨before.reverse, carrier, after.reverse, ?_, hword, fun entry hentry => ?_⟩
  · rw [← List.reverse_inj, hsplit]
    simp
  · exact hafter entry (List.mem_reverse.mp hentry)

/-- Entries without words are quiet if none takes the place of what counts. -/
theorem quiet_of_word?_none (hf : (Field.keyword field).isFlow = true) {passed : Passed}
    (hnone : ∀ entry ∈ rows, entry.word? field = none)
    (hplace : ∀ entry ∈ rows, entry.isRemoved = false → ∀ q d,
      lastPassed? metrics (.keyword field) passed = some (q, d) → q ≠ entry.key) :
    Quiet metrics (.keyword field) passed rows := by
  intro entry hmem hlive
  refine ⟨?_, hplace entry hmem hlive⟩
  rw [writtenTo?_of_live hf hlive, hnone entry hmem]
  rfl

/-- The last word is what the walk leaves in the field, if no later entry takes its place. -/
theorem lastTo?_of_last_word (hf : (Field.keyword field).isFlow = true)
    {before after : List (Entry Property)} {carrier : Entry Property}
    {word : Keyword field.enumeration} (hword : carrier.word? field = some word)
    (hnone : ∀ entry ∈ after, entry.word? field = none)
    (hplace : ∀ entry ∈ after, entry.isRemoved = false → entry.key ≠ carrier.key) :
    lastTo? (.keyword field) (assignmentsAfter metrics initial [] (before ++ carrier :: after)) =
      some (.keyword word) := by
  have hlive := isRemoved_of_word? hword
  have hwritten : writtenTo? metrics (.keyword field) (carrier.key, carrier.values) =
      some (.keyword word) := by
    rw [writtenTo?_of_live hf hlive, hword]
    rfl
  refine lastTo?_of_quiet_after hlive hwritten (quiet_of_word?_none hf hnone ?_)
  intro entry hmem hentry q d hlast
  rw [pass, lastPassed?_append, lastPassed?, hwritten] at hlast
  cases hlast
  exact (hplace entry hmem hentry).symm

/-! ## A `flex-flow` in the place of another -/

theorem longhandWord?_append (before after : List (Entry Property)) :
    longhandWord? field (before ++ after) =
      (longhandWord? field after).or (longhandWord? field before) := by
  rw [longhandWord?, List.reverse_append, List.findSome?_append]
  rfl

/-- What has been passed, apart from `flex-flow`, leaves the last word of the longhand. -/
theorem passedTo?_longhand (hf : (Field.keyword field).isFlow = true)
    (hspoken : Spoken field rows) :
    passedTo? metrics (.keyword field) ((passedAfter [] rows).filter (·.1 ≠ .flexFlow)) =
      (longhandWord? field rows).map Datum.keyword := by
  induction rows using List.reverseRecOn with
  | nil => rfl
  | append_singleton rows entry ih =>
    have hrest := ih fun e he => hspoken e (List.mem_append_left _ he)
    have hspeaks := hspoken entry (List.mem_append_right _ List.mem_cons_self)
    have hlonghand : longhandWord? field [entry] =
        if entry.key = .keyword field then entry.word? field else none := by
      rw [longhandWord?, List.reverse_singleton, List.findSome?_singleton]
    rw [longhandWord?_append, hlonghand, passedAfter_concat]
    cases hrem : entry.isRemoved with
    | true =>
      rw [if_pos rfl, hrest, Entry.word?, if_pos hrem, ite_self, Option.none_or]
    | false =>
      rw [if_neg (by decide), pass, List.filter_append, passedTo?_append]
      by_cases hkey : entry.key = .keyword field
      · -- the longhand speaks now, whatever it said before
        obtain ⟨word, hword⟩ := Option.ne_none_iff_exists'.mp (hspeaks hrem hkey)
        rw [if_pos hkey, hword, List.filter_cons_of_pos (by simp [hkey]), List.filter_nil,
          passedTo?_cons, writtenTo?_of_live hf hrem, hword]
        rfl
      · -- all others say nothing, and take no place but their own
        have hnone : ∀ item : Property × List Value, item.1 = entry.key → item.1 ≠ .flexFlow →
            writtenTo? metrics (.keyword field) item = none := by
          intro item heq hflow
          by_contra hwritten
          rcases Property.eq_or_eq_of_writes (writes_of_writtenTo? hwritten) with h | h
          · exact hkey (heq.symm.trans h)
          · exact hflow h
        have htail : passedTo? metrics (.keyword field)
            ([(entry.key, entry.values)].filter (·.1 ≠ .flexFlow)) = none := by
          refine passedTo?_eq_none fun item hitem => ?_
          obtain ⟨hmem, hflow⟩ := List.mem_filter.mp hitem
          rw [List.mem_singleton.mp hmem] at hflow ⊢
          exact hnone _ rfl (by simpa using hflow)
        rw [if_neg hkey, Option.none_or, ← hrest, htail, Option.none_or, List.filter_comm]
        refine passedTo?_filter fun item hitem hplace => hnone item (by simpa using hplace) ?_
        simpa using (List.mem_filter.mp hitem).2

/-- After a `flex-flow` without a word for the field, only removals write to the field. -/
theorem lastTo?_of_cover (hf : (Field.keyword field).isFlow = true)
    {before after : List (Entry Property)} {cover : Entry Property}
    (hspoken : Spoken field (before ++ cover :: after)) (hlive : cover.isRemoved = false)
    (hkey : cover.key = .flexFlow) (hnone : ∀ entry ∈ cover :: after, entry.word? field = none) :
    lastTo? (.keyword field) (assignmentsAfter metrics initial [] (before ++ cover :: after)) =
      ((restored? field initial before after).map Datum.keyword).or
        (lastTo? (.keyword field) (assignmentsAfter metrics initial [] before)) := by
  have hcover : writtenTo? metrics (.keyword field) (cover.key, cover.values) = none := by
    rw [writtenTo?_of_live hf hlive, hnone cover List.mem_cons_self]
    rfl
  have hquiet : Quiet metrics (.keyword field) (pass (passedAfter [] before) cover) after := by
    refine quiet_of_word?_none hf (fun entry he => hnone entry (List.mem_cons_of_mem _ he)) ?_
    intro entry hmem hentry q d hlast
    rw [pass, lastPassed?_append, lastPassed?, hcover] at hlast
    have hlast : lastPassed? metrics (.keyword field)
        ((passedAfter [] before).filter (·.1 ≠ cover.key)) = some (q, d) := hlast
    -- what counts is the longhand, which would carry a word if it came again
    obtain ⟨item, hitem, rfl⟩ := exists_mem_of_lastPassed? hlast
    have hflow : item.1 ≠ .flexFlow := by
      rw [← hkey]
      simpa using (List.mem_filter.mp hitem).2
    have hlonghand : item.1 = .keyword field :=
      (Property.eq_or_eq_of_writes (writes_of_lastPassed? hlast)).resolve_right hflow
    intro heq
    refine hspoken entry ?_ hentry (heq.symm.trans hlonghand) ?_
    · exact List.mem_append_right _ (List.mem_cons_of_mem _ hmem)
    · exact hnone entry (List.mem_cons_of_mem _ hmem)
  have hpassed : passedTo? metrics (.keyword field) (pass (passedAfter [] before) cover) =
      (longhandWord? field before).map Datum.keyword := by
    rw [pass, passedTo?_append, passedTo?_cons, hcover, hkey,
      passedTo?_longhand hf fun entry he => hspoken entry (List.mem_append_left _ he)]
    rfl
  rw [assignmentsAfter_append, assignmentsAfter_live hlive, lastTo?_append, lastTo?_append,
    lastTo?_assignmentsAfter_of_quiet initial hquiet, hpassed,
    show lastTo? _ (cover.key.assignments metrics cover.values) = none from hcover, restored?]
  cases kinGone (.keyword field) after <;> cases longhandWord? field before <;>
    cases writerGone (.keyword field) after <;> rfl

/-- The walk leaves the last word in the field, at least up to a `flex-flow` that takes the place
of the entry that carries it. -/
theorem lastTo?_of_lastWordOf? (hf : (Field.keyword field).isFlow = true)
    (hspoken : Spoken field rows) {word : Keyword field.enumeration}
    (h : lastWordOf? field rows = some word) :
    lastTo? (.keyword field) (assignmentsAfter metrics initial [] rows) = some (.keyword word) ∨
      ∃ before cover after, rows = before ++ cover :: after ∧
        cover.isRemoved = false ∧ cover.key = .flexFlow ∧
        (∀ entry ∈ cover :: after, entry.word? field = none) ∧
        lastWordOf? field before = some word ∧
        lastTo? (.keyword field) (assignmentsAfter metrics initial [] before) =
          some (.keyword word) := by
  obtain ⟨before, carrier, after, rfl, hword, hnone⟩ := exists_of_lastWordOf? h
  cases hfind : after.find? fun entry => !entry.isRemoved && entry.key = carrier.key with
  | none =>
    refine .inl (lastTo?_of_last_word hf hword hnone fun entry hmem hlive hkey => ?_)
    simpa [hlive, hkey] using List.find?_eq_none.mp hfind entry hmem
  | some cover =>
    obtain ⟨hcover, between, rest, rfl, hbetween⟩ := List.find?_eq_some_iff_append.mp hfind
    simp only [Bool.and_eq_true, Bool.not_eq_true', decide_eq_true_eq] at hcover
    obtain ⟨hlive, hkey⟩ := hcover
    have hcovers : cover ∈ between ++ cover :: rest := List.mem_append_right _ List.mem_cons_self
    have hflow : carrier.key = .flexFlow := by
      refine (key_of_word? hf hword).resolve_left fun hlonghand => ?_
      refine hspoken cover ?_ hlive (hkey.trans hlonghand) (hnone cover hcovers)
      exact List.mem_append_right _ (List.mem_cons_of_mem _ hcovers)
    have hsilent : ∀ entry ∈ between, entry.word? field = none :=
      fun entry hentry => hnone entry (List.mem_append_left _ hentry)
    refine .inr ⟨before ++ carrier :: between, cover, rest, by simp, hlive, hkey.trans hflow,
      fun entry hentry => hnone entry (List.mem_append_right _ hentry), ?_, ?_⟩
    · rw [lastWordOf?_append, ← List.singleton_append, lastWordOf?_append,
        lastWordOf?_eq_none_iff.mpr hsilent, Option.none_or]
      simp [lastWordOf?, hword]
    · refine lastTo?_of_last_word hf hword hsilent fun entry hentry hentryLive hsame => ?_
      simpa [hentryLive, hsame] using hbetween entry hentry

/-! ## One application -/

theorem keyword_applyBox_of_some {word : Keyword field.enumeration}
    (h : lastTo? (.keyword field) (t.boxAssignments metrics initial) = some (.keyword word)) :
    (t.applyBox metrics initial style).1.keyword field = word :=
  Datum.same_keyword.mp (BoxStyle.get_assignAll_of_some h)

theorem keyword_applyBox_of_none
    (h : lastTo? (.keyword field) (t.boxAssignments metrics initial) = none) :
    (t.applyBox metrics initial style).1.keyword field = style.keyword field :=
  Datum.same_keyword.mp (.inl (BoxStyle.get_assignAll_of_none h))

/-- If no live entry carries a word, the record keeps the one that it has, unless a removal puts
the initial word back. -/
theorem keyword_applyBox_of_lastWord?_none (hf : (Field.keyword field).isFlow = true)
    (h : t.lastWord? field = none) :
    (t.applyBox metrics initial style).1.keyword field =
      if writerGone (.keyword field) t.rows then initial.keyword field
      else style.keyword field := by
  have hnone : ∀ entry ∈ t.rows, entry.word? field = none := by
    rwa [lastWord?_eq, lastWordOf?_eq_none_iff] at h
  have hquiet : Quiet metrics (.keyword field) [] t.rows :=
    quiet_of_word?_none hf hnone fun _ _ _ _ _ hlast => by cases hlast
  have hto := lastTo?_assignmentsAfter_of_quiet initial hquiet
  rw [← boxAssignments_eq] at hto
  cases hgone : writerGone (.keyword field) t.rows with
  | true =>
    rw [kinGone_of_writerGone hgone, hgone] at hto
    exact keyword_applyBox_of_some hto
  | false =>
    rw [hgone] at hto
    refine keyword_applyBox_of_none (hto.trans ?_)
    exact ite_self none

/-- A displaced word is not the one that the record gets. -/
theorem keyword_applyBox_of_displaced (h : t.Tidy) (hf : (Field.keyword field).isFlow = true)
    (hdisplaced : t.Displaced field initial) :
    ∃ word, t.lastWord? field = some word ∧
      (t.applyBox metrics initial style).1.keyword field ≠ word := by
  obtain ⟨before, cover, after, word, other, hrows, hlive, hkey, hnone, hword, hother, hne⟩ :=
    hdisplaced
  refine ⟨word, ?_, ?_⟩
  · rw [lastWord?_eq, hrows, lastWordOf?_append, lastWordOf?_eq_none_iff.mpr hnone, hword]
    rfl
  · have hto : lastTo? (.keyword field) (t.boxAssignments metrics initial) =
        some (.keyword other) := by
      rw [boxAssignments_eq, hrows, lastTo?_of_cover hf (hrows ▸ h.spoken field) hlive hkey hnone,
        hother]
      rfl
    rw [keyword_applyBox_of_some hto]
    exact hne

/-- One application gives a field of `flex-flow` the last word that a live entry carries, or the
initial one, exactly if the record is not stale and the word is not displaced. -/
theorem keyword_applyBox_iff (h : t.Tidy) (hf : (Field.keyword field).isFlow = true) :
    (t.applyBox metrics initial style).1.keyword field =
        (t.lastWord? field).getD (initial.keyword field) ↔
      ¬ t.Stale field initial style ∧ ¬ t.Displaced field initial := by
  constructor
  · intro hsame
    constructor
    · rintro ⟨hnone, hgone, hne⟩
      rw [keyword_applyBox_of_lastWord?_none hf hnone, hgone, hnone] at hsame
      exact hne hsame
    · intro hdisplaced
      obtain ⟨word, hword, hne⟩ := keyword_applyBox_of_displaced h hf hdisplaced
      rw [hword] at hsame
      exact hne hsame
  · rintro ⟨hfresh, hplaced⟩
    cases hlast : t.lastWord? field with
    | none =>
      rw [keyword_applyBox_of_lastWord?_none hf hlast]
      by_contra hne
      refine hfresh ⟨hlast, ?_, ?_⟩
      · by_contra hgone
        simp [hgone] at hne
      · intro hsame
        simp [hsame] at hne
    | some word =>
      refine keyword_applyBox_of_some ?_
      rw [lastWord?_eq] at hlast
      rw [boxAssignments_eq]
      rcases lastTo?_of_lastWordOf? hf (h.spoken field) hlast with hto |
        ⟨before, cover, after, hrows, hlive, hkey, hnone, hword, hto⟩
      · exact hto
      · rw [hrows, lastTo?_of_cover hf (hrows ▸ h.spoken field) hlive hkey hnone, hto]
        cases hother : restored? field initial before after with
        | none => rfl
        | some other =>
          have hsame : other = word := by
            by_contra hne
            exact hplaced
              ⟨before, cover, after, word, other, hrows, hlive, hkey, hnone, hword, hother, hne⟩
          rw [hsame]
          rfl

end Table

namespace Tree

variable {t : Tree} {ledger : Ledger} {n : NodeId} {node : Node} {field : KeywordField}

/-- **The words of `flex-flow`.** If copies report changes, then the box of a node that does not
wait holds the last word that a live entry carries, or the initial one if there is none, exactly if
the last application of the node, if any, has found no stale record and has displaced no word. -/
theorem Traced.keyword_eq_iff (h : Traced Reports t ledger) (hnode : t.node? n = some node)
    (hrests : node.scheduled = false) (hf : (Field.keyword field).isFlow = true) :
    ∃ style, t.boxStyle? n = some style ∧
      (style.keyword field = (node.table.lastWord? field).getD
          ((BoxStyle.initial t.config.webDefaults).keyword field) ↔
        ∀ last ∈ ledger n,
          ¬ last.table.Stale field (.initial t.config.webDefaults) last.style ∧
            ¬ last.table.Displaced field (.initial t.config.webDefaults)) := by
  have hsound : t.Sound := h.reachable.sound
  obtain ⟨style, hstyle⟩ := hsound.housed hnode
  refine ⟨style, ?_, ?_⟩
  · rw [boxStyle?, hnode]
    exact hstyle
  · have haccounts := h.agrees n node style hnode hstyle
    rw [← hsound.initial]
    cases hlast : ledger n with
    | none =>
      -- the node has never been applied
      rw [hlast] at haccounts
      obtain ⟨rfl, hempty⟩ := haccounts
      rw [Table.lastWord?, hempty hrests, List.reverse_nil, List.findSome?_nil, Option.getD_none]
      refine iff_of_true rfl fun last hmem => ?_
      cases hmem
    | some last =>
      rw [hlast] at haccounts
      obtain ⟨htidy, hlive, metrics, rfl⟩ := haccounts
      rw [show node.table.lastWord? field = last.table.lastWord? field by
        rw [Table.lastWord?, hlive hrests, Table.lastWord?], Table.keyword_applyBox_iff htidy hf]
      simp only [Option.mem_def, Option.some.injEq, forall_eq']

/-- The word of a direction is stale once an update has dropped it. -/
theorem keyword_eq_iff_dropped :
    let both : List Raw :=
      [.keyword (.named .flexDirection "column"), .keyword (.named .flexWrap "wrap")]
    let t := (((((withFont .default (.ofHost .default fun _ => .fixed 16) .builtIn).after
      .create).after (.set ⟨0⟩ .inline "flex-flow" both)).after (.flush ⟨0⟩)).after
      (.set ⟨0⟩ .inline "flex-flow" (both.drop 1))).after (.flush ⟨0⟩)
    ∃ style, t.boxStyle? ⟨0⟩ = some style ∧
      style.keyword .flexDirection ≠
        (BoxStyle.initial t.config.webDefaults).keyword .flexDirection := by
  intro both t
  have htraced : ∃ ledger, Traced Reports t ledger ∧ ∃ node ∈ t.node? ⟨0⟩,
      node.scheduled = false ∧ node.table.lastWord? .flexDirection = none ∧
      ∃ last ∈ ledger ⟨0⟩,
        last.table.Stale .flexDirection (.initial t.config.webDefaults) last.style := by
    refine ⟨_, (((((Traced.start _ _ _).step trivial).step trivial).step trivial).step
      trivial).step trivial, ?_⟩
    decide +kernel
  obtain ⟨ledger, htraced, node, hnode, hrests, hnone, last, hlast, hstale⟩ := htraced
  have hflow : (Field.keyword .flexDirection).isFlow = true := rfl
  obtain ⟨style, hstyle, hiff⟩ := htraced.keyword_eq_iff hnode hrests hflow
  refine ⟨style, hstyle, fun hsame => ?_⟩
  rw [hnone, Option.getD_none] at hiff
  exact (hiff.mp hsame last hlast).1 hstale

/-- Not every word is the one that is asked for: a direction that is removed does not leave the
direction beneath it, if another `flex-flow` without a direction lies between them. -/
theorem not_every_word_is_prescribed :
    ¬ ∀ t, Reachable Reports t → ∀ n node style, t.node? n = some node →
      node.scheduled = false → t.boxStyle? n = some style → ∀ field,
      (Field.keyword field).isFlow = true →
        style.keyword field = (node.table.lastWord? field).getD
          ((BoxStyle.initial t.config.webDefaults).keyword field) := by
  intro hall
  let t := (((((((withFont .default (.ofHost .default fun _ => .fixed 16) .builtIn).after
    .create).after
    (.set ⟨0⟩ .sheet "flex-flow" [.keyword (.named .flexDirection "column")])).after
    (.set ⟨0⟩ .inline "flex-flow" [.keyword (.named .flexWrap "wrap")])).after
    (.set ⟨0⟩ .inline "flex-direction" [.keyword (.named .flexDirection "row-reverse")])).after
    (.flush ⟨0⟩)).after (.remove ⟨0⟩ .inline "flex-direction")).after (.flush ⟨0⟩)
  have hreach : Reachable Reports t :=
    (((((((Reachable.start _ _ _).step trivial).step trivial).step trivial).step trivial).step
      trivial).step trivial).step trivial
  have hbox : ∃ node ∈ t.node? ⟨0⟩, node.scheduled = false ∧ ∃ style ∈ t.boxStyle? ⟨0⟩,
      style.flexDirection ≠ (node.table.lastWord? .flexDirection).getD
        (BoxStyle.initial t.config.webDefaults).flexDirection := by
    decide +kernel
  obtain ⟨node, hnode, hrests, style, hstyle, hne⟩ := hbox
  exact hne (hall t hreach ⟨0⟩ node style hnode hrests hstyle .flexDirection rfl)

end Tree

end FlexStyle

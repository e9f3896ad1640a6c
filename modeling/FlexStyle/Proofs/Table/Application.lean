import FlexStyle.Proofs.Property
import FlexStyle.Proofs.Table.Order
import FlexStyle.Table.Application

/-!
# What a table writes to a field

The assignments of a table are a walk over its entries that carries along what it has passed. As far
as one field is concerned, the walk is quiet after the last entry that writes the field; what it
writes from then on only repairs what removals have put back.

- `Table.passedTo?`: what the entries that were passed write to a field, the last one counting.
- `Table.lastTo?_assignmentsAfter_of_quiet`: all that a quiet walk writes to a field.
- `Table.assignmentsAfter_append`, `Table.lastTo?_of_quiet_after`: a walk up to an entry and on from
  it.
-/

namespace FlexStyle

/-- Whether the values of an entry have been removed, and the removal has not been looked at. -/
def Entry.isGone {κ : Type} (entry : Entry κ) : Bool := entry.isRemoved && entry.event = .removed

/-- Whether a property belongs to the family of those that write a field. -/
def Property.isKin (p : Property) (f : Field) : Bool := f.longhand ∈ p.family

/-- What writes a field belongs to its family. -/
theorem Property.isKin_of_writes {p : Property} {f : Field} (h : p.writes f = true) :
    p.isKin f = true := by
  simp only [isKin, decide_eq_true_eq, family_of_writes h]
  exact mem_family_self _

/-- A property that writes a field belongs to the families of the relatives of the field alone. -/
theorem Property.mem_family_iff_of_writes {p q : Property} {f : Field} (h : q.writes f = true) :
    q ∈ p.family ↔ p.isKin f = true := by
  simp only [isKin, decide_eq_true_eq]
  constructor
  · intro hmem
    rw [← family_eq_of_mem hmem, family_of_writes h]
    exact mem_family_self _
  · intro hmem
    rw [← family_eq_of_mem hmem, ← family_of_writes h]
    exact mem_family_self _

namespace Table

/-- Properties and their values, in the order of application. -/
abbrev Passed := List (Property × List Value)

variable {metrics : RelativeMetrics} {initial : BoxStyle} {f : Field} {passed : Passed}
  {entry : Entry Property} {rest rows : List (Entry Property)}

/-! ## What has been passed -/

/-- What an entry with values writes to a field. -/
def writtenTo? (metrics : RelativeMetrics) (f : Field) (item : Property × List Value) :
    Option Datum := lastTo? f (item.1.assignments metrics item.2)

/-- What the last of the passed entries that writes to a field writes there. -/
def passedTo? (metrics : RelativeMetrics) (f : Field) (passed : Passed) : Option Datum :=
  lastTo? f (passed.flatMap fun (q, values) => q.assignments metrics values)

theorem writes_of_writtenTo? {item : Property × List Value} (h : writtenTo? metrics f item ≠ none) :
    item.1.writes f = true := by
  by_contra hn
  exact h (Property.lastTo?_assignments_of_not_writes (by simpa using hn))

theorem passedTo?_cons (item : Property × List Value) (passed : Passed) :
    passedTo? metrics f (item :: passed) =
      (passedTo? metrics f passed).or (writtenTo? metrics f item) := by
  rw [passedTo?, List.flatMap_cons, lastTo?_append]
  rfl

/-- What is passed last counts. -/
theorem passedTo?_append (first second : Passed) :
    passedTo? metrics f (first ++ second) =
      (passedTo? metrics f second).or (passedTo? metrics f first) := by
  rw [passedTo?, List.flatMap_append, lastTo?_append]
  rfl

theorem passedTo?_eq_none (h : ∀ item ∈ passed, writtenTo? metrics f item = none) :
    passedTo? metrics f passed = none := by
  induction passed with
  | nil => rfl
  | cons item passed ih =>
    rw [passedTo?_cons, h item List.mem_cons_self, Option.or_none]
    exact ih fun item hitem => h item (List.mem_cons_of_mem _ hitem)

/-- Leaving out what does not write a field changes nothing. -/
theorem passedTo?_filter {keep : Property × List Value → Bool}
    (h : ∀ item ∈ passed, keep item = false → writtenTo? metrics f item = none) :
    passedTo? metrics f (passed.filter keep) = passedTo? metrics f passed := by
  induction passed with
  | nil => rfl
  | cons item passed ih =>
    have hrest := ih fun item hitem => h item (List.mem_cons_of_mem _ hitem)
    rw [passedTo?_cons]
    cases hkeep : keep item with
    | true => rw [List.filter_cons_of_pos hkeep, passedTo?_cons, hrest]
    | false =>
      rw [List.filter_cons_of_neg (by simp [hkeep]), hrest,
        h item List.mem_cons_self hkeep, Option.or_none]

/-- The last of the passed entries that writes to a field, with what it writes there. -/
def lastPassed? (metrics : RelativeMetrics) (f : Field) : Passed → Option (Property × Datum)
  | [] => none
  | item :: passed =>
    (lastPassed? metrics f passed).or ((writtenTo? metrics f item).map (item.1, ·))

/-- What is written last is written by the entry that is passed last. -/
theorem passedTo?_eq_lastPassed? (metrics : RelativeMetrics) (f : Field) (passed : Passed) :
    passedTo? metrics f passed = (lastPassed? metrics f passed).map (·.2) := by
  induction passed with
  | nil => rfl
  | cons item passed ih =>
    rw [passedTo?_cons, ih, lastPassed?]
    cases lastPassed? metrics f passed <;> cases writtenTo? metrics f item <;> rfl

theorem lastPassed?_append (first second : Passed) :
    lastPassed? metrics f (first ++ second) =
      (lastPassed? metrics f second).or (lastPassed? metrics f first) := by
  induction first with
  | nil => simp [lastPassed?]
  | cons item first ih => rw [List.cons_append, lastPassed?, ih, lastPassed?, Option.or_assoc]

/-- The last entry that is passed for a field may write the field. -/
theorem writes_of_lastPassed? {q : Property} {d : Datum}
    (h : lastPassed? metrics f passed = some (q, d)) : q.writes f = true := by
  induction passed with
  | nil => cases h
  | cons item passed ih =>
    rw [lastPassed?] at h
    cases hrest : lastPassed? metrics f passed with
    | some last =>
      rw [hrest, Option.some_or] at h
      exact ih (hrest.trans h)
    | none =>
      rw [hrest, Option.none_or] at h
      obtain ⟨d', hd', heq⟩ := Option.map_eq_some_iff.mp h
      cases heq
      exact writes_of_writtenTo? (by rw [hd']; exact Option.some_ne_none _)

theorem exists_mem_of_lastPassed? {q : Property} {d : Datum}
    (h : lastPassed? metrics f passed = some (q, d)) : ∃ item ∈ passed, item.1 = q := by
  induction passed with
  | nil => cases h
  | cons item passed ih =>
    rw [lastPassed?] at h
    cases hrest : lastPassed? metrics f passed with
    | some last =>
      rw [hrest, Option.some_or] at h
      obtain ⟨item', hmem, hkey⟩ := ih (hrest.trans h)
      exact ⟨item', List.mem_cons_of_mem _ hmem, hkey⟩
    | none =>
      rw [hrest, Option.none_or] at h
      obtain ⟨d', -, heq⟩ := Option.map_eq_some_iff.mp h
      cases heq
      exact ⟨item, List.mem_cons_self, rfl⟩

/-- Leaving out a property that is not the last to write a field changes nothing. -/
theorem lastPassed?_filter_ne {key : Property}
    (h : ∀ q d, lastPassed? metrics f passed = some (q, d) → q ≠ key) :
    lastPassed? metrics f (passed.filter (·.1 ≠ key)) = lastPassed? metrics f passed := by
  induction passed with
  | nil => rfl
  | cons item passed ih =>
    rw [lastPassed?] at h ⊢
    have hrest : lastPassed? metrics f (passed.filter (·.1 ≠ key)) =
        lastPassed? metrics f passed := by
      refine ih fun q d hlast => h q d ?_
      rw [hlast, Option.some_or]
    by_cases hitem : item.1 = key
    · rw [List.filter_cons_of_neg (by simpa using hitem), hrest]
      cases hlast : lastPassed? metrics f passed with
      | some last => rfl
      | none =>
        cases hwritten : writtenTo? metrics f item with
        | none => rfl
        | some d => exact absurd hitem (h item.1 d (by rw [hlast, hwritten]; rfl))
    · rw [List.filter_cons_of_pos (by simpa using hitem), lastPassed?, hrest]

/-- The relatives of a property that were passed are all that write its fields, and none that write
other ones. -/
theorem passedTo?_relatives (p : Property) (passed : Passed) :
    passedTo? metrics f (passed.filter (·.1 ∈ p.family)) =
      if p.isKin f then passedTo? metrics f passed else none := by
  split
  case isTrue hkin =>
    refine passedTo?_filter fun item _ hout => ?_
    by_contra hwritten
    have hmem := (Property.mem_family_iff_of_writes (writes_of_writtenTo? hwritten)).mpr hkin
    simp [hmem] at hout
  case isFalse hkin =>
    refine passedTo?_eq_none fun item hitem => ?_
    by_contra hwritten
    have hmem : item.1 ∈ p.family := by simpa using (List.mem_filter.mp hitem).2
    exact hkin ((Property.mem_family_iff_of_writes (writes_of_writtenTo? hwritten)).mp hmem)

/-! ## The walk, entry by entry -/

/-- What has been passed once a live entry has been passed, too. -/
def pass (passed : Passed) (entry : Entry Property) : Passed :=
  passed.filter (·.1 ≠ entry.key) ++ [(entry.key, entry.values)]

/-- A live entry is installed. -/
theorem assignmentsAfter_live (h : entry.isRemoved = false) :
    assignmentsAfter metrics initial passed (entry :: rest) =
      entry.key.assignments metrics entry.values ++
        assignmentsAfter metrics initial (pass passed entry) rest := by
  rw [assignmentsAfter, h]
  rfl

/-- A removed entry resets its fields, and what has been passed of its family is installed again. -/
theorem assignmentsAfter_gone (h : entry.isGone = true) :
    assignmentsAfter metrics initial passed (entry :: rest) =
      entry.key.resets initial ++
        (passed.filter (·.1 ∈ entry.key.family)).flatMap
          (fun (q, values) => q.assignments metrics values) ++
        assignmentsAfter metrics initial passed rest := by
  obtain ⟨hrem, hevent⟩ := (Bool.and_eq_true _ _).mp h
  rw [assignmentsAfter, hrem, if_neg (by decide), if_pos (by simpa using hevent)]

/-- An entry whose removal has been looked at before does nothing. -/
theorem assignmentsAfter_idle (hrem : entry.isRemoved = true) (h : entry.isGone = false) :
    assignmentsAfter metrics initial passed (entry :: rest) =
      assignmentsAfter metrics initial passed rest := by
  have hevent : entry.event ≠ .removed := by
    intro hevent
    simp [Entry.isGone, hrem, hevent] at h
  rw [assignmentsAfter, hrem, if_neg (by decide), if_neg hevent]

/-- What a removal writes to a field: what was passed, if anything, or else the initial value. -/
theorem lastTo?_gone (entry : Entry Property) (passed : Passed) :
    lastTo? f (entry.key.resets initial ++
        (passed.filter (·.1 ∈ entry.key.family)).flatMap
          (fun (q, values) => q.assignments metrics values)) =
      (if entry.key.isKin f then passedTo? metrics f passed else none).or
        (if entry.key.writes f then some (initial.get f) else none) := by
  rw [lastTo?_append, Property.lastTo?_resets, ← passedTo?_relatives]
  rfl

theorem boxAssignments_eq (t : Table Property) :
    t.boxAssignments metrics initial = assignmentsAfter metrics initial [] t.rows := rfl

/-! ## Quiet walks -/

/-- Whether some entry of the family of a field is gone. -/
def kinGone (f : Field) (rows : List (Entry Property)) : Bool :=
  rows.any fun entry => entry.isGone && entry.key.isKin f

/-- Whether some entry that may write a field is gone. -/
def writerGone (f : Field) (rows : List (Entry Property)) : Bool :=
  rows.any fun entry => entry.isGone && entry.key.writes f

/-- Where an entry that may write a field is gone, one of the family of the field is. -/
theorem kinGone_of_writerGone (h : writerGone f rows = true) : kinGone f rows = true := by
  simp only [writerGone, List.any_eq_true, Bool.and_eq_true] at h
  obtain ⟨entry, hmem, hgone, hwrites⟩ := h
  simp only [kinGone, List.any_eq_true, Bool.and_eq_true]
  exact ⟨entry, hmem, hgone, Property.isKin_of_writes hwrites⟩

/-- Whether no live entry writes to a field, or takes the place of the last one that was passed and
does. -/
def Quiet (metrics : RelativeMetrics) (f : Field) (passed : Passed)
    (rows : List (Entry Property)) : Prop :=
  ∀ entry ∈ rows, entry.isRemoved = false →
    writtenTo? metrics f (entry.key, entry.values) = none ∧
      ∀ q d, lastPassed? metrics f passed = some (q, d) → q ≠ entry.key

/-- A live entry of a quiet walk does not come to be the last one for the field. -/
theorem lastPassed?_pass (h : Quiet metrics f passed (entry :: rest))
    (hlive : entry.isRemoved = false) :
    lastPassed? metrics f (pass passed entry) = lastPassed? metrics f passed := by
  obtain ⟨hwritten, hplace⟩ := h entry List.mem_cons_self hlive
  rw [pass, lastPassed?_append, lastPassed?, hwritten]
  exact lastPassed?_filter_ne hplace

theorem Quiet.pass (h : Quiet metrics f passed (entry :: rest)) (hlive : entry.isRemoved = false) :
    Quiet metrics f (pass passed entry) rest := by
  intro later hlater hlaterLive
  rw [lastPassed?_pass h hlive]
  exact h later (List.mem_cons_of_mem _ hlater) hlaterLive

theorem Quiet.tail (h : Quiet metrics f passed (entry :: rest)) : Quiet metrics f passed rest :=
  fun later hlater => h later (List.mem_cons_of_mem _ hlater)

/-- A quiet walk writes to a field only if a relative is gone. It then writes what has been passed,
or else the initial value, if one that writes the field is gone. -/
theorem lastTo?_assignmentsAfter_of_quiet (initial : BoxStyle)
    (h : Quiet metrics f passed rows) :
    lastTo? f (assignmentsAfter metrics initial passed rows) =
      if kinGone f rows then
        (passedTo? metrics f passed).or
          (if writerGone f rows then some (initial.get f) else none)
      else none := by
  induction rows generalizing passed with
  | nil => rfl
  | cons entry rest ih =>
    cases hrem : entry.isRemoved with
    | false =>
      have hgone : entry.isGone = false := by simp [Entry.isGone, hrem]
      have hkin : kinGone f (entry :: rest) = kinGone f rest := by simp [kinGone, hgone]
      have hwriter : writerGone f (entry :: rest) = writerGone f rest := by
        simp [writerGone, hgone]
      rw [assignmentsAfter_live hrem, lastTo?_append, ih (h.pass hrem), passedTo?_eq_lastPassed?,
        lastPassed?_pass h hrem, ← passedTo?_eq_lastPassed?, hkin, hwriter,
        show lastTo? f (entry.key.assignments metrics entry.values) = none from
          (h entry List.mem_cons_self hrem).1,
        Option.or_none]
    | true =>
      cases hgone : entry.isGone with
      | false =>
        have hkin : kinGone f (entry :: rest) = kinGone f rest := by simp [kinGone, hgone]
        have hwriter : writerGone f (entry :: rest) = writerGone f rest := by
          simp [writerGone, hgone]
        rw [assignmentsAfter_idle hrem hgone, ih h.tail, hkin, hwriter]
      | true =>
        have hkin : kinGone f (entry :: rest) = (entry.key.isKin f || kinGone f rest) := by
          simp [kinGone, hgone]
        have hwriter : writerGone f (entry :: rest) =
            (entry.key.writes f || writerGone f rest) := by
          simp [writerGone, hgone]
        rw [assignmentsAfter_gone hgone, lastTo?_append, ih h.tail, lastTo?_gone, hkin, hwriter]
        -- writers are relatives, here and further on
        cases hkinHere : entry.key.isKin f with
        | false =>
          have hhere : entry.key.writes f = false := by
            by_contra hwrites
            rw [Property.isKin_of_writes (by simpa using hwrites)] at hkinHere
            cases hkinHere
          rw [hhere]
          simp
        | true =>
          cases hkinRest : kinGone f rest with
          | false =>
            have hrest : writerGone f rest = false := by
              by_contra hwriterRest
              rw [kinGone_of_writerGone (by simpa using hwriterRest)] at hkinRest
              cases hkinRest
            rw [hrest]
            simp
          | true =>
            cases passedTo? metrics f passed with
            | some d => simp
            | none => cases entry.key.writes f <;> cases writerGone f rest <;> simp

/-! ## Walks in two parts -/

/-- What has been passed after some entries. -/
def passedAfter (passed : Passed) (rows : List (Entry Property)) : Passed :=
  rows.foldl (fun passed entry => if entry.isRemoved then passed else pass passed entry) passed

/-- One more entry is passed if it is live. -/
theorem passedAfter_concat (passed : Passed) (rows : List (Entry Property))
    (entry : Entry Property) :
    passedAfter passed (rows ++ [entry]) =
      if entry.isRemoved then passedAfter passed rows
      else pass (passedAfter passed rows) entry := by
  rw [passedAfter, List.foldl_append]
  rfl

/-- A walk over two rows is a walk over the first one and then over the second one. -/
theorem assignmentsAfter_append (passed : Passed) (first second : List (Entry Property)) :
    assignmentsAfter metrics initial passed (first ++ second) =
      assignmentsAfter metrics initial passed first ++
        assignmentsAfter metrics initial (passedAfter passed first) second := by
  induction first generalizing passed with
  | nil => rfl
  | cons entry rest ih =>
    rw [List.cons_append, passedAfter, List.foldl_cons, ← passedAfter]
    cases hrem : entry.isRemoved with
    | false =>
      rw [assignmentsAfter_live hrem, assignmentsAfter_live hrem, ih, List.append_assoc]
      rfl
    | true =>
      cases hgone : entry.isGone with
      | false =>
        rw [assignmentsAfter_idle hrem hgone, assignmentsAfter_idle hrem hgone, ih]
        rfl
      | true =>
        rw [assignmentsAfter_gone hgone, assignmentsAfter_gone hgone, ih]
        simp only [List.append_assoc]
        rfl

/-- If the walk is quiet after a live entry that writes a field, that entry is what counts. -/
theorem lastTo?_of_quiet_after {before : List (Entry Property)} {d : Datum}
    (hlive : entry.isRemoved = false)
    (hd : writtenTo? metrics f (entry.key, entry.values) = some d)
    (h : Quiet metrics f (pass (passedAfter passed before) entry) rest) :
    lastTo? f (assignmentsAfter metrics initial passed (before ++ entry :: rest)) = some d := by
  have hpassed : passedTo? metrics f (pass (passedAfter passed before) entry) = some d := by
    rw [pass, passedTo?_append, passedTo?_cons, hd]
    rfl
  rw [assignmentsAfter_append, assignmentsAfter_live hlive, lastTo?_append, lastTo?_append,
    lastTo?_assignmentsAfter_of_quiet initial h, hpassed,
    show lastTo? f (entry.key.assignments metrics entry.values) = some d from hd]
  cases kinGone f rest <;> simp

end Table

end FlexStyle

import FlexStyle.Proofs.Table.Calls

/-!
# Events tell the net change

An entry does not remember what it held when its event was last cleared. Its event says all the
same how what it holds now relates to that: whatever has been written and removed in between, only
the net change is left.

- `Event.net`: the event of a net change.
- `Entry.event_rewrite`: what the event of one entry says after any writes.
- `Table.Nets`, `Table.run_nets`: what the events of a table say after any calls.
-/

namespace FlexStyle

/-- The event of an entry that held values when its event was last cleared (`had`), that holds
values now (`has`), and whose values were changed in between (`altered`). -/
def Event.net (had has altered : Bool) : Event :=
  match had, has with
  | false, false => .none
  | false, true => .created
  | true, false => .removed
  | true, true => if altered then .updated else .none

theorem Event.eq_true_of_net_eq_removed {had has altered : Bool}
    (h : Event.net had has altered = .removed) : had = true := by
  cases had <;> cases has <;> cases altered <;> first | rfl | cases h

/-- Without an event, nothing has changed. -/
theorem Event.of_net_eq_none {had has altered : Bool} (h : Event.net had has altered = .none) :
    had = has ∧ (had = true → altered = false) := by
  cases had <;> cases has <;> cases altered <;> simp_all [net]

namespace Entry

variable {κ : Type}

/-- A write that reports no change leaves the entry as it is. -/
theorem write_of_snd_false {entry : Entry κ} {values : List Value}
    (h : (entry.write values).2 = false) : (entry.write values).1 = entry := by
  cases hempty : values.isEmpty with
  | false => exact (write_eq_self hempty h).1
  | true =>
    obtain rfl := List.isEmpty_iff.mp hempty
    rw [write_nil, clear] at h ⊢
    split at h
    case isTrue hrem => rw [if_pos hrem]
    case isFalse => cases h

/-- The event after a write that reports a change. Only a live entry reports a removal. -/
theorem event_write {entry : Entry κ} {values : List Value} (h : (entry.write values).2 = true) :
    if values.isEmpty then
      entry.isRemoved = false ∧ (entry.write values).1.event = entry.event.onClear
    else (entry.write values).1.event = entry.event.onWrite !entry.isRemoved := by
  cases hempty : values.isEmpty with
  | true =>
    obtain rfl := List.isEmpty_iff.mp hempty
    rw [write_nil, clear] at h ⊢
    split at h
    case isTrue => cases h
    case isFalse hlive =>
      rw [if_neg hlive]
      exact ⟨by simpa using hlive, rfl⟩
  | false =>
    rw [write_of_ne_nil entry hempty] at h ⊢
    split at h
    case isTrue => cases h
    case isFalse hne =>
      rw [if_neg hne]
      rfl

/-- One more write keeps the event that of the net change. -/
theorem event_write_net {entry : Entry κ} {had altered : Bool} (values : List Value)
    (h : entry.event = .net had (!entry.isRemoved) altered) :
    (entry.write values).1.event =
      .net had (!(entry.write values).1.isRemoved) (altered || (entry.write values).2) := by
  cases hreport : (entry.write values).2 with
  | false => rw [write_of_snd_false hreport, h, Bool.or_false]
  | true =>
    have hevent := event_write hreport
    rw [isRemoved_write, Bool.or_true]
    cases hempty : values.isEmpty with
    | true =>
      obtain ⟨hlive, hevent⟩ := (if_pos hempty).mp hevent
      rw [hevent, h, hlive]
      cases had <;> cases altered <;> rfl
    | false =>
      rw [hempty, if_neg Bool.false_ne_true] at hevent
      rw [hevent, h]
      cases had <;> cases altered <;> cases entry.isRemoved <;> rfl

/-- After any writes, the event is that of the net change. -/
theorem event_rewrite_net {entry : Entry κ} {had altered : Bool} (asked : List (List Value))
    (h : entry.event = .net had (!entry.isRemoved) altered) :
    (entry.rewrite asked).1.event =
      .net had (!(entry.rewrite asked).1.isRemoved) (altered || (entry.rewrite asked).2) := by
  -- each write starts from the net change so far
  induction asked generalizing entry altered with
  | nil => rw [rewrite_nil, h, Bool.or_false]
  | cons values rest ih =>
    have hrest := ih (event_write_net values h)
    rw [rewrite, foldChanges_cons, ← Bool.or_assoc]
    exact hrest

theorem event_rewrite {entry : Entry κ} (h : entry.event = .none) (asked : List (List Value)) :
    (entry.rewrite asked).1.event =
      .net (!entry.isRemoved) (!(entry.rewrite asked).1.isRemoved) (entry.rewrite asked).2 := by
  have hstart : entry.event = .net (!entry.isRemoved) (!entry.isRemoved) false := by
    rw [h]
    cases entry.isRemoved <;> rfl
  rw [event_rewrite_net asked hstart, Bool.false_or]

theorem rewrite_of_snd_false {entry : Entry κ} {asked : List (List Value)}
    (h : (entry.rewrite asked).2 = false) : (entry.rewrite asked).1 = entry := by
  induction asked generalizing entry with
  | nil => rfl
  | cons values rest ih =>
    rw [rewrite, foldChanges_cons, Bool.or_eq_false_iff] at h
    rw [rewrite, foldChanges_cons, write_of_snd_false h.1]
    rw [write_of_snd_false h.1] at h
    exact ih h.2

end Entry

namespace Table

variable {κ : Type} [DecidableEq κ] {t : Table κ}

/-- Whether a write or a removal among some calls changes the values of an entry. -/
def alters (t : Table κ) (calls : List (Call κ)) (g : Group) (key : κ) : Bool :=
  ((t.entry g key).rewrite (calls.flatMap (·.asks g key))).2

/-- What the events say after some calls on a table. -/
structure Nets (t : Table κ) (calls : List (Call κ)) : Prop where
  /-- An entry is what the writes and removals among the calls, one after another, make of it. -/
  entry : ∀ g key, (t.run calls).entry g key =
    ((t.entry g key).rewrite (calls.flatMap (·.asks g key))).1
  /-- The event of an entry that had none is that of the net change. -/
  event : ∀ g key, (t.entry g key).event = .none →
    ((t.run calls).entry g key).event =
      .net (!(t.entry g key).isRemoved) (!((t.run calls).entry g key).isRemoved)
        (t.alters calls g key)
  /-- An entry whose values no call changes keeps them. -/
  unaltered : ∀ g key, t.alters calls g key = false →
    (t.run calls).valuesAt g key = t.valuesAt g key
  /-- An entry with the event of a removal held values. -/
  removed : ∀ g key, (t.entry g key).event = .none →
    ((t.run calls).entry g key).event = .removed → (t.entry g key).isRemoved = false
  /-- Between two moments without events, nothing has changed. -/
  quiet : t.hasPendingEvents = false → (t.run calls).hasPendingEvents = false →
    ∀ g key, (t.run calls).valuesAt g key = t.valuesAt g key

/-- A table without pending events has no entry with an event. -/
theorem event_entry_eq_none (h : t.Keyed) (hquiet : t.hasPendingEvents = false) (g : Group)
    (key : κ) : (t.entry g key).event = .none := by
  by_contra hevent
  have hpending : t.hasPendingEvents = true := by
    rw [hasPendingEvents_iff h]
    cases hfind : t.find? g key with
    | none => simp [entry, hfind] at hevent
    | some found => exact ⟨g, key, found, hfind, by simpa [entry, hfind] using hevent⟩
  rw [hquiet] at hpending
  cases hpending

/-- **Events tell the net change.** This holds in every table that holds each key once, whatever
calls follow. -/
theorem run_nets (h : t.Keyed) (calls : List (Call κ)) : t.Nets calls := by
  have hentry := entry_run h calls
  have hevent : ∀ g key, (t.entry g key).event = .none →
      ((t.run calls).entry g key).event =
        .net (!(t.entry g key).isRemoved) (!((t.run calls).entry g key).isRemoved)
          (t.alters calls g key) := by
    intro g key hnone
    rw [hentry, alters]
    exact Entry.event_rewrite hnone _
  have hunaltered : ∀ g key, t.alters calls g key = false →
      (t.run calls).valuesAt g key = t.valuesAt g key := by
    intro g key hsame
    rw [valuesAt, hentry, Entry.rewrite_of_snd_false hsame, valuesAt]
  refine ⟨hentry, hevent, hunaltered, ?_, ?_⟩
  · intro g key hnone hremoved
    rw [hevent g key hnone] at hremoved
    simpa using Event.eq_true_of_net_eq_removed hremoved
  · intro hbefore hafter g key
    have hnet := event_entry_eq_none (keyed_run h calls) hafter g key
    rw [hevent g key (event_entry_eq_none h hbefore g key)] at hnet
    obtain ⟨hlive, haltered⟩ := Event.of_net_eq_none hnet
    cases hrem : (t.entry g key).isRemoved with
    | false => exact hunaltered g key (haltered (by simp [hrem]))
    | true =>
      -- there were no values, and there are none now
      have hnow : ((t.run calls).entry g key).isRemoved = true := by simpa [hrem] using hlive
      rw [valuesAt, valuesAt, List.isEmpty_iff.mp hrem, List.isEmpty_iff.mp hnow]

/-- A value that is removed and written anew has been updated. -/
theorem run_nets_updated :
    (run {} [.set .inline 3 [.auto]] : Table Nat).clearEvents.Keyed ∧
      (((run {} [.set .inline 3 [.auto]] : Table Nat).clearEvents.run
        [.remove .inline 3, .set .inline 3 [.none]]).entry .inline 3).event = .updated ∧
      (run {} [.set .inline 3 [.auto]] : Table Nat).clearEvents.Nets
        [.remove .inline 3, .set .inline 3 [.none]] := by
  have hkeyed : (run {} [.set .inline 3 [.auto]] : Table Nat).clearEvents.Keyed :=
    keyed_clearEvents (keyed_run keyed_empty _)
  exact ⟨hkeyed, by decide, run_nets hkeyed _⟩

end Table

end FlexStyle

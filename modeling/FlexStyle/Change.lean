/-!
# Steps that tell whether they changed anything

Many operations give a new state together with a mark that tells whether it differs from the old
one in a way that matters.

- `foldChanges`: such steps one after another; the mark tells whether any of them changed anything.
-/

namespace FlexStyle

variable {σ α : Type}

/-- The state after a step for each member of a list, and whether any step made a change. -/
def foldChanges (step : σ → α → σ × Bool) (s : σ) : List α → σ × Bool
  | [] => (s, false)
  | a :: rest =>
    let (s, changed) := step s a
    let (s, changedLater) := foldChanges step s rest
    (s, changed || changedLater)

@[simp] theorem foldChanges_nil (step : σ → α → σ × Bool) (s : σ) :
    foldChanges step s [] = (s, false) := rfl

theorem foldChanges_cons (step : σ → α → σ × Bool) (s : σ) (a : α) (rest : List α) :
    foldChanges step s (a :: rest) =
      ((foldChanges step (step s a).1 rest).1,
        (step s a).2 || (foldChanges step (step s a).1 rest).2) := rfl

theorem foldChanges_append_fst (step : σ → α → σ × Bool) (s : σ) (first second : List α) :
    (foldChanges step s (first ++ second)).1 =
      (foldChanges step (foldChanges step s first).1 second).1 := by
  induction first generalizing s with
  | nil => rfl
  | cons a rest ih =>
    rw [List.cons_append, foldChanges_cons, foldChanges_cons]
    exact ih _

theorem foldChanges_map {β : Type} (step : σ → α → σ × Bool) (f : β → α) (s : σ)
    (items : List β) :
    foldChanges step s (items.map f) = foldChanges (fun s b => step s (f b)) s items := by
  induction items generalizing s with
  | nil => rfl
  | cons b rest ih => rw [List.map_cons, foldChanges_cons, foldChanges_cons, ih]

/-- What every step keeps holds after all of them. -/
theorem foldChanges_induction (step : σ → α → σ × Bool) {P : σ → Prop} (items : List α)
    (hstep : ∀ a ∈ items, ∀ s, P s → P (step s a).1) {s : σ} (h : P s) :
    P (foldChanges step s items).1 := by
  induction items generalizing s with
  | nil => exact h
  | cons a rest ih =>
    rw [foldChanges_cons]
    exact ih (fun b hb => hstep b (List.mem_cons_of_mem _ hb)) (hstep a List.mem_cons_self s h)

/-- If steps tell the truth about changes, so do all of them together. -/
theorem foldChanges_of_false (step : σ → α → σ × Bool)
    (hstep : ∀ s a, (step s a).2 = false → (step s a).1 = s) {s : σ} {items : List α}
    (h : (foldChanges step s items).2 = false) : (foldChanges step s items).1 = s := by
  induction items generalizing s with
  | nil => rfl
  | cons a rest ih =>
    rw [foldChanges_cons] at h ⊢
    obtain ⟨hfirst, hrest⟩ := Bool.or_eq_false_iff.mp h
    exact (ih hrest).trans (hstep s a hfirst)

/-- If steps tell the truth about changes, then all of them together report none exactly if each of
them alone reports none. -/
theorem foldChanges_snd_eq_false_iff (step : σ → α → σ × Bool)
    (hstep : ∀ s a, (step s a).2 = false → (step s a).1 = s) {s : σ} {items : List α} :
    (foldChanges step s items).2 = false ↔ ∀ a ∈ items, (step s a).2 = false := by
  induction items with
  | nil => simp
  | cons a rest ih =>
    rw [foldChanges_cons, Bool.or_eq_false_iff, List.forall_mem_cons]
    -- the first step leaves the state to the others
    exact and_congr_right fun hfirst => by rw [hstep s a hfirst]; exact ih

end FlexStyle

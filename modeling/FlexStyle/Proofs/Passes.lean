import FlexStyle.Proofs.Tree.Run
import FlexStyle.Proofs.Tree.Visits
import Mathlib.Data.Finset.Card

/-!
# The passes of a flush

A flush applies the nodes that it has to, each once and after its parent; a second flush right
after it applies none.

- `Tree.Reachable.flush_passes`: the nodes that a flush applies are those beneath its root that
  waited, and the children of those whose text style comes out as another one.
-/

namespace FlexStyle.Tree

variable {t : Tree}

/-- **A flush applies exactly the right nodes**, each once, and parents first. The list that it
gives names its applications in order; their number is that of the nodes applied. -/
theorem Reachable.flush_passes (h : Reachable AnyCommand t) {root : NodeId}
    (hroot : t.contains root = true) :
    ∃ t' applied, t.flush root = .ok (t', applied) ∧
      t' = { t with queue := t'.queue }.applyEach applied ∧
      applied.Nodup ∧ applied.length = applied.toFinset.card ∧
      (∀ m, m ∈ applied ↔ root ∈ t.shape.path m ∧
        (t.isScheduled m = true ∨ ∃ p ∈ applied, t.parent? m = some p ∧ t.Retexts t' p)) ∧
      (∀ m p, t.parent? m = some p → m ∈ applied → p ∈ applied →
        applied.idxOf p < applied.idxOf m) ∧
      t'.flush root = .ok (t', []) := by
  obtain ⟨t', applied, hok⟩ := exists_flush hroot
  have hvisits := visits_flush h.sound hok
  refine ⟨t', applied, hok, ?_, hvisits.nodup, ?_, ?_, ?_, flush_flush h.sound hok⟩
  · rw [queue_flush h.sound hok]
    exact hvisits.tree
  · exact (List.toFinset_card_of_nodup hvisits.nodup).symm
  · exact mem_applied_iff h.sound h.queued hok
  · exact fun m p hp hm hmem => hvisits.idxOf_lt (h.sound.with_queue _) hp hm hmem

/-- Of four nodes in a row, the first is given a larger font, which reaches the second, although
that waits for a turn of its own, and the third. The third has a font size of its own and hands
nothing on, so that the fourth is applied in its turn. -/
theorem flush_passes_row :
    let t := (withFont .default (.ofHost .default fun _ => .fixed 16) .builtIn).run
      [.create, .create, .create, .create, .append ⟨0⟩ ⟨1⟩, .flush ⟨0⟩, .append ⟨1⟩ ⟨2⟩,
        .set ⟨2⟩ .inline "font-size" [.value (.pixels 20)], .flush ⟨0⟩, .append ⟨2⟩ ⟨3⟩, .flush ⟨0⟩,
        .set ⟨0⟩ .inline "font-size" [.value (.percentage 200)],
        .set ⟨1⟩ .inline "width" [.value (.pixels 1)],
        .set ⟨3⟩ .inline "width" [.value (.pixels 1)]]
    t.contains ⟨0⟩ = true ∧
      ∃ t' applied, t.flush ⟨0⟩ = .ok (t', applied) ∧ applied = [⟨0⟩, ⟨1⟩, ⟨2⟩, ⟨3⟩] ∧
        applied.Nodup ∧ t'.flush ⟨0⟩ = .ok (t', []) := by
  intro t
  have hreach : Reachable AnyCommand t := (Reachable.start _ _ _).run _
  obtain ⟨hroot, hwithin, hsorted, hpasses⟩ : t.contains ⟨0⟩ = true ∧
      (t.queue.filter t.contains).filter (fun n => ⟨0⟩ ∈ t.shape.path n) = [⟨0⟩, ⟨1⟩, ⟨3⟩] ∧
      [⟨0⟩, ⟨1⟩, ⟨3⟩].Pairwise (fun a b => decide (t.shape.depth a ≤ t.shape.depth b) = true) ∧
      ({ t with queue := t.leftOver ⟨0⟩ }.applyAll [⟨0⟩, ⟨1⟩, ⟨3⟩]).2 =
        [⟨0⟩, ⟨1⟩, ⟨2⟩, ⟨3⟩] := by
    decide +kernel
  have hturns : t.turns ⟨0⟩ = [⟨0⟩, ⟨1⟩, ⟨3⟩] := by
    rw [turns, hwithin]
    exact List.mergeSort_of_pairwise hsorted
  obtain ⟨t', applied, hok, -, hnd, -, -, -, hagain⟩ := hreach.flush_passes hroot
  refine ⟨hroot, t', applied, hok, ?_, hnd, hagain⟩
  rw [flush_eq hroot, hturns] at hok
  rw [← hpasses, Except.ok.inj hok]

end FlexStyle.Tree

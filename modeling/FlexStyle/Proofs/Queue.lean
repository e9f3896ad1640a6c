import FlexStyle.Proofs.Inheritance
import FlexStyle.Proofs.Tree.Edits
import FlexStyle.Proofs.Tree.Visits

/-!
# The queue

That a node waits is noted twice, by a flag of the node and by its place in the queue, and the two
are changed at different places: a schedule sets both, an application lowers the flag alone, a flush
clears the queue but for the nodes of other trees, and a removal leaves its nodes in the queue. They
agree nevertheless.

- `Tree.Exact`: the queue holds, of the nodes that are there, those that wait, each once.
  `Tree.Edits.exact` and `Tree.exact_flush` say that this is kept.
- `Tree.Reachable.queue_exact`: queue, flags and events agree, and a flush keeps the rest of the
  queue in order.
-/

namespace FlexStyle.Tree

variable {s t t' : Tree} {n m : NodeId}

/-- Whether the queue holds no node twice, no node that has not been created, and of the nodes that
have not been removed only those that wait. -/
structure Exact (t : Tree) : Prop where
  nodup : t.queue.Nodup
  lt_size : ∀ n ∈ t.queue, n.number < t.nodes.size
  waits : ∀ n ∈ t.queue, t.contains n = true → t.isScheduled n = true

/-! ## Elementary edits -/

/-- A change that keeps the flag of its node neither starts nor ends a wait. -/
theorem isScheduled_modify {change : Node → Node}
    (hflag : ∀ node, (change node).scheduled = node.scheduled) :
    (t.modify n change).isScheduled m = t.isScheduled m := by
  rw [isScheduled, node?_modify, isScheduled]
  split
  · cases t.node? m with
    | none => rfl
    | some node => exact hflag node
  · rfl

/-- Scheduling ends no wait. -/
theorem isScheduled_schedule (hwaits : t.isScheduled m = true) :
    (t.schedule n).isScheduled m = true := by
  obtain ⟨node, hnode, hflag⟩ := exists_of_isScheduled hwaits
  rw [isScheduled, node?_schedule, hnode]
  split
  · rfl
  · exact hflag

/-- Scheduling adds a node to the queue only if it is not there. -/
theorem exact_schedule (h : t.Exact) (n : NodeId) : (t.schedule n).Exact := by
  by_cases hnew : (t.contains n && !t.isScheduled n) = true
  · have hqueue : (t.schedule n).queue = t.queue ++ [n] := by rw [schedule, if_pos hnew]
    rw [Bool.and_eq_true, Bool.not_eq_true'] at hnew
    obtain ⟨hlive, hrests⟩ := hnew
    obtain ⟨node, hnode⟩ := contains_iff.mp hlive
    -- a node that is there and does not wait is not in the queue
    have hn : n ∉ t.queue := by
      intro hmem
      rw [h.waits n hmem hlive] at hrests
      cases hrests
    refine ⟨?_, ?_, ?_⟩
    · rw [hqueue, List.nodup_append']
      refine ⟨h.nodup, List.nodup_singleton n, fun m hm hmn => hn ?_⟩
      rwa [List.mem_singleton.mp hmn] at hm
    · intro m hm
      rw [size_schedule]
      rw [hqueue, List.mem_append, List.mem_singleton] at hm
      rcases hm with hm | rfl
      · exact h.lt_size m hm
      · exact lt_size_of_node? hnode
    · intro m hm hmlive
      rw [hqueue, List.mem_append, List.mem_singleton] at hm
      rcases hm with hm | rfl
      · exact isScheduled_schedule (h.waits m hm (contains_schedule t n m ▸ hmlive))
      · rw [isScheduled, node?_schedule, if_pos rfl, hnode]
        rfl
  · rwa [schedule, if_neg hnew]

theorem queue_discard (t : Tree) (n : NodeId) : (t.discard n).queue = t.queue := by
  unfold discard
  split <;> rfl

/-- Edits keep the queue exact. -/
theorem Edits.exact (h : s.Edits t) (hs : s.Exact) : t.Exact := by
  induction h with
  | none => exact hs
  | modify n change _ hflag ih =>
    refine ⟨ih.nodup, fun m hm => ?_, fun m hm hlive => ?_⟩
    · rw [size_modify]
      exact ih.lt_size m hm
    · rw [contains_modify] at hlive
      rw [isScheduled_modify hflag]
      exact ih.waits m hm hlive
  | schedule n _ ih => exact exact_schedule ih n
  | @discard t n _ ih =>
    refine ⟨?_, fun m hm => ?_, fun m hm hlive => ?_⟩
    · rw [queue_discard]
      exact ih.nodup
    · rw [queue_discard] at hm
      rw [size_discard]
      exact ih.lt_size m hm
    · rw [queue_discard] at hm
      have hnode : (t.discard n).node? m = t.node? m := by
        obtain ⟨node, hnode⟩ := contains_iff.mp hlive
        rw [node?_discard] at hnode ⊢
        split at hnode
        · cases hnode
        · rw [if_neg ‹_›]
      rw [contains, hnode] at hlive
      rw [isScheduled, hnode]
      exact ih.waits m hm hlive
  | reshape shape _ ih => exact ⟨ih.nodup, ih.lt_size, ih.waits⟩
  | readMarks _ ih => exact ⟨ih.nodup, ih.lt_size, ih.waits⟩

/-! ## Creations and flushes -/

/-- A new node does not wait, and is not in the queue. -/
theorem exact_create (h : t.Exact) : t.create.2.Exact where
  nodup := h.nodup
  lt_size n hn := by
    show n.number < (t.nodes.push _).size
    rw [Array.size_push]
    exact Nat.lt_succ_of_lt (h.lt_size n hn)
  waits n hn hlive := by
    -- the number of the new node was not in the queue before
    have hne : n ≠ t.create.1 := by
      rintro rfl
      exact Nat.lt_irrefl _ (h.lt_size _ hn)
    have hnode : t.create.2.node? n = t.node? n := by rw [node?_create, if_neg hne]
    rw [contains, hnode] at hlive
    rw [isScheduled, hnode]
    exact h.waits n hn hlive

/-- A flush takes the nodes that it applies out of the queue. -/
theorem exact_flush {root : NodeId} {applied : List NodeId} (h : t.Sound) (hexact : t.Exact)
    (hok : t.flush root = .ok (t', applied)) : t'.Exact := by
  have hqueue := queue_flush h hok
  refine ⟨?_, fun m hm => ?_, fun m hm _ => ?_⟩
  · rw [hqueue, leftOver]
    exact (hexact.nodup.filter _).filter _
  · rw [hqueue, mem_leftOver, ← contains_flush h hok] at hm
    obtain ⟨node, hnode⟩ := contains_iff.mp hm.2.1
    exact lt_size_of_node? hnode
  · rw [hqueue, mem_leftOver] at hm
    refine (isScheduled_flush h hok m).mpr ⟨hexact.waits m hm.1 hm.2.1, fun happlied => ?_⟩
    exact hm.2.2 (mem_path_of_applied h hok m happlied)

/-- The queue is exact in all trees that can be reached. -/
theorem Reachable.exact {allowed : Tree → Command → Prop} (h : Reachable allowed t) :
    t.Exact := by
  induction h with
  | start config fonts font => exact ⟨List.nodup_nil, nofun, nofun⟩
  | @step t c ht _ ih =>
    rcases t.edits_after c with rfl | ⟨root, rfl⟩ | hedits
    · exact exact_create ih
    · rcases t.after_flush_cases root with hsame | ⟨applied, hok⟩
      · rwa [hsame]
      · exact exact_flush ht.sound ih hok
    · exact hedits.exact ih

/-- **Queue, flags and events agree.** A node that has not been removed is in the queue exactly if
its flag is set, and then once; a node with pending events waits. After a flush the queue holds, in
the same order, what it held of nodes that are not beneath the root. -/
theorem Reachable.queue_exact (h : Reachable AnyCommand t) :
    (∀ n, t.contains n = true → (n ∈ t.queue ↔ t.isScheduled n = true)) ∧
      (∀ n, t.isScheduled n = true → t.queue.count n = 1) ∧
      (∀ n, t.hasPendingChanges n = true → t.isScheduled n = true) ∧
      ∀ root t' applied, t.flush root = .ok (t', applied) →
        t'.queue.filter t'.contains =
          (t.queue.filter t.contains).filter fun n => root ∉ t.shape.path n := by
  refine ⟨fun n hlive => ?_, fun n hwaits => ?_, fun n hpending => ?_,
    fun root t' applied hok => ?_⟩
  · exact ⟨fun hn => h.exact.waits n hn hlive, h.queued n⟩
  · exact List.count_eq_one_of_mem h.exact.nodup (h.queued n hwaits)
  · obtain ⟨node, hnode, hevents⟩ := (Option.any_eq_true _ _).mp hpending
    by_contra hrests
    rw [isScheduled_of_node? hnode, Bool.not_eq_true] at hrests
    rw [h.calm n node hnode hrests] at hevents
    cases hevents
  · rw [queue_flush h.sound hok]
    refine List.filter_eq_self.mpr fun m hm => ?_
    rw [contains_flush h.sound hok]
    exact (mem_leftOver.mp hm).2.1

/-- Of three nodes in the queue, the first has been removed, the second is beneath the root of a
flush and the third is not. -/
theorem queue_exact_three :
    let t := (withFont .default (.ofHost .default fun _ => .fixed 16) .builtIn).run
      [.create, .create, .create, .create, .append ⟨0⟩ ⟨1⟩, .append ⟨0⟩ ⟨2⟩,
        .set ⟨3⟩ .inline "width" [.value (.pixels 1)], .removeSubtree ⟨1⟩]
    t.queue = [⟨1⟩, ⟨2⟩, ⟨3⟩] ∧ t.queue.count ⟨3⟩ = 1 ∧
      ∃ t' applied, t.flush ⟨0⟩ = .ok (t', applied) ∧ t'.queue.filter t'.contains = [⟨3⟩] := by
  intro t
  have hreach : Reachable AnyCommand t := (Reachable.start _ _ _).run _
  obtain ⟨hqueue, hwaits, hroot, hrest⟩ : t.queue = [⟨1⟩, ⟨2⟩, ⟨3⟩] ∧ t.isScheduled ⟨3⟩ = true ∧
      t.contains ⟨0⟩ = true ∧
      (t.queue.filter t.contains).filter (fun n => ⟨0⟩ ∉ t.shape.path n) = [⟨3⟩] := by
    decide +kernel
  obtain ⟨-, honce, -, hflush⟩ := hreach.queue_exact
  obtain ⟨t', applied, hok⟩ := exists_flush hroot
  exact ⟨hqueue, honce ⟨3⟩ hwaits, t', applied, hok, (hflush _ _ _ hok).trans hrest⟩

end FlexStyle.Tree

import Mqmx.WorkQueue.Resting

/-!
# Calls beside a record

Sometimes a record is out of the container while clients make their calls, and comes
back later.  `Call.Apart v x` says that a call on the container `v` makes no difference
to such a record `x`, and is not made different by it.  `run_beside` is what that gives:
the call returns the same on `v` and on a heap of `v` and `x`, and leaves `x` there.
-/

namespace Mqmx.WorkQueue

variable {ω : Type} {w : ℕ}

/-- The call, on the container `v`, has nothing to do with the record `x`.  Where it
looks for an id, at most one record has that. -/
def Call.Apart (v : List (Record ω w)) (x : Record ω w) : Call ω w → Prop
  | .updateWork id c wk _ _ =>
    (c = invalidClientId w ∨ wk = none) ∨ (id ≠ x.2 ∧ (ids v).count id ≤ 1)
  | .cancelWork id => id ≠ x.2 ∧ (ids v).count id ≤ 1
  | .cancelClientWorks c => c ≠ x.1.clientId
  | .isIdle => v ≠ []
  | _ => True

/-! ### Editing a container beside a record -/

/-- The common end of the three calls that change or remove records. -/
def edit (h : Heap ω w) (f : List (Record ω w) → Option (List (Record ω w)))
    (q : Members ω w) : ExitStatus × Members ω w :=
  match f q.wqItemContainer with
  | some v => (.success, makeHeapAndNotifyWorker h { q with wqItemContainer := v })
  | none => (.notFound, q)

theorem updateWork_eq_edit {h : Heap ω w} {q : Members ω w} {id c : BitVec w} {wk : Option ω}
    {st p : Int} (hb : ¬ (c = invalidClientId w ∨ wk = none))
    (hs : q.workerStoppedFlag = false) :
    updateWork h id c wk st p q = edit h (wqItemFindAndReplace id ⟨st, c, wk, p⟩) q := by
  rw [updateWork, if_neg hb, if_neg (by simp [hs])]
  rfl

theorem cancelWork_eq_edit {h : Heap ω w} {q : Members ω w} {id : BitVec w}
    (hs : q.workerStoppedFlag = false) :
    cancelWork h id q = edit h (wqItemFindAndRemove id) q := by
  rw [cancelWork, if_neg (by simp [hs])]
  rfl

theorem cancelClientWorks_eq_edit {h : Heap ω w} {q : Members ω w} {c : BitVec w}
    (hs : q.workerStoppedFlag = false) :
    cancelClientWorks h c q = edit h (wqItemFindAndRemoveAll c) q := by
  rw [cancelClientWorks, if_neg (by simp [hs])]
  rfl

/-- The edit does the same to `v` when `x` is there, too. -/
def Beside (f : List (Record ω w) → Option (List (Record ω w))) (v : List (Record ω w))
    (x : Record ω w) : Prop :=
  ∀ B : List (Record ω w), B.Perm (v ++ [x]) →
    (f v = none → f B = none) ∧ ∀ v', f v = some v' → ∃ u, f B = some u ∧ u.Perm (v' ++ [x])

/-- An id that only one record of `v` has leads to that record in any order of `v` and
a record with another id. -/
theorem split_unique {v a b a' b' : List (Record ω w)} {x : Record ω w} {id : BitVec w}
    {old old' : WqItem ω w} (hx : id ≠ x.2) (hcount : (ids v).count id ≤ 1)
    (hv : v = a ++ (old, id) :: b) (hB : (a' ++ (old', id) :: b').Perm (v ++ [x])) :
    (a' ++ b').Perm (a ++ b ++ [x]) := by
  have hid : id ∉ ids (a ++ b) := by
    intro hm
    have h1 : 0 < (ids (a ++ b)).count id := List.count_pos_iff.mpr hm
    rw [hv, ids_append, ids_cons, List.count_append, List.count_cons_self] at hcount
    rw [ids_append, List.count_append] at h1
    omega
  have hold : old' = old := by
    have hm : (old', id) ∈ v ++ [x] := hB.mem_iff.mp (by simp)
    rw [hv] at hm
    rcases List.mem_append.mp hm with hm | hm
    · rcases List.mem_append.mp hm with ha | hb
      · exact absurd (mem_ids.mpr ⟨old', List.mem_append_left b ha⟩) hid
      · rcases List.mem_cons.mp hb with he | hb
        · exact (Prod.mk.inj he).1
        · exact absurd (mem_ids.mpr ⟨old', List.mem_append_right a hb⟩) hid
    · exact absurd (congrArg Prod.snd (List.mem_singleton.mp hm)) hx
  rw [hold, hv, List.append_assoc, List.cons_append] at hB
  have := (List.perm_middle.symm.trans (hB.trans List.perm_middle)).cons_inv
  rwa [← List.append_assoc] at this

theorem ids_not_mem_beside {v B : List (Record ω w)} {x : Record ω w} {id : BitVec w}
    (hx : id ≠ x.2) (hv : ∀ r ∈ v, r.2 ≠ id) (hB : B.Perm (v ++ [x])) : ∀ r ∈ B, r.2 ≠ id := by
  intro r hr
  rcases List.mem_append.mp (hB.mem_iff.mp hr) with hm | hm
  · exact hv r hm
  · rw [List.mem_singleton.mp hm]; exact hx.symm

theorem exists_of_mem_beside {v B a b : List (Record ω w)} {x : Record ω w} {old : WqItem ω w}
    {id : BitVec w} (hv : v = a ++ (old, id) :: b) (hB : B.Perm (v ++ [x])) :
    ¬ ∀ r ∈ B, r.2 ≠ id := by
  intro h
  exact h (old, id) (hB.mem_iff.mpr (by simp [hv])) rfl

theorem replace_beside {v : List (Record ω w)} {x : Record ω w} {id : BitVec w}
    (item : WqItem ω w) (hx : id ≠ x.2) (hcount : (ids v).count id ≤ 1) :
    Beside (wqItemFindAndReplace id item) v x := by
  intro B hB
  refine ⟨?_, ?_⟩
  · intro hnone
    rw [wqItemFindAndReplace_eq_none] at hnone ⊢
    exact ids_not_mem_beside hx hnone hB
  · intro v' hv'
    obtain ⟨a, old, b, hv, rfl⟩ := wqItemFindAndReplace_eq_some hv'
    cases hf : wqItemFindAndReplace id item B with
    | none => exact absurd (wqItemFindAndReplace_eq_none.mp hf) (exists_of_mem_beside hv hB)
    | some u =>
      obtain ⟨a', old', b', rfl, rfl⟩ := wqItemFindAndReplace_eq_some hf
      refine ⟨_, rfl, ?_⟩
      have := split_unique hx hcount hv hB
      rw [List.append_assoc, List.cons_append]
      exact List.perm_middle.trans ((this.trans (by rw [List.append_assoc])).cons _
        |>.trans List.perm_middle.symm)

theorem remove_beside {v : List (Record ω w)} {x : Record ω w} {id : BitVec w}
    (hx : id ≠ x.2) (hcount : (ids v).count id ≤ 1) : Beside (wqItemFindAndRemove id) v x := by
  intro B hB
  refine ⟨?_, ?_⟩
  · intro hnone
    rw [wqItemFindAndRemove_eq_none] at hnone ⊢
    exact ids_not_mem_beside hx hnone hB
  · intro v' hv'
    obtain ⟨a, old, b, hv, hperm⟩ := wqItemFindAndRemove_eq_some hv'
    cases hf : wqItemFindAndRemove id B with
    | none => exact absurd (wqItemFindAndRemove_eq_none.mp hf) (exists_of_mem_beside hv hB)
    | some u =>
      obtain ⟨a', old', b', rfl, hperm'⟩ := wqItemFindAndRemove_eq_some hf
      exact ⟨u, rfl, hperm'.trans ((split_unique hx hcount hv hB).trans
        (hperm.symm.append_right [x]))⟩

theorem removeAll_beside {v : List (Record ω w)} {x : Record ω w} {c : BitVec w}
    (hx : c ≠ x.1.clientId) : Beside (wqItemFindAndRemoveAll c) v x := by
  intro B hB
  have hfilter : (B.filter fun r => r.1.clientId ≠ c).Perm
      ((v.filter fun r => r.1.clientId ≠ c) ++ [x]) := by
    have := hB.filter fun r => decide (r.1.clientId ≠ c)
    rwa [List.filter_append, List.filter_cons_of_pos (by simpa using hx.symm)] at this
  refine ⟨?_, ?_⟩
  · intro hnone
    rw [wqItemFindAndRemoveAll_eq_none] at hnone ⊢
    intro r hr
    rcases List.mem_append.mp (hB.mem_iff.mp hr) with hm | hm
    · exact hnone r hm
    · rw [List.mem_singleton.mp hm]; exact hx.symm
  · intro v' hv'
    obtain ⟨rfl, r, hr, hc⟩ := wqItemFindAndRemoveAll_eq_some hv'
    cases hf : wqItemFindAndRemoveAll c B with
    | none =>
      exact absurd hc (wqItemFindAndRemoveAll_eq_none.mp hf r
        (hB.mem_iff.mpr (List.mem_append_left _ hr)))
    | some u =>
      obtain ⟨rfl, -⟩ := wqItemFindAndRemoveAll_eq_some hf
      exact ⟨_, rfl, hfilter⟩

/-- The heap `B` of `v` and `x` can be such that the edit leaves the heap `B'`. -/
theorem edit_beside {h : Heap ω w} {f : List (Record ω w) → Option (List (Record ω w))}
    {q : Members ω w} {x : Record ω w} (hf : Beside f q.wqItemContainer x)
    {B' : List (Record ω w)} (hB' : IsHeap B')
    (hperm : B'.Perm ((edit h f q).2.wqItemContainer ++ [x])) :
    ∃ (h' : Heap ω w) (B : List (Record ω w)), IsHeap B ∧
      B.Perm (q.wqItemContainer ++ [x]) ∧
      edit h' f { q with wqItemContainer := B } =
        ((edit h f q).1, { (edit h f q).2 with wqItemContainer := B' }) := by
  unfold edit at hperm ⊢
  cases hv : f q.wqItemContainer with
  | none =>
    simp only [hv] at hperm ⊢
    refine ⟨h, B', hB', hperm, ?_⟩
    rw [(hf B' hperm).1 hv]
  | some v' =>
    simp only [hv] at hperm ⊢
    have hB := h.makeHeap_perm (q.wqItemContainer ++ [x])
    obtain ⟨u, hu, hup⟩ := (hf _ hB).2 v' hv
    have hperm' : B'.Perm u :=
      hperm.trans (((h.makeHeap_perm v').append_right [x]).trans hup.symm)
    obtain ⟨h', -, -, hmake⟩ := StdHeap.exists_algorithms h (a := []) (x := x) (y := x) (b := [])
      (List.Perm.refl _) (StdHeap.isHeap_singleton x) (List.Perm.refl []) StdHeap.isHeap_nil
      hperm' hB'
    refine ⟨h', _, h.makeHeap_isHeap _, hB, ?_⟩
    simp only [hu, makeHeapAndNotifyWorker, hmake]
    rfl

/-- **A call that has nothing to do with `x`** can be made on a heap with `x` in it, for
the same reply, and can leave whatever heap of the records one asks for. -/
theorem run_beside {h : Heap ω w} {q : Members ω w} {x : Record ω w} {c : Call ω w}
    (hc : c.IsClient) (hs : q.workerStoppedFlag = false) (hh : IsHeap q.wqItemContainer)
    (ha : c.Apart q.wqItemContainer x) {B' : List (Record ω w)} (hB' : IsHeap B')
    (hperm : B'.Perm ((c.run h q).2.wqItemContainer ++ [x])) :
    ∃ (h' : Heap ω w) (B : List (Record ω w)), IsHeap B ∧
      B.Perm (q.wqItemContainer ++ [x]) ∧
      c.run h' { q with wqItemContainer := B } =
        ((c.run h q).1, { (c.run h q).2 with wqItemContainer := B' }) := by
  cases c with
  | scheduleWork now cl wk st p =>
    rcases scheduleWork_cases h q now cl wk st p with ⟨hb, e⟩ | ⟨-, hs', -⟩ | ⟨hg, -, e⟩
    · simp only [Call.run, e] at hperm ⊢
      exact ⟨h, B', hB', hperm, by simp [scheduleWork, hb]⟩
    · rw [hs] at hs'; cases hs'
    · rw [postWork_running h q _ hs] at e
      simp only [Call.run, e, signalContainerChange] at hperm ⊢
      have hB := h.makeHeap_perm (q.wqItemContainer ++ [x])
      have hswap : ∀ y : Record ω w,
          (q.wqItemContainer ++ [y] ++ [x]).Perm (q.wqItemContainer ++ [x] ++ [y]) := by
        intro y
        rw [List.append_assoc, List.append_assoc]
        exact List.perm_append_comm.append_left _
      have hperm' := hperm.trans (((h.pushHeap_perm hh).append_right [x]).trans
        ((hswap _).trans (hB.symm.append_right _)))
      obtain ⟨h', hpush, -, -⟩ := StdHeap.exists_algorithms h (y := x) (b := []) (c := [])
        hperm' hB' (List.Perm.refl []) StdHeap.isHeap_nil (List.Perm.refl []) StdHeap.isHeap_nil
      refine ⟨h', _, h.makeHeap_isHeap _, hB, ?_⟩
      have hb : ¬ (cl = invalidClientId w ∨ wk = none) := not_or.mpr hg
      simp only [scheduleWork, if_neg hb, postWork, hs, signalContainerChange]
      simp only [scheduledItem] at hpush
      simp [hpush]
  | updateWork id cl wk st p =>
    by_cases hb : cl = invalidClientId w ∨ wk = none
    · simp only [Call.run, updateWork, if_pos hb] at hperm ⊢
      exact ⟨h, B', hB', hperm, rfl⟩
    · obtain ⟨hx, hcount⟩ := ha.resolve_left hb
      simp only [Call.run, updateWork_eq_edit hb hs] at hperm ⊢
      obtain ⟨h', B, hB, hBp, e⟩ := edit_beside (replace_beside _ hx hcount) hB' hperm
      refine ⟨h', B, hB, hBp, ?_⟩
      rw [updateWork_eq_edit (q := { q with wqItemContainer := B }) hb hs, e]
  | cancelWork id =>
    simp only [Call.run, cancelWork_eq_edit hs] at hperm ⊢
    obtain ⟨h', B, hB, hBp, e⟩ := edit_beside (remove_beside ha.1 ha.2) hB' hperm
    refine ⟨h', B, hB, hBp, ?_⟩
    rw [cancelWork_eq_edit (q := { q with wqItemContainer := B }) hs, e]
  | cancelClientWorks cl =>
    simp only [Call.run, cancelClientWorks_eq_edit hs] at hperm ⊢
    obtain ⟨h', B, hB, hBp, e⟩ := edit_beside (removeAll_beside ha) hB' hperm
    refine ⟨h', B, hB, hBp, ?_⟩
    rw [cancelClientWorks_eq_edit (q := { q with wqItemContainer := B }) hs, e]
  | isIdle =>
    refine ⟨h, B', hB', hperm, ?_⟩
    have hne : B' ≠ [] := by
      rintro rfl
      simpa using hperm.length_eq
    have hv : q.wqItemContainer ≠ [] := ha
    simp only [Call.run, isIdle, isContainerEmpty]
    rw [List.isEmpty_eq_false_iff.mpr hne, List.isEmpty_eq_false_iff.mpr hv]
  | getNearestTimePoint => exact absurd hc id
  | getClientId => exact absurd hc id
  | signalWorkerToStop => exact absurd hc id

end Mqmx.WorkQueue

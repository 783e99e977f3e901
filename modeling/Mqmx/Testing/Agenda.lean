import Mqmx.Testing.Forwarding

/-!
# What the worker runs next

`agenda s` is `pending s` with the record that is run next in front: the front of the
container, or the record in the worker's hands if that is earlier.  `push_heap` moves a
record up only past later ones, so ties go to the container.

An execution of the front `item` leaves the other records, in an order the heap library
chooses, with `putBack` behind them (`executeWork_agenda`).  Every other step of the worker
keeps the agenda (`step_away_agenda`).  The library, and the user work, can choose:
`exists_execute` has any earliest record for the next front, and any outcome.
-/

namespace Mqmx.Testing

open WorkQueue (Members Record Heap IsHeap Outcome)

variable {ω σ : Type} {w : ℕ}

/-- `l` put back to the records `v`: in front only where it is strictly earlier. -/
def insertBack (v l : List (Record (Work ω) w)) : List (Record (Work ω) w) :=
  if ∃ r ∈ l, ∀ front ∈ v.head?, r.1.timePoint < front.1.timePoint then l ++ v else v ++ l

/-- The pending records, the one to be run next in front. -/
def agenda (s : State ω w σ) : List (Record (Work ω) w) :=
  insertBack s.queue.wqItemContainer (inHand s.worker)

/-- `get_nearest_time_point` of a container. -/
def nearest (v : List (Record (Work ω) w)) : Int :=
  match v with
  | [] => 0
  | front :: _ => front.1.timePoint

/-- What an execution of `item` puts back, with the records `v` left: a forwarding item that
finds one of them due, or a user work that asks for it. -/
def putBack (plus : Int → Int → Int) (now : Int) (item : Record (Work ω) w) (o : Outcome)
    (v : List (Record (Work ω) w)) : List (Record (Work ω) w) :=
  if isForwarding item then
    if isTimePointEmpty (nearest v) ∨ now < nearest v then [] else again item now
  else again item (WorkQueue.executeWork plus item o)

/-- The same records, and the same one next. -/
def SameNext (u v : List (Record (Work ω) w)) : Prop := u.Perm v ∧ u.head? = v.head?

theorem SameNext.refl (v : List (Record (Work ω) w)) : SameNext v v := ⟨.refl v, rfl⟩

theorem SameNext.symm {u v : List (Record (Work ω) w)} (h : SameNext u v) : SameNext v u :=
  ⟨h.1.symm, h.2.symm⟩

theorem SameNext.trans {u v v' : List (Record (Work ω) w)} (h : SameNext u v)
    (h' : SameNext v v') : SameNext u v' := ⟨h.1.trans h'.1, h.2.trans h'.2⟩

/-! ### Putting back -/

@[simp] theorem insertBack_nil (v : List (Record (Work ω) w)) : insertBack v [] = v := by
  simp [insertBack]

theorem insertBack_perm (v l : List (Record (Work ω) w)) : (insertBack v l).Perm (v ++ l) := by
  unfold insertBack
  split
  · exact List.perm_append_comm
  · exact .refl _

theorem insertBack_cons_of_le {r front : Record (Work ω) w} {v : List (Record (Work ω) w)}
    (h : front.1.timePoint ≤ r.1.timePoint) :
    insertBack (front :: v) [r] = front :: v ++ [r] := by
  apply if_neg
  simpa using h

theorem insertBack_cons_of_lt {r front : Record (Work ω) w} {v : List (Record (Work ω) w)}
    (h : r.1.timePoint < front.1.timePoint) : insertBack (front :: v) [r] = r :: front :: v := by
  apply if_pos
  simpa using h

theorem agenda_perm (s : State ω w σ) : (agenda s).Perm (pending s) := insertBack_perm _ _

theorem agenda_of_inHand {s : State ω w σ} (h : inHand s.worker = []) :
    agenda s = s.queue.wqItemContainer := by
  rw [agenda, h, insertBack_nil]

theorem agenda_of_loop {s : State ω w σ} (h : s.worker = .loop) :
    agenda s = s.queue.wqItemContainer := agenda_of_inHand (by rw [h]; rfl)

theorem again_cases (item : Record (Work ω) w) (tp : Int) :
    again item tp = [] ∨
      ¬ isTimePointEmpty tp ∧ again item tp = [({ item.1 with timePoint := tp }, item.2)] := by
  unfold again
  split
  · exact .inl rfl
  · exact .inr ⟨‹_›, rfl⟩

/-- **The first record of the agenda is the earliest.** -/
theorem Inv.agenda_le {s : State ω w σ} (hi : Inv s) {e : Record (Work ω) w}
    {u : List (Record (Work ω) w)} (hs : agenda s = e :: u) :
    ∀ r ∈ u, e.1.timePoint ≤ r.1.timePoint := by
  have hheap := hi.heap
  have hhand : inHand s.worker = [] ∨ ∃ r, inHand s.worker = [r] := by
    cases s.worker with
    | syncing item tp => exact (again_cases item tp).imp_right fun h => ⟨_, h.2⟩
    | _ => exact .inl rfl
  have hfront : ∀ {front : Record (Work ω) w} {v}, s.queue.wqItemContainer = front :: v →
      ∀ r ∈ v, front.1.timePoint ≤ r.1.timePoint := by
    intro front v hc r hr
    exact hi.front_le hc r (hc ▸ List.mem_cons_of_mem _ hr)
  rcases hhand with h | ⟨r, h⟩
  · rw [agenda_of_inHand h] at hs
    exact hfront hs
  · rw [agenda, h] at hs
    cases hc : s.queue.wqItemContainer with
    | nil =>
      rw [hc] at hs
      obtain ⟨rfl, rfl⟩ := List.cons.inj (show [r] = e :: u from hs)
      simp
    | cons front v =>
      rw [hc] at hs
      by_cases hlt : r.1.timePoint < front.1.timePoint
      · rw [insertBack_cons_of_lt hlt] at hs
        obtain ⟨rfl, rfl⟩ := List.cons.inj hs
        intro x hx
        rcases List.mem_cons.mp hx with rfl | hx
        · omega
        · have := hfront hc x hx
          omega
      · rw [insertBack_cons_of_le (by omega)] at hs
        obtain ⟨rfl, rfl⟩ := List.cons.inj hs
        intro x hx
        rcases List.mem_append.mp hx with hx | hx
        · exact hfront hc x hx
        · rw [List.mem_singleton.mp hx]
          omega

/-- **A front-stable library keeps the front for the earlier record.** -/
theorem finish_agenda {h : Heap (Work ω) w} (hst : h.FrontStable) (item : Record (Work ω) w)
    (tp : Int) {s : State ω w σ} (hh : IsHeap s.queue.wqItemContainer) :
    SameNext (agenda (finish h item tp s))
      (insertBack s.queue.wqItemContainer (again item tp)) := by
  obtain ⟨hheap, hperm⟩ := finish_pending h item tp hh
  have hloop : agenda (finish h item tp s) = (finish h item tp s).queue.wqItemContainer :=
    agenda_of_loop rfl
  rcases again_cases item tp with e | ⟨hne, e⟩
  · have hcont : (finish h item tp s).queue.wqItemContainer = s.queue.wqItemContainer := by
      have htp : isTimePointEmpty tp := by
        by_contra hne
        rw [again, if_neg hne] at e
        cases e
      simp [finish, WorkQueue.reschedule, htp]
    rw [hloop, e, insertBack_nil, hcont]
    exact .refl _
  · rw [e] at hperm ⊢
    have hpush : (finish h item tp s).queue.wqItemContainer =
        h.pushHeap (s.queue.wqItemContainer ++ [({ item.1 with timePoint := tp }, item.2)]) := by
      simp [finish, WorkQueue.reschedule, hne]
    generalize ({ item.1 with timePoint := tp }, item.2) = r at hperm hpush ⊢
    have hperm' : (agenda (finish h item tp s)).Perm (s.queue.wqItemContainer ++ [r]) :=
      (agenda_perm _).trans hperm
    refine ⟨hperm'.trans (insertBack_perm _ _).symm, ?_⟩
    rw [hloop] at hperm' ⊢
    cases hc : s.queue.wqItemContainer with
    | nil =>
      rw [hc] at hperm'
      rw [List.perm_singleton.mp hperm']
      rfl
    | cons front v =>
      rw [hc] at hperm' hh
      by_cases hlt : r.1.timePoint < front.1.timePoint
      · -- the new record is the only earliest one
        rw [insertBack_cons_of_lt hlt]
        obtain ⟨x, v', hx⟩ := List.exists_cons_of_ne_nil
          (List.ne_nil_of_mem (hperm'.mem_iff.mpr (List.mem_append_right _
            (List.mem_singleton_self r))))
        rw [hx] at hperm' hheap ⊢
        have hle := WorkQueue.front_le hheap r (hperm'.mem_iff.mpr
          (List.mem_append_right _ (List.mem_singleton_self r)))
        rcases List.mem_append.mp (hperm'.mem_iff.mp List.mem_cons_self) with hm | hm
        · have := WorkQueue.front_le hh x hm
          omega
        · rw [List.mem_singleton.mp hm]
          rfl
      · rw [insertBack_cons_of_le (by omega), hpush, hc]
        exact hst v r front hh hlt

/-! ### The steps of the worker -/

theorem getNearestTimePoint_eq (q : Members (Work ω) w) :
    WorkQueue.getNearestTimePoint q = nearest q.wqItemContainer := by
  unfold WorkQueue.getNearestTimePoint nearest
  cases q.wqItemContainer <;> rfl

theorem callWork_user {item : Record (Work ω) w} (hne : item.1.work ≠ none)
    (hf : isForwarding item = false) (o : Outcome) (s : State ω w σ) :
    (callWork item o s).1 = o := by
  unfold callWork
  cases hw : item.1.work with
  | none => exact absurd hw hne
  | some k =>
    cases k with
    | user f => rfl
    | forwarding => rw [isForwarding_iff.mpr hw] at hf; cases hf

variable [Semaphore σ]

/-- **After an execution** the agenda is what the heap has left, with what is put back. -/
theorem executeWork_agenda {h : Heap (Work ω) w} (hst : h.FrontStable) (plus : Int → Int → Int)
    (item : Record (Work ω) w) (o : Outcome) {s : State ω w σ} (hf : s.timeForwardingFlag = false)
    (hh : IsHeap s.queue.wqItemContainer) :
    SameNext (agenda (executeWork h plus item o s))
      (insertBack s.queue.wqItemContainer
        (putBack plus s.currentTimePoint item (callWork item o s).1 s.queue.wqItemContainer)) := by
  rcases executeWork_cases h plus item o s hf with
    ⟨hnf, -, e⟩ | ⟨hnf, -, e⟩ | ⟨hfw, hnear, e⟩ | ⟨hfw, hnear, e⟩
  · rw [e, putBack, isForwarding_of_user hnf]
    exact finish_agenda hst item _ hh
  · rw [e, putBack, isForwarding_of_user hnf]
    exact .refl _
  · rw [getNearestTimePoint_eq] at hnear
    rw [e, putBack, isForwarding_iff.mpr hfw, if_pos rfl, if_pos hnear, insertBack_nil,
      agenda_of_loop rfl]
    exact .refl _
  · rw [getNearestTimePoint_eq] at hnear
    rw [e, putBack, isForwarding_iff.mpr hfw, if_pos rfl, if_neg hnear]
    exact finish_agenda hst item _ hh

theorem Executes.agenda {plus : Int → Int → Int} {s t : State ω w σ} {l : Label ω w}
    {h : Heap (Work ω) w} {item : Record (Work ω) w} {o : Outcome}
    {rest u : List (Record (Work ω) w)} (he : Executes s l t plus h item o rest u)
    (hst : h.FrontStable) (hi : Inv s) :
    SameNext (agenda t)
      (insertBack u (putBack plus s.currentTimePoint item (callWork item o s).1 u)) := by
  have := executeWork_agenda (s := s.setContainer u) hst plus item o hi.flag he.heap
  rw [callWork_setContainer] at this
  rw [he.result]
  exact this

theorem step_away_agenda {plus : Int → Int → Int} {s t : State ω w σ} {l : Label ω w}
    (hi : Inv s) (hrun : s.queue.workerStoppedFlag = false) (hw : s.worker ≠ .loop)
    (hawake : s.worker = .waitForTimePoint → s.queue.containerChangeFlag = true)
    (hl : l.IsWorker) (hs : Step StdHeap.Algorithms.FrontStable plus s l t) :
    SameNext (agenda t) (agenda s) := by
  obtain ⟨hwt, hsilent⟩ := step_away hi hrun hw hawake hl hs
  by_cases hin : inHand s.worker = []
  · rw [agenda_of_loop hwt, agenda_of_inHand hin, hsilent.container hin]
    exact .refl _
  · cases hs with
    | syncReturn h hst hpc =>
      rw [show agenda s = insertBack s.queue.wqItemContainer (again _ _) by rw [agenda, hpc]; rfl]
      exact finish_agenda hst _ _ hi.heap
    | spurious hpc _ => exact absurd (by rw [hpc]; rfl) hin
    | changed hpc _ => exact absurd (by rw [hpc]; rfl) hin
    | wake hpc => exact absurd (by rw [hpc]; rfl) hin
    | lock hpc => exact absurd (by rw [hpc]; rfl) hin
    | waitForWork hpc _ => exact absurd hpc hw
    | exit hpc _ _ => exact absurd hpc hw
    | restart hpc _ _ _ _ => exact absurd hpc hw
    | waitForTime hpc _ _ _ _ => exact absurd hpc hw
    | execute _ _ _ hpc => exact absurd hpc hw
    | _ => exact absurd hl id

/-- **Any outcome, and any earliest record next**: the front of the container can be run so. -/
theorem exists_execute (plus : Int → Int → Int) {s : State ω w σ} (hi : Inv s)
    (hrun : s.queue.workerStoppedFlag = false) (hw : s.worker = .loop)
    {item y : Record (Work ω) w} {rest : List (Record (Work ω) w)}
    (hc : s.queue.wqItemContainer = item :: rest)
    (hdue : item.1.timePoint ≤ s.currentTimePoint) (hy : y ∈ rest)
    (hmin : ∀ r ∈ rest, y.1.timePoint ≤ r.1.timePoint) (o : Outcome) :
    ∃ h l v t, h.FrontStable ∧ (workerOnly ω w σ plus).step s l t ∧
      Executes s l t plus h item o rest (y :: v) := by
  obtain ⟨v, hperm, hheap⟩ := StdHeap.exists_isHeap_front WorkQueue.recordCompare_strictWeak hy
    fun r hr => Int.not_lt.mpr (hmin r hr)
  obtain ⟨h, hpop, hpush⟩ : ∃ h : Heap (Work ω) w, h.popHeap (item :: rest) = y :: v ++ [item] ∧
      h.pushHeap = (WorkQueue.siftHeap (Work ω) w).pushHeap :=
    StdHeap.Algorithms.exists_popHeap _ hperm hheap
  have hst : h.FrontStable := by
    intro v x z hz hlt
    rw [hpush]
    exact StdHeap.Algorithms.sift_frontStable WorkQueue.recordCompare_strictWeak v x z hz hlt
  have hpr : WorkQueue.popRecord h s.queue =
      some (item, { s.queue with wqItemContainer := y :: v }) := by
    simp only [WorkQueue.popRecord]
    rw [hc, hpop, List.getLast?_concat, List.dropLast_concat]
    rfl
  exact ⟨h, .execute item (callWork item o s).1, v, _, hst,
    ⟨trivial, .execute h o hst hw hc (hi.works hrun item (hc ▸ List.mem_cons_self)) hdue hpr⟩,
    hw, hc, hperm, hheap, hdue, rfl, rfl⟩

end Mqmx.Testing

import Mqmx.WorkQueue.Rescheduling

/-!
# The empty time point

`schedule_work` takes the empty time point as "at once", and stores the current time in its
place; to `get_nearest_time_point` it means that nothing is pending.  `update_work` stores
whatever it is given.

* `update_agrees_iff`: the two calls store the same record for the same request exactly when
  the start time is not the empty one, or the clock reads that time itself.
* `nothing_at_empty`: a running queue has no record for the empty time as long as no
  `update_work` has been given it, and has one right after the first that was.
-/

namespace Mqmx.WorkQueue

open Transition (Reachable Run)

variable {ω : Type} {w : ℕ}

/-! ### What a call leaves behind -/

/-- `item` stands in `v'` for the first record of `v` with the id. -/
def Leaves (id : BitVec w) (v v' : List (Record ω w)) (item : WqItem ω w) : Prop :=
  ∃ a old b, v = a ++ (old, id) :: b ∧ (∀ r ∈ a, r.2 ≠ id) ∧ v'.Perm (a ++ (item, id) :: b)

/-- `item` has been added to `v`, under an id. -/
def Stores (id : BitVec w) (v v' : List (Record ω w)) (item : WqItem ω w) : Prop :=
  v'.Perm (v ++ [(item, id)])

/-- The invocations of a work from now on, each with its time, when it ends as given. -/
def invocations (plus : Int → Int → Int) (item : WqItem ω w) : List Outcome → List (Option ω × Int)
  | [] => []
  | outcome :: outcomes =>
    let tp := executeWork plus (item, 0) outcome
    (item.work, item.timePoint) ::
      if isTimePointEmpty tp then [] else invocations plus { item with timePoint := tp } outcomes

theorem perm_insert_inj {α : Type} {a b : List α} {x y : α}
    (h : (a ++ x :: b).Perm (a ++ y :: b)) : x = y := by
  have hxy : ([x] ++ b).Perm ([y] ++ b) := (List.perm_append_left_iff a).mp h
  exact List.singleton_perm_singleton.mp ((List.perm_append_right_iff b).mp hxy)

theorem first_split_unique {α : Type} {p : α → Prop} {a a' b b' : List α} {x x' : α}
    (h : a ++ x :: b = a' ++ x' :: b') (ha : ∀ r ∈ a, ¬ p r) (ha' : ∀ r ∈ a', ¬ p r)
    (hx : p x) (hx' : p x') : a = a' ∧ x = x' ∧ b = b' := by
  induction a generalizing a' with
  | nil =>
    cases a' with
    | nil => exact ⟨rfl, List.cons.inj h⟩
    | cons y a' => exact absurd ((List.cons.inj h).1 ▸ hx) (ha' y List.mem_cons_self)
  | cons y a ih =>
    cases a' with
    | nil => exact absurd ((List.cons.inj h).1 ▸ hx') (ha y List.mem_cons_self)
    | cons y' a' =>
      obtain ⟨rfl, htail⟩ := List.cons.inj h
      obtain ⟨rfl, hrest⟩ := ih htail (fun r hr => ha r (List.mem_cons_of_mem _ hr))
        fun r hr => ha' r (List.mem_cons_of_mem _ hr)
      exact ⟨rfl, hrest⟩

theorem Leaves.unique {id : BitVec w} {v v' : List (Record ω w)} {item item' : WqItem ω w}
    (h : Leaves id v v' item) (h' : Leaves id v v' item') : item = item' := by
  obtain ⟨a, old, b, hv, ha, hp⟩ := h
  obtain ⟨a', old', b', hv', ha', hp'⟩ := h'
  obtain ⟨rfl, -, rfl⟩ := first_split_unique (p := fun r : Record ω w => r.2 = id)
    (hv.symm.trans hv') ha ha' rfl rfl
  have := perm_insert_inj (hp.symm.trans hp')
  exact congrArg Prod.fst this

theorem Stores.unique {id : BitVec w} {v v' : List (Record ω w)} {item item' : WqItem ω w}
    (h : Stores id v v' item) (h' : Stores id v v' item') : item = item' :=
  congrArg Prod.fst (perm_insert_inj (b := []) (h.symm.trans h'))

theorem wqItemFindAndReplace_first {id : BitVec w} {item : WqItem ω w} {v v' : List (Record ω w)}
    (h : wqItemFindAndReplace id item v = some v') : Leaves id v v' item := by
  induction v generalizing v' with
  | nil => cases h
  | cons e v ih =>
    rw [wqItemFindAndReplace] at h
    split at h
    · rename_i he
      cases h
      subst he
      exact ⟨[], e.1, v, rfl, by simp, .refl _⟩
    · rename_i he
      obtain ⟨u, hu, rfl⟩ := Option.map_eq_some_iff.mp h
      obtain ⟨a, old, b, rfl, ha, hp⟩ := ih hu
      exact ⟨e :: a, old, b, rfl, List.forall_mem_cons.mpr ⟨he, ha⟩, hp.cons e⟩

/-! ### The two calls compared -/

section Calls

variable {h : Heap ω w} {q : Members ω w} {id c newId : BitVec w} {wk : Option ω} {now st p : Int}

/-- **An accepted `update_work`** leaves the request as it is under the id. -/
theorem updateWork_leaves (hu : (updateWork h id c wk st p q).1 = .success) :
    Leaves id q.wqItemContainer (updateWork h id c wk st p q).2.wqItemContainer
      ⟨st, c, wk, p⟩ := by
  unfold updateWork at hu ⊢
  split at hu
  · cases hu
  rename_i hgood
  split at hu
  · cases hu
  rename_i hrun
  rw [if_neg hgood, if_neg hrun]
  split at hu
  · rename_i v hv
    obtain ⟨a, old, b, hsplit, ha, hp⟩ := wqItemFindAndReplace_first hv
    exact ⟨a, old, b, hsplit, ha, (h.makeHeap_perm v).trans hp⟩
  · cases hu

theorem updateWork_accepted (hu : (updateWork h id c wk st p q).1 = .success) :
    (c ≠ invalidClientId w ∧ wk ≠ none) ∧ q.workerStoppedFlag = false ∧
      id ∈ ids q.wqItemContainer := by
  rcases updateWork_cases h q id c wk st p with
    ⟨-, e⟩ | ⟨-, -, e⟩ | ⟨-, -, -, e⟩ | ⟨hgood, hrun, a, old, b, hv, -⟩
  · rw [e] at hu; cases hu
  · rw [e] at hu; cases hu
  · rw [e] at hu; cases hu
  · refine ⟨hgood, hrun, ?_⟩
    rw [hv]
    exact mem_ids.mpr ⟨old, List.mem_append_right _ List.mem_cons_self⟩

/-- **An accepted `schedule_work`** stores the request at the current time, where it has no
start time of its own. -/
theorem scheduleWork_stores (hh : IsHeap q.wqItemContainer)
    (hs : (scheduleWork h now c wk st p q).1 = (.success, newId)) :
    Stores newId q.wqItemContainer (scheduleWork h now c wk st p q).2.wqItemContainer
      (scheduledItem now c wk st p) := by
  rcases scheduleWork_cases h q now c wk st p with ⟨-, e⟩ | ⟨-, -, e⟩ | ⟨-, hrun, e⟩
  · rw [e] at hs
    cases hs
  · rw [e] at hs
    cases hs
  · rw [e, postWork_running h q _ hrun] at hs ⊢
    obtain rfl : _ = newId := congrArg Prod.snd hs
    exact h.pushHeap_perm hh

end Calls

/-- What the two calls owe to each other: one record, and so one series of invocations. -/
def Agree (plus : Int → Int → Int) (id newId : BitVec w) (v updated scheduled : List (Record ω w)) :
    Prop :=
  ∃ item item', Leaves id v updated item ∧ Stores newId v scheduled item' ∧
    item.timePoint = item'.timePoint ∧ item.clientId = item'.clientId ∧
    item.work = item'.work ∧ item.period = item'.period ∧
    ∀ outcomes, invocations plus item outcomes = invocations plus item' outcomes

/-- **`update_work` means what `schedule_work` means exactly where the start time is not the
empty one**, or the clock reads just that time. -/
theorem update_agrees_iff (plus : Int → Int → Int) {s : State ω w}
    (hr : Reachable (system ω w plus) s) (h h' : Heap ω w) {id c newId : BitVec w}
    {wk : Option ω} {now st p : Int}
    (hu : (updateWork h id c wk st p s.queue).1 = .success)
    (hs : (scheduleWork h' now c wk st p s.queue).1 = (.success, newId)) :
    Agree plus id newId s.queue.wqItemContainer
        (updateWork h id c wk st p s.queue).2.wqItemContainer
        (scheduleWork h' now c wk st p s.queue).2.wqItemContainer ↔
      ¬ isTimePointEmpty st ∨ isTimePointEmpty now := by
  have hleaves := updateWork_leaves hu
  have hstores := scheduleWork_stores (inv_of_reachable hr).valid.heap hs
  constructor
  · rintro ⟨item, item', h1, h2, htime, -⟩
    obtain rfl := hleaves.unique h1
    obtain rfl := hstores.unique h2
    by_cases hst : isTimePointEmpty st
    · right
      have : st = now := by simpa [scheduledItem, hst] using htime
      rwa [← this]
    · exact .inl hst
  · intro hok
    have hsame : scheduledItem now c wk st p = ⟨st, c, wk, p⟩ := by
      unfold scheduledItem
      split
      · rename_i hst
        rcases hok with hne | hnow
        · exact absurd hst hne
        · rw [show now = st from hnow.trans hst.symm]
      · rfl
    rw [hsame] at hstores
    exact ⟨_, _, hleaves, hstores, rfl, rfl, rfl, rfl, fun _ => rfl⟩

/-- Asked at tick `9` to start at tick `6`, the two calls agree. -/
theorem update_agrees_everyFive :
    Agree Ticks.wrap 0 1 (everyFive 5).queue.wqItemContainer
      (updateWork (siftHeap Unit 64) 0 0 (some ()) 6 5 (everyFive 5).queue).2.wqItemContainer
      (scheduleWork (siftHeap Unit 64) 9 0 (some ()) 6 5 (everyFive 5).queue).2.wqItemContainer :=
  (update_agrees_iff Ticks.wrap (everyFive_reachable _ _ (by decide)) (siftHeap Unit 64)
    (siftHeap Unit 64) (by decide) (by decide)).mpr (.inl (by decide))

/-- **Asked at tick `9` to start at once, they do not**: the updated work is due at the epoch,
and every later time of it is nine ticks behind that of a scheduled one. -/
theorem update_disagrees_at_empty_time :
    Reachable (system Unit 64 Ticks.wrap) (everyFive 5) ∧
    (updateWork (siftHeap Unit 64) 0 0 (some ()) 0 5 (everyFive 5).queue).1 = .success ∧
    (scheduleWork (siftHeap Unit 64) 9 0 (some ()) 0 5 (everyFive 5).queue).1 = (.success, 1) ∧
    ¬ Agree Ticks.wrap 0 1 (everyFive 5).queue.wqItemContainer
      (updateWork (siftHeap Unit 64) 0 0 (some ()) 0 5 (everyFive 5).queue).2.wqItemContainer
      (scheduleWork (siftHeap Unit 64) 9 0 (some ()) 0 5 (everyFive 5).queue).2.wqItemContainer := by
  have hr := everyFive_reachable Ticks.wrap 5 (by decide)
  have hu : (updateWork (siftHeap Unit 64) 0 0 (some ()) 0 5 (everyFive 5).queue).1 = .success := by
    decide
  have hs : (scheduleWork (siftHeap Unit 64) 9 0 (some ()) 0 5 (everyFive 5).queue).1 =
      (.success, 1) := by decide
  refine ⟨hr, hu, hs, ?_⟩
  rintro ⟨item, item', h1, h2, htime, -⟩
  obtain rfl := (updateWork_leaves hu).unique h1
  obtain rfl := (scheduleWork_stores (inv_of_reachable hr).valid.heap hs).unique h2
  exact absurd htime (by decide)

/-! ### No pending record has the empty time -/

/-- The clock is read after the epoch. -/
def Label.ReadsLate : Label ω w → Prop
  | .call (.scheduleWork now ..) _ => 0 < now
  | _ => True

/-- The work queue, with a clock that is past the epoch. -/
def late (ω : Type) (w : ℕ) (plus : Int → Int → Int) :
    Transition.System (State ω w) (Label ω w) :=
  (system ω w plus).restrict fun _ l => l.ReadsLate

/-- An `update_work` that finds its record is not given the empty time point. -/
def Label.SparesEmptyTime (s : State ω w) : Label ω w → Prop
  | .call (.updateWork id c wk st _) _ =>
    c ≠ invalidClientId w → wk ≠ none → s.queue.workerStoppedFlag = false →
      id ∈ ids s.queue.wqItemContainer → ¬ isTimePointEmpty st
  | _ => True

/-- While the queue is running, no record has the empty time point, and so the nearest time
point is the empty one just when the queue is idle. -/
structure NothingAtEmpty (q : Members ω w) : Prop where
  times : q.workerStoppedFlag = false → ∀ r ∈ q.wqItemContainer, ¬ isTimePointEmpty r.1.timePoint
  nearest : q.workerStoppedFlag = false →
    (isTimePointEmpty (getNearestTimePoint q) ↔ isIdle q = true)

theorem nothingAtEmpty_of_times {q : Members ω w}
    (h : q.workerStoppedFlag = false → ∀ r ∈ q.wqItemContainer, ¬ isTimePointEmpty r.1.timePoint) :
    NothingAtEmpty q := by
  refine ⟨h, ?_⟩
  intro hs
  cases hc : q.wqItemContainer with
  | nil => simp [getNearestTimePoint, isIdle, isContainerEmpty, isTimePointEmpty, hc]
  | cons front rest =>
    have hfront : ¬ isTimePointEmpty front.1.timePoint :=
      h hs front (by rw [hc]; exact List.mem_cons_self)
    simp [getNearestTimePoint, isIdle, isContainerEmpty, hc, hfront]

variable {plus : Int → Int → Int}

/-- What a call stores has a time of its own, and so has what was there. -/
theorem call_times {h : Heap ω w} {s : State ω w} {c : Call ω w} (hi : Inv s)
    (ht : NothingAtEmpty s.queue) (hlate : (Label.call c (c.run h s.queue).1).ReadsLate)
    (hok : (Label.call c (c.run h s.queue).1).SparesEmptyTime s) :
    (c.run h s.queue).2.workerStoppedFlag = false →
      ∀ r ∈ (c.run h s.queue).2.wqItemContainer, ¬ isTimePointEmpty r.1.timePoint := by
  intro hs' r hr
  have hrun : s.queue.workerStoppedFlag = false := by
    rcases (run_edit h s.queue c).signals with ⟨n, e⟩ | ⟨hs, -⟩
    · rw [e] at hs'
      exact hs'
    · exact hs
  have hold := ht.times hrun
  generalize hv : (c.run h s.queue).2.wqItemContainer = v at hr
  have hc := run_changes h hi.valid.heap c
  rw [hv] at hc
  generalize hreply : (c.run h s.queue).1 = reply at hc
  cases hc with
  | removes hsub hp => exact hold r (hsub.subset (hp.mem_iff.mp hr))
  | @adds now st p cl id wk _ hp =>
    rcases List.mem_append.mp (hp.mem_iff.mp hr) with hm | hm
    · exact hold r hm
    · obtain rfl := List.mem_singleton.mp hm
      have hpos : 0 < now := hlate
      intro hempty
      unfold scheduledItem at hempty
      split at hempty
      · exact absurd hempty (ne_of_gt hpos)
      · rename_i hst
        exact hst hempty
  | @replaces st p cl id wk old a b _ _ hsplit hp =>
    rcases List.mem_append.mp (hp.mem_iff.mp hr) with hm | hm
    · exact hold r (by rw [hsplit]; exact List.mem_append_left _ hm)
    rcases List.mem_cons.mp hm with rfl | hm
    · -- the call was accepted, so it is one of those that are to spare the empty time
      obtain ⟨hgood, -⟩ := updateWork_accepted (Reply.status.inj hreply)
      refine hok hgood.1 hgood.2 hrun ?_
      rw [hsplit]
      exact mem_ids.mpr ⟨old, List.mem_append_right _ List.mem_cons_self⟩
    · exact hold r (by rw [hsplit]; exact List.mem_append_right _ (List.mem_cons_of_mem _ hm))
  | stops =>
    rcases signalWorkerToStop_cases h s.queue with ⟨hs, -⟩ | ⟨-, e⟩
    · rw [hrun] at hs
      cases hs
    · rw [Call.run, e] at hs'
      cases hs'

theorem nothingAtEmpty_step {s t : State ω w} {l : Label ω w} (hi : Inv s)
    (ht : NothingAtEmpty s.queue) (hlate : l.ReadsLate) (hok : l.SparesEmptyTime s)
    (hs : Step plus s l t) : NothingAtEmpty t.queue := by
  cases hs with
  | call h c _ _ => exact nothingAtEmpty_of_times (call_times hi ht hlate hok)
  | startWorker hw _ =>
    refine nothingAtEmpty_of_times fun _ r hr => ?_
    rw [(hi.parked hw).1] at hr
    cases hr
  | exit _ _ _ => exact nothingAtEmpty_of_times fun _ r hr => absurd hr List.not_mem_nil
  | execute h o _ _ _ hne hp _ =>
    obtain ⟨rest, u, hc, rfl, hperm, hheap⟩ := popRecord_eq_some hi.valid.heap hne hp
    refine nothingAtEmpty_of_times fun hrun r hr => ?_
    rw [reschedule_eq] at hrun
    rcases mem_reschedule (q := { s.queue with wqItemContainer := u }) hheap hr with hm | ⟨htp, rfl⟩
    · refine ht.times hrun r ?_
      rw [hc]
      exact List.mem_cons_of_mem _ (hperm.mem_iff.mp hm)
    · exact htp
  | tick | lock | waitForWork | restart | waitForTime | wake | changed | spurious | drained =>
    exact ⟨ht.times, ht.nearest⟩

theorem nothingAtEmpty_initial : NothingAtEmpty (Members.initial : Members ω w) :=
  nothingAtEmpty_of_times fun hs => by cases hs

theorem updateWork_empty {h : Heap ω w} {q : Members ω w} {id c : BitVec w} {wk : Option ω}
    {st p : Int} (hgood : c ≠ invalidClientId w ∧ wk ≠ none) (hrun : q.workerStoppedFlag = false)
    (hid : id ∈ ids q.wqItemContainer) (hst : isTimePointEmpty st) :
    ¬ NothingAtEmpty (updateWork h id c wk st p q).2 := by
  intro ht
  rcases updateWork_cases h q id c wk st p with
    ⟨hbad, -⟩ | ⟨-, hs, -⟩ | ⟨-, -, hno, -⟩ | ⟨-, -, a, old, b, hv, e⟩
  · rcases hbad with h1 | h1
    · exact hgood.1 h1
    · exact hgood.2 h1
  · rw [hrun] at hs
    cases hs
  · obtain ⟨item, hm⟩ := mem_ids.mp hid
    exact hno _ hm rfl
  · rw [e] at ht
    refine ht.times hrun (⟨st, c, wk, p⟩, id) ?_ hst
    refine (h.makeHeap_perm _).mem_iff.mpr ?_
    exact List.mem_append_right _ List.mem_cons_self

/-- **The empty time point means that nothing is pending as long as no `update_work` is given
it, and no longer.**  The first such call leaves a record at the empty time. -/
theorem nothing_at_empty (ω : Type) (w : ℕ) (plus : Int → Int → Int) :
    (∀ s, Reachable ((late ω w plus).restrict Label.SparesEmptyTime) s → NothingAtEmpty s.queue) ∧
    ∀ s l t, (late ω w plus).step s l t → ¬ l.SparesEmptyTime s → ¬ NothingAtEmpty t.queue := by
  constructor
  · intro s hr
    refine (hr.invariant (P := fun s => Inv s ∧ NothingAtEmpty s.queue) ?_ ?_).2
    · intro s hinit
      refine ⟨@inv_initial ω w plus s hinit, ?_⟩
      rw [hinit.1]
      exact nothingAtEmpty_initial
    · rintro s l t ⟨hi, ht⟩ ⟨hok, hlate, hs⟩
      exact ⟨hi.step hs, nothingAtEmpty_step hi ht hlate hok hs⟩
  · rintro s l t ⟨-, hs⟩ hbad
    cases hs with
    | call h c _ _ =>
      cases c with
      | updateWork id cl wk st p =>
        simp only [Label.SparesEmptyTime, not_forall, not_not] at hbad
        obtain ⟨hcl, hwk, hrun, hid, hst⟩ := hbad
        exact updateWork_empty ⟨hcl, hwk⟩ hrun hid hst
      | _ => exact absurd trivial hbad
    | _ => exact absurd trivial hbad

theorem everyFive_late :
    Run (late Unit 64 Ticks.wrap) ⟨.initial, .notStarted, 9⟩ (startEveryFive 5) (everyFive 5) :=
  (everyFive_run Ticks.wrap 5 (by decide)).of_labels (by simp [startEveryFive, Label.ReadsLate])

/-- The work is updated to run from tick `7` on. -/
theorem nothing_at_empty_everyFive :
    (updateWork (siftHeap Unit 64) 0 0 (some ()) 7 5 (everyFive 5).queue).1 = .success ∧
    NothingAtEmpty (updateWork (siftHeap Unit 64) 0 0 (some ()) 7 5 (everyFive 5).queue).2 := by
  have hrun : Run ((late Unit 64 Ticks.wrap).restrict Label.SparesEmptyTime) _ _ (everyFive 5) :=
    everyFive_late.of_labels (by simp [startEveryFive, Label.SparesEmptyTime])
  have hupdate := @Step.call Unit 64 Ticks.wrap (siftHeap Unit 64)
    (.updateWork 0 0 (some ()) 7 5) (everyFive 5) (by decide) trivial
  have hspares : (Label.call (.updateWork 0 0 (some ()) 7 5) (.status .success) :
      Label Unit 64).SparesEmptyTime (everyFive 5) := fun _ _ _ _ => by decide
  exact ⟨by decide, (nothing_at_empty Unit 64 Ticks.wrap).1 _
    (Reachable.step ⟨_, _, ⟨rfl, rfl⟩, hrun⟩ ⟨hspares, trivial, hupdate⟩)⟩

/-- **After such a call the nearest time point is the empty one, and the queue is not idle.** -/
theorem nearest_empty_not_idle :
    ∃ s, Reachable (late Unit 64 Ticks.wrap) s ∧ s.queue.workerStoppedFlag = false ∧
      isTimePointEmpty (getNearestTimePoint s.queue) ∧ isIdle s.queue = false := by
  have hupdate := @Step.call Unit 64 Ticks.wrap (siftHeap Unit 64)
    (.updateWork 0 0 (some ()) 0 5) (everyFive 5) (by decide) trivial
  refine ⟨_, Reachable.step ⟨_, _, ⟨rfl, rfl⟩, everyFive_late⟩ ⟨by trivial, hupdate⟩, ?_⟩
  decide

end Mqmx.WorkQueue

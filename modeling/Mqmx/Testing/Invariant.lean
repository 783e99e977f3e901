import Mqmx.Testing.Model

/-!
# The invariant of the work queue for tests

`Inv` holds in every reachable state (`inv_of_reachable`): the container is a heap,
also while a record is out of it in a callback; a running queue has no record without
a work; the forwarding flag is down again after every execution; and the worker
sleeps on a front that is due only while a caller of `forward_time` has set the time
and not yet posted its item.

`pending` is what the queue still has to run: the container, and the record in the
worker's hands during a callback when that is to be put back.
-/

namespace Mqmx.Testing

open WorkQueue (Members Record Heap IsHeap Outcome)

variable {ω σ : Type} {w : ℕ}

/-- A record at its next time, unless that is empty. -/
def again (item : Record (Work ω) w) (tp : Int) : List (Record (Work ω) w) :=
  if isTimePointEmpty tp then [] else [({ item.1 with timePoint := tp }, item.2)]

/-- The record in the worker's hands, as it will be put back. -/
def inHand : WorkerPc ω w → List (Record (Work ω) w)
  | .syncing item tp => again item tp
  | _ => []

/-- All records still to be run. -/
def pending (s : State ω w σ) : List (Record (Work ω) w) :=
  s.queue.wqItemContainer ++ inHand s.worker

@[simp] theorem inHand_loop : inHand (.loop : WorkerPc ω w) = [] := rfl

theorem finish_pending (h : Heap (Work ω) w) (item : Record (Work ω) w) (tp : Int)
    {s : State ω w σ} (hh : IsHeap s.queue.wqItemContainer) :
    IsHeap (finish h item tp s).queue.wqItemContainer ∧
      (pending (finish h item tp s)).Perm (s.queue.wqItemContainer ++ again item tp) := by
  obtain ⟨hh', hp⟩ := WorkQueue.reschedule_container h item tp hh
  refine ⟨hh', ?_⟩
  simpa [pending, finish, again] using hp

/-- The time a record is run again at: what its work asks for, or the current time or none for
a forwarding item. -/
def NextTime (plus : Int → Int → Int) (item : Record (Work ω) w) (now tp : Int) : Prop :=
  (item.1.work ≠ some .forwarding ∧
    ∃ outcome, tp = WorkQueue.executeWork plus item outcome) ∨
  (item.1.work = some .forwarding ∧ (tp = 0 ∨ tp = now))

/-- **After an execution the record is pending at its next time**, beside the others. -/
theorem executeWork_pending [Semaphore σ] (h : Heap (Work ω) w) (plus : Int → Int → Int)
    (item : Record (Work ω) w) (outcome : Outcome) {s : State ω w σ}
    (hf : s.timeForwardingFlag = false) (hh : IsHeap s.queue.wqItemContainer) :
    ∃ tp, NextTime plus item s.currentTimePoint tp ∧
      (pending (executeWork h plus item outcome s)).Perm
        (s.queue.wqItemContainer ++ again item tp) := by
  rcases executeWork_cases h plus item outcome s hf with
    ⟨hw, -, e⟩ | ⟨hw, -, e⟩ | ⟨hw, -, e⟩ | ⟨hw, -, e⟩
  · rw [e]
    exact ⟨_, .inl ⟨hw, _, rfl⟩, (finish_pending h item _ hh).2⟩
  · rw [e]
    exact ⟨_, .inl ⟨hw, _, rfl⟩, .refl _⟩
  · rw [e]
    exact ⟨0, .inr ⟨hw, .inl rfl⟩, .refl _⟩
  · rw [e]
    exact ⟨_, .inr ⟨hw, .inr rfl⟩, (finish_pending h item _ hh).2⟩

theorem finish_stopped (h : Heap (Work ω) w) (item : Record (Work ω) w) (tp : Int)
    (s : State ω w σ) :
    (finish h item tp s).queue.workerStoppedFlag = s.queue.workerStoppedFlag := by
  rw [finish, WorkQueue.reschedule_eq]

structure Inv (s : State ω w σ) : Prop where
  heap : IsHeap s.queue.wqItemContainer
  works : s.queue.workerStoppedFlag = false → ∀ r ∈ s.queue.wqItemContainer, r.1.work ≠ none
  parked : s.worker = .notStarted ∨ s.worker = .exited →
    s.queue.wqItemContainer = [] ∧ s.queue.workerStoppedFlag = true
  flag : s.timeForwardingFlag = false
  hand : ∀ item tp, s.worker = .syncing item tp →
    item.1.work ≠ none ∧ item.1.work ≠ some .forwarding
  client : 0 < w → s.timeForwardingClientId ≠ WorkQueue.invalidClientId w
  awake : 0 < w → s.worker = .waitForTimePoint → s.queue.containerChangeFlag = false →
    s.queue.workerStoppedFlag = false → s.posting = 0 →
    ∀ r ∈ s.queue.wqItemContainer, s.currentTimePoint < r.1.timePoint

theorem Inv.front_le {s : State ω w σ} (hi : Inv s) {front : Record (Work ω) w}
    {rest : List (Record (Work ω) w)} (hc : s.queue.wqItemContainer = front :: rest) :
    ∀ r ∈ s.queue.wqItemContainer, front.1.timePoint ≤ r.1.timePoint := by
  have hh := hi.heap
  rw [hc] at hh ⊢
  exact WorkQueue.front_le hh

theorem Inv.not_due {s : State ω w σ} (hi : Inv s) {front : Record (Work ω) w}
    {rest : List (Record (Work ω) w)} (hc : s.queue.wqItemContainer = front :: rest)
    (hlt : s.currentTimePoint < front.1.timePoint) :
    ∀ r ∈ s.queue.wqItemContainer, s.currentTimePoint < r.1.timePoint := by
  intro r hr
  exact Int.lt_of_lt_of_le hlt (hi.front_le hc r hr)

theorem mem_again {item r : Record (Work ω) w} {tp : Int} (h : r ∈ again item tp) :
    ¬ isTimePointEmpty tp ∧ r = ({ item.1 with timePoint := tp }, item.2) := by
  unfold again at h
  split at h
  · simp at h
  · rename_i htp
    exact ⟨htp, List.mem_singleton.mp h⟩

theorem Inv.finish {h : Heap (Work ω) w} {item : Record (Work ω) w} {tp : Int}
    {s : State ω w σ} (hh : IsHeap s.queue.wqItemContainer)
    (hw : s.queue.workerStoppedFlag = false → ∀ r ∈ s.queue.wqItemContainer, r.1.work ≠ none)
    (hf : s.timeForwardingFlag = false) (hitem : item.1.work ≠ none)
    (hc : 0 < w → s.timeForwardingClientId ≠ WorkQueue.invalidClientId w) :
    Inv (Testing.finish h item tp s) := by
  obtain ⟨hh', hp⟩ := finish_pending h item tp hh
  refine ⟨hh', ?_, by simp [Testing.finish], hf, by simp [Testing.finish], hc,
    by simp [Testing.finish]⟩
  intro hs r hr
  rw [finish_stopped] at hs
  rcases List.mem_append.mp (hp.mem_iff.mp (List.mem_append_left _ hr)) with hm | hm
  · exact hw hs r hm
  · rw [(mem_again hm).2]; exact hitem

theorem Inv.call {s : State ω w σ} (hi : Inv s) {h : Heap (Work ω) w} {q : Members (Work ω) w}
    (e : WorkQueue.Edit h s.queue q) : Inv { s with queue := q } := by
  refine ⟨e.isHeap hi.heap, e.works hi.heap hi.works, ?_, hi.flag, hi.hand, hi.client, ?_⟩
  · intro hw
    obtain ⟨hc, hs⟩ := hi.parked hw
    rcases e.signals with ⟨n, rfl⟩ | ⟨hs', -, -⟩
    · exact ⟨hc, hs⟩
    · rw [hs] at hs'; cases hs'
  · intro h0 hw hf hs hp
    rcases e.signals with ⟨n, rfl⟩ | ⟨-, hf', -⟩
    · exact hi.awake h0 hw hf hs hp
    · rw [hf'] at hf; cases hf

theorem Inv.postForwarding {s : State ω w σ} (hi : Inv s) (h : Heap (Work ω) w) (now tp : Int)
    (n m : ℕ) :
    Inv { s with
      queue := ((s.forwardingCall now tp).run h s.queue).2, posting := n, waiting := m } := by
  have hi' := hi.call (WorkQueue.run_edit h s.queue (s.forwardingCall now tp))
  refine ⟨hi'.heap, hi'.works, hi'.parked, hi'.flag, hi'.hand, hi'.client, ?_⟩
  intro h0 _ hf hs _
  simp only [State.forwardingCall, WorkQueue.Call.run] at hf hs
  rcases WorkQueue.scheduleWork_cases h s.queue now s.timeForwardingClientId
    (some Work.forwarding) tp 0 with ⟨hb, -⟩ | ⟨-, hstop, e⟩ | ⟨-, hrun, e⟩
  · rcases hb with hb | hb
    · exact absurd hb (hi.client h0)
    · cases hb
  · rw [e, hstop] at hs; cases hs
  · rw [e, WorkQueue.postWork_running h s.queue _ hrun] at hf; cases hf

variable [Semaphore σ] {lib : Heap (Work ω) w → Prop} {plus : Int → Int → Int}

theorem Inv.step {s t : State ω w σ} {l : Label ω w} (hi : Inv s) (hs : Step lib plus s l t) :
    Inv t := by
  cases hs with
  | call h c _ _ _ => exact hi.call (WorkQueue.run_edit h s.queue c)
  | forwardTime tp _ =>
    exact ⟨hi.heap, hi.works, hi.parked, hi.flag, hi.hand, hi.client, by
      simp [WorkQueue.signalContainerChange]⟩
  | setTime tp _ =>
    exact ⟨hi.heap, hi.works, hi.parked, hi.flag, hi.hand, hi.client, by simp⟩
  | postForwarding h now tp => exact hi.postForwarding h now tp _ _
  | completed => exact ⟨hi.heap, hi.works, hi.parked, hi.flag, hi.hand, hi.client, hi.awake⟩
  | startWorker hw _ =>
    obtain ⟨hc, -⟩ := hi.parked hw
    exact ⟨hi.heap, fun _ r hr => by simp [hc] at hr, by simp, hi.flag, by simp, hi.client,
      by simp⟩
  | lock _ => exact ⟨hi.heap, hi.works, by simp, hi.flag, by simp, hi.client, by simp⟩
  | waitForWork _ _ => exact ⟨hi.heap, hi.works, by simp, hi.flag, by simp, hi.client, by simp⟩
  | exit _ hc hnull =>
    have hstop : s.queue.workerStoppedFlag = true := by
      by_contra hns
      exact hi.works (by simpa using hns) _ (hc ▸ List.mem_cons_self) hnull
    exact ⟨StdHeap.isHeap_nil, by simp, fun _ => ⟨rfl, hstop⟩, hi.flag, by simp, hi.client,
      by simp⟩
  | restart hw _ _ _ _ =>
    exact ⟨hi.heap, hi.works, by simp [hw], hi.flag, by simp [hw], hi.client, by simp [hw]⟩
  | waitForTime hw hc _ hlt _ =>
    -- the front is the earliest record, and it is not due
    exact ⟨hi.heap, hi.works, by simp, hi.flag, by simp, hi.client,
      fun _ _ _ _ _ => hi.not_due hc hlt⟩
  | wake _ => exact ⟨hi.heap, hi.works, by simp, hi.flag, by simp, hi.client, by simp⟩
  | changed _ _ => exact ⟨hi.heap, hi.works, by simp, hi.flag, by simp, hi.client, by simp⟩
  | spurious hw _ =>
    exact ⟨hi.heap, hi.works, by simp [hw], hi.flag, by simp [hw], hi.client, hi.awake⟩
  | @execute h o _ front item rest q _ hw hc hwork _ hp =>
    obtain ⟨rest', u, hc', rfl, hperm, hheap⟩ :=
      WorkQueue.popRecord_eq_some hi.heap (by simp [hc]) hp
    obtain ⟨rfl, rfl⟩ := List.cons.inj (hc.symm.trans hc')
    have hworks : s.queue.workerStoppedFlag = false → ∀ r ∈ u, r.1.work ≠ none := by
      intro hs r hr
      exact hi.works hs r (by rw [hc]; exact List.mem_cons_of_mem _ (hperm.mem_iff.mp hr))
    rcases executeWork_cases h plus front o
      { s with queue := { s.queue with wqItemContainer := u } } hi.flag with
      ⟨-, -, e⟩ | ⟨hnf, -, e⟩ | ⟨-, -, e⟩ | ⟨-, -, e⟩
    · rw [e]; exact Inv.finish hheap hworks hi.flag hwork hi.client
    · rw [e]
      refine ⟨hheap, hworks, by simp, hi.flag, ?_, hi.client, by simp⟩
      intro item tp he
      cases he
      exact ⟨hwork, hnf⟩
    · rw [e]; exact ⟨hheap, hworks, by simp, hi.flag, by simp, hi.client, by simp⟩
    · rw [e]; exact Inv.finish hheap hworks hi.flag hwork hi.client
  | syncReturn h _ hw => exact Inv.finish hi.heap hi.works hi.flag (hi.hand _ _ hw).1 hi.client

theorem inv_initial {s : State ω w σ} (h : (system ω w σ lib plus).init s) : Inv s := by
  obtain ⟨now, sync, rfl⟩ := h
  exact ⟨StdHeap.isHeap_nil, fun _ r hr => by simp [State.initial, Members.initial,
    WorkQueue.getClientId] at hr, fun _ => ⟨rfl, rfl⟩, rfl, by simp [State.initial],
    fun h0 => WorkQueue.nextId_ne h0 _ _, by simp [State.initial]⟩

theorem inv_of_reachable {s : State ω w σ}
    (h : Transition.Reachable (system ω w σ lib plus) s) : Inv s :=
  h.invariant (fun _ => inv_initial) fun _ _ _ => Inv.step

/-- **The container is a heap at all times**, and the earliest record is run first: in the
work queue, and in that for tests, also while a record is out in a callback. -/
theorem earliest_first (plus : Int → Int → Int) (lib : Heap (Work ω) w → Prop) :
    (∀ s : WorkQueue.State ω w, Transition.Reachable (WorkQueue.system ω w plus) s →
      s.queue.Earliest ∧ ∀ item outcome t, WorkQueue.Step plus s (.execute item outcome) t →
        item ∈ s.queue.wqItemContainer ∧
          ∀ r ∈ s.queue.wqItemContainer, item.1.timePoint ≤ r.1.timePoint) ∧
    (∀ s : State ω w σ, Transition.Reachable (system ω w σ lib plus) s →
      s.queue.Earliest ∧ ∀ item outcome t, Step lib plus s (.execute item outcome) t →
        item ∈ s.queue.wqItemContainer ∧
          ∀ r ∈ s.queue.wqItemContainer, item.1.timePoint ≤ r.1.timePoint) := by
  constructor
  · intro s hr
    have hi := WorkQueue.inv_of_reachable hr
    refine ⟨Members.earliest hi.valid.heap, ?_⟩
    intro item outcome t hs
    cases hs with
    | execute _ _ _ _ _ hne hp => exact WorkQueue.popRecord_le hi.valid.heap hne hp
  · intro s hr
    have hi := inv_of_reachable hr
    refine ⟨Members.earliest hi.heap, ?_⟩
    intro item outcome t hs
    generalize hx : (Label.execute item outcome : Label ω w) = x at hs
    cases hs with
    | execute _ _ _ _ hc _ _ hp =>
      injection hx with e _
      subst e
      exact WorkQueue.popRecord_le hi.heap (by simp [hc]) hp
    | _ => cases hx

/-- A worker that was started at tick `now`. -/
def startedAt (now : Int) : State Unit 64 ℕ :=
  let s : State Unit 64 ℕ := State.initial now false
  { s with queue := { s.queue with workerStoppedFlag := false }, worker := .starting }

theorem startedAt_reachable (plus : Int → Int → Int) (now : Int) :
    Transition.Reachable (system Unit 64 ℕ StdHeap.Algorithms.FrontStable plus) (startedAt now) :=
  (Transition.Reachable.of_init (S := system Unit 64 ℕ StdHeap.Algorithms.FrontStable plus)
    ⟨now, false, rfl⟩).step (Step.startWorker (.inl rfl) rfl)

/-- One more work of a client, for tick `tp` and every `period` ticks from then on. -/
def withWork (tp period : Int) (s : State Unit 64 ℕ) : State Unit 64 ℕ :=
  { s with
    queue := ((WorkQueue.Call.scheduleWork s.currentTimePoint 1 (some (.user ())) tp period).run
      (WorkQueue.siftHeap (Work Unit) 64) s.queue).2 }

theorem withWork_reachable {plus : Int → Int → Int} {s : State Unit 64 ℕ}
    (h : Transition.Reachable (system Unit 64 ℕ StdHeap.Algorithms.FrontStable plus) s)
    (hw : s.worker ≠ .loop) (tp period : Int) :
    Transition.Reachable (system Unit 64 ℕ StdHeap.Algorithms.FrontStable plus)
      (withWork tp period s) :=
  h.step (Step.call (WorkQueue.siftHeap (Work Unit) 64) _
    (StdHeap.Algorithms.sift_frontStable WorkQueue.recordCompare_strictWeak) hw trivial)

/-- The later one of two works was posted first. -/
theorem earliest_first_two :
    (∃ t, WorkQueue.Step (· + ·)
        ⟨WorkQueue.twoPosted [WorkQueue.everyFour 3, WorkQueue.onceLater], .waitForTimePoint 3, 3⟩
        (.execute (WorkQueue.everyFour 3) (.returned true)) t) ∧
      (∀ r ∈ [WorkQueue.everyFour 3, WorkQueue.onceLater],
        (WorkQueue.everyFour 3).1.timePoint ≤ r.1.timePoint) ∧
    (∃ t, Step StdHeap.Algorithms.FrontStable (· + ·)
        { withWork 4 0 (withWork 5 1 (startedAt 5)) with worker := .loop }
        (.execute (⟨4, 1, some (.user ()), 0⟩, 1) (.returned false)) t) ∧
      ∀ r ∈ (withWork 4 0 (withWork 5 1 (startedAt 5))).queue.wqItemContainer,
        4 ≤ r.1.timePoint := by
  obtain ⟨hbase, htests⟩ :=
    earliest_first (ω := Unit) (w := 64) (σ := ℕ) (· + ·) StdHeap.Algorithms.FrontStable
  have hlib := StdHeap.Algorithms.sift_frontStable
    (WorkQueue.recordCompare_strictWeak (ω := Work Unit) (w := 64))
  have h₁ : WorkQueue.Step (· + ·)
      ⟨WorkQueue.twoPosted [WorkQueue.everyFour 3, WorkQueue.onceLater], .waitForTimePoint 3, 3⟩
      (.execute (WorkQueue.everyFour 3) (.returned true)) _ :=
    .execute (WorkQueue.siftHeap Unit 64) (.returned true) rfl rfl (Int.le_refl 3)
      (List.cons_ne_nil _ _) rfl (by decide)
  have h₂ : Step StdHeap.Algorithms.FrontStable (· + ·)
      { withWork 4 0 (withWork 5 1 (startedAt 5)) with worker := .loop }
      (.execute (⟨4, 1, some (.user ()), 0⟩, 1) (.returned false)) _ :=
    .execute (WorkQueue.siftHeap (Work Unit) 64) (.returned false) hlib rfl rfl
      (Option.some_ne_none _) (by decide) rfl
  refine ⟨⟨_, h₁⟩, ((hbase _ ((WorkQueue.twoPosted_reachable _).step (.tick 3 (by decide)))).2
    _ _ _ h₁).2, ⟨_, h₂⟩, ((htests _ ?_).2 _ _ _ h₂).2⟩
  exact (withWork_reachable (withWork_reachable (startedAt_reachable _ 5) (by decide) 5 1)
    (by decide) 4 0).step (.lock rfl)

end Mqmx.Testing

import Mqmx.Base.Transition
import Mqmx.WorkQueue.Container

/-!
# The work queue at run time

Any number of client threads and the one worker thread, which share the members
through the main mutex.  A step is one critical section, or a piece of the worker's:
the worker holds the mutex in `WorkerPc.loop` and lets it go where it waits.  A
client's call can therefore come wherever the worker waits.

The worker's two waits are on the condition variable.  `wait_for_some_work` waits
until the container is not empty.  `wait_for_time_point` is `wait_until` with the
change flag as the predicate: it returns the predicate's value, and `false` only
once the deadline is reached.  A wait may also end for no reason and go on.

`run_edit` says what a call does to the members, and `run_changes` what it does to the
records.  `Inv` is the invariant of every reachable state (`inv_of_reachable`).  The two
clauses that carry it are `asleep` and `deadline`: what the worker decided before it
let the mutex go still holds as long as nothing was signalled since.
-/

namespace Mqmx.WorkQueue

variable {ω : Type} {w : ℕ}

/-- Where the worker thread is.  It holds the mutex in `loop` only. -/
inductive WorkerPc
  | notStarted
  | starting
  | loop
  | waitForSomeWork
  | waitForTimePoint (timepoint : Int)
  | exited
  deriving DecidableEq

structure State (ω : Type) (w : ℕ) where
  queue : Members ω w
  worker : WorkerPc
  now : Int
  deriving DecidableEq

inductive Label (ω : Type) (w : ℕ)
  | call (c : Call ω w) (reply : Reply w)
  | startWorker
  | tick
  | lock
  | waitForWork
  | exit
  | restart
  | waitForTime
  | wake
  | changed
  | spurious
  | drained
  | execute (item : Record ω w) (outcome : Outcome)
  deriving DecidableEq

/-- One step of one party.  Each step that runs a heap algorithm may use any of them. -/
inductive Step (plus : Int → Int → Int) : State ω w → Label ω w → State ω w → Prop
  | call (h : Heap ω w) (c : Call ω w) {s : State ω w} : s.worker ≠ .loop → c.ReadBefore s.now →
      Step plus s (.call c (c.run h s.queue).1) { s with queue := (c.run h s.queue).2 }
  /-- `start_worker`, with no worker or after `kill_worker` has joined the last one. -/
  | startWorker {s : State ω w} : s.worker = .notStarted ∨ s.worker = .exited →
      s.queue.workerStoppedFlag = true →
      Step plus s .startWorker
        { s with queue := { s.queue with workerStoppedFlag := false }, worker := .starting }
  | tick (t : Int) {s : State ω w} : s.now ≤ t → Step plus s .tick { s with now := t }
  | lock {s : State ω w} : s.worker = .starting → Step plus s .lock { s with worker := .loop }
  /-- `wait_for_some_work` finds nothing and waits. -/
  | waitForWork {s : State ω w} : s.worker = .loop → s.queue.wqItemContainer = [] →
      Step plus s .waitForWork
        { s with queue := { s.queue with wakeUpPending := false }, worker := .waitForSomeWork }
  /-- The front has no work: the terminator. -/
  | exit {s : State ω w} {front : Record ω w} {rest : List (Record ω w)} : s.worker = .loop →
      s.queue.wqItemContainer = front :: rest → front.1.work = none →
      Step plus s .exit
        { s with queue := { s.queue with wqItemContainer := [] }, worker := .exited }
  /-- `wait_for_time_point` finds the change flag set. -/
  | restart {s : State ω w} {front : Record ω w} {rest : List (Record ω w)} : s.worker = .loop →
      s.queue.wqItemContainer = front :: rest → front.1.work ≠ none →
      s.queue.containerChangeFlag = true →
      Step plus s .restart { s with queue := { s.queue with containerChangeFlag := false } }
  /-- `wait_for_time_point` waits for the front's time. -/
  | waitForTime {s : State ω w} {front : Record ω w} {rest : List (Record ω w)} :
      s.worker = .loop → s.queue.wqItemContainer = front :: rest → front.1.work ≠ none →
      s.queue.containerChangeFlag = false →
      Step plus s .waitForTime
        { s with queue := { s.queue with wakeUpPending := false }
                 worker := .waitForTimePoint front.1.timePoint }
  | wake {s : State ω w} : s.worker = .waitForSomeWork →
      Step plus s .wake { s with worker := .loop }
  | changed {s : State ω w} {d : Int} : s.worker = .waitForTimePoint d →
      s.queue.containerChangeFlag = true →
      Step plus s .changed
        { s with queue := { s.queue with containerChangeFlag := false }, worker := .loop }
  | spurious {s : State ω w} {d : Int} : s.worker = .waitForTimePoint d →
      s.queue.containerChangeFlag = false →
      Step plus s .spurious { s with queue := { s.queue with wakeUpPending := false } }
  /-- The wait timed out, but there is nothing in the container. -/
  | drained {s : State ω w} {d : Int} : s.worker = .waitForTimePoint d →
      s.queue.containerChangeFlag = false → d ≤ s.now → s.queue.wqItemContainer = [] →
      Step plus s .drained { s with worker := .loop }
  /-- The wait timed out: pop a record, run it, and put it back if it asks for that.
  The call of a null work throws. -/
  | execute (h : Heap ω w) {s : State ω w} {d : Int} {item : Record ω w} {q : Members ω w}
      (outcome : Outcome) : s.worker = .waitForTimePoint d →
      s.queue.containerChangeFlag = false → d ≤ s.now → s.queue.wqItemContainer ≠ [] →
      popRecord h s.queue = some (item, q) → (item.1.work = none → outcome = .threw) →
      Step plus s (.execute item outcome)
        { s with queue := reschedule h item (executeWork plus item outcome) q, worker := .loop }

/-- The work queue, from its construction on. -/
def system (ω : Type) (w : ℕ) (plus : Int → Int → Int) :
    Transition.System (State ω w) (Label ω w) where
  init s := s.queue = Members.initial ∧ s.worker = .notStarted
  step := Step plus

/-! ### What a call can do -/

/-- **What a call can do to the members**, and all it can do. -/
inductive Edit (h : Heap ω w) (q : Members ω w) : Members ω w → Prop
  | quiet (n : BitVec w) : Edit h q { q with nextClientId := n }
  | post (item : WqItem ω w) : q.workerStoppedFlag = false → item.work ≠ none →
      Edit h q (postWork h item q).2
  /-- Replaced or removed records; a new one has a work, and an id that was there. -/
  | rebuild (v : List (Record ω w)) : q.workerStoppedFlag = false →
      (∀ r ∈ v, r ∈ q.wqItemContainer ∨ (r.1.work ≠ none ∧ r.2 ∈ ids q.wqItemContainer)) →
      Edit h q (makeHeapAndNotifyWorker h { q with wqItemContainer := v })
  | stop : q.workerStoppedFlag = false →
      Edit h q { (postWork h WqItem.empty { q with wqItemContainer := [] }).2 with
        workerStoppedFlag := true }

theorem Edit.refl (h : Heap ω w) (q : Members ω w) : Edit h q q := .quiet q.nextClientId

theorem run_edit (h : Heap ω w) (q : Members ω w) (c : Call ω w) : Edit h q (c.run h q).2 := by
  cases c with
  | scheduleWork now cl wk st p =>
    rcases scheduleWork_cases h q now cl wk st p with ⟨-, e⟩ | ⟨-, -, e⟩ | ⟨hg, hs, e⟩
    · simpa only [Call.run, e] using Edit.refl h q
    · simpa only [Call.run, e] using Edit.refl h q
    · simpa only [Call.run, e] using Edit.post _ hs hg.2
  | updateWork id cl wk st p =>
    rcases updateWork_cases h q id cl wk st p with
      ⟨-, e⟩ | ⟨-, -, e⟩ | ⟨-, -, -, e⟩ | ⟨hg, hs, a, old, b, hv, e⟩
    · simpa only [Call.run, e] using Edit.refl h q
    · simpa only [Call.run, e] using Edit.refl h q
    · simpa only [Call.run, e] using Edit.refl h q
    · simp only [Call.run, e]
      refine .rebuild _ hs fun r hr => ?_
      rw [hv]
      rcases List.mem_append.mp hr with ha | hb
      · exact .inl (List.mem_append_left _ ha)
      rcases List.mem_cons.mp hb with rfl | hb
      · exact .inr ⟨hg.2, by simp⟩
      · exact .inl (List.mem_append_right _ (List.mem_cons_of_mem _ hb))
  | cancelWork id =>
    rcases cancelWork_cases h q id with ⟨-, e⟩ | ⟨-, -, e⟩ | ⟨hs, a, old, b, v, hv, hp, e⟩
    · simpa only [Call.run, e] using Edit.refl h q
    · simpa only [Call.run, e] using Edit.refl h q
    · simp only [Call.run, e]
      refine .rebuild _ hs fun r hr => .inl ?_
      rw [hv]
      rcases List.mem_append.mp (hp.mem_iff.mp hr) with ha | hb
      · exact List.mem_append_left _ ha
      · exact List.mem_append_right _ (List.mem_cons_of_mem _ hb)
  | cancelClientWorks cl =>
    rcases cancelClientWorks_cases h q cl with ⟨-, e⟩ | ⟨-, -, e⟩ | ⟨hs, -, e⟩
    · simpa only [Call.run, e] using Edit.refl h q
    · simpa only [Call.run, e] using Edit.refl h q
    · simp only [Call.run, e]
      exact .rebuild _ hs fun r hr => .inl (List.mem_of_mem_filter hr)
  | isIdle => exact Edit.refl h q
  | getNearestTimePoint => exact Edit.refl h q
  | getClientId => exact .quiet _
  | signalWorkerToStop =>
    rcases signalWorkerToStop_cases h q with ⟨-, e⟩ | ⟨hs, e⟩
    · simpa only [Call.run, e] using Edit.refl h q
    · simpa only [Call.run, e] using Edit.stop hs

/-- **What a call does to the records**, up to their order, and with which reply. -/
inductive Changes (q : Members ω w) : Call ω w → Reply w → List (Record ω w) → Prop
  | removes {c : Call ω w} {reply : Reply w} {u v : List (Record ω w)} :
      u.Sublist q.wqItemContainer → v.Perm u → Changes q c reply v
  | adds {now st p : Int} {cl id : BitVec w} {wk : Option ω} {v : List (Record ω w)} :
      v.Perm (q.wqItemContainer ++ [(scheduledItem now cl wk st p, id)]) →
      Changes q (.scheduleWork now cl wk st p) (.posted .success id) v
  | replaces {st p : Int} {cl id : BitVec w} {wk : Option ω} {old : WqItem ω w}
      {a b v : List (Record ω w)} : q.workerStoppedFlag = false →
      q.wqItemContainer = a ++ (old, id) :: b → v.Perm (a ++ (⟨st, cl, wk, p⟩, id) :: b) →
      Changes q (.updateWork id cl wk st p) (.status .success) v
  | stops {reply : Reply w} {id : BitVec w} :
      Changes q .signalWorkerToStop reply [(WqItem.empty, id)]

theorem Changes.keeps {q : Members ω w} {c : Call ω w} {reply : Reply w} :
    Changes q c reply q.wqItemContainer := .removes (List.Sublist.refl _) (.refl _)

theorem run_changes (h : Heap ω w) {q : Members ω w} (hh : IsHeap q.wqItemContainer)
    (c : Call ω w) : Changes q c (c.run h q).1 (c.run h q).2.wqItemContainer := by
  cases c with
  | scheduleWork now cl wk st p =>
    rcases scheduleWork_cases h q now cl wk st p with ⟨-, e⟩ | ⟨-, -, e⟩ | ⟨-, hs, e⟩
    · simpa only [Call.run, e] using .keeps
    · simpa only [Call.run, e] using .keeps
    · simp only [Call.run, e, postWork_running h q _ hs]
      exact .adds (h.pushHeap_perm hh)
  | updateWork id cl wk st p =>
    rcases updateWork_cases h q id cl wk st p with
      ⟨-, e⟩ | ⟨-, -, e⟩ | ⟨-, -, -, e⟩ | ⟨-, hs, a, old, b, hv, e⟩
    · simpa only [Call.run, e] using .keeps
    · simpa only [Call.run, e] using .keeps
    · simpa only [Call.run, e] using .keeps
    · simp only [Call.run, e]
      exact .replaces hs hv (h.makeHeap_perm _)
  | cancelWork id =>
    rcases cancelWork_cases h q id with ⟨-, e⟩ | ⟨-, -, e⟩ | ⟨-, a, old, b, v, hv, hp, e⟩
    · simpa only [Call.run, e] using .keeps
    · simpa only [Call.run, e] using .keeps
    · simp only [Call.run, e]
      have hsub : (a ++ b).Sublist q.wqItemContainer := by
        rw [hv]
        exact (List.sublist_cons_self _ b).append_left a
      exact .removes hsub ((h.makeHeap_perm v).trans hp)
  | cancelClientWorks cl =>
    rcases cancelClientWorks_cases h q cl with ⟨-, e⟩ | ⟨-, -, e⟩ | ⟨-, -, e⟩
    · simpa only [Call.run, e] using .keeps
    · simpa only [Call.run, e] using .keeps
    · simp only [Call.run, e]
      exact .removes List.filter_sublist (h.makeHeap_perm _)
  | isIdle => exact .keeps
  | getNearestTimePoint => exact .keeps
  | getClientId => exact .keeps
  | signalWorkerToStop =>
    rcases signalWorkerToStop_cases h q with ⟨-, e⟩ | ⟨hs, e⟩
    · simpa only [Call.run, e] using .keeps
    · simp only [Call.run, e, postWork_running h { q with wqItemContainer := [] } _ hs,
        signalContainerChange]
      rw [List.perm_singleton.mp (h.pushHeap_perm StdHeap.isHeap_nil)]
      exact .stops

theorem Edit.isHeap {h : Heap ω w} {q q' : Members ω w} (e : Edit h q q')
    (hh : IsHeap q.wqItemContainer) : IsHeap q'.wqItemContainer := by
  cases e with
  | quiet => exact hh
  | post item hs _ =>
    rw [postWork_running h q item hs]
    exact h.pushHeap_isHeap hh
  | rebuild v _ _ => exact h.makeHeap_isHeap v
  | stop hs =>
    rw [postWork_running h { q with wqItemContainer := [] } _ hs]
    exact h.pushHeap_isHeap StdHeap.isHeap_nil

/-- **A call that touches the container raises the change flag and notifies**, and only
a running queue is touched. -/
theorem Edit.signals {h : Heap ω w} {q q' : Members ω w} (e : Edit h q q') :
    (∃ n, q' = { q with nextClientId := n }) ∨
      (q.workerStoppedFlag = false ∧ q'.containerChangeFlag = true ∧ q'.wakeUpPending = true) := by
  cases e with
  | quiet n => exact .inl ⟨n, rfl⟩
  | post item hs _ =>
    rw [postWork_running h q item hs]
    exact .inr ⟨hs, rfl, rfl⟩
  | rebuild v hs _ => exact .inr ⟨hs, rfl, rfl⟩
  | stop hs =>
    rw [postWork_running h { q with wqItemContainer := [] } _ hs]
    exact .inr ⟨hs, rfl, rfl⟩

/-! ### The invariant -/

/-- What the container of a running queue holds, and that of a stopped one. -/
structure Members.Valid (q : Members ω w) : Prop where
  heap : IsHeap q.wqItemContainer
  works : q.workerStoppedFlag = false → ∀ r ∈ q.wqItemContainer, r.1.work ≠ none
  stopped : q.workerStoppedFlag = true →
    q.wqItemContainer = [] ∨ ∃ id, q.wqItemContainer = [(WqItem.empty, id)]

theorem Edit.works {h : Heap ω w} {q q' : Members ω w} (e : Edit h q q')
    (hh : IsHeap q.wqItemContainer)
    (hw : q.workerStoppedFlag = false → ∀ r ∈ q.wqItemContainer, r.1.work ≠ none) :
    q'.workerStoppedFlag = false → ∀ r ∈ q'.wqItemContainer, r.1.work ≠ none := by
  intro hs' r hr
  cases e with
  | quiet => exact hw hs' r hr
  | post item hs hitem =>
    rw [postWork_running h q item hs] at hr
    rcases List.mem_append.mp ((h.pushHeap_perm hh).mem_iff.mp hr) with hm | hm
    · exact hw hs r hm
    · rw [List.mem_singleton.mp hm]; exact hitem
  | rebuild v hs hv =>
    rcases hv r ((h.makeHeap_perm v).mem_iff.mp hr) with hm | ⟨hitem, -⟩
    · exact hw hs r hm
    · exact hitem
  | stop => cases hs'

theorem Edit.valid {h : Heap ω w} {q q' : Members ω w} (e : Edit h q q') (hq : q.Valid) :
    q'.Valid := by
  refine ⟨e.isHeap hq.heap, e.works hq.heap hq.works, ?_⟩
  intro hs'
  cases e with
  | quiet => exact hq.stopped hs'
  | post item hs _ =>
    rw [postWork_running h q item hs] at hs'
    exact absurd hs' (by simp [signalContainerChange, hs])
  | rebuild v hs _ =>
    exact absurd hs' (by simp [makeHeapAndNotifyWorker, signalContainerChange, hs])
  | stop hs =>
    rw [postWork_running h { q with wqItemContainer := [] } _ hs]
    refine .inr ⟨nextId (invalidWorkId w) q.nextWorkId, ?_⟩
    exact List.perm_singleton.mp (h.pushHeap_perm StdHeap.isHeap_nil)

theorem mem_reschedule {h : Heap ω w} {item r : Record ω w} {tp : Int} {q : Members ω w}
    (hh : IsHeap q.wqItemContainer) (hr : r ∈ (reschedule h item tp q).wqItemContainer) :
    r ∈ q.wqItemContainer ∨
      (¬ isTimePointEmpty tp ∧ r = ({ item.1 with timePoint := tp }, item.2)) := by
  have := (reschedule_container h item tp hh).2.mem_iff.mp hr
  rcases List.mem_append.mp this with hm | hm
  · exact .inl hm
  · split at hm
    · simp at hm
    · rename_i htp
      exact .inr ⟨htp, List.mem_singleton.mp hm⟩

theorem Members.Valid.execute {h : Heap ω w} {q q' : Members ω w} {item : Record ω w}
    (hq : q.Valid) (hs : q.workerStoppedFlag = false) (hne : q.wqItemContainer ≠ [])
    (hp : popRecord h q = some (item, q')) (tp : Int) :
    (reschedule h item tp q').Valid := by
  obtain ⟨rest, u, hc, rfl, hperm, hheap⟩ := popRecord_eq_some hq.heap hne hp
  have hworks := hq.works hs
  rw [hc] at hworks
  refine ⟨(reschedule_container h item tp hheap).1, ?_, ?_⟩
  · intro _ r hr
    rcases mem_reschedule hheap hr with hm | ⟨-, rfl⟩
    · exact hworks r (List.mem_cons_of_mem _ (hperm.mem_iff.mp hm))
    · exact hworks item List.mem_cons_self
  · intro hs'
    rw [reschedule_eq] at hs'
    exact absurd hs' (by simp [hs])

/-- **The invariant of the running system.**  `asleep` and `deadline` say what still
holds of the worker's last look at the container while it waits. -/
structure Inv (s : State ω w) : Prop where
  valid : s.queue.Valid
  parked : s.worker = .notStarted ∨ s.worker = .exited →
    s.queue.wqItemContainer = [] ∧ s.queue.workerStoppedFlag = true
  asleep : s.worker = .waitForSomeWork → s.queue.wakeUpPending = false →
    s.queue.wqItemContainer = []
  deadline : ∀ d, s.worker = .waitForTimePoint d → s.queue.containerChangeFlag = false →
    s.queue.workerStoppedFlag = false ∧
      ∃ front rest, s.queue.wqItemContainer = front :: rest ∧ front.1.timePoint = d

theorem Inv.call {s : State ω w} (hi : Inv s) {h : Heap ω w} {q : Members ω w}
    (e : Edit h s.queue q) : Inv { s with queue := q } := by
  refine ⟨e.valid hi.valid, ?_, ?_, ?_⟩
  · intro hw
    obtain ⟨hc, hs⟩ := hi.parked hw
    rcases e.signals with ⟨n, rfl⟩ | ⟨hs', -, -⟩
    · exact ⟨hc, hs⟩
    · rw [hs] at hs'; cases hs'
  · intro hw hp
    rcases e.signals with ⟨n, rfl⟩ | ⟨-, -, hp'⟩
    · exact hi.asleep hw hp
    · rw [hp'] at hp; cases hp
  · intro d hw hf
    rcases e.signals with ⟨n, rfl⟩ | ⟨-, hf', -⟩
    · exact hi.deadline d hw hf
    · rw [hf'] at hf; cases hf

variable {plus : Int → Int → Int}

theorem Inv.step {s t : State ω w} {l : Label ω w} (hi : Inv s) (hs : Step plus s l t) : Inv t := by
  cases hs with
  | call h c _ _ => exact hi.call (run_edit h s.queue c)
  | startWorker hw _ =>
    obtain ⟨hc, -⟩ := hi.parked hw
    refine ⟨⟨hi.valid.heap, fun _ r hr => ?_, fun h => by cases h⟩, ?_, ?_, ?_⟩
    · simp [hc] at hr
    · simp
    · simp
    · simp
  | tick t _ => exact ⟨hi.valid, hi.parked, hi.asleep, hi.deadline⟩
  | lock _ => exact ⟨hi.valid, by simp, by simp, by simp⟩
  | waitForWork _ hc => exact ⟨⟨hi.valid.heap, hi.valid.works, hi.valid.stopped⟩, by simp,
      fun _ _ => hc, by simp⟩
  | exit hw hc hnull =>
    have hstop : s.queue.workerStoppedFlag = true := by
      by_contra hns
      exact hi.valid.works (by simpa using hns) _ (hc ▸ List.mem_cons_self) hnull
    exact ⟨⟨StdHeap.isHeap_nil, by simp, fun _ => .inl rfl⟩, fun _ => ⟨rfl, hstop⟩,
      by simp, by simp⟩
  | restart hw _ _ _ =>
    exact ⟨⟨hi.valid.heap, hi.valid.works, hi.valid.stopped⟩, by simp [hw], by simp [hw],
      by simp [hw]⟩
  | @waitForTime _ front rest hw hc hwork hf =>
    have hrun : s.queue.workerStoppedFlag = false := by
      by_contra hns
      rcases hi.valid.stopped (by simpa using hns) with h0 | ⟨id, h1⟩
      · rw [hc] at h0; cases h0
      · rw [hc] at h1
        obtain ⟨rfl, -⟩ := List.cons.inj h1
        exact hwork rfl
    refine ⟨⟨hi.valid.heap, hi.valid.works, hi.valid.stopped⟩, by simp, by simp, ?_⟩
    rintro d hd -
    cases hd
    exact ⟨hrun, front, rest, hc, rfl⟩
  | wake _ => exact ⟨hi.valid, by simp, by simp, by simp⟩
  | changed _ _ =>
    exact ⟨⟨hi.valid.heap, hi.valid.works, hi.valid.stopped⟩, by simp, by simp, by simp⟩
  | spurious hw _ =>
    exact ⟨⟨hi.valid.heap, hi.valid.works, hi.valid.stopped⟩, hi.parked, by simp [hw],
      hi.deadline⟩
  | drained _ _ _ _ => exact ⟨hi.valid, by simp, by simp, by simp⟩
  | execute h o hw hf hd hne hp _ =>
    obtain ⟨hrun, -⟩ := hi.deadline _ hw hf
    exact ⟨hi.valid.execute hrun hne hp _, by simp, by simp, by simp⟩

theorem inv_initial {s : State ω w} (h : (system ω w plus).init s) : Inv s := by
  obtain ⟨hq, hw⟩ := h
  refine ⟨⟨?_, ?_, ?_⟩, fun _ => ?_, ?_, ?_⟩ <;> simp [hq, hw, Members.initial]

theorem inv_of_reachable {s : State ω w} (h : Transition.Reachable (system ω w plus) s) : Inv s :=
  h.invariant (fun _ => inv_initial) fun _ _ _ => Inv.step

/-! ### No stale wait, no wrong pop -/

/-- **What the worker waits for is current, and what it runs is the front and due.**
Asleep with no wake-up pending, it is right that there is no work; waiting for a time
with the change flag down, it waits for the time of the front; and the record it runs
is the front of the container at that moment, has a work, and its time has come. -/
theorem worker_wait_and_pop {s : State ω w}
    (hr : Transition.Reachable (system ω w plus) s) :
    (s.worker = .waitForSomeWork → s.queue.wakeUpPending = false →
      s.queue.wqItemContainer = []) ∧
    (∀ d, s.worker = .waitForTimePoint d → s.queue.containerChangeFlag = false →
      ∃ front rest, s.queue.wqItemContainer = front :: rest ∧ front.1.timePoint = d) ∧
    (∀ item outcome t, Step plus s (.execute item outcome) t →
      s.queue.wqItemContainer.head? = some item ∧ item.1.work ≠ none ∧
        item.1.timePoint ≤ s.now) := by
  have hi := inv_of_reachable hr
  refine ⟨hi.asleep, fun d hw hf => (hi.deadline d hw hf).2, ?_⟩
  intro item outcome t hs
  cases hs with
  | execute h _ hw hf hd hne hp _ =>
    obtain ⟨hrun, front, rest, hc, rfl⟩ := hi.deadline _ hw hf
    obtain ⟨rest', u, hc', -⟩ := popRecord_eq_some hi.valid.heap hne hp
    obtain ⟨rfl, rfl⟩ := List.cons.inj (hc.symm.trans hc')
    refine ⟨by rw [hc]; rfl, hi.valid.works hrun front (by rw [hc]; exact List.mem_cons_self), hd⟩

/-! ### The earliest first -/

/-- The container is a heap, and the nearest time point is the least of those in it. -/
structure Members.Earliest (q : Members ω w) : Prop where
  heap : IsHeap q.wqItemContainer
  least : ∀ r ∈ q.wqItemContainer, getNearestTimePoint q ≤ r.1.timePoint
  attained : q.wqItemContainer ≠ [] →
    ∃ r ∈ q.wqItemContainer, r.1.timePoint = getNearestTimePoint q

theorem front_le {front : Record ω w} {rest : List (Record ω w)} (hh : IsHeap (front :: rest)) :
    ∀ r ∈ front :: rest, front.1.timePoint ≤ r.1.timePoint := by
  intro r hr
  have hfront := hh.front recordCompare_strictWeak r hr
  unfold recordCompare at hfront
  omega

theorem Members.earliest {q : Members ω w} (hh : IsHeap q.wqItemContainer) : q.Earliest := by
  cases hc : q.wqItemContainer with
  | nil => exact ⟨hh, by simp [hc], fun hne => absurd hc hne⟩
  | cons front rest =>
    have hn : getNearestTimePoint q = front.1.timePoint := by rw [getNearestTimePoint, hc]
    refine ⟨hh, ?_, fun _ => ⟨front, by rw [hc]; exact List.mem_cons_self, hn.symm⟩⟩
    intro r hr
    rw [hn]
    rw [hc] at hh hr
    exact front_le hh r hr

theorem popRecord_le {h : Heap ω w} {q q' : Members ω w} {item : Record ω w}
    (hh : IsHeap q.wqItemContainer) (hne : q.wqItemContainer ≠ [])
    (hp : popRecord h q = some (item, q')) :
    item ∈ q.wqItemContainer ∧
      ∀ r ∈ q.wqItemContainer, item.1.timePoint ≤ r.1.timePoint := by
  obtain ⟨rest, u, hc, -⟩ := popRecord_eq_some hh hne hp
  rw [hc] at hh ⊢
  exact ⟨List.mem_cons_self, front_le hh⟩

/-- A queue whose one client has scheduled a work for tick `5`, and its record. -/
def onePosted : Members Unit 64 :=
  ((Call.scheduleWork 1 0 (some ()) 5 0).run (siftHeap Unit 64)
    { Members.initial with workerStoppedFlag := false }).2

def oneRecord : Record Unit 64 := (⟨5, 0, some (), 0⟩, 0)

theorem onePosted_reachable (plus : Int → Int → Int) :
    Transition.Reachable (system Unit 64 plus)
      { queue := { onePosted with containerChangeFlag := false, wakeUpPending := false },
        worker := .waitForTimePoint 5, now := 1 } := by
  have h0 : Transition.Reachable (system Unit 64 plus) ⟨.initial, .notStarted, 1⟩ :=
    .of_init ⟨rfl, rfl⟩
  have h1 := h0.step (Step.startWorker (.inl rfl) rfl)
  have h2 := h1.step (Step.call (siftHeap Unit 64) (.scheduleWork 1 0 (some ()) 5 0) (by simp)
    (Int.le_refl 1))
  have h3 := h2.step (Step.lock rfl)
  have h4 := h3.step
    (Step.restart rfl (by decide : _ = [oneRecord]) (by decide) rfl)
  exact h4.step
    (Step.waitForTime rfl (by decide : _ = [oneRecord]) (by decide) rfl)

def everyFour (tp : Int) : Record Unit 64 := (⟨tp, 0, some (), 4⟩, 0)

def onceLater : Record Unit 64 := (⟨5, 1, some (), 0⟩, 1)

def twoPosted (v : List (Record Unit 64)) : Members Unit 64 where
  nextWorkId := 1
  nextClientId := invalidClientId 64
  wqItemContainer := v
  containerChangeFlag := false
  workerStoppedFlag := false
  wakeUpPending := false

theorem twoPosted_reachable (plus : Int → Int → Int) :
    Transition.Reachable (system Unit 64 plus)
      ⟨twoPosted [everyFour 3, onceLater], .waitForTimePoint 3, 1⟩ := by
  have h0 : Transition.Reachable (system Unit 64 plus) ⟨.initial, .notStarted, 1⟩ :=
    .of_init ⟨rfl, rfl⟩
  have h1 := h0.step (Step.startWorker (.inl rfl) rfl)
  have h2 := h1.step (Step.call (siftHeap Unit 64) (.scheduleWork 1 0 (some ()) 3 4) (by simp)
    (Int.le_refl 1))
  have h3 := h2.step (Step.call (siftHeap Unit 64) (.scheduleWork 1 1 (some ()) 5 0) (by simp)
    (Int.le_refl 1))
  have h4 := h3.step (Step.lock rfl)
  have h5 := h4.step
    (Step.restart rfl (by decide : _ = [everyFour 3, onceLater]) (by decide) rfl)
  exact h5.step
    (Step.waitForTime rfl (by decide : _ = [everyFour 3, onceLater]) (by decide) rfl)

/-- There the worker waits for tick `5`, the time of the front. -/
theorem worker_wait_and_pop_onePosted :
    ∃ front rest, onePosted.wqItemContainer = front :: rest ∧ front.1.timePoint = 5 :=
  (worker_wait_and_pop (onePosted_reachable (· + ·))).2.1 5 rfl rfl

end Mqmx.WorkQueue

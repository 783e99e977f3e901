import Mqmx.WorkQueue.Cancelling

/-!
# Stopping

`signal_worker_to_stop` clears the container, puts the terminator in and raises
`_worker_stopped_flag`.  From then on every call is refused (`Members.Closed`), and the
terminator is what the worker finds, wherever it was: `Stopping`.

`Stops` is what follows a stop, and `Restarts` what follows the start of a new worker; both
are about any run.
-/

namespace Mqmx.WorkQueue

open Transition (Run)

variable {ω : Type} {w : ℕ}

/-- What `kill_worker` returns after its call of `signal_worker_to_stop`. -/
def killWorkerStatus (signalled joinable : Bool) : ExitStatus :=
  if signalled && joinable then .success else .notAllowed

/-- All calls with valid arguments are refused, and leave everything as it is. -/
structure Members.Closed (q : Members ω w) : Prop where
  schedule : ∀ h now c wk st p, c ≠ invalidClientId w → wk ≠ none →
    scheduleWork h now c wk st p q = ((.notAllowed, invalidWorkId w), q)
  update : ∀ h id c wk st p, c ≠ invalidClientId w → wk ≠ none →
    updateWork h id c wk st p q = (.notAllowed, q)
  cancel : ∀ h id, cancelWork h id q = (.notAllowed, q)
  cancelClient : ∀ h c, cancelClientWorks h c q = (.notAllowed, q)
  stop : ∀ h, signalWorkerToStop h q = (false, q)
  kill : ∀ h joinable, killWorkerStatus (signalWorkerToStop h q).1 joinable = .notAllowed

theorem Members.closed {q : Members ω w} (hs : q.workerStoppedFlag = true) : q.Closed := by
  have hne : ¬ q.workerStoppedFlag = false := by simp [hs]
  have hstop : ∀ h, signalWorkerToStop h q = (false, q) := by
    intro h
    rcases signalWorkerToStop_cases h q with ⟨-, e⟩ | ⟨hs', -⟩
    · exact e
    · exact absurd hs' hne
  refine ⟨?_, ?_, ?_, ?_, hstop, ?_⟩
  · intro h now c wk st p hc hwk
    rcases scheduleWork_cases h q now c wk st p with ⟨hb, -⟩ | ⟨-, -, e⟩ | ⟨-, hs', -⟩
    · exact absurd hb (not_or.mpr ⟨hc, hwk⟩)
    · exact e
    · exact absurd hs' hne
  · intro h id c wk st p hc hwk
    rcases updateWork_cases h q id c wk st p with
      ⟨hb, -⟩ | ⟨-, -, e⟩ | ⟨-, hs', -⟩ | ⟨-, hs', -⟩
    · exact absurd hb (not_or.mpr ⟨hc, hwk⟩)
    · exact e
    · exact absurd hs' hne
    · exact absurd hs' hne
  · intro h id
    rcases cancelWork_cases h q id with ⟨-, e⟩ | ⟨hs', -⟩ | ⟨hs', -⟩
    · exact e
    · exact absurd hs' hne
    · exact absurd hs' hne
  · intro h c
    rcases cancelClientWorks_cases h q c with ⟨-, e⟩ | ⟨hs', -⟩ | ⟨hs', -⟩
    · exact e
    · exact absurd hs' hne
    · exact absurd hs' hne
  · intro h joinable
    rw [hstop]
    rfl

theorem run_of_stopped (h : Heap ω w) {q : Members ω w} (hs : q.workerStoppedFlag = true)
    (c : Call ω w) : ∃ n, (c.run h q).2 = { q with nextClientId := n } := by
  rcases (run_edit h q c).signals with e | ⟨hs', -⟩
  · exact e
  · rw [hs] at hs'
    cases hs'

theorem signalWorkerToStop_true {h : Heap ω w} {q : Members ω w}
    (hr : (signalWorkerToStop h q).1 = true) : q.workerStoppedFlag = false ∧
      (signalWorkerToStop h q).2.workerStoppedFlag = true ∧
      (signalWorkerToStop h q).2.containerChangeFlag = true ∧
      (signalWorkerToStop h q).2.wakeUpPending = true ∧
      ∃ id, (signalWorkerToStop h q).2.wqItemContainer = [(WqItem.empty, id)] := by
  rcases signalWorkerToStop_cases h q with ⟨-, e⟩ | ⟨hs, e⟩
  · rw [e] at hr
    cases hr
  · rw [e, postWork_running h { q with wqItemContainer := [] } _ hs]
    exact ⟨hs, rfl, rfl, rfl, nextId (invalidWorkId w) q.nextWorkId,
      List.perm_singleton.mp (h.pushHeap_perm StdHeap.isHeap_nil)⟩

/-! ### From a stop on -/

def Label.IsWorker : Label ω w → Prop
  | .call _ _ | .startWorker | .tick => False
  | _ => True

/-- A stop was accepted, and no worker has been started since: the worker still has to find the
terminator, or it has exited. -/
structure Stopping (s : State ω w) : Prop where
  stopped : s.queue.workerStoppedFlag = true
  phase : (s.queue.wqItemContainer = [] ∧ s.worker = .exited) ∨
    (s.worker ≠ .exited ∧ s.worker ≠ .notStarted ∧
      ∃ id, s.queue.wqItemContainer = [(WqItem.empty, id)])
  woken : s.worker = .waitForSomeWork → s.queue.wakeUpPending = true
  changed : ∀ d, s.worker = .waitForTimePoint d → s.queue.containerChangeFlag = true

/-- What the worker does with the terminator in front of it, and how it gets there. -/
structure Exits (plus : Int → Int → Int) (s : State ω w) : Prop where
  /-- Its next pass through `wait_for_some_work` is its last. -/
  pass : s.worker = .loop → (∃ id, s.queue.wqItemContainer = [(WqItem.empty, id)]) ∧
    ∀ l t, l.IsWorker → Step plus s l t →
      l = .exit ∧ t.queue.wqItemContainer = [] ∧ t.worker = .exited
  /-- It does not sleep on. -/
  awake : s.worker = .waitForSomeWork → s.queue.wakeUpPending = true
  /-- Its next step leads there. -/
  next : ∀ l t, l.IsWorker → Step plus s l t → s.worker ≠ .loop → t.worker = .loop
  exists_next : s.worker ≠ .exited → ∃ l t, l.IsWorker ∧ Step plus s l t

/-- **What follows a stop**, until a worker is started again. -/
structure Stops (plus : Int → Int → Int) (t : State ω w) : Prop where
  silent : ∀ ls u, Run (system ω w plus) t ls u → Label.startWorker ∉ ls →
    ∀ item outcome, Label.execute item outcome ∉ ls
  closed : ∀ ls u, Run (system ω w plus) t ls u → Label.startWorker ∉ ls → u.queue.Closed
  exits : ∀ ls u, Run (system ω w plus) t ls u → Label.startWorker ∉ ls → Exits plus u

/-- **What follows a start**: the worker runs nothing but what was posted since. -/
def Restarts (plus : Int → Int → Int) (t : State ω w) : Prop :=
  ∀ ls u, Run (system ω w plus) t ls u → ∀ item outcome v,
    Step plus u (.execute item outcome) v → ∃ x ∈ ls, x.Issues item.2

variable {plus : Int → Int → Int} {s t u : State ω w} {l : Label ω w}

theorem Stopping.loop (h : Stopping s) (hw : s.worker = .loop) :
    ∃ id, s.queue.wqItemContainer = [(WqItem.empty, id)] := by
  rcases h.phase with ⟨-, he⟩ | ⟨-, -, hc⟩
  · rw [hw] at he
    cases he
  · exact hc

theorem Stopping.front (h : Stopping s) (hw : s.worker = .loop) {front : Record ω w}
    {rest : List (Record ω w)} (hc : s.queue.wqItemContainer = front :: rest) :
    front.1.work = none := by
  obtain ⟨id, hid⟩ := h.loop hw
  rw [hc] at hid
  obtain ⟨rfl, -⟩ := List.cons.inj hid
  rfl

theorem Stopping.step (h : Stopping s) (hs : Step plus s l t) (hl : l ≠ .startWorker) :
    Stopping t ∧ ∀ item outcome, l ≠ .execute item outcome := by
  have alive : ∀ {pc : WorkerPc}, s.worker = pc → pc ≠ .exited →
      ∃ id, s.queue.wqItemContainer = [(WqItem.empty, id)] := by
    rintro pc rfl hne
    rcases h.phase with ⟨-, he⟩ | ⟨-, -, hc⟩
    · exact absurd he hne
    · exact hc
  cases hs with
  | call hp c =>
    obtain ⟨n, e⟩ := run_of_stopped hp h.stopped c
    rw [e]
    exact ⟨⟨h.stopped, h.phase, h.woken, h.changed⟩, by simp⟩
  | startWorker => exact absurd rfl hl
  | tick => exact ⟨⟨h.stopped, h.phase, h.woken, h.changed⟩, by simp⟩
  | lock hw =>
    refine ⟨⟨h.stopped, .inr ⟨by simp, by simp, alive hw (by simp)⟩, by simp, by simp⟩, by simp⟩
  | waitForWork hw hc =>
    obtain ⟨id, hid⟩ := h.loop hw
    rw [hc] at hid
    cases hid
  | exit => exact ⟨⟨h.stopped, .inl ⟨rfl, rfl⟩, by simp, by simp⟩, by simp⟩
  | restart hw hc hwork => exact absurd (h.front hw hc) hwork
  | waitForTime hw hc hwork => exact absurd (h.front hw hc) hwork
  | wake hw =>
    exact ⟨⟨h.stopped, .inr ⟨by simp, by simp, alive hw (by simp)⟩, by simp, by simp⟩, by simp⟩
  | changed hw =>
    exact ⟨⟨h.stopped, .inr ⟨by simp, by simp, alive hw (by simp)⟩, by simp, by simp⟩, by simp⟩
  | spurious hw hf | drained hw hf | execute _ _ hw hf =>
    rw [h.changed _ hw] at hf
    cases hf

theorem Stopping.exits (h : Stopping s) : Exits plus s := by
  refine ⟨fun hw => ⟨h.loop hw, fun l t hl hs => ?_⟩, h.woken, ?_, ?_⟩
  · cases hs with
    | call | startWorker | tick => exact hl.elim
    | waitForWork _ hc =>
      obtain ⟨id, hid⟩ := h.loop hw
      rw [hc] at hid
      cases hid
    | exit => exact ⟨rfl, rfl, rfl⟩
    | restart _ hc hwork | waitForTime _ hc hwork => exact absurd (h.front hw hc) hwork
    | lock hw' | wake hw' | changed hw' | spurious hw' | drained hw' | execute _ _ hw' =>
      rw [hw] at hw'
      cases hw'
  · intro l t hl hs hw
    cases hs with
    | call | startWorker | tick => exact hl.elim
    | lock | wake | changed => rfl
    | waitForWork hw' | exit hw' | restart hw' | waitForTime hw' => exact absurd hw' hw
    | spurious hw' hf | drained hw' hf | execute _ _ hw' hf =>
      exact absurd hf (by simp [h.changed _ hw'])
  · intro hne
    rcases h.phase with ⟨-, he⟩ | ⟨-, hns, id, hc⟩
    · exact absurd he hne
    cases hw : s.worker with
    | notStarted => exact absurd hw hns
    | exited => exact absurd hw hne
    | starting => exact ⟨.lock, _, trivial, .lock hw⟩
    | loop => exact ⟨.exit, _, trivial, .exit hw hc rfl⟩
    | waitForSomeWork => exact ⟨.wake, _, trivial, .wake hw⟩
    | waitForTimePoint d => exact ⟨.changed, _, trivial, .changed hw (h.changed d hw)⟩

theorem Stopping.run {ls : List (Label ω w)} (hr : Run (system ω w plus) s ls t)
    (h : Stopping s) (hno : Label.startWorker ∉ ls) :
    Stopping t ∧ ∀ item outcome, Label.execute item outcome ∉ ls := by
  induction hr with
  | nil => exact ⟨h, by simp⟩
  | @cons s u t x ls hs _ ih =>
    obtain ⟨hx, hls⟩ := not_or.mp (List.mem_cons.not.mp hno)
    obtain ⟨hu, hexec⟩ := h.step hs (Ne.symm hx)
    obtain ⟨ht, hexecs⟩ := ih hu hls
    refine ⟨ht, ?_⟩
    intro item o hmem
    rcases List.mem_cons.mp hmem with e | hmem
    · exact hexec item o e.symm
    · exact hexecs item o hmem

theorem Stopping.stops (h : Stopping s) : Stops plus s where
  silent _ _ hr hno := (h.run hr hno).2
  closed _ _ hr hno := Members.closed (h.run hr hno).1.stopped
  exits _ _ hr hno := (h.run hr hno).1.exits

theorem stopping_of_stop (hi : Inv s)
    (hs : Step plus s (.call .signalWorkerToStop (.stopped true)) t) : Stopping t := by
  generalize hx : (Label.call .signalWorkerToStop (.stopped true) : Label ω w) = x at hs
  cases hs with
  | call h c hw =>
    injection hx with hc hr
    subst hc
    injection hr with hr
    obtain ⟨hrun, hstop, hflag, hwake, hc⟩ := signalWorkerToStop_true hr.symm
    -- where there is no worker the queue is stopped
    have halive : ¬ (s.worker = .notStarted ∨ s.worker = .exited) := fun hp => by
      rw [(hi.parked hp).2] at hrun
      cases hrun
    obtain ⟨hns, hne⟩ := not_or.mp halive
    exact ⟨hstop, .inr ⟨hne, hns, hc⟩, fun _ => hwake, fun _ _ => hflag⟩
  | _ => cases hx

theorem restarts (hr : Transition.Reachable (system ω w plus) s)
    (hs : Step plus s .startWorker t) : Restarts plus t := by
  intro ls u hls item o v hx
  have hi := inv_of_reachable hr
  have hit := hi.step hs
  have hc : t.queue.wqItemContainer = [] := by
    cases hs with
    | startWorker hw => exact (hi.parked hw).1
  have hq : t.queue.Without fun r => r.2 = item.2 := by
    intro r hr
    rw [hc] at hr
    cases hr
  by_contra hno
  push Not at hno
  exact (hq.run (R := Label.Issues item.2) (fun _ _ h => h)
    (fun _ _ _ hi hq hp => hp.issues hi hq) hls hit hno).not_execute
    (hls.invariant (fun _ _ _ => Inv.step) hit) hx rfl

end Mqmx.WorkQueue

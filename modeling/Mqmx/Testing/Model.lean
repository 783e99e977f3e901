import Mqmx.Base.Semaphore
import Mqmx.WorkQueue.System

/-!
# The work queue for tests

`testing/work_queue_for_tests.h` and `.cpp`: a work queue with a clock of its own,
which `forward_time` sets.  Two of its virtual functions differ from the base class.

`wait_for_time_point` compares with that clock and does not let the mutex go where
the time has come, so the worker runs all that is due in one critical section.
Except that `execute_work` calls the synchronization callback with the mutex free:
`WorkerPc.syncing`, with the record and its next time in the worker's own hands.

A caller of `forward_time (.., true)` sets the clock and then posts a forwarding item,
a work that raises `_time_forwarding_flag`.  `execute_work` looks at the flag after
every work: with nothing due any more it posts the semaphore the caller waits on, and
otherwise it has the item run again at the current time.
-/

namespace Mqmx.Testing

open WorkQueue (Members Record Call Reply Heap Outcome)

variable {ω σ : Type} {w : ℕ}

/-- A client's work, or the lambda of `wait_for_time_forwarding_completion`. -/
inductive Work (ω : Type)
  | user (f : ω)
  | forwarding
  deriving DecidableEq

/-- Where the worker thread is.  It holds the mutex in `loop` only; in `syncing` it
runs the callback and holds a record it will put back at `tp`, if `tp` is not empty. -/
inductive WorkerPc (ω : Type) (w : ℕ)
  | notStarted
  | starting
  | loop
  | waitForSomeWork
  | waitForTimePoint
  | syncing (item : Record (Work ω) w) (tp : Int)
  | exited
  deriving DecidableEq

structure State (ω : Type) (w : ℕ) (σ : Type) where
  queue : Members (Work ω) w
  worker : WorkerPc ω w
  currentTimePoint : Int
  timeForwardingFlag : Bool
  timeForwardingCompleted : σ
  timeForwardingClientId : BitVec w
  /-- Whether there is a synchronization callback. -/
  syncFunction : Bool
  /-- The callers of `forward_time (.., true)` between its two critical sections. -/
  posting : ℕ
  /-- Those that wait for the semaphore. -/
  waiting : ℕ

/-- The same state with another container. -/
def State.setContainer (s : State ω w σ) (v : List (Record (Work ω) w)) : State ω w σ :=
  { s with queue := { s.queue with wqItemContainer := v } }

section SetContainer

variable (s : State ω w σ) (v : List (Record (Work ω) w))

@[simp] theorem setContainer_container : (s.setContainer v).queue.wqItemContainer = v := rfl
@[simp] theorem setContainer_stopped :
    (s.setContainer v).queue.workerStoppedFlag = s.queue.workerStoppedFlag := rfl
@[simp] theorem setContainer_worker : (s.setContainer v).worker = s.worker := rfl
@[simp] theorem setContainer_time : (s.setContainer v).currentTimePoint = s.currentTimePoint := rfl
@[simp] theorem setContainer_flag :
    (s.setContainer v).timeForwardingFlag = s.timeForwardingFlag := rfl
@[simp] theorem setContainer_completed :
    (s.setContainer v).timeForwardingCompleted = s.timeForwardingCompleted := rfl

end SetContainer

/-- The constructor, up to its call of `start_worker`. -/
def State.initial [Semaphore σ] (now : Int) (syncFunction : Bool) : State ω w σ :=
  let r := WorkQueue.getClientId (Members.initial (ω := Work ω) (w := w))
  { queue := r.2
    worker := .notStarted
    currentTimePoint := now
    timeForwardingFlag := false
    timeForwardingCompleted := Semaphore.initial
    timeForwardingClientId := r.1
    syncFunction := syncFunction
    posting := 0
    waiting := 0 }

/-- The work of the record: the forwarding lambda raises the flag and returns false. -/
def callWork (item : Record (Work ω) w) (outcome : Outcome) (s : State ω w σ) :
    Outcome × State ω w σ :=
  match item.1.work with
  | some .forwarding => (.returned false, { s with timeForwardingFlag := true })
  | some (.user _) => (outcome, s)
  | none => (.threw, s)

@[simp] theorem callWork_setContainer (item : Record (Work ω) w) (outcome : Outcome)
    (s : State ω w σ) (v : List (Record (Work ω) w)) :
    (callWork item outcome (s.setContainer v)).1 = (callWork item outcome s).1 := by
  unfold callWork
  split <;> rfl

/-- The end of a worker iteration, back in the loop with the mutex. -/
def finish (h : Heap (Work ω) w) (item : Record (Work ω) w) (tp : Int) (s : State ω w σ) :
    State ω w σ :=
  { s with queue := WorkQueue.reschedule h item tp s.queue, worker := .loop }

/-- `work_queue_for_tests::execute_work` and what follows it in the iteration, from
the call of the work on.  `s` is the state with the record already popped. -/
def executeWork [Semaphore σ] (h : Heap (Work ω) w) (plus : Int → Int → Int)
    (item : Record (Work ω) w) (outcome : Outcome) (s : State ω w σ) : State ω w σ :=
  let r := callWork item outcome s
  let result := WorkQueue.executeWork plus item r.1
  if r.2.timeForwardingFlag then
    let s' := { r.2 with timeForwardingFlag := false }
    let next := WorkQueue.getNearestTimePoint s'.queue
    if isTimePointEmpty next ∨ s'.currentTimePoint < next then
      finish h item result
        { s' with timeForwardingCompleted := Semaphore.post s'.timeForwardingCompleted }
    else finish h item s'.currentTimePoint s'
  else if r.2.syncFunction then { r.2 with worker := .syncing item result }
  else finish h item result r.2

inductive Label (ω : Type) (w : ℕ)
  | call (c : Call (Work ω) w) (reply : Reply w)
  | forwardTime (tp : Int)
  | setTime (tp : Int)
  | postForwarding (reply : Reply w)
  | completed
  | startWorker
  | lock
  | waitForWork
  | exit
  | restart
  | waitForTime
  | wake
  | changed
  | spurious
  | execute (item : Record (Work ω) w) (outcome : Outcome)
  | syncReturn
  deriving DecidableEq

/-- The forwarding lambda is not to be had outside `forward_time`. -/
def Admits : Call (Work ω) w → Prop
  | .scheduleWork _ _ (some .forwarding) _ _ => False
  | .updateWork _ _ (some .forwarding) _ _ => False
  | _ => True

/-- The call in `wait_for_time_forwarding_completion`. -/
def State.forwardingCall (s : State ω w σ) (now finalTimePoint : Int) : Call (Work ω) w :=
  .scheduleWork now s.timeForwardingClientId (some .forwarding) finalTimePoint 0

/-- It goes on to wait only where it could post its item. -/
def waitingAfter (n : ℕ) : Reply w → ℕ
  | .posted .success _ => n + 1
  | _ => n

/-- One step of one party, with a standard library whose heap algorithms are in `lib`. -/
inductive Step [Semaphore σ] (lib : Heap (Work ω) w → Prop) (plus : Int → Int → Int) :
    State ω w σ → Label ω w → State ω w σ → Prop
  | call (h : Heap (Work ω) w) (c : Call (Work ω) w) {s : State ω w σ} : lib h → s.worker ≠ .loop →
      Admits c →
      Step lib plus s (.call c (c.run h s.queue).1) { s with queue := (c.run h s.queue).2 }
  /-- `forward_time (tp, false)`. -/
  | forwardTime (tp : Int) {s : State ω w σ} : s.worker ≠ .loop →
      Step lib plus s (.forwardTime tp)
        { s with queue := WorkQueue.signalContainerChange s.queue, currentTimePoint := tp }
  /-- The first critical section of `forward_time (tp, true)`. -/
  | setTime (tp : Int) {s : State ω w σ} : s.worker ≠ .loop →
      Step lib plus s (.setTime tp) { s with currentTimePoint := tp, posting := s.posting + 1 }
  /-- The second one. -/
  | postForwarding (h : Heap (Work ω) w) (now tp : Int) {s : State ω w σ} {n : ℕ} : lib h →
      s.worker ≠ .loop → s.posting = n + 1 →
      Step lib plus s (.postForwarding ((s.forwardingCall now tp).run h s.queue).1)
        { s with
          queue := ((s.forwardingCall now tp).run h s.queue).2
          posting := n
          waiting := waitingAfter s.waiting ((s.forwardingCall now tp).run h s.queue).1 }
  /-- The wait that ends `forward_time (tp, true)`. -/
  | completed {s : State ω w σ} {c : σ} {n : ℕ} : s.waiting = n + 1 →
      Semaphore.wait s.timeForwardingCompleted = some c →
      Step lib plus s .completed { s with timeForwardingCompleted := c, waiting := n }
  | startWorker {s : State ω w σ} : s.worker = .notStarted ∨ s.worker = .exited →
      s.queue.workerStoppedFlag = true →
      Step lib plus s .startWorker
        { s with queue := { s.queue with workerStoppedFlag := false }, worker := .starting }
  | lock {s : State ω w σ} : s.worker = .starting → Step lib plus s .lock { s with worker := .loop }
  | waitForWork {s : State ω w σ} : s.worker = .loop → s.queue.wqItemContainer = [] →
      Step lib plus s .waitForWork
        { s with queue := { s.queue with wakeUpPending := false }, worker := .waitForSomeWork }
  | exit {s : State ω w σ} {front : Record (Work ω) w} {rest : List (Record (Work ω) w)} :
      s.worker = .loop → s.queue.wqItemContainer = front :: rest → front.1.work = none →
      Step lib plus s .exit
        { s with queue := { s.queue with wqItemContainer := [] }, worker := .exited }
  /-- The front is not due, and the change flag is set already. -/
  | restart {s : State ω w σ} {front : Record (Work ω) w} {rest : List (Record (Work ω) w)} :
      s.worker = .loop → s.queue.wqItemContainer = front :: rest → front.1.work ≠ none →
      s.currentTimePoint < front.1.timePoint → s.queue.containerChangeFlag = true →
      Step lib plus s .restart { s with queue := { s.queue with containerChangeFlag := false } }
  /-- The front is not due: wait for a change. -/
  | waitForTime {s : State ω w σ} {front : Record (Work ω) w} {rest : List (Record (Work ω) w)} :
      s.worker = .loop → s.queue.wqItemContainer = front :: rest → front.1.work ≠ none →
      s.currentTimePoint < front.1.timePoint → s.queue.containerChangeFlag = false →
      Step lib plus s .waitForTime
        { s with queue := { s.queue with wakeUpPending := false }, worker := .waitForTimePoint }
  | wake {s : State ω w σ} : s.worker = .waitForSomeWork →
      Step lib plus s .wake { s with worker := .loop }
  | changed {s : State ω w σ} : s.worker = .waitForTimePoint →
      s.queue.containerChangeFlag = true →
      Step lib plus s .changed
        { s with queue := { s.queue with containerChangeFlag := false }, worker := .loop }
  | spurious {s : State ω w σ} : s.worker = .waitForTimePoint →
      s.queue.containerChangeFlag = false →
      Step lib plus s .spurious { s with queue := { s.queue with wakeUpPending := false } }
  /-- The front is due: pop a record and run it, in the same critical section. -/
  | execute (h : Heap (Work ω) w) (outcome : Outcome) {s : State ω w σ}
      {front item : Record (Work ω) w} {rest : List (Record (Work ω) w)}
      {q : Members (Work ω) w} : lib h → s.worker = .loop →
      s.queue.wqItemContainer = front :: rest → front.1.work ≠ none →
      front.1.timePoint ≤ s.currentTimePoint →
      WorkQueue.popRecord h s.queue = some (item, q) →
      Step lib plus s (.execute item (callWork item outcome s).1)
        (executeWork h plus item outcome { s with queue := q })
  /-- The callback is over, normally or with an exception. -/
  | syncReturn (h : Heap (Work ω) w) {s : State ω w σ} {item : Record (Work ω) w}
      {tp : Int} : lib h → s.worker = .syncing item tp →
      Step lib plus s .syncReturn (finish h item tp s)

/-- The work queue for tests, from the end of its initializers on. -/
def system (ω : Type) (w : ℕ) (σ : Type) [Semaphore σ] (lib : Heap (Work ω) w → Prop)
    (plus : Int → Int → Int) : Transition.System (State ω w σ) (Label ω w) where
  init s := ∃ now syncFunction, s = State.initial now syncFunction
  step := Step lib plus

/-! ### One iteration -/

/-- **What an execution does**, read off `executeWork`: the three ways it ends. -/
theorem executeWork_cases [Semaphore σ] (h : Heap (Work ω) w) (plus : Int → Int → Int)
    (item : Record (Work ω) w) (outcome : Outcome) (s : State ω w σ)
    (hf : s.timeForwardingFlag = false) :
    (item.1.work ≠ some .forwarding ∧ s.syncFunction = false ∧
      executeWork h plus item outcome s =
        finish h item (WorkQueue.executeWork plus item (callWork item outcome s).1) s) ∨
    (item.1.work ≠ some .forwarding ∧ s.syncFunction = true ∧
      executeWork h plus item outcome s = { s with
        worker := .syncing item (WorkQueue.executeWork plus item (callWork item outcome s).1) }) ∨
    (item.1.work = some .forwarding ∧
      (isTimePointEmpty (WorkQueue.getNearestTimePoint s.queue) ∨
        s.currentTimePoint < WorkQueue.getNearestTimePoint s.queue) ∧
      executeWork h plus item outcome s = { s with
        worker := .loop, timeForwardingCompleted := Semaphore.post s.timeForwardingCompleted }) ∨
    (item.1.work = some .forwarding ∧
      ¬ (isTimePointEmpty (WorkQueue.getNearestTimePoint s.queue) ∨
        s.currentTimePoint < WorkQueue.getNearestTimePoint s.queue) ∧
      executeWork h plus item outcome s = finish h item s.currentTimePoint s) := by
  have hs : { s with timeForwardingFlag := false } = s := by rw [← hf]
  cases hw : item.1.work with
  | none =>
    cases hy : s.syncFunction with
    | false => exact .inl ⟨by simp, rfl, by simp [executeWork, callWork, hw, hf, hy]⟩
    | true => exact .inr (.inl ⟨by simp, rfl, by simp [executeWork, callWork, hw, hf, hy]⟩)
  | some k =>
    cases k with
    | user f =>
      cases hy : s.syncFunction with
      | false => exact .inl ⟨by simp, rfl, by simp [executeWork, callWork, hw, hf, hy]⟩
      | true => exact .inr (.inl ⟨by simp, rfl, by simp [executeWork, callWork, hw, hf, hy]⟩)
    | forwarding =>
      by_cases hn : isTimePointEmpty (WorkQueue.getNearestTimePoint s.queue) ∨
          s.currentTimePoint < WorkQueue.getNearestTimePoint s.queue
      · refine .inr (.inr (.inl ⟨rfl, hn, ?_⟩))
        simp [executeWork, callWork, hw, hn, finish, hf]
      · refine .inr (.inr (.inr ⟨rfl, hn, ?_⟩))
        simp [executeWork, callWork, hw, hn, hs]

end Mqmx.Testing

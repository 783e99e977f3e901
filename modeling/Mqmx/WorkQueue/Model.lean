import Mathlib.Data.Int.Order.Basic
import Mqmx.Base.Heap
import Mqmx.Types

/-!
# The work queue

`work_queue.h` and `work_queue.cpp`: the members of `work_queue`, and each member
function as a function of them.  A function of the source that runs with the main
mutex held is one Lean function here; `System.lean` says which thread may call it
when.

Three things are left open.  A work is an element of `ω`, a pointer to it an
`Option ω`; what a call of it does is the caller's `Outcome`.  The heap algorithms
are those of any standard library (`Heap`).  And `plus` is the addition of the
clock's tick type, exact wherever the sum is representable.

Time points and periods are ticks of the clock, as `Int`; the epoch, `0`, is the empty
time point.  The two ids are `unsigned long`, here `w` bits wide.
-/

namespace Mqmx

namespace WorkQueue

variable {ω : Type} {w : ℕ}

/-- `INVALID_CLIENT_ID`, `static_cast<unsigned long> (-1)`. -/
def invalidClientId (w : ℕ) : BitVec w := BitVec.allOnes w

/-- `INVALID_WORK_ID`, `static_cast<unsigned long> (-1)`. -/
def invalidWorkId (w : ℕ) : BitVec w := BitVec.allOnes w

structure WqItem (ω : Type) (w : ℕ) where
  timePoint : Int
  clientId : BitVec w
  work : Option ω
  period : Int
  deriving DecidableEq

/-- The default `wq_item`, which `signal_worker_to_stop` posts. -/
def WqItem.empty : WqItem ω w := ⟨0, invalidClientId w, none, 0⟩

/-- A work item and its id. -/
abbrev Record (ω : Type) (w : ℕ) := WqItem ω w × BitVec w

/-- `record_compare`: the earlier record is the greater one. -/
def recordCompare (a b : Record ω w) : Prop := b.1.timePoint < a.1.timePoint

instance : DecidableRel (recordCompare (ω := ω) (w := w)) :=
  fun a b => inferInstanceAs (Decidable (b.1.timePoint < a.1.timePoint))

theorem recordCompare_strictWeak : StdHeap.StrictWeak (recordCompare (ω := ω) (w := w)) :=
  StdHeap.strictWeak_of_key fun r : Record ω w => r.1.timePoint

/-- The heap algorithms of a standard library, on records. -/
abbrev Heap (ω : Type) (w : ℕ) := StdHeap.Algorithms (recordCompare (ω := ω) (w := w))

abbrev IsHeap (v : List (Record ω w)) : Prop := StdHeap.IsHeap recordCompare v

/-- The members the main mutex protects.  `wakeUpPending` stands for the condition
variable: a notification since the worker last went to sleep on it. -/
structure Members (ω : Type) (w : ℕ) where
  nextWorkId : BitVec w
  nextClientId : BitVec w
  wqItemContainer : List (Record ω w)
  containerChangeFlag : Bool
  workerStoppedFlag : Bool
  wakeUpPending : Bool
  deriving DecidableEq

/-- The protected constructor, which does not start the worker. -/
def Members.initial : Members ω w where
  nextWorkId := invalidWorkId w
  nextClientId := invalidClientId w
  wqItemContainer := []
  containerChangeFlag := false
  workerStoppedFlag := true
  wakeUpPending := false

/-- The heap algorithms by sifting, for runs on fixed inputs. -/
def siftHeap (ω : Type) (w : ℕ) : Heap ω w := StdHeap.Algorithms.sift recordCompare_strictWeak

/-! ### Posting -/

def signalContainerChange (q : Members ω w) : Members ω w :=
  { q with containerChangeFlag := true, wakeUpPending := true }

/-- `if (++_next_id == INVALID_ID) ++_next_id;`, the same for both ids. -/
def nextId (invalid id : BitVec w) : BitVec w :=
  if id + 1 = invalid then id + 1 + 1 else id + 1

def postWork (h : Heap ω w) (item : WqItem ω w) (q : Members ω w) :
    (ExitStatus × BitVec w) × Members ω w :=
  if q.workerStoppedFlag then ((.notAllowed, invalidWorkId w), q)
  else
    let id := nextId (invalidWorkId w) q.nextWorkId
    ((.success, id),
      signalContainerChange
        { q with
          nextWorkId := id
          wqItemContainer := h.pushHeap (q.wqItemContainer ++ [(item, id)]) })

/-- `now` is the reading of `get_current_time_point ()`, taken before the mutex. -/
def scheduleWork (h : Heap ω w) (now : Int) (clientId : BitVec w) (work : Option ω)
    (startTime : Int) (repeatPeriod : Int) (q : Members ω w) :
    (ExitStatus × BitVec w) × Members ω w :=
  if clientId = invalidClientId w ∨ work = none then ((.invalidArgument, invalidWorkId w), q)
  else
    let stime := if isTimePointEmpty startTime then now else startTime
    postWork h ⟨stime, clientId, work, repeatPeriod⟩ q

def signalWorkerToStop (h : Heap ω w) (q : Members ω w) : Bool × Members ω w :=
  if q.workerStoppedFlag then (false, q)
  else
    let r := postWork h WqItem.empty { q with wqItemContainer := [] }
    if r.1.1 = .success then (true, { r.2 with workerStoppedFlag := true }) else (false, r.2)

def getClientId (q : Members ω w) : BitVec w × Members ω w :=
  let id := nextId (invalidClientId w) q.nextClientId
  (id, { q with nextClientId := id })

/-! ### Changing and cancelling -/

def makeHeapAndNotifyWorker (h : Heap ω w) (q : Members ω w) : Members ω w :=
  signalContainerChange { q with wqItemContainer := h.makeHeap q.wqItemContainer }

/-- The container after the replacement, when there was something to replace. -/
def wqItemFindAndReplace (workId : BitVec w) (newItem : WqItem ω w) :
    List (Record ω w) → Option (List (Record ω w))
  | [] => none
  | elem :: rest =>
    if elem.2 = workId then some ((newItem, elem.2) :: rest)
    else (wqItemFindAndReplace workId newItem rest).map (elem :: ·)

def updateWork (h : Heap ω w) (workId clientId : BitVec w) (work : Option ω)
    (startTime : Int) (repeatPeriod : Int) (q : Members ω w) :
    ExitStatus × Members ω w :=
  if clientId = invalidClientId w ∨ work = none then (.invalidArgument, q)
  else if q.workerStoppedFlag then (.notAllowed, q)
  else
    match wqItemFindAndReplace workId ⟨startTime, clientId, work, repeatPeriod⟩
        q.wqItemContainer with
    | some v => (.success, makeHeapAndNotifyWorker h { q with wqItemContainer := v })
    | none => (.notFound, q)

/-- Swap the element found with the last one and drop that. -/
def wqItemFindAndRemove (workId : BitVec w) (v : List (Record ω w)) :
    Option (List (Record ω w)) :=
  (v.findIdx? fun elem => elem.2 = workId).map fun i => (StdHeap.swapAt v i (v.length - 1)).dropLast

def cancelWork (h : Heap ω w) (workId : BitVec w) (q : Members ω w) : ExitStatus × Members ω w :=
  if q.workerStoppedFlag then (.notAllowed, q)
  else
    match wqItemFindAndRemove workId q.wqItemContainer with
    | some v => (.success, makeHeapAndNotifyWorker h { q with wqItemContainer := v })
    | none => (.notFound, q)

/-- `remove_if` and `erase`; `new_end` is the end when nothing was removed. -/
def wqItemFindAndRemoveAll (clientId : BitVec w) (v : List (Record ω w)) :
    Option (List (Record ω w)) :=
  let v' := v.filter fun r => r.1.clientId ≠ clientId
  if v'.length ≠ v.length then some v' else none

def cancelClientWorks (h : Heap ω w) (clientId : BitVec w) (q : Members ω w) :
    ExitStatus × Members ω w :=
  if q.workerStoppedFlag then (.notAllowed, q)
  else
    match wqItemFindAndRemoveAll clientId q.wqItemContainer with
    | some v => (.success, makeHeapAndNotifyWorker h { q with wqItemContainer := v })
    | none => (.notFound, q)

/-! ### Reading -/

def isContainerEmpty (q : Members ω w) : Bool := q.wqItemContainer.isEmpty

def isIdle (q : Members ω w) : Bool := isContainerEmpty q

def getNearestTimePoint (q : Members ω w) : Int :=
  match q.wqItemContainer with
  | [] => 0
  | front :: _ => front.1.timePoint

/-! ### The worker's side -/

/-- What a call of a work does. -/
inductive Outcome
  | returned (again : Bool)
  | threw
  deriving DecidableEq

/-- `work_queue::execute_work`: the time to run the record again, or the empty one. -/
def executeWork (plus : Int → Int → Int) (rec : Record ω w) : Outcome → Int
  | .returned true => if 0 < rec.1.period then plus rec.1.timePoint rec.1.period else 0
  | .returned false => 0
  | .threw => 0

/-- `pop_heap`, then take the last record. -/
def popRecord (h : Heap ω w) (q : Members ω w) : Option (Record ω w × Members ω w) :=
  let v := h.popHeap q.wqItemContainer
  v.getLast?.map fun item => (item, { q with wqItemContainer := v.dropLast })

/-- The end of a worker iteration: put the record back unless `tp` is empty. -/
def reschedule (h : Heap ω w) (item : Record ω w) (tp : Int) (q : Members ω w) :
    Members ω w :=
  if isTimePointEmpty tp then q
  else { q with
    wqItemContainer :=
      h.pushHeap (q.wqItemContainer ++ [({ item.1 with timePoint := tp }, item.2)]) }

/-! ### Calls -/

/-- The calls a client, or the owner of the queue, can make. -/
inductive Call (ω : Type) (w : ℕ)
  | scheduleWork (now : Int) (clientId : BitVec w) (work : Option ω)
      (startTime : Int) (repeatPeriod : Int)
  | updateWork (workId clientId : BitVec w) (work : Option ω)
      (startTime : Int) (repeatPeriod : Int)
  | cancelWork (workId : BitVec w)
  | cancelClientWorks (clientId : BitVec w)
  | isIdle
  | getNearestTimePoint
  | getClientId
  | signalWorkerToStop
  deriving DecidableEq

/-- The clock was read before the call took the mutex: not after `t`. -/
def Call.ReadBefore (t : Int) : Call ω w → Prop
  | .scheduleWork now .. => now ≤ t
  | _ => True

inductive Reply (w : ℕ)
  | posted (status : ExitStatus) (workId : BitVec w)
  | status (status : ExitStatus)
  | idle (answer : Bool)
  | timePoint (tp : Int)
  | clientId (id : BitVec w)
  | stopped (answer : Bool)
  deriving DecidableEq

/-- One call: its critical section, and what it returns. -/
def Call.run (h : Heap ω w) (q : Members ω w) : Call ω w → Reply w × Members ω w
  | .scheduleWork now c wk st p =>
    let r := WorkQueue.scheduleWork h now c wk st p q
    (.posted r.1.1 r.1.2, r.2)
  | .updateWork id c wk st p =>
    let r := WorkQueue.updateWork h id c wk st p q
    (.status r.1, r.2)
  | .cancelWork id =>
    let r := WorkQueue.cancelWork h id q
    (.status r.1, r.2)
  | .cancelClientWorks c =>
    let r := WorkQueue.cancelClientWorks h c q
    (.status r.1, r.2)
  | .isIdle => (.idle (WorkQueue.isIdle q), q)
  | .getNearestTimePoint => (.timePoint (WorkQueue.getNearestTimePoint q), q)
  | .getClientId =>
    let r := WorkQueue.getClientId q
    (.clientId r.1, r.2)
  | .signalWorkerToStop =>
    let r := WorkQueue.signalWorkerToStop h q
    (.stopped r.1, r.2)

end WorkQueue

end Mqmx

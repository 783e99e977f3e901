import Mqmx.Base.Semaphore
import Mqmx.Base.Transition
import Mqmx.Queue.Report

/-!
# The pool of message queues

`message_queue_pool.h` and `.cpp`: a worker that polls the queues of the pool, and the
threads that use the pool.  What a member function does between two synchronised
operations is one step; each call on a queue is a step of its own.

`A` names the queues, `T` the threads, `H` the handlers that clients bring and `U` what
their messages carry.  `mqControl` is the address of the control queue.  What a handler
does is left open but for how it ends (`Outcome`).  What other threads do to queues is
`Step.op`; a handler's own calls are among them.

The table `_handler` has no lock, and calls of `allocate_queue` must not overlap: the
search for a slot and the write to it are one step.
-/

namespace Mqmx.Pool

variable {A T H U σ : Type}

/-! ### Control messages -/

def controlMessageQueueId : ℕ := 0x00

def terminateMessageId : ℕ := 0x00
def pollPauseMessageId : ℕ := 0x01
def addQueueMessageId : ℕ := 0x02
def removeQueueMessageId : ℕ := 0x03

/-- What a message has beyond its two ids: nothing, what a client put there, or the members
of `add_queue_message` and `remove_queue_message`.  The semaphore of a request is named
by the thread that waits for it. -/
inductive Body (A T U : Type)
  | base
  | user (u : U)
  | add (mq : A) (sem : T)
  | remove (mq : A) (sem : T)
  deriving DecidableEq

/-- The listeners are those of the worker's polls and of each thread's. -/
inductive Party (T : Type)
  | worker
  | client (t : T)
  deriving DecidableEq

abbrev PoolMemory (A T U : Type) := Memory A (Body A T U) (Party T)

/-- The slots of `_handler`. -/
inductive Handler (H : Type)
  | control
  | client (h : H)
  deriving DecidableEq

/-- The insertion of `control_queue_handler`, after all queues with smaller ids.  It is
`none` where the assertion fails. -/
def insertQueue (m : PoolMemory A T U) (mqs : List A) (mq : A) : Option (List A) :=
  match mqs with
  | [] => none
  | control :: rest =>
    let before := rest.takeWhile fun a => m.qid a < m.qid mq
    let after := rest.dropWhile fun a => m.qid a < m.qid mq
    if ∀ a ∈ after.head?, m.qid mq < m.qid a then some (control :: before ++ mq :: after)
    else none

/-- `control_queue_handler`: the status, the new `_mqs`, and whose semaphore is posted.
It is `none` where the program has no meaning: an assertion fails, or a message is not
what its id says. -/
def controlQueueHandler [DecidableEq A] (m : PoolMemory A T U) (mqs : List A)
    (msg : Message (Body A T U)) : Option (ExitStatus × List A × Option T) :=
  if msg.mid = terminateMessageId then some (.haltRequested, mqs, none)
  else if msg.mid = pollPauseMessageId then some (.pauseRequested, mqs, none)
  else if msg.mid = addQueueMessageId then
    match msg.body with
    | .add mq sem => (insertQueue m mqs mq).map (.success, ·, some sem)
    | _ => none
  else if msg.mid = removeQueueMessageId then
    match msg.body with
    | .remove mq sem => some (.restartNeeded, mqs.erase mq, some sem)
    | _ => none
  else some (.success, mqs, none)

/-- The first empty slot after that of the control queue, or the size of the table. -/
def firstFree (handler : List (Option (Handler H))) : ℕ :=
  1 + (handler.tail.takeWhile Option.isSome).length

/-! ### Where everybody is -/

/-- Within `poll`.  In the constructor of `set_listener_for_each_queue` the iterator has
passed `set`, in the destructor it has `rest` before it and the list is the result. -/
inductive PollPc (A : Type)
  | attach (set rest : List A)
  | wait (range : List A)
  | detach (rest : List A) (result : List (NotificationRec A))
  deriving DecidableEq

/-- Within `thread_loop`. -/
inductive WorkerPc (A T U : Type)
  | start
  | poll (p : PollPc A)
  /-- These records are still to be handled. -/
  | notes (mqlist : List (NotificationRec A))
  /-- In the loop of `handle_notifications` for the record, before `pop`. -/
  | handle (rec : NotificationRec A) (mqlist : List (NotificationRec A))
  /-- Before the call of the handler. -/
  | call (rec : NotificationRec A) (msg : Message (Body A T U))
      (mqlist : List (NotificationRec A))
  | inHandler (rec : NotificationRec A) (mqlist : List (NotificationRec A))
  /-- Before `_sem_pause.post ()`. -/
  | pausing
  /-- Before `_sem_resume.wait ()` returns. -/
  | parked
  | exited
  | aborted

/-- Within a member function of the pool or `mq_deleter`. -/
inductive ClientPc (A : Type)
  | idle
  /-- In `allocate_queue`, before the request. -/
  | adding (mq : A)
  /-- In `allocate_queue`, before `sem.wait ()` returns. -/
  | added (mq : A)
  /-- In `remove_queue`, before the look at the table. -/
  | checking (mq : A)
  | removing (mq : A)
  | removed (mq : A)
  /-- In `mq_deleter`, before `delete`. -/
  | freeing (mq : A)
  /-- In `is_poll_idle`, before `_sem_pause.wait ()` returns. -/
  | pausing
  | start
  | poll (p : PollPc A)
  | polled (idleStatus : Bool)
  | aborted

structure State (A T H U σ : Type) where
  memory : PoolMemory A T U
  handler : List (Option (Handler H))
  mqs : List A
  semPause : σ
  semResume : σ
  /-- The semaphore of the request of a thread. -/
  sem : T → σ
  worker : WorkerPc A T U
  client : T → ClientPc A
  /-- A client has the `mq_upointer_type` of the queue. -/
  held : A → Bool
  /-- The queue was made by `allocate_queue`. -/
  pooled : A → Bool

/-- How the call of a handler ends: it returns a status code, or throws. -/
inductive Outcome
  | returned (code : Int)
  | threw

inductive Label (A T H U : Type)
  | begin (l : Party T)
  | poll (l : Party T)
  | take
  | examine (rec : NotificationRec A)
  | again
  | pop (rec : NotificationRec A)
  | control (msg : Message (Body A T U)) (status : Option ExitStatus)
  | handle (slot : ℕ) (h : H) (msg : Message (Body A T U))
  | badCall (slot : ℕ)
  | returned (o : Outcome)
  | pause
  | resume
  | refuse (t : T)
  | allocate (t : T) (h : H) (mq : A) (slot : ℕ)
  | overflow (t : T) (slot : ℕ)
  | add (t : T) (mq : A)
  | allocated (t : T) (mq : A)
  | delete (t : T) (mq : A)
  | check (t : T) (mq : A) (found : Bool)
  | remove (t : T) (mq : A)
  | removed (t : T) (mq : A)
  | free (t : T) (mq : A)
  | isPollIdle (t : T)
  | paused (t : T)
  | polled (t : T)
  | answer (t : T) (idle : Bool)
  | terminate
  | op (o : Op A (Body A T U) (Party T)) (reply : Op.Reply (Body A T U))

/-! ### Steps -/

section Steps

variable [DecidableEq A] [DecidableEq T]

/-- One step within `poll`.  A wait of the worker ends with a notification; the poll of
`is_poll_idle` does not wait. -/
inductive PollStep (l : Party T) :
    PoolMemory A T U → PollPc A → PoolMemory A T U → PollPc A → Prop
  | attach {m : PoolMemory A T U} {a : A} {set rest : List A} :
      PollStep l m (.attach set (a :: rest)) (m.touch (.setListener a l))
        (.attach (set ++ [a]) rest)
  | ready {m : PoolMemory A T U} {set : List A} : PollStep l m (.attach set []) m (.wait set)
  | wake {m : PoolMemory A T U} {range : List A} :
      l = .worker → m.notifications l ≠ [] →
      PollStep l m (.wait range) m (.detach range (m.notifications l))
  | look {m : PoolMemory A T U} {range : List A} :
      l ≠ .worker → PollStep l m (.wait range) m (.detach range (m.notifications l))
  | detach {m : PoolMemory A T U} {a : A} {rest : List A}
      {result : List (NotificationRec A)} :
      PollStep l m (.detach (a :: rest) result) (m.touch (.clearListener a))
        (.detach rest result)

/-- A new `message_queue_poll_listener`. -/
def reset (l : Party T) (m : PoolMemory A T U) : PoolMemory A T U :=
  { m with notifications := Function.update m.notifications l [] }

/-- The start of `handle_notifications`: the flags, and two assertions. -/
def examine (handler : List (Option (Handler H))) (rec : NotificationRec A)
    (mqlist : List (NotificationRec A)) : WorkerPc A T U :=
  if rec.flags.has (Flag.closed ||| Flag.detached) then .notes mqlist
  else if rec.flags.has Flag.data then
    if rec.mq ≠ none ∧ rec.qid < handler.length then .handle rec mqlist else .aborted
  else .notes mqlist

/-- What `thread_loop` does with what the control queue's handler returns. -/
def afterControl (rec : NotificationRec A) (mqlist : List (NotificationRec A)) :
    ExitStatus → WorkerPc A T U
  | .success => .handle rec mqlist
  | .haltRequested => .exited
  | .restartNeeded => .start
  | .pauseRequested => .pausing
  | _ => .notes mqlist

/-- And with what a client's handler does: only a `Success` goes on with the queue. -/
def afterHandler (rec : NotificationRec A) (mqlist : List (NotificationRec A)) :
    Outcome → WorkerPc A T U
  | .returned code => if code = 0 then .handle rec mqlist else .notes mqlist
  | .threw => .notes mqlist

/-- The test of `remove_queue`. -/
def registered (handler : List (Option (Handler H))) (qid : ℕ) : Bool :=
  (handler[qid]?.join).isSome

variable [Semaphore σ]

/-- `sem->post ()`. -/
def post (t : Option T) (sem : T → σ) : T → σ :=
  match t with
  | some t => Function.update sem t (Semaphore.post (sem t))
  | none => sem

def State.goto (t : T) (pc : ClientPc A) (s : State A T H U σ) : State A T H U σ :=
  { s with client := Function.update s.client t pc }

/-- One step of the worker, of a thread in a function of the pool, or of another thread. -/
inductive Step (mqControl : A) :
    State A T H U σ → Label A T H U → State A T H U σ → Prop
  -- the worker
  | begin {s : State A T H U σ} : s.worker = .start →
      Step mqControl s (.begin .worker)
        { s with memory := reset .worker s.memory, worker := .poll (.attach [] s.mqs) }
  | poll {s : State A T H U σ} {p p' : PollPc A} {m : PoolMemory A T U} :
      s.worker = .poll p → PollStep .worker s.memory p m p' →
      Step mqControl s (.poll .worker) { s with memory := m, worker := .poll p' }
  | take {s : State A T H U σ} {mqlist : List (NotificationRec A)} :
      s.worker = .poll (.detach [] mqlist) →
      Step mqControl s .take { s with worker := .notes mqlist }
  | examine {s : State A T H U σ} {rec : NotificationRec A}
      {mqlist : List (NotificationRec A)} :
      s.worker = .notes (rec :: mqlist) →
      Step mqControl s (.examine rec) { s with worker := examine s.handler rec mqlist }
  | again {s : State A T H U σ} : s.worker = .notes [] →
      Step mqControl s .again { s with worker := .start }
  | pop {s : State A T H U σ} {rec : NotificationRec A} {mqlist : List (NotificationRec A)}
      {a : A} {msg : Message (Body A T U)} {m : PoolMemory A T U} :
      s.worker = .handle rec mqlist → rec.mq = some a → s.memory.pop a = some (some msg, m) →
      Step mqControl s (.pop rec) { s with memory := m, worker := .call rec msg mqlist }
  /-- There is no message any more; also where the queue is not alive, and the program
  has no meaning. -/
  | popNothing {s : State A T H U σ} {rec : NotificationRec A}
      {mqlist : List (NotificationRec A)} :
      s.worker = .handle rec mqlist →
      (∀ a, rec.mq = some a → ∀ msg m, s.memory.pop a ≠ some (some msg, m)) →
      Step mqControl s (.pop rec) { s with worker := .notes mqlist }
  | control {s : State A T H U σ} {rec : NotificationRec A} {msg : Message (Body A T U)}
      {mqlist : List (NotificationRec A)} {status : ExitStatus} {mqs : List A}
      {sem : Option T} :
      s.worker = .call rec msg mqlist → s.handler[rec.qid]? = some (some .control) →
      controlQueueHandler s.memory s.mqs msg = some (status, mqs, sem) →
      Step mqControl s (.control msg (some status))
        { s with
          mqs := mqs
          sem := post sem s.sem
          worker := afterControl rec mqlist status }
  | controlAborts {s : State A T H U σ} {rec : NotificationRec A}
      {msg : Message (Body A T U)} {mqlist : List (NotificationRec A)} :
      s.worker = .call rec msg mqlist → s.handler[rec.qid]? = some (some .control) →
      controlQueueHandler s.memory s.mqs msg = none →
      Step mqControl s (.control msg none) { s with worker := .aborted }
  | handle {s : State A T H U σ} {rec : NotificationRec A} {msg : Message (Body A T U)}
      {mqlist : List (NotificationRec A)} {h : H} :
      s.worker = .call rec msg mqlist → s.handler[rec.qid]? = some (some (.client h)) →
      Step mqControl s (.handle rec.qid h msg) { s with worker := .inHandler rec mqlist }
  /-- `std::bad_function_call` is caught like any exception. -/
  | badCall {s : State A T H U σ} {rec : NotificationRec A} {msg : Message (Body A T U)}
      {mqlist : List (NotificationRec A)} :
      s.worker = .call rec msg mqlist → s.handler[rec.qid]?.join = none →
      Step mqControl s (.badCall rec.qid) { s with worker := .notes mqlist }
  | returned {s : State A T H U σ} {rec : NotificationRec A}
      {mqlist : List (NotificationRec A)} (o : Outcome) :
      s.worker = .inHandler rec mqlist →
      Step mqControl s (.returned o) { s with worker := afterHandler rec mqlist o }
  | pause {s : State A T H U σ} : s.worker = .pausing →
      Step mqControl s .pause
        { s with semPause := Semaphore.post s.semPause, worker := .parked }
  | resume {s : State A T H U σ} {v : σ} :
      s.worker = .parked → Semaphore.wait s.semResume = some v →
      Step mqControl s .resume { s with semResume := v, worker := .start }
  -- `allocate_queue`, without a handler and with one
  | refuse {s : State A T H U σ} {t : T} : s.client t = .idle → Step mqControl s (.refuse t) s
  | allocate {s : State A T H U σ} {t : T} {h : H} {mq : A} {m : PoolMemory A T U} :
      s.client t = .idle → firstFree s.handler < s.handler.length →
      s.memory.construct mq (firstFree s.handler) = some m →
      Step mqControl s (.allocate t h mq (firstFree s.handler))
        { s.goto t (.adding mq) with
          memory := m
          handler := s.handler.set (firstFree s.handler) (some (.client h))
          pooled := Function.update s.pooled mq true }
  /-- `assert (qid < _handler.size ())` fails. -/
  | overflow {s : State A T H U σ} {t : T} :
      s.client t = .idle → ¬ firstFree s.handler < s.handler.length →
      Step mqControl s (.overflow t (firstFree s.handler)) (s.goto t .aborted)
  | add {s : State A T H U σ} {t : T} {mq : A} {st : ExitStatus} {m : PoolMemory A T U} :
      s.client t = .adding mq →
      s.memory.enqueue mqControl addQueueMessageId (.add mq t) = some (st, m) →
      Step mqControl s (.add t mq)
        { s.goto t (if st = .success then .added mq else .checking mq) with
          memory := m
          sem := Function.update s.sem t Semaphore.initial }
  | allocated {s : State A T H U σ} {t : T} {mq : A} {v : σ} :
      s.client t = .added mq → Semaphore.wait (s.sem t) = some v →
      Step mqControl s (.allocated t mq)
        { s.goto t .idle with
          sem := Function.update s.sem t v
          held := Function.update s.held mq true }
  -- `mq_deleter`
  | delete {s : State A T H U σ} {t : T} {mq : A} : s.client t = .idle → s.held mq = true →
      Step mqControl s (.delete t mq)
        { s.goto t (.checking mq) with held := Function.update s.held mq false }
  | check {s : State A T H U σ} {t : T} {mq : A} : s.client t = .checking mq →
      Step mqControl s (.check t mq (registered s.handler (s.memory.qid mq)))
        (s.goto t (if registered s.handler (s.memory.qid mq) then .removing mq
          else .freeing mq))
  | remove {s : State A T H U σ} {t : T} {mq : A} {st : ExitStatus} {m : PoolMemory A T U} :
      s.client t = .removing mq →
      s.memory.enqueue mqControl removeQueueMessageId (.remove mq t) = some (st, m) →
      Step mqControl s (.remove t mq)
        { s.goto t (.removed mq) with
          memory := m
          sem := Function.update s.sem t Semaphore.initial }
  | removed {s : State A T H U σ} {t : T} {mq : A} {v : σ} :
      s.client t = .removed mq → Semaphore.wait (s.sem t) = some v →
      Step mqControl s (.removed t mq)
        { s.goto t (.freeing mq) with sem := Function.update s.sem t v }
  | free {s : State A T H U σ} {t : T} {mq : A} : s.client t = .freeing mq →
      Step mqControl s (.free t mq)
        { s.goto t .idle with memory := s.memory.touch (.destroy mq) }
  -- `is_poll_idle`
  | isPollIdle {s : State A T H U σ} {t : T} {st : ExitStatus} {m : PoolMemory A T U} :
      s.client t = .idle →
      s.memory.enqueue mqControl pollPauseMessageId .base = some (st, m) →
      Step mqControl s (.isPollIdle t) { s.goto t .pausing with memory := m }
  | paused {s : State A T H U σ} {t : T} {v : σ} :
      s.client t = .pausing → Semaphore.wait s.semPause = some v →
      Step mqControl s (.paused t) { s.goto t .start with semPause := v }
  | beginClient {s : State A T H U σ} {t : T} : s.client t = .start →
      Step mqControl s (.begin (.client t))
        { s.goto t (.poll (.attach [] s.mqs)) with memory := reset (.client t) s.memory }
  | pollClient {s : State A T H U σ} {t : T} {p p' : PollPc A} {m : PoolMemory A T U} :
      s.client t = .poll p → PollStep (.client t) s.memory p m p' →
      Step mqControl s (.poll (.client t)) { s.goto t (.poll p') with memory := m }
  | polled {s : State A T H U σ} {t : T} {result : List (NotificationRec A)} :
      s.client t = .poll (.detach [] result) →
      Step mqControl s (.polled t) (s.goto t (.polled result.isEmpty))
  | answer {s : State A T H U σ} {t : T} {idleStatus : Bool} :
      s.client t = .polled idleStatus →
      Step mqControl s (.answer t idleStatus)
        { s.goto t .idle with semResume := Semaphore.post s.semResume }
  -- the destructor, which then joins the worker
  | terminate {s : State A T H U σ} {st : ExitStatus} {m : PoolMemory A T U} :
      s.memory.enqueue mqControl terminateMessageId .base = some (st, m) →
      Step mqControl s .terminate { s with memory := m }
  -- other threads
  | op {s : State A T H U σ} {m : PoolMemory A T U} (o : Op A (Body A T U) (Party T))
      {reply : Op.Reply (Body A T U)} : o.run s.memory = some (reply, m) →
      Step mqControl s (.op o reply) { s with memory := m }

/-- `message_queue_pool (capacity)`. -/
def State.initial (mqControl : A) (capacity : ℕ) : State A T H U σ where
  memory :=
    { object := fun a =>
        if a = mqControl then .alive ⟨controlMessageQueueId, [], none⟩ else .unborn
      notifications := fun _ => [] }
  handler := some .control :: List.replicate capacity none
  mqs := [mqControl]
  semPause := Semaphore.initial
  semResume := Semaphore.initial
  sem _ := Semaphore.initial
  worker := .start
  client _ := .idle
  held _ := false
  pooled _ := false

/-- A pool, its worker and the threads. -/
def system (mqControl : A) (capacity : ℕ) :
    Transition.System (State A T H U σ) (Label A T H U) where
  init s := s = .initial mqControl capacity
  step := Step mqControl

end Steps

end Mqmx.Pool

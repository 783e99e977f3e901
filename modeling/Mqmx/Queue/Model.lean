import Mathlib.Data.Nat.Notation
import Mathlib.Logic.Function.Basic
import Mqmx.Types

/-!
# Message queues and their listeners

`message.h`, `message_queue.h` and `.cpp`, and the listener of `message_queue_poll.h`
and `.cpp`.  Queues are objects in a memory, since what a queue tells its listener
includes its own address, and a queue can be gone.  The objects are named by `A`, the
listeners by `L`; a name is never used for a second object, so `dead` is for ever.

Each member function is a function on the memory, run under the mutex of the queue.
It is `none` where the queue it is called on is not alive.

`listener` is an interface, and all that a queue does to its listener is to call `notify`; what
that does is left open (`Notifies`).  A notification is delivered within the function that causes
it.  In a `Memory` all listeners are those of polls.
-/

namespace Mqmx

variable {A β L : Type}

/-- `message::undefined_qid`, `static_cast<size_t> (-1)`. -/
def undefinedQid : ℕ := Nat.pow 2 64 - 1

/-- `message`, with what a derived class adds in `body`. -/
structure Message (β : Type) where
  qid : ℕ
  mid : ℕ
  body : β
  deriving DecidableEq

/-! ### Notifications -/

/-- `notification_flags_type`. -/
abbrev Flags := BitVec 64

namespace Flag

def data : Flags := 0x0001
def detached : Flags := 0x0002
def closed : Flags := 0x0004

end Flag

/-- `flags & flag`, as a condition. -/
def Flags.has (flags flag : Flags) : Bool := flags &&& flag ≠ 0

/-- `notification_rec_type`. -/
structure NotificationRec (A : Type) where
  qid : ℕ
  mq : Option A
  flags : Flags
  deriving DecidableEq

/-- `message_queue_poll_listener::notify`.  On a list in order `before` ends where
`std::upper_bound` points to. -/
def notify (qid : ℕ) (mq : Option A) (flag : Flags) (notifications : List (NotificationRec A)) :
    List (NotificationRec A) :=
  let before := notifications.takeWhile fun r => r.qid ≤ qid
  let after := notifications.dropWhile fun r => r.qid ≤ qid
  match before.getLast? with
  | some prev =>
    if prev.qid = qid then before.dropLast ++ { prev with flags := prev.flags ||| flag } :: after
    else before ++ ⟨qid, mq, flag⟩ :: after
  | none => ⟨qid, mq, flag⟩ :: after

/-! ### The memory -/

/-- The members of `message_queue`. -/
structure MessageQueue (β L : Type) where
  id : ℕ
  queue : List (Message β)
  listener : Option L
  deriving DecidableEq

inductive Object (β L : Type)
  | unborn
  | alive (q : MessageQueue β L)
  | dead
  deriving DecidableEq

/-- The queue, while it is alive. -/
def Object.queue? : Object β L → Option (MessageQueue β L)
  | .alive q => some q
  | _ => none

/-- Queues, and listeners of some kind: `notify` is `_listener->notify (..)`, where there is a
listener. -/
class Notifies (M : Type) (A β L : outParam Type) where
  object : M → A → Object β L
  write : A → MessageQueue β L → M → M
  free : A → M → M
  notify : Option L → ℕ → Option A → Flags → M → M

/-! ### Member functions of a queue -/

namespace MessageQueue

open Notifies (object write free)

variable {M : Type} [Notifies M A β L]

/-- `message_queue (ID)`. -/
def construct (a : A) (id : ℕ) (m : M) : Option M :=
  match object m a with
  | .unborn => some (write a ⟨id, [], none⟩ m)
  | _ => none

/-- `message_queue (message_queue && o)`. -/
def moveConstruct (a o : A) (m : M) : Option M :=
  match object m a, object m o with
  | .unborn, .alive q =>
    some (Notifies.notify q.listener q.id (some o) Flag.detached
      (write o ⟨undefinedQid, [], none⟩ (write a ⟨q.id, q.queue, none⟩ m)))
  | _, _ => none

/-- `operator = (message_queue && o)`. -/
def moveAssign [DecidableEq A] (a o : A) (m : M) : Option M :=
  match object m a, object m o with
  | .alive p, .alive q =>
    if a = o then some m
    else
      some (Notifies.notify q.listener q.id (some o) Flag.detached
        (write o ⟨undefinedQid, [], none⟩ (write a ⟨q.id, q.queue, none⟩
          (Notifies.notify p.listener p.id (some a) Flag.detached m))))
  | _, _ => none

/-- `~message_queue ()`. -/
def destroy (a : A) (m : M) : Option M :=
  (object m a).queue?.map fun q => free a (Notifies.notify q.listener q.id none Flag.closed m)

/-- `push`, with what is left in the pointer of the caller. -/
def push (a : A) (msg : Option (Message β)) (m : M) :
    Option (ExitStatus × Option (Message β) × M) :=
  (object m a).queue?.map fun q =>
    match msg with
    | none => (.invalidArgument, msg, m)
    | some x =>
      if q.id = undefinedQid ∨ q.id ≠ x.qid then (.notSupported, msg, m)
      else
        let m' := write a { q with queue := q.queue ++ [x] } m
        -- only the first message is reported
        (.success, none, if (q.queue ++ [x]).length = 1
          then Notifies.notify q.listener q.id (some a) Flag.data m' else m')

def pop (a : A) (m : M) : Option (Option (Message β) × M) :=
  (object m a).queue?.map fun q =>
    match q.queue with
    | [] => (none, m)
    | msg :: rest =>
      if q.id = undefinedQid then (none, m)
      else (some msg, write a { q with queue := rest } m)

def setListener (a : A) (l : L) (m : M) : Option (ExitStatus × M) :=
  (object m a).queue?.map fun q =>
    match q.listener with
    | some _ => (.alreadyExist, m)
    | none =>
      let m' := write a { q with listener := some l } m
      (.success, if q.queue ≠ [] then Notifies.notify (some l) q.id (some a) Flag.data m' else m')

def clearListener (a : A) (m : M) : Option M :=
  (object m a).queue?.map fun q => write a { q with listener := none } m

/-- `new_message`. -/
def newMessage (a : A) (mid : ℕ) (body : β) (m : M) : Option (Message β) :=
  (object m a).queue?.map fun q => ⟨q.id, mid, body⟩

/-- `enqueue`, where the id of the queue does not change before `push` takes the mutex. -/
def enqueue (a : A) (mid : ℕ) (body : β) (m : M) : Option (ExitStatus × M) :=
  (newMessage a mid body m).bind fun msg => (push a (some msg) m).map fun r => (r.1, r.2.2)

end MessageQueue

/-! ### Operations of a thread -/

/-- What a thread can do to a queue. -/
inductive Op (A β L : Type)
  | construct (a : A) (id : ℕ)
  | moveConstruct (a o : A)
  | moveAssign (a o : A)
  | destroy (a : A)
  | push (a : A) (msg : Option (Message β))
  | pop (a : A)
  | setListener (a : A) (l : L)
  | clearListener (a : A)

/-- What it gets back.  `left` is what `push` has left in the pointer of the caller. -/
inductive Op.Reply (β : Type)
  | done
  | pushed (status : ExitStatus) (left : Option (Message β))
  | status (status : ExitStatus)
  | message (msg : Option (Message β))

def Op.exec [DecidableEq A] {M : Type} [Notifies M A β L] (m : M) :
    Op A β L → Option (Op.Reply β × M)
  | .construct a id => (MessageQueue.construct a id m).map (.done, ·)
  | .moveConstruct a o => (MessageQueue.moveConstruct a o m).map (.done, ·)
  | .moveAssign a o => (MessageQueue.moveAssign a o m).map (.done, ·)
  | .destroy a => (MessageQueue.destroy a m).map (.done, ·)
  | .push a msg => (MessageQueue.push a msg m).map fun r => (.pushed r.1 r.2.1, r.2.2)
  | .pop a => (MessageQueue.pop a m).map fun r => (.message r.1, r.2)
  | .setListener a l => (MessageQueue.setListener a l m).map fun r => (.status r.1, r.2)
  | .clearListener a => (MessageQueue.clearListener a m).map (.done, ·)

/-! ### The memory -/

/-- All queues, and the list of notifications of every listener. -/
structure Memory (A β L : Type) where
  object : A → Object β L
  notifications : L → List (NotificationRec A)

namespace Memory

/-- The queue at an address, while it is alive. -/
def queue? (m : Memory A β L) (a : A) : Option (MessageQueue β L) := (m.object a).queue?

/-- `get_qid ()`. -/
def qid (m : Memory A β L) (a : A) : ℕ :=
  match m.object a with
  | .alive q => q.id
  | _ => undefinedQid

/-- The messages in a queue. -/
def messages (m : Memory A β L) (a : A) : List (Message β) :=
  match m.object a with
  | .alive q => q.queue
  | _ => []

variable [DecidableEq A] [DecidableEq L]

def write (a : A) (q : MessageQueue β L) (m : Memory A β L) : Memory A β L :=
  { m with object := Function.update m.object a (.alive q) }

def free (a : A) (m : Memory A β L) : Memory A β L :=
  { m with object := Function.update m.object a .dead }

/-- `notify` of the poll listener. -/
def notify (listener : Option L) (qid : ℕ) (mq : Option A) (flag : Flags) (m : Memory A β L) :
    Memory A β L :=
  match listener with
  | some l =>
    { m with
      notifications :=
        Function.update m.notifications l (Mqmx.notify qid mq flag (m.notifications l)) }
  | none => m

instance : Notifies (Memory A β L) A β L where
  object := object
  write := write
  free := free
  notify := notify

def construct (a : A) (id : ℕ) (m : Memory A β L) : Option (Memory A β L) :=
  MessageQueue.construct a id m

def moveConstruct (a o : A) (m : Memory A β L) : Option (Memory A β L) :=
  MessageQueue.moveConstruct a o m

def moveAssign (a o : A) (m : Memory A β L) : Option (Memory A β L) :=
  MessageQueue.moveAssign a o m

def destroy (a : A) (m : Memory A β L) : Option (Memory A β L) := MessageQueue.destroy a m

def push (a : A) (msg : Option (Message β)) (m : Memory A β L) :
    Option (ExitStatus × Option (Message β) × Memory A β L) :=
  MessageQueue.push a msg m

def pop (a : A) (m : Memory A β L) : Option (Option (Message β) × Memory A β L) :=
  MessageQueue.pop a m

def setListener (a : A) (l : L) (m : Memory A β L) : Option (ExitStatus × Memory A β L) :=
  MessageQueue.setListener a l m

def clearListener (a : A) (m : Memory A β L) : Option (Memory A β L) :=
  MessageQueue.clearListener a m

def enqueue (a : A) (mid : ℕ) (body : β) (m : Memory A β L) :
    Option (ExitStatus × Memory A β L) :=
  MessageQueue.enqueue a mid body m

end Memory

def Op.run [DecidableEq A] [DecidableEq L] (m : Memory A β L) (o : Op A β L) :
    Option (Op.Reply β × Memory A β L) :=
  o.exec m

end Mqmx

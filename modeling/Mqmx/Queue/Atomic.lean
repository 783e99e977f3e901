import Mqmx.Base.Critical
import Mqmx.Queue.Locks

/-!
# Queues and listeners that threads share

`push`, `pop`, `set_listener` and `clear_listener` of a queue and `get_notifications` of a
listener, with each mutex they take and each access to a member: `SharedCall.code`.
`linearizable`: each acts at one instant between its start and its return, and what it does there
is the function of `Mqmx.Memory` of its name.  So the polls and the pool may take it as one step.

The queues are there all along.  A constructor and a destructor run where nobody else has the
object.  An assignment can tell two listeners one after the other, and gives back the mutex of the
first in between; it is not atomic.  `get_qid` takes no mutex, and nothing here changes an id.
-/

namespace Mqmx

open Critical (Prog Label threads atomic)
open Transition (Run trace)

variable {A β L : Type}

/-- The members under each mutex. -/
abbrev Guarded (A β L : Type) : Lock A L → Type
  | .queue _ => MessageQueue β L
  | .listener _ => List (NotificationRec A)

inductive SharedCall (A β L : Type)
  | push (a : A) (msg : Option (Message β))
  | pop (a : A)
  | setListener (a : A) (l : L)
  | clearListener (a : A)
  | getNotifications (l : L)

inductive SharedCall.Reply (A β : Type)
  | pushed (st : ExitStatus) (left : Option (Message β))
  | status (st : ExitStatus)
  | message (msg : Option (Message β))
  | done
  | notifications (ns : List (NotificationRec A))

/-- Statements of `message_queue.cpp` and `message_queue_poll.cpp`. -/
abbrev Code (A β L : Type) : Type := Prog (Guarded A β L) (SharedCall.Reply A β)

namespace Code

/-- The guard goes, and the function returns. -/
def leave (k : Lock A L) (r : SharedCall.Reply A β) : Code A β L := .release k (.ret r)

/-- `_listener->notify (..)`, where there is a listener. -/
def notify (listener : Option L) (qid : ℕ) (mq : Option A) (flag : Flags) (p : Code A β L) :
    Code A β L :=
  match listener with
  | some l =>
    .acquire (.listener l) <| .write (.listener l) (Mqmx.notify qid mq flag) <|
      .release (.listener l) p
  | none => p

def push (a : A) : Option (Message β) → Code A β L
  | none => .ret (.pushed .invalidArgument none)
  | some msg =>
    .acquire (.queue a) <| .read (.queue a) fun q =>
      if q.id = undefinedQid ∨ q.id ≠ msg.qid then
        leave (.queue a) (.pushed .notSupported (some msg))
      else
        .write (.queue a) (fun q => { q with queue := q.queue ++ [msg] }) <|
          .read (.queue a) fun q =>
            -- only the first message is reported
            if q.queue.length = 1 then
              notify q.listener q.id (some a) Flag.data (leave (.queue a) (.pushed .success none))
            else leave (.queue a) (.pushed .success none)

def pop (a : A) : Code A β L :=
  .acquire (.queue a) <| .read (.queue a) fun q =>
    match q.queue with
    | [] => leave (.queue a) (.message none)
    | msg :: _ =>
      if q.id = undefinedQid then leave (.queue a) (.message none)
      else
        .write (.queue a) (fun q => { q with queue := q.queue.tail }) <|
          leave (.queue a) (.message (some msg))

def setListener (a : A) (l : L) : Code A β L :=
  .acquire (.queue a) <| .read (.queue a) fun q =>
    match q.listener with
    | some _ => leave (.queue a) (.status .alreadyExist)
    | none =>
      .write (.queue a) (fun q => { q with listener := some l }) <| .read (.queue a) fun q =>
        if q.queue ≠ [] then
          notify (some l) q.id (some a) Flag.data (leave (.queue a) (.status .success))
        else leave (.queue a) (.status .success)

def clearListener (a : A) : Code A β L :=
  .acquire (.queue a) <| .write (.queue a) (fun q => { q with listener := none }) <|
    leave (.queue a) .done

def getNotifications (l : L) : Code A β L :=
  .acquire (.listener l) <| .read (.listener l) fun ns =>
    leave (.listener l) (.notifications ns)

end Code

def SharedCall.code : SharedCall A β L → Code A β L
  | push a msg => Code.push a msg
  | pop a => Code.pop a
  | setListener a l => Code.setListener a l
  | clearListener a => Code.clearListener a
  | getNotifications l => Code.getNotifications l

/-- The memory with these members. -/
def memoryOf (d : ∀ k, Guarded A β L k) : Memory A β L where
  object a := .alive (d (.queue a))
  notifications l := d (.listener l)

variable [DecidableEq A] [DecidableEq L]

/-- What a call does where nobody comes in between. -/
inductive SharedCall.Effect :
    SharedCall A β L → Memory A β L → SharedCall.Reply A β → Memory A β L → Prop
  | push {m m' : Memory A β L} {a : A} {msg left : Option (Message β)} {st : ExitStatus} :
      m.push a msg = some (st, left, m') → Effect (.push a msg) m (.pushed st left) m'
  | pop {m m' : Memory A β L} {a : A} {msg : Option (Message β)} :
      m.pop a = some (msg, m') → Effect (.pop a) m (.message msg) m'
  | setListener {m m' : Memory A β L} {a : A} {l : L} {st : ExitStatus} :
      m.setListener a l = some (st, m') → Effect (.setListener a l) m (.status st) m'
  | clearListener {m m' : Memory A β L} {a : A} :
      m.clearListener a = some m' → Effect (.clearListener a) m .done m'
  | getNotifications {m : Memory A β L} {l : L} :
      Effect (.getNotifications l) m (.notifications (m.notifications l)) m

/-! ### The mutexes -/

section Grows

omit [DecidableEq A] [DecidableEq L]

variable {p : Code A β L}

theorem Code.grows_acquire {k : Lock A L} (hp : p.Grows {k}) : Prog.Grows ∅ (.acquire k p) := by
  refine ⟨Set.notMem_empty k, ?_⟩
  rw [insert_empty_eq]
  exact hp

theorem Code.shrinks_leave (k : Lock A L) (r : SharedCall.Reply A β) :
    (leave k r : Code A β L).Shrinks {k} :=
  ⟨rfl, Set.sdiff_self⟩

theorem Code.grows_notify (a : A) (listener : Option L) (qid : ℕ) (mq : Option A) (flag : Flags)
    (hp : p.Shrinks {.queue a}) : (notify listener qid mq flag p).Grows {.queue a} := by
  cases listener with
  | none => exact hp.grows
  | some l =>
    have hne : (.listener l : Lock A L) ∉ ({.queue a} : Set (Lock A L)) := by simp
    refine ⟨hne, Set.mem_insert _ _, fun _ => ⟨Set.mem_insert _ _, ?_⟩⟩
    rw [Set.insert_sdiff_self_of_notMem hne]
    exact hp

theorem SharedCall.grows (c : SharedCall A β L) : c.code.Grows ∅ := by
  cases c with
  | push a msg =>
    cases msg with
    | none => rfl
    | some msg =>
      refine Code.grows_acquire (.read rfl fun q => ?_)
      split
      · exact (Code.shrinks_leave ..).grows
      · refine .write rfl (.read rfl fun q => ?_)
        split
        · exact Code.grows_notify _ _ _ _ _ (Code.shrinks_leave ..)
        · exact (Code.shrinks_leave ..).grows
  | pop a =>
    refine Code.grows_acquire (.read rfl fun q => ?_)
    split
    · exact (Code.shrinks_leave ..).grows
    · split
      · exact (Code.shrinks_leave ..).grows
      · exact .write rfl (Code.shrinks_leave ..).grows
  | setListener a l =>
    refine Code.grows_acquire (.read rfl fun q => ?_)
    split
    · exact (Code.shrinks_leave ..).grows
    · refine .write rfl (.read rfl fun q => ?_)
      split
      · exact Code.grows_notify _ _ _ _ _ (Code.shrinks_leave ..)
      · exact (Code.shrinks_leave ..).grows
  | clearListener a => exact Code.grows_acquire (.write rfl (Code.shrinks_leave ..).grows)
  | getNotifications l =>
    exact Code.grows_acquire (.read rfl fun _ => (Code.shrinks_leave ..).grows)

end Grows

/-! ### Where nobody comes in between -/

section Alone

variable (d : ∀ k, Guarded A β L k)

omit [DecidableEq A] [DecidableEq L] in
theorem memory_eq_iff {m m' : Memory A β L} :
    (∀ a, m.object a = m'.object a) ∧ (∀ l, m.notifications l = m'.notifications l) ↔ m = m' := by
  cases m
  cases m'
  simp [funext_iff]

theorem memoryOf_update (a : A) (q : MessageQueue β L) :
    memoryOf (Function.update d (.queue a) q) = (memoryOf d).write a q := by
  have hobject : ∀ b, (memoryOf (Function.update d (.queue a) q)).object b =
      ((memoryOf d).write a q).object b := by
    intro b
    by_cases hb : b = a
    · subst hb
      simp [memoryOf]
    · simp [memoryOf, hb]
  have hnotifications : ∀ l, (memoryOf (Function.update d (.queue a) q)).notifications l =
      (memoryOf d).notifications l := by
    intro l
    simp [memoryOf]
  exact memory_eq_iff.mp ⟨hobject, hnotifications⟩

omit [DecidableEq A] [DecidableEq L] in
theorem object_memoryOf (a : A) : (memoryOf d).object a = .alive (d (.queue a)) := rfl

omit [DecidableEq A] [DecidableEq L] in
theorem Code.run_leave [DecidableEq (Lock A L)] (k : Lock A L) (r : SharedCall.Reply A β) :
    (leave k r).run d = (r, d) := rfl

theorem Code.run_notify (listener : Option L) (qid : ℕ) (mq : Option A) (flag : Flags)
    (k : Lock A L) (r : SharedCall.Reply A β) :
    ((notify listener qid mq flag (leave k r)).run d).1 = r ∧
      memoryOf ((notify listener qid mq flag (leave k r)).run d).2 =
        (memoryOf d).notify listener qid mq flag := by
  cases listener with
  | none => exact ⟨rfl, rfl⟩
  | some l =>
    refine ⟨rfl, ?_⟩
    show memoryOf (Function.update d (.listener l) _) = _
    refine memory_eq_iff.mp ⟨fun a => ?_, fun k => ?_⟩
    · simp [memoryOf]
    · rw [Memory.notifications_notify]
      by_cases hk : k = l
      · subst hk
        simp [memoryOf]
      · simp [memoryOf, hk]

/-- **Where nobody comes in between the code does what the model says.** -/
theorem SharedCall.effect (c : SharedCall A β L) :
    c.Effect (memoryOf d) (c.code.run d).1 (memoryOf (c.code.run d).2) := by
  cases c with
  | push a msg =>
    cases msg with
    | none => exact .push rfl
    | some msg =>
      simp only [code, Code.push, Prog.run_acquire, Prog.run_read]
      by_cases h : (d (.queue a)).id = undefinedQid ∨ (d (.queue a)).id ≠ msg.qid
      · rw [if_pos h]
        apply Effect.push
        simp only [Memory.push, MessageQueue.push, Memory.notifies_object, object_memoryOf,
          Object.queue?, Option.map_some, if_pos h, Code.run_leave]
      · rw [if_neg h]
        simp only [Prog.run_write, Prog.run_read, Function.update_self]
        by_cases hlen : ((d (.queue a)).queue ++ [msg]).length = 1
        · rw [if_pos hlen, (Code.run_notify ..).1, (Code.run_notify ..).2, memoryOf_update]
          apply Effect.push
          simp only [Memory.push, MessageQueue.push, Memory.notifies_object, object_memoryOf,
            Object.queue?, Option.map_some, if_neg h, if_pos hlen, Memory.notifies_write,
            Memory.notifies_notify]
        · rw [if_neg hlen, Code.run_leave, memoryOf_update]
          apply Effect.push
          simp only [Memory.push, MessageQueue.push, Memory.notifies_object, object_memoryOf,
            Object.queue?, Option.map_some, if_neg h, if_neg hlen, Memory.notifies_write]
  | pop a =>
    simp only [code, Code.pop, Prog.run_acquire, Prog.run_read]
    cases hq : (d (.queue a)).queue with
    | nil =>
      apply Effect.pop
      simp only [Memory.pop, MessageQueue.pop, Memory.notifies_object, object_memoryOf,
        Object.queue?, Option.map_some, hq, Code.run_leave]
    | cons msg rest =>
      by_cases h : (d (.queue a)).id = undefinedQid
      · simp only [if_pos h]
        apply Effect.pop
        simp only [Memory.pop, MessageQueue.pop, Memory.notifies_object, object_memoryOf,
          Object.queue?, Option.map_some, hq, if_pos h, Code.run_leave]
      · simp only [if_neg h, Prog.run_write, Code.run_leave, memoryOf_update]
        apply Effect.pop
        simp only [Memory.pop, MessageQueue.pop, Memory.notifies_object, object_memoryOf,
          Object.queue?, Option.map_some, hq, if_neg h, List.tail_cons, Memory.notifies_write]
  | setListener a l =>
    simp only [code, Code.setListener, Prog.run_acquire, Prog.run_read]
    cases hl : (d (.queue a)).listener with
    | some k =>
      apply Effect.setListener
      simp only [Memory.setListener, MessageQueue.setListener, Memory.notifies_object,
        object_memoryOf, Object.queue?, Option.map_some, hl, Code.run_leave]
    | none =>
      simp only [Prog.run_write, Prog.run_read, Function.update_self]
      by_cases hq : (d (.queue a)).queue ≠ []
      · rw [if_pos hq, (Code.run_notify ..).1, (Code.run_notify ..).2, memoryOf_update]
        apply Effect.setListener
        simp only [Memory.setListener, MessageQueue.setListener, Memory.notifies_object,
          object_memoryOf, Object.queue?, Option.map_some, hl, if_pos hq, Memory.notifies_write,
          Memory.notifies_notify]
      · rw [if_neg hq, Code.run_leave, memoryOf_update]
        apply Effect.setListener
        simp only [Memory.setListener, MessageQueue.setListener, Memory.notifies_object,
          object_memoryOf, Object.queue?, Option.map_some, hl, if_neg hq, Memory.notifies_write]
  | clearListener a =>
    simp only [code, Code.clearListener, Prog.run_acquire, Prog.run_write, Code.run_leave,
      memoryOf_update]
    exact .clearListener rfl
  | getNotifications l =>
    simp only [code, Code.getNotifications, Prog.run_acquire, Prog.run_read]
    exact .getNotifications

end Alone

/-- **Linearizability.**  Whatever threads see of the queues and listeners they share, they could
also see if each call acted at one instant. -/
theorem linearizable {ι : Type} [DecidableEq ι] (d : ∀ k, Guarded A β L k)
    {l : List (Label ι (SharedCall A β L) (SharedCall.Reply A β))}
    {s : Critical.State ι (Guarded A β L) (SharedCall.Reply A β)}
    (h : Run (threads ι SharedCall.code d) ⟨d, fun _ => none, fun _ => none⟩ l s) :
    ∃ o m, Run (atomic ι SharedCall.Effect (memoryOf d)) ⟨memoryOf d, fun _ => .idle⟩ m o ∧
      trace Label.event? m = trace Label.event? l ∧
      ((∀ k, s.owner k = none) → o.data = memoryOf s.data) :=
  Critical.refines (fun c d => c.effect d) SharedCall.grows d h

/-- One queue, with a listener. -/
def oneQueue : ∀ k, Guarded Unit Unit Unit k
  | .queue _ => ⟨0, [], some ()⟩
  | .listener _ => []

/-- A push that has the mutex of the queue, and another thread that asks the listener before the
push tells it. -/
theorem linearizable_pushUnseen :
    ∃ o m, Run (atomic Bool SharedCall.Effect (memoryOf oneQueue))
        ⟨memoryOf oneQueue, fun _ => .idle⟩ m o ∧
      trace Label.event? m =
        [(true, .inl (.push () (some ⟨0, 0, ()⟩))), (false, .inl (.getNotifications ())),
          (false, .inr (.notifications [])), (true, .inr (.pushed .success none))] := by
  have hrun : ∃ s, Run (threads Bool SharedCall.code oneQueue)
      ⟨oneQueue, fun _ => none, fun _ => none⟩
      [.call true (.push () (some ⟨0, 0, ()⟩)), .work true, .work true,
        .call false (.getNotifications ()), .work false, .work true, .work true, .work false,
        .work false, .work true, .work true, .ret false (.notifications []), .work true,
        .work true, .ret true (.pushed .success none)] s :=
    ⟨_, .cons (.call _ rfl) <| .cons (.acquire rfl rfl) <| .cons (.access rfl) <|
      .cons (.call _ rfl) <| .cons (.acquire rfl rfl) <| .cons (.access rfl) <|
      .cons (.access rfl) <| .cons (.access rfl) <| .cons (.release rfl) <|
      .cons (.acquire rfl rfl) <| .cons (.access rfl) <| .cons (.ret rfl) <|
      .cons (.release rfl) <| .cons (.release rfl) <| .single (.ret rfl)⟩
  obtain ⟨s, hrun⟩ := hrun
  obtain ⟨o, m, hm, htrace, -⟩ := linearizable oneQueue hrun
  exact ⟨o, m, hm, htrace⟩

end Mqmx

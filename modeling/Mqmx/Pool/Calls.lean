import Mqmx.Pool.Model

/-!
# What a step does to the queues

A step calls one member function of one queue (`Calls`), or starts a poll with a new
listener, or leaves the memory alone: `Step.memory`.  The requests that wait for the
worker are in the control queue or in its hands, `State.requests`.
-/

namespace Mqmx.Pool

variable {A T H U σ : Type}

/-- The call a step makes on a queue. -/
inductive Calls (mqControl : A) : Label A T H U → Op A (Body A T U) (Party T) → Prop
  | attach (l : Party T) (a : A) : Calls mqControl (.poll l) (.setListener a l)
  | detach (l : Party T) (a : A) : Calls mqControl (.poll l) (.clearListener a)
  | pop {rec : NotificationRec A} {a : A} : rec.mq = some a →
      Calls mqControl (.pop rec) (.pop a)
  | construct (t : T) (h : H) (mq : A) (slot : ℕ) :
      Calls mqControl (.allocate t h mq slot) (.construct mq slot)
  | add (t : T) (mq : A) (qid : ℕ) :
      Calls mqControl (.add t mq)
        (.push mqControl (some ⟨qid, addQueueMessageId, .add mq t⟩))
  | remove (t : T) (mq : A) (qid : ℕ) :
      Calls mqControl (.remove t mq)
        (.push mqControl (some ⟨qid, removeQueueMessageId, .remove mq t⟩))
  | isPollIdle (t : T) (qid : ℕ) :
      Calls mqControl (.isPollIdle t) (.push mqControl (some ⟨qid, pollPauseMessageId, .base⟩))
  | terminate (qid : ℕ) :
      Calls mqControl .terminate (.push mqControl (some ⟨qid, terminateMessageId, .base⟩))
  | destroy (t : T) (mq : A) : Calls mqControl (.free t mq) (.destroy mq)
  | op (o : Op A (Body A T U) (Party T)) (r : Op.Reply (Body A T U)) :
      Calls mqControl (.op o r) o

section Memory

variable [DecidableEq A] [DecidableEq T]

theorem pop_effect {m m' : PoolMemory A T U} {a : A} {msg : Option (Message (Body A T U))}
    (h : m.pop a = some (msg, m')) : Memory.Effect m (.pop a) (.message msg) m' :=
  Memory.run_effect (Option.map_eq_some_iff.mpr ⟨_, h, rfl⟩)

theorem construct_effect {m m' : PoolMemory A T U} {a : A} {id : ℕ}
    (h : m.construct a id = some m') : Memory.Effect m (.construct a id) .done m' :=
  Memory.run_effect (Option.map_eq_some_iff.mpr ⟨_, h, rfl⟩)

theorem PollStep.memory {l : Party T} {m m' : PoolMemory A T U} {p p' : PollPc A}
    (h : PollStep l m p m' p') :
    m' = m ∨ ∃ a r, Memory.Effect m (.setListener a l) r m' ∨
      Memory.Effect m (.clearListener a) r m' := by
  cases h with
  | @attach a =>
    rcases Memory.touch_cases (.setListener a l) m with ⟨-, e⟩ | ⟨r, e⟩
    · exact .inl e
    · exact .inr ⟨a, r, .inl e⟩
  | @detach a =>
    rcases Memory.touch_cases (.clearListener a) m with ⟨-, e⟩ | ⟨r, e⟩
    · exact .inl e
    · exact .inr ⟨a, r, .inr e⟩
  | _ => exact .inl rfl

theorem PollStep.messages {l : Party T} {m m' : PoolMemory A T U} {p p' : PollPc A}
    (h : PollStep l m p m' p') (a : A) : m'.messages a = m.messages a := by
  rcases h.memory with e | ⟨b, r, e | e⟩
  · rw [e]
  · exact e.messages_setListener a
  · exact e.messages_clearListener a

variable [Semaphore σ]

/-- **A step makes its one call, or starts a poll, or leaves the memory alone.** -/
theorem Step.memory {mqControl : A} {s t : State A T H U σ} {x : Label A T H U}
    (h : Step mqControl s x t) :
    t.memory = s.memory ∨ (∃ l, x = .begin l ∧ t.memory = reset l s.memory) ∨
      ∃ o r, Calls mqControl x o ∧ Memory.Effect s.memory o r t.memory := by
  have poll : ∀ {l : Party T} {p p' : PollPc A} {m' : PoolMemory A T U},
      PollStep l s.memory p m' p' → m' = s.memory ∨
        ∃ o r, Calls mqControl (.poll l : Label A T H U) o ∧ Memory.Effect s.memory o r m' := by
    intro l p p' m' hp
    rcases hp.memory with e | ⟨a, r, e | e⟩
    · exact .inl e
    · exact .inr ⟨_, r, .attach l a, e⟩
    · exact .inr ⟨_, r, .detach l a, e⟩
  cases h with
  | begin | beginClient => exact .inr (.inl ⟨_, rfl, rfl⟩)
  | poll _ hp | pollClient _ hp =>
    rcases poll hp with e | e
    · exact .inl e
    · exact .inr (.inr e)
  | pop _ hm hp => exact .inr (.inr ⟨_, _, .pop hm, pop_effect hp⟩)
  | allocate _ _ hm => exact .inr (.inr ⟨_, _, .construct .., construct_effect hm⟩)
  | add _ hm =>
    obtain ⟨left, e⟩ := Memory.enqueue_effect hm
    exact .inr (.inr ⟨_, _, .add .., e⟩)
  | remove _ hm =>
    obtain ⟨left, e⟩ := Memory.enqueue_effect hm
    exact .inr (.inr ⟨_, _, .remove .., e⟩)
  | isPollIdle _ hm =>
    obtain ⟨left, e⟩ := Memory.enqueue_effect hm
    exact .inr (.inr ⟨_, _, .isPollIdle .., e⟩)
  | terminate hm =>
    obtain ⟨left, e⟩ := Memory.enqueue_effect hm
    exact .inr (.inr ⟨_, _, .terminate _, e⟩)
  | @free t mq _ =>
    rcases Memory.touch_cases (.destroy mq) s.memory with ⟨-, e⟩ | ⟨r, e⟩
    · exact .inl e
    · exact .inr (.inr ⟨_, r, .destroy t mq, e⟩)
  | op o hm => exact .inr (.inr ⟨o, _, .op o _, Memory.run_effect hm⟩)
  | _ => exact .inl rfl

end Memory

/-! ### Requests -/

/-- An `add_queue_message` or a `remove_queue_message`. -/
inductive Request (A T : Type)
  | add (mq : A) (sem : T)
  | remove (mq : A) (sem : T)
  deriving DecidableEq

/-- Whose semaphore it has. -/
def Request.sem : Request A T → T
  | .add _ sem => sem
  | .remove _ sem => sem

/-- Where its sender waits. -/
def Request.pc : Request A T → ClientPc A
  | .add mq _ => .added mq
  | .remove mq _ => .removed mq

def request? (msg : Message (Body A T U)) : Option (Request A T) :=
  match msg.body with
  | .add mq sem => some (.add mq sem)
  | .remove mq sem => some (.remove mq sem)
  | _ => none

def WorkerPc.hand : WorkerPc A T U → List (Message (Body A T U))
  | .call _ msg _ => [msg]
  | _ => []

def State.requests (mqControl : A) (s : State A T H U σ) : List (Request A T) :=
  (s.worker.hand ++ s.memory.messages mqControl).filterMap request?

/-- The queue a thread is at. -/
def ClientPc.queue? : ClientPc A → Option A
  | .adding mq => some mq
  | .added mq => some mq
  | .checking mq => some mq
  | .removing mq => some mq
  | .removed mq => some mq
  | .freeing mq => some mq
  | _ => none

/-- **Where the worker goes from a record**: on to the next one; or to its queue, where the
record does not call that gone; or nowhere. -/
theorem examine_cases (handler : List (Option (Handler H))) (rec : NotificationRec A)
    (mqlist : List (NotificationRec A)) :
    (examine handler rec mqlist : WorkerPc A T U) = .notes mqlist ∨
    (rec.flags.has (Flag.closed ||| Flag.detached) = false ∧
      (examine handler rec mqlist : WorkerPc A T U) = .handle rec mqlist) ∨
    (examine handler rec mqlist : WorkerPc A T U) = .aborted := by
  unfold examine
  split
  · exact .inl rfl
  · rename_i hgone
    split
    · split
      · exact .inr (.inl ⟨by simpa using hgone, rfl⟩)
      · exact .inr (.inr rfl)
    · exact .inl rfl

theorem afterHandler_cases (rec : NotificationRec A) (mqlist : List (NotificationRec A))
    (o : Outcome) :
    (afterHandler rec mqlist o : WorkerPc A T U) = .handle rec mqlist ∨
      (afterHandler rec mqlist o : WorkerPc A T U) = .notes mqlist := by
  unfold afterHandler
  split
  · split
    · exact .inl rfl
    · exact .inr rfl
  · exact .inr rfl

@[simp] theorem examine_hand (handler : List (Option (Handler H))) (rec : NotificationRec A)
    (mqlist : List (NotificationRec A)) :
    (examine handler rec mqlist : WorkerPc A T U).hand = [] := by
  rcases examine_cases handler rec mqlist with e | ⟨-, e⟩ | e <;> rw [e] <;> rfl

@[simp] theorem afterHandler_hand (rec : NotificationRec A) (mqlist : List (NotificationRec A))
    (o : Outcome) : (afterHandler rec mqlist o : WorkerPc A T U).hand = [] := by
  rcases afterHandler_cases rec mqlist o with e | e <;> rw [e] <;> rfl

@[simp] theorem afterControl_hand (rec : NotificationRec A) (mqlist : List (NotificationRec A))
    (st : ExitStatus) : (afterControl rec mqlist st : WorkerPc A T U).hand = [] := by
  cases st <;> rfl

end Mqmx.Pool

import Mqmx.Pool.Delivery

/-!
# What the pool is asked, and answers

The control messages that wait for the worker are in the control queue and in its hands:
`State.commands`.  A step appends one, or serves the first, or leaves them alone
(`Commands.traffic`); the worker never aborts over one, since the queue that is to be taken in
has an id of its own.

* `Answered.waits`: who waits for a request has it on its way, or its semaphore is up.
* `Answered.callers`: the callers of `is_poll_idle` that wait are as many as there are requests
  on their way to a pause, and posts of `_sem_pause`.
* `served_run`: each request is answered once.
-/

namespace Mqmx.Pool

open Transition (System Run)

variable {A T H U σ : Type}

/-! ### Commands -/

/-- The messages of the control queue. -/
inductive Command : Message (Body A T U) → Prop
  | terminate (qid : ℕ) : Command ⟨qid, terminateMessageId, .base⟩
  | pause (qid : ℕ) : Command ⟨qid, pollPauseMessageId, .base⟩
  | add (qid : ℕ) (mq : A) (sem : T) : Command ⟨qid, addQueueMessageId, .add mq sem⟩
  | remove (qid : ℕ) (mq : A) (sem : T) : Command ⟨qid, removeQueueMessageId, .remove mq sem⟩

/-- The commands that wait for the worker. -/
def State.commands (mqControl : A) (s : State A T H U σ) : List (Message (Body A T U)) :=
  s.worker.handOf controlMessageQueueId ++ s.memory.messages mqControl

theorem Label.command?_command {x : Label A T H U} {msg : Message (Body A T U)}
    (h : x.command? = some msg) : Command msg := by
  cases x with
  | add | remove | isPollIdle | terminate =>
    cases h
    constructor
  | _ => cases h

/-- The worker has taken the request of a pause, and not posted `_sem_pause`. -/
def WorkerPc.pauses : WorkerPc A T U → ℕ
  | .pausing => 1
  | _ => 0

theorem afterControl_pauses (rec : NotificationRec A) (mqlist : List (NotificationRec A))
    (st : ExitStatus) :
    (afterControl rec mqlist st : WorkerPc A T U).pauses =
      if st = .pauseRequested then 1 else 0 := by
  cases st <;> rfl

theorem examine_pauses (handler : List (Option (Handler H))) (rec : NotificationRec A)
    (mqlist : List (NotificationRec A)) :
    (examine handler rec mqlist : WorkerPc A T U).pauses = 0 := by
  rcases examine_cases handler rec mqlist with e | ⟨-, e⟩ | e <;> rw [e] <;> rfl

theorem afterHandler_pauses (rec : NotificationRec A) (mqlist : List (NotificationRec A))
    (o : Outcome) : (afterHandler rec mqlist o : WorkerPc A T U).pauses = 0 := by
  rcases afterHandler_cases rec mqlist o with e | e <;> rw [e] <;> rfl

def State.pauses (mqControl : A) (s : State A T H U σ) : ℕ :=
  (s.commands mqControl).countP (fun msg => msg.mid = pollPauseMessageId) + s.worker.pauses

variable [DecidableEq A] [DecidableEq T] [Semaphore σ]

structure Commands (mqControl : A) (capacity : ℕ) (s : State A T H U σ) : Prop where
  listening : Listening mqControl capacity s
  command : ∀ msg ∈ s.commands mqControl, Command msg
  /-- A client's message is no request. -/
  plain : ∀ rec msg mqlist, s.worker = .call rec msg mqlist →
    rec.qid ≠ controlMessageQueueId → request? msg = none

variable {mqControl : A} {capacity : ℕ} {s t : State A T H U σ} {x : Label A T H U}

omit [DecidableEq A] [DecidableEq T] in
theorem Slots.control_iff (h : Slots mqControl capacity s) {k : ℕ} :
    s.handler[k]? = some (some .control) ↔ k = controlMessageQueueId := by
  constructor
  · intro hk
    by_contra hne
    have hne : k ≠ 0 := hne
    exact h.client k (by omega) hk
  · rintro rfl
    exact h.control

omit [DecidableEq A] in
theorem Commands.requests (h : Commands mqControl capacity s) :
    s.requests mqControl = (s.commands mqControl).filterMap request? := by
  unfold State.requests State.commands
  rw [List.filterMap_append, List.filterMap_append]
  congr 1
  cases hw : s.worker with
  | call rec msg mqlist =>
    by_cases hk : rec.qid = controlMessageQueueId
    · rw [WorkerPc.hand, WorkerPc.handOf, if_pos hk]
    · simp [WorkerPc.hand, WorkerPc.handOf, hk, h.plain rec msg mqlist hw hk]
  | _ => rfl

omit [DecidableEq A] [DecidableEq T] in
theorem Slots.insertQueue (h : Slots mqControl capacity s) {a : A} {u : T}
    (hr : Request.add a u ∈ s.requests mqControl) :
    ∃ mqs, insertQueue s.memory s.mqs a = some mqs := by
  have hled := h.registry.ledger
  have hu : s.client u = .added a := (hled.waits _ hr).1
  have hq : ((s.ledger mqControl).client u).queue? = some a := by
    show (s.client u).queue? = some a
    rw [hu]
    rfl
  obtain ⟨q, hq'⟩ := h.registry.alive a (.inr ⟨u, hq⟩)
  have hpool : s.pooled a = true := hled.pooled a (.inr (.inr ⟨u, hq⟩))
  have hfresh : a ∉ s.mqs := hled.fresh a u hr
  obtain ⟨rest, hmqs⟩ := List.head?_eq_some_iff.mp hled.head
  have hmqs : s.mqs = mqControl :: rest := hmqs
  have hnodup : (mqControl :: rest).Nodup := hmqs ▸ hled.nodup
  rw [hmqs, Pool.insertQueue]
  rw [if_pos]
  · exact ⟨_, rfl⟩
  intro b hb
  have hnot := List.head?_dropWhile_not (fun b => decide (s.memory.qid b < s.memory.qid a)) rest
  rw [Option.mem_def.mp hb] at hnot
  have hmem : b ∈ rest := (List.dropWhile_sublist _).subset (List.mem_of_mem_head? hb)
  have hbm : b ∈ s.mqs := hmqs ▸ List.mem_cons_of_mem _ hmem
  have hbc : b ≠ mqControl := by
    rintro rfl
    exact (List.nodup_cons.mp hnodup).1 hmem
  obtain ⟨p, hp⟩ := h.registry.alive b (.inl hbm)
  have hne : p.id ≠ q.id := fun e => hfresh (by
    rw [← h.distinct b a p q (hled.pooled b (.inl ⟨hbm, hbc⟩)) hpool hp hq' e]
    exact hbm)
  have hnot : ¬ s.memory.qid b < s.memory.qid a := by simpa using hnot
  rw [Memory.qid_of_alive hp, Memory.qid_of_alive hq'] at hnot ⊢
  omega

theorem Commands.controlQueueHandler (h : Commands mqControl capacity s)
    {rec : NotificationRec A} {msg : Message (Body A T U)} {mqlist : List (NotificationRec A)}
    (hw : s.worker = .call rec msg mqlist) (hk : rec.qid = controlMessageQueueId) :
    ∃ r, controlQueueHandler s.memory s.mqs msg = some r := by
  have hmem : msg ∈ s.commands mqControl := by
    rw [State.commands, hw, WorkerPc.handOf, if_pos hk]
    exact List.mem_append_left _ (List.mem_singleton_self msg)
  cases h.command msg hmem with
  | terminate => exact ⟨_, rfl⟩
  | pause => exact ⟨_, rfl⟩
  | remove => exact ⟨_, rfl⟩
  | add qid mq sem =>
    have hr : Request.add mq sem ∈ s.requests mqControl := by
      rw [h.requests]
      exact List.mem_filterMap.mpr ⟨_, hmem, rfl⟩
    obtain ⟨mqs, hmqs⟩ := h.listening.slots.insertQueue hr
    refine ⟨(.success, mqs, some sem), ?_⟩
    show (Pool.insertQueue s.memory s.mqs mq).map _ = _
    rw [hmqs]
    rfl

/-- What a served command has done. -/
inductive Serves (s : State A T H U σ) (msg : Message (Body A T U)) (status : ExitStatus)
    (t : State A T H U σ) : Prop
  | plain : request? msg = none → t.sem = s.sem → t.mqs = s.mqs →
      (status = .pauseRequested ↔ msg.mid = pollPauseMessageId) → Serves s msg status t
  | request (r : Request A T) : request? msg = some r → msg.mid ≠ pollPauseMessageId →
      status ≠ .pauseRequested →
      t.sem = Function.update s.sem r.sem (Semaphore.post (s.sem r.sem)) →
      (match r with | .add a _ => a ∈ t.mqs | .remove a _ => t.mqs = s.mqs.erase a) →
      Serves s msg status t

theorem Command.serves {msg : Message (Body A T U)} (h : Command msg) {status : ExitStatus}
    {mqs : List A} {sem : Option T}
    (hc : controlQueueHandler s.memory s.mqs msg = some (status, mqs, sem)) (w : WorkerPc A T U) :
    Serves s msg status { s with mqs := mqs, sem := post sem s.sem, worker := w } := by
  cases h with
  | terminate =>
    cases hc
    exact .plain rfl rfl rfl (by simp [terminateMessageId, pollPauseMessageId])
  | pause =>
    cases hc
    exact .plain rfl rfl rfl (by simp)
  | remove qid mq u =>
    cases hc
    exact .request (.remove mq u) rfl (by simp [removeQueueMessageId, pollPauseMessageId])
      (by simp) rfl rfl
  | add qid mq u =>
    have hc : (insertQueue s.memory s.mqs mq).map (.success, ·, some u) =
      some (status, mqs, sem) := hc
    obtain ⟨v, hv, e⟩ := Option.map_eq_some_iff.mp hc
    cases e
    exact .request (.add mq u) rfl (by simp [addQueueMessageId, pollPauseMessageId])
      (by simp) rfl ((insertQueue_perm hv).mem_iff.mpr List.mem_cons_self)

/-- **A step sends a command, or serves the first, or leaves them alone.** -/
inductive Traffic (mqControl : A) (s : State A T H U σ) (x : Label A T H U)
    (t : State A T H U σ) : Prop
  | send : (∀ msg st, x ≠ .control msg st) →
      t.commands mqControl = s.commands mqControl ++ x.command?.toList → Traffic mqControl s x t
  | serve (msg : Message (Body A T U)) (status : ExitStatus) : x = .control msg (some status) →
      s.commands mqControl = msg :: t.commands mqControl → Serves s msg status t →
      Traffic mqControl s x t

theorem Commands.traffic (h : Commands mqControl capacity s) (hp : x.Pushes mqControl s)
    (hs : Step mqControl s x t) : Traffic mqControl s x t := by
  have hl := h.listening
  obtain ⟨q, hq, hid⟩ := hl.slots.registry.control
  have hqid : s.memory.qid mqControl = controlMessageQueueId := (Memory.qid_of_alive hq).trans hid
  have hmsg := hs.messages (a := mqControl) hp (by rw [hq]; simp)
  -- the hands hold a command under the record of the control queue
  have hctl : ∀ {i : ℕ} {hd : H}, s.handler[i]? = some (some (.client hd)) →
      i ≠ controlMessageQueueId := by
    rintro i hd hi rfl
    rw [hl.slots.control_iff.mpr rfl] at hi
    cases hi
  have quiet : (∀ msg st, x ≠ .control msg st) → x.command? = none →
      t.worker.handOf controlMessageQueueId = s.worker.handOf controlMessageQueueId →
      t.memory.messages mqControl = s.memory.messages mqControl → Traffic mqControl s x t := by
    intro hx hcmd hw hm
    refine .send hx ?_
    rw [State.commands, State.commands, hw, hm, hcmd, Option.toList_none, List.append_nil]
  have sent : ∀ {msg : Message (Body A T U)} {st : ExitStatus} {m : PoolMemory A T U} {mid : ℕ}
      {body : Body A T U}, s.memory.enqueue mqControl mid body = some (st, m) →
      x.command? = some msg → msg = ⟨controlMessageQueueId, mid, body⟩ →
      (∀ msg st, x ≠ .control msg st) → t.worker = s.worker → t.memory = m →
      Traffic mqControl s x t := by
    intro msg st m mid body hm hcmd hbody hx hw ht
    refine .send hx ?_
    have hst := enqueue_success hl.slots.registry hm
    obtain ⟨left, e⟩ := Memory.enqueue_effect hm
    rcases e.messages_push with ⟨hst', -⟩ | ⟨-, e⟩
    · exact absurd hst hst'
    · rw [State.commands, State.commands, hw, ht, e, hcmd, hbody, hqid, Option.toList_some,
        List.append_assoc]
  cases hs with
  | pop hw hm hpop =>
    rename_i rec mqlist b msg m
    have e := pop_effect hpop
    obtain ⟨a, p, ha, hp', hidp, -, hcase⟩ :=
      hl.source (by rw [hw]; exact List.mem_cons_self)
    obtain rfl : b = a := Option.some.inj (hm.symm.trans ha)
    rcases hcase with ⟨rfl, hk⟩ | ⟨hne, -, hd, hh⟩
    · have hk : rec.qid = controlMessageQueueId := hk
      refine .send (by simp) ?_
      simp only [State.commands, hw, e.messages_pop, WorkerPc.handOf, Label.command?,
        Option.toList_none, List.append_nil]
      rw [if_pos hk]
      rfl
    · refine quiet (by simp) rfl ?_ (hmsg (fun _ => rfl) ?_ (by simp) (by simp))
      · rw [hw]
        exact WorkerPc.handOf_call_of_ne (hctl hh) ..
      · rintro _ ⟨rfl⟩ hra
        exact hne (Option.some.inj (hm.symm.trans hra))
  | control hw hh hc =>
    rename_i rec msg mqlist status mqs sem
    have hk := hl.slots.control_iff.mp hh
    have hserve : s.commands mqControl = msg :: s.memory.messages mqControl := by
      rw [State.commands, hw, WorkerPc.handOf, if_pos hk]
      rfl
    have hcmd : Command msg := h.command msg (by rw [hserve]; exact List.mem_cons_self)
    refine .serve msg status rfl ?_ (hcmd.serves hc _)
    rw [hserve, State.commands, WorkerPc.handOf_of_hand (afterControl_hand ..)]
    rfl
  | controlAborts hw hh hc =>
    obtain ⟨r, hr⟩ := h.controlQueueHandler hw (hl.slots.control_iff.mp hh)
    rw [hr] at hc
    cases hc
  | handle hw hh =>
    refine quiet (by simp) rfl ?_ rfl
    rw [hw]
    exact (WorkerPc.handOf_call_of_ne (hctl hh) ..).symm
  | badCall hw hh =>
    refine quiet (by simp) rfl ?_ rfl
    rw [hw, WorkerPc.handOf_call_of_ne]
    · rfl
    · intro hk
      rw [hl.slots.control_iff.mpr hk] at hh
      cases hh
  | popNothing hw | begin hw | take hw | again hw | pause hw | resume hw =>
    exact quiet (by simp) rfl (by rw [hw]; rfl) rfl
  | examine hw | returned _ hw =>
    refine quiet (by simp) rfl ?_ rfl
    rw [hw]
    exact WorkerPc.handOf_of_hand (by simp) _
  | poll hw hpoll => exact quiet (by simp) rfl (by rw [hw]; rfl) (hpoll.messages _)
  | add hu hm | remove hu hm | isPollIdle hu hm | terminate hm =>
    exact sent hm rfl rfl (by simp) rfl rfl
  | @free u mq hu =>
    refine quiet (by simp) rfl rfl (hmsg (fun _ => rfl) (by simp) (fun v hv => ?_) (by simp))
    injection hv with _ e
    exact hl.slots.registry.ledger.ne_control (t := u)
      (by show (s.client u).queue? = _; rw [hu]; rfl) e
  | op o hrun =>
    obtain ⟨b, msg, rfl, hb, -⟩ := hp
    refine quiet (by simp) rfl rfl (hmsg (fun _ => rfl) (by simp) (by simp) ?_)
    intro msg' r hx
    injection hx with hx
    injection hx with hx
    exact hb hx
  | _ => exact quiet (by simp) rfl rfl (hmsg (fun _ => rfl) (by simp) (by simp) (by simp))

theorem Step.call (hs : Step mqControl s x t) {rec : NotificationRec A}
    {msg : Message (Body A T U)} {mqlist : List (NotificationRec A)}
    (hw : t.worker = .call rec msg mqlist) :
    s.worker = .call rec msg mqlist ∨
      ∃ a, rec ∈ s.worker.records ∧ rec.mq = some a ∧ msg ∈ s.memory.messages a := by
  have none : t.worker.hand = [] → False := by
    intro hh
    rw [hw] at hh
    cases hh
  cases hs with
  | pop hw' hm hpop =>
    cases hw
    refine .inr ⟨_, by rw [hw']; exact List.mem_cons_self, hm, ?_⟩
    rw [(pop_effect hpop).messages_pop]
    exact List.mem_cons_self
  | examine | returned | control => exact absurd none (by simp)
  | begin | poll | take | again | popNothing | controlAborts | handle | badCall | pause | resume =>
    cases hw
  | _ => exact .inl hw

theorem Commands.step (h : Commands mqControl capacity s) (hp : x.Pushes mqControl s)
    (hs : Step mqControl s x t) : Commands mqControl capacity t := by
  refine ⟨h.listening.step hp hs, ?_, ?_⟩
  · intro msg hmsg
    cases h.traffic hp hs with
    | send _ e =>
      rw [e] at hmsg
      rcases List.mem_append.mp hmsg with hmsg | hmsg
      · exact h.command msg hmsg
      · exact Label.command?_command (Option.mem_toList.mp hmsg)
    | serve _ _ _ e => exact h.command msg (by rw [e]; exact List.mem_cons_of_mem _ hmsg)
  · intro rec msg mqlist hw hk
    rcases hs.call hw with hw | ⟨a, hrec, hm, hmem⟩
    · exact h.plain rec msg mqlist hw hk
    · obtain ⟨b, q, hb, hq, hid, -, ⟨-, e⟩ | ⟨hne, -⟩⟩ := h.listening.source hrec
      · exact absurd e hk
      · obtain rfl := Option.some.inj (hm.symm.trans hb)
        exact h.listening.slots.registry.plain a hne msg hmem

theorem commands_initial (mqControl : A) (capacity : ℕ) :
    Commands mqControl capacity (.initial mqControl capacity : State A T H U σ) where
  listening := listening_initial mqControl capacity
  command := by
    intro msg hmsg
    simp [State.commands, State.initial, WorkerPc.handOf, Memory.messages] at hmsg
  plain := by
    rintro rec msg mqlist ⟨⟩

/-! ### Requests and their semaphores -/

/-- Before `sem.wait ()` returns. -/
def ClientPc.Waits : ClientPc A → Prop
  | .added _ => True
  | .removed _ => True
  | _ => False

/-- The thread makes a request, with a semaphore of its own. -/
def Label.opens (u : T) : Label A T H U → Bool
  | .add t _ => t = u
  | .remove t _ => t = u
  | _ => false

/-- The worker posts the semaphore of the thread's request. -/
def Label.answers (u : T) : Label A T H U → Bool
  | .control msg (some _) => (request? msg).map Request.sem = some u
  | _ => false

/-- How often the semaphore of the last request of a thread was posted. -/
def posts (u : T) (ls : List (Label A T H U)) : ℕ :=
  ls.foldl (fun n x => if x.opens u then 0 else if x.answers u then n + 1 else n) 0

omit [DecidableEq A] [Semaphore σ] in
theorem posts_snoc (u : T) (ls : List (Label A T H U)) (x : Label A T H U) :
    posts u (ls ++ [x]) =
      if x.opens u then 0 else if x.answers u then posts u ls + 1 else posts u ls := by
  simp [posts]

omit [DecidableEq A] [DecidableEq T] in
theorem Request.pc_waits (r : Request A T) : r.pc.Waits := by
  cases r <;> trivial

omit [DecidableEq A] [DecidableEq T] in
theorem Request.eq_of_pc {r r' : Request A T} (hs : r.sem = r'.sem) (hp : r.pc = r'.pc) :
    r = r' := by
  cases r <;> cases r' <;> cases hp <;> cases hs <;> rfl

/-- The thread makes the request `r`. -/
structure Opens (r : Request A T) (x : Label A T H U) (t : State A T H U σ) : Prop where
  opens : x.opens r.sem = true
  answers : x.answers r.sem = false
  pc : t.client r.sem = r.pc
  value : Semaphore.value (t.sem r.sem) = 0
  command : ∃ msg, x.command? = some msg ∧ request? msg = some r

/-- **Who waits made a request now, or waited before**, with the same semaphore unless the worker
has served a command. -/
theorem Step.waits (hs : Step mqControl s x t) (h : Registry mqControl s) {u : T}
    (hu : (t.client u).Waits) :
    (∃ r, r.sem = u ∧ Opens r x t) ∨
      (t.client u = s.client u ∧ x.opens u = false ∧
        (t.sem u = s.sem u ∨ ∃ msg st, x = .control msg st)) := by
  have other : ∀ {v : T} {pc : ClientPc A}, t.client = Function.update s.client v pc →
      ¬ pc.Waits → x.opens u = false → (u ≠ v → t.sem u = s.sem u) →
      t.client u = s.client u ∧ x.opens u = false ∧
        (t.sem u = s.sem u ∨ ∃ msg st, x = .control msg st) := by
    intro v pc e hpc hx hsem
    by_cases huv : u = v
    · subst huv
      rw [e, Function.update_self] at hu
      exact absurd hu hpc
    · exact ⟨by rw [e, Function.update_of_ne huv], hx, .inl (hsem huv)⟩
  cases hs with
  | control => exact .inr ⟨rfl, rfl, .inr ⟨_, _, rfl⟩⟩
  | @add v mq st m hv hm =>
    obtain rfl := enqueue_success h hm
    by_cases huv : u = v
    · subst huv
      exact .inl ⟨.add mq u, rfl, by simp [Label.opens, Request.sem], rfl,
        by simp [State.goto, Request.sem, Request.pc],
        by simp [Request.sem], _, rfl, rfl⟩
    · exact .inr ⟨Function.update_of_ne huv .., by simp [Label.opens, Ne.symm huv],
        .inl (Function.update_of_ne huv ..)⟩
  | @remove v mq st m hv hm =>
    by_cases huv : u = v
    · subst huv
      exact .inl ⟨.remove mq u, rfl, by simp [Label.opens, Request.sem], rfl,
        by simp [State.goto, Request.sem, Request.pc],
        by simp [Request.sem], _, rfl, rfl⟩
    · exact .inr ⟨Function.update_of_ne huv .., by simp [Label.opens, Ne.symm huv],
        .inl (Function.update_of_ne huv ..)⟩
  | allocated | removed =>
    exact .inr (other rfl id rfl fun huv => Function.update_of_ne huv ..)
  | check => exact .inr (other rfl (by split <;> exact id) rfl fun _ => rfl)
  | allocate | overflow | delete | free | isPollIdle | paused | beginClient | pollClient =>
    exact .inr (other rfl id rfl fun _ => rfl)
  | polled | answer => exact .inr (other rfl id rfl fun _ => rfl)
  | _ => exact .inr ⟨rfl, rfl, .inl rfl⟩

/-! ### The invariant -/

/-- The callers that wait, and the requests and posts they wait for. -/
def Callers (mqControl : A) (s : State A T H U σ) : Prop :=
  ∃ ts : List T, ts.Nodup ∧ (∀ t, t ∈ ts ↔ s.client t = .pausing) ∧
    ts.length = s.pauses mqControl + Semaphore.value s.semPause

structure Answered (mqControl : A) (capacity : ℕ) (ls : List (Label A T H U))
    (s : State A T H U σ) : Prop where
  commands : Commands mqControl capacity s
  /-- Nobody waits in vain. -/
  waits : ∀ r : Request A T, s.client r.sem = r.pc →
    r ∈ s.requests mqControl ∨ Semaphore.value (s.sem r.sem) = 1
  posts : ∀ u, (s.client u).Waits → posts u ls = Semaphore.value (s.sem u)
  once : ∀ u, Pool.posts u ls ≤ 1
  callers : Callers mqControl s

section Requests

variable {ls : List (Label A T H U)}

theorem Serves.answers {msg : Message (Body A T U)} {status : ExitStatus}
    (h : Serves s msg status t) (u : T) :
    ((Label.control msg (some status) : Label A T H U).answers u = false ∧ t.sem u = s.sem u) ∨
      ∃ r, request? msg = some r ∧ r.sem = u ∧
        (Label.control msg (some status) : Label A T H U).answers u = true ∧
        t.sem u = Semaphore.post (s.sem u) := by
  cases h with
  | plain hr hsem =>
    exact .inl ⟨by simp [Label.answers, hr], by rw [hsem]⟩
  | request r hr _ _ hsem =>
    by_cases hu : r.sem = u
    · refine .inr ⟨r, hr, hu, by simp [Label.answers, hr, hu], ?_⟩
      rw [hsem, ← hu, Function.update_self]
    · refine .inl ⟨by simp [Label.answers, hr, hu], ?_⟩
      rw [hsem, Function.update_of_ne (Ne.symm hu)]

omit [DecidableEq A] in
theorem Commands.first (h : Commands mqControl capacity s) {msg : Message (Body A T U)}
    {rest : List (Message (Body A T U))} (hc : s.commands mqControl = msg :: rest)
    {r : Request A T} (hr : request? msg = some r) :
    s.client r.sem = r.pc ∧ Semaphore.value (s.sem r.sem) = 0 := by
  apply h.listening.slots.registry.ledger.waits r
  show r ∈ s.requests mqControl
  rw [h.requests, hc, List.filterMap_cons_some hr]
  exact List.mem_cons_self

theorem Answered.waits_step (h : Answered mqControl capacity ls s) (hp : x.Pushes mqControl s)
    (hs : Step mqControl s x t) (r : Request A T) (hr : t.client r.sem = r.pc) :
    r ∈ t.requests mqControl ∨ Semaphore.value (t.sem r.sem) = 1 := by
  have hc := h.commands
  have hc' := hc.step hp hs
  have htraffic := hc.traffic hp hs
  rcases hs.waits hc.listening.slots.registry (hr ▸ r.pc_waits) with ⟨r', hsem, ho⟩ |
    ⟨hcl, -, hsem⟩
  · -- the request was made now
    have hpc : r.pc = r'.pc := by rw [← hr, ← hsem, ho.pc]
    obtain rfl := Request.eq_of_pc hsem.symm hpc
    obtain ⟨msg, hcmd, hreq⟩ := ho.command
    refine .inl ?_
    rw [hc'.requests]
    cases htraffic with
    | send _ e =>
      refine List.mem_filterMap.mpr ⟨msg, ?_, hreq⟩
      rw [e, hcmd]
      simp
    | serve _ _ e =>
      subst e
      cases hcmd
  · have hold := h.waits r (by rw [← hcl, hr])
    rw [hc.requests] at hold
    rw [hc'.requests]
    cases htraffic with
    | send hx e =>
      rcases hsem with hsem | ⟨msg, st, e'⟩
      · rw [hsem, e, List.filterMap_append]
        exact hold.imp (List.mem_append_left _) id
      · exact absurd e' (hx msg st)
    | serve msg status _ e hserve =>
      rcases hserve.answers r.sem with ⟨hans, hsem⟩ | ⟨r', hr', hsem', -, hpost⟩
      · rw [hsem]
        refine hold.imp (fun hmem => ?_) id
        rw [e] at hmem
        cases hq : request? msg with
        | none => rwa [List.filterMap_cons_none hq] at hmem
        | some r' =>
          rw [List.filterMap_cons_some hq] at hmem
          rcases List.mem_cons.mp hmem with rfl | hmem
          · -- its semaphore would have been posted
            simp [Label.answers, hq] at hans
          · exact hmem
      · have hv := (hc.first e hr').2
        rw [hsem'] at hv
        exact .inr (by rw [hpost, Semaphore.value_post, hv])

theorem Answered.posts_step (h : Answered mqControl capacity ls s) (hp : x.Pushes mqControl s)
    (hs : Step mqControl s x t) (u : T) :
    Pool.posts u (ls ++ [x]) ≤ 1 ∧
      ((t.client u).Waits → Pool.posts u (ls ++ [x]) = Semaphore.value (t.sem u)) := by
  have hc := h.commands
  have honce := h.once u
  rw [posts_snoc]
  cases ho : x.opens u with
  | true =>
    refine ⟨by simp, ?_⟩
    intro hu
    rcases hs.waits hc.listening.slots.registry hu with ⟨r, rfl, hopen⟩ | ⟨-, hn, -⟩
    · rw [hopen.value]
      rfl
    · rw [ho] at hn
      cases hn
  | false =>
    have old : (t.client u).Waits → t.client u = s.client u ∧
        (t.sem u = s.sem u ∨ ∃ msg st, x = .control msg st) := by
      intro hu
      rcases hs.waits hc.listening.slots.registry hu with ⟨r, rfl, hopen⟩ | ⟨hcl, -, hsem⟩
      · rw [hopen.opens] at ho
        cases ho
      · exact ⟨hcl, hsem⟩
    cases hc.traffic hp hs with
    | send hx =>
      have ha : x.answers u = false := by
        cases x with
        | control msg st => exact absurd rfl (hx msg st)
        | _ => rfl
      refine ⟨by simpa [ha] using honce, ?_⟩
      intro hu
      obtain ⟨hcl, hsem | ⟨msg, st, e⟩⟩ := old hu
      · simpa [ha, hsem] using h.posts u (hcl ▸ hu)
      · exact absurd e (hx msg st)
    | serve msg status hx e hserve =>
      subst hx
      rcases hserve.answers u with ⟨ha, hsem⟩ | ⟨r, hr, rfl, ha, hpost⟩
      · refine ⟨by simpa [ha] using honce, ?_⟩
        intro hu
        simpa [ha, hsem] using h.posts u ((old hu).1 ▸ hu)
      · obtain ⟨hcl, hv⟩ := hc.first e hr
        have hposts := h.posts r.sem (hcl ▸ r.pc_waits)
        rw [hv] at hposts
        refine ⟨by simp [ha, hposts], fun _ => by simp [ha, hposts, hpost, hv]⟩

end Requests

/-! ### Callers of `is_poll_idle` -/

section Callers

omit [DecidableEq A] [DecidableEq T] in
theorem Callers.quiet (h : Callers mqControl s)
    (hc : ∀ u, t.client u = .pausing ↔ s.client u = .pausing)
    (hv : t.pauses mqControl + Semaphore.value t.semPause =
      s.pauses mqControl + Semaphore.value s.semPause) : Callers mqControl t := by
  obtain ⟨ts, hnodup, hmem, hlen⟩ := h
  exact ⟨ts, hnodup, fun u => (hmem u).trans (hc u).symm, by rw [hlen, hv]⟩

omit [DecidableEq A] [Semaphore σ] in
theorem goto_pausing {u : T} {pc pc' : ClientPc A} (hu : s.client u = pc) (hpc : pc ≠ .pausing)
    (hpc' : pc' ≠ .pausing) (hc : t.client = Function.update s.client u pc') (v : T) :
    t.client v = .pausing ↔ s.client v = .pausing := by
  rw [hc, Function.update_apply]
  split
  · rename_i e
    rw [e, hu]
    exact ⟨fun h => absurd h hpc', fun h => absurd h hpc⟩
  · exact Iff.rfl

theorem Commands.callers_step (h : Commands mqControl capacity s) (hc : Callers mqControl s)
    (hp : x.Pushes mqControl s) (hs : Step mqControl s x t) : Callers mqControl t := by
  have htraffic := h.traffic hp hs
  -- a step that sends no request of a pause, and where the worker does not pause
  have same : (∀ msg st, x ≠ .control msg st) →
      (∀ msg, x.command? = some msg → msg.mid ≠ pollPauseMessageId) →
      t.worker.pauses = s.worker.pauses → t.pauses mqControl = s.pauses mqControl := by
    intro hx hmid hw
    cases htraffic with
    | send _ e =>
      rw [State.pauses, State.pauses, e, hw, List.countP_append]
      cases hcmd : x.command? with
      | none => simp
      | some msg => simp [hmid msg hcmd]
    | serve _ _ e => exact absurd e (hx _ _)
  cases hs with
  | begin hw | poll hw | take hw | again hw | pop hw | popNothing hw | handle hw | badCall hw =>
    refine hc.quiet (fun _ => Iff.rfl) ?_
    rw [same (by simp) (by simp [Label.command?]) (by rw [hw]; rfl)]
  | controlAborts =>
    cases htraffic with
    | send hx => exact absurd rfl (hx _ _)
    | serve _ _ e => cases e
  | examine hw =>
    refine hc.quiet (fun _ => Iff.rfl) ?_
    rw [same (by simp) (by simp [Label.command?]) (by rw [hw, examine_pauses]; rfl)]
  | returned o hw =>
    refine hc.quiet (fun _ => Iff.rfl) ?_
    rw [same (by simp) (by simp [Label.command?]) (by rw [hw, afterHandler_pauses]; rfl)]
  | resume hw =>
    refine hc.quiet (fun _ => Iff.rfl) ?_
    rw [same (by simp) (by simp [Label.command?]) (by rw [hw]; rfl)]
  | control hw =>
    refine hc.quiet (fun _ => Iff.rfl) ?_
    cases htraffic with
    | send hx => exact absurd rfl (hx _ _)
    | serve msg status e hcmd hserve =>
      cases e
      rw [State.pauses, State.pauses, hcmd, List.countP_cons, afterControl_pauses, hw]
      cases hserve with
      | plain _ _ _ hiff => simp [hiff, WorkerPc.pauses]
      | request _ _ hmid hst => simp [hmid, hst, WorkerPc.pauses]
  | pause hw =>
    refine hc.quiet (fun _ => Iff.rfl) ?_
    cases htraffic with
    | send _ e =>
      rw [State.pauses, State.pauses, e, hw]
      simp only [Label.command?, Option.toList_none, List.append_nil, WorkerPc.pauses,
        Semaphore.value_post]
      omega
    | serve _ _ e => cases e
  | @isPollIdle u st m hu =>
    obtain ⟨ts, hnodup, hmem, hlen⟩ := hc
    have hnot : u ∉ ts := by
      rw [hmem, hu]
      simp
    refine ⟨u :: ts, List.nodup_cons.mpr ⟨hnot, hnodup⟩, ?_, ?_⟩
    · intro v
      rw [List.mem_cons, hmem]
      simp only [State.goto, Function.update_apply]
      split
      · simp_all
      · simp_all
    · cases htraffic with
      | send _ e =>
        rw [List.length_cons, hlen, State.pauses, State.pauses, e, List.countP_append]
        simp only [Label.command?, State.goto, Option.toList_some, List.countP_cons]
        simp only [List.countP_nil, decide_true, if_true]
        omega
      | serve _ _ e => cases e
  | @paused u v hu hv =>
    have hval := Semaphore.value_wait _ _ hv
    obtain ⟨ts, hnodup, hmem, hlen⟩ := hc
    refine ⟨ts.erase u, hnodup.erase u, ?_, ?_⟩
    · intro w
      rw [hnodup.mem_erase_iff, hmem]
      simp only [State.goto, Function.update_apply]
      split
      · simp_all
      · simp_all
    · have hp := same (by simp) (by simp [Label.command?]) rfl
      rw [List.length_erase_of_mem ((hmem u).mpr hu), hlen, hp]
      simp only
      omega
  | refuse => exact hc
  | allocate hu | overflow hu | allocated hu | delete hu | removed hu | free hu =>
    refine hc.quiet (goto_pausing hu (by simp) (by simp) rfl) ?_
    rw [same (by simp) (by simp [Label.command?]) rfl]
    rfl
  | beginClient hu | pollClient hu | polled hu | answer hu =>
    refine hc.quiet (goto_pausing hu (by simp) (by simp) rfl) ?_
    rw [same (by simp) (by simp [Label.command?]) rfl]
    rfl
  | check hu =>
    refine hc.quiet (goto_pausing hu (by simp) (by split <;> simp) rfl) ?_
    rw [same (by simp) (by simp [Label.command?]) rfl]
    rfl
  | add hu =>
    refine hc.quiet (goto_pausing hu (by simp) (by split <;> simp) rfl) ?_
    rw [same (by simp) (by rintro _ ⟨⟩; simp [addQueueMessageId, pollPauseMessageId]) rfl]
    rfl
  | remove hu =>
    refine hc.quiet (goto_pausing hu (by simp) (by simp) rfl) ?_
    rw [same (by simp) (by rintro _ ⟨⟩; simp [removeQueueMessageId, pollPauseMessageId]) rfl]
    rfl
  | terminate =>
    refine hc.quiet (fun _ => Iff.rfl) ?_
    rw [same (by simp) (by rintro _ ⟨⟩; simp [terminateMessageId, pollPauseMessageId]) rfl]
  | op =>
    refine hc.quiet (fun _ => Iff.rfl) ?_
    rw [same (by simp) (by simp [Label.command?]) rfl]

end Callers

/-! ### Runs -/

theorem Answered.step {ls : List (Label A T H U)} (h : Answered mqControl capacity ls s)
    (hp : x.Pushes mqControl s) (hs : Step mqControl s x t) :
    Answered mqControl capacity (ls ++ [x]) t where
  commands := h.commands.step hp hs
  waits := h.waits_step hp hs
  posts u := (h.posts_step hp hs u).2
  once u := (h.posts_step hp hs u).1
  callers := h.commands.callers_step h.callers hp hs

theorem answered_run {ls : List (Label A T H U)}
    (hr : Run (pushing mqControl capacity) (.initial mqControl capacity) ls s) :
    Answered mqControl capacity ls s := by
  refine hr.history_invariant (S := pushing mqControl capacity)
    (P := Answered mqControl capacity) (fun _ _ _ _ h hx => h.step hx.1 hx.2)
    ⟨commands_initial mqControl capacity, fun r hr => ?_, fun u hu => hu.elim,
      fun _ => Nat.zero_le _, [], List.nodup_nil, ?_, ?_⟩
  · cases r <;> cases hr
  · simp [State.initial]
  · simp [State.initial, State.pauses, State.commands, WorkerPc.handOf, WorkerPc.pauses,
      Memory.messages]

theorem Step.sem_le (hs : Step mqControl s x t) (hx : ∀ msg st, x ≠ .control msg st) (u : T) :
    Semaphore.value (t.sem u) ≤ Semaphore.value (s.sem u) := by
  have update : ∀ {v : T} {c : σ}, t.sem = Function.update s.sem v c →
      Semaphore.value c ≤ Semaphore.value (s.sem v) →
      Semaphore.value (t.sem u) ≤ Semaphore.value (s.sem u) := by
    intro v c e hc
    rw [e, Function.update_apply]
    split
    · rename_i huv
      rw [huv]
      exact hc
    · exact Nat.le_refl _
  cases hs with
  | control => exact absurd rfl (hx _ _)
  | add | remove => exact update rfl (by simp)
  | allocated _ hv | removed _ hv =>
    exact update rfl (by rw [Semaphore.value_wait _ _ hv]; exact Nat.le_succ _)
  | _ => exact Nat.le_refl _

/-- The list has the queue that was to be taken in, and not the one that was to be taken out. -/
def Reflects (mqs : List A) : Request A T → Prop
  | .add mq _ => mq ∈ mqs
  | .remove mq _ => mq ∉ mqs

theorem Serves.reflects {msg : Message (Body A T U)} {status : ExitStatus}
    (h : Serves s msg status t) (hnodup : s.mqs.Nodup) {r : Request A T}
    (hr : request? msg = some r) : Reflects t.mqs r := by
  cases h with
  | plain hn =>
    rw [hn] at hr
    cases hr
  | request r' hr' _ _ _ hmqs =>
    obtain rfl := Option.some.inj (hr.symm.trans hr')
    cases r with
    | add => exact hmqs
    | remove mq =>
      have hmqs : t.mqs = s.mqs.erase mq := hmqs
      show mq ∉ t.mqs
      rw [hmqs, hnodup.mem_erase_iff]
      exact fun h => h.1 rfl

theorem Step.client_of_control {msg : Message (Body A T U)} {st : Option ExitStatus}
    (hs : Step mqControl s (.control msg st) t) : t.client = s.client := by
  generalize hx : (Label.control msg st : Label A T H U) = x at hs
  cases hs with
  | control | controlAborts => rfl
  | _ => cases hx

/-- How the requests of the pool are answered. -/
structure Served (mqControl : A) (capacity : ℕ) (ls : List (Label A T H U))
    (s : State A T H U σ) : Prop where
  /-- The semaphore of a request is posted at most once, -/
  once : ∀ u, posts u ls ≤ 1
  /-- and once by the time that the call goes on; -/
  answered : ∀ u a t, Step mqControl s (.allocated u a) t ∨ Step mqControl s (.removed u a) t →
    posts u ls = 1
  /-- by the worker, when the list reflects the request, and while its sender waits. -/
  post : ∀ x t u, (pushing mqControl capacity).step s x t →
    Semaphore.value (s.sem u) < Semaphore.value (t.sem u) →
    x.answers u = true ∧ ∃ r : Request A T, r.sem = u ∧ s.client u = r.pc ∧ t.client u = r.pc ∧
      Reflects t.mqs r
  waits : ∀ r : Request A T, s.client r.sem = r.pc →
    r ∈ s.requests mqControl ∨ Semaphore.value (s.sem r.sem) = 1
  callers : Callers mqControl s
  blocked : ∀ range, s.worker = .poll (.wait range) → s.memory.notifications .worker = [] →
    s.memory.messages mqControl = []

/-- **Every request is answered once, and nobody waits in vain.** -/
theorem served_run {ls : List (Label A T H U)}
    (hr : Run (pushing mqControl capacity) (.initial mqControl capacity) ls s) :
    Served mqControl capacity ls s := by
  have h := answered_run hr
  have hc := h.commands
  refine ⟨h.once, ?_, ?_, h.waits, h.callers,
    fun range hw hn => hc.listening.blocked hw hn _ hc.listening.slots.registry.ledger.mem_control⟩
  · intro u a t hs
    -- the wait ended, so the semaphore was posted
    have hw : (s.client u).Waits ∧ Semaphore.value (s.sem u) ≠ 0 := by
      rcases hs with hs | hs
      · generalize hx : (Label.allocated u a : Label A T H U) = x at hs
        cases hs with
        | allocated hu hv =>
          cases hx
          exact ⟨by rw [hu]; trivial, by rw [Semaphore.value_wait _ _ hv]; exact Nat.succ_ne_zero _⟩
        | _ => cases hx
      · generalize hx : (Label.removed u a : Label A T H U) = x at hs
        cases hs with
        | removed hu hv =>
          cases hx
          exact ⟨by rw [hu]; trivial, by rw [Semaphore.value_wait _ _ hv]; exact Nat.succ_ne_zero _⟩
        | _ => cases hx
    have hposts := h.posts u hw.1
    have honce := h.once u
    omega
  · intro x t u hx hlt
    obtain ⟨hp, hs⟩ := hx
    cases hc.traffic hp hs with
    | send hx => exact absurd (hs.sem_le hx u) (by omega)
    | serve msg status e hcmd hserve =>
      subst e
      rcases hserve.answers u with ⟨-, hsem⟩ | ⟨r, hreq, rfl, ha, -⟩
      · rw [hsem] at hlt
        exact absurd hlt (Nat.lt_irrefl _)
      · obtain ⟨hcl, -⟩ := hc.first hcmd hreq
        exact ⟨ha, r, rfl, hcl, by rw [hs.client_of_control, hcl],
          hserve.reflects hc.listening.nodup hreq⟩

/-- A queue was taken in, and a pause is asked for. -/
theorem served_run_one : ∃ s : State ℕ Unit Unit Unit ℕ,
    Run (pushing 0 1) one (allocating 1 1 ++ [.isPollIdle ()]) s ∧ s.client () = .pausing ∧
      Served 0 1 (allocating 1 1 ++ [.isPollIdle ()]) s := by
  have hlast : Run (system 0 1) (oneAdded 0).1 [.isPollIdle ()] _ := .single (.isPollIdle rfl rfl)
  have hrun : Run (pushing 0 1) one _ _ := ((oneAdded 0).2.append hlast).of_labels
    (by simp [allocating, taking, Label.Pushes])
  exact ⟨_, hrun, rfl, served_run hrun⟩

end Mqmx.Pool

import Mqmx.Pool.Calls

/-!
# How the worker comes to a message

A round of the worker where one queue of `_mqs` has messages, and no other has: it sets its
listener for all of them, is told of the one, clears the listener, and pops (`run_taking`).
-/

namespace Mqmx.Pool

open Transition (System Run)

variable {A T H U σ : Type}

/-- The steps of a round with `n` queues, up to the message. -/
def taking (n : ℕ) (rec : NotificationRec A) : List (Label A T H U) :=
  .begin .worker :: List.replicate (n + (1 + (1 + n))) (.poll .worker) ++
    [.take, .examine rec, .pop rec]

variable [DecidableEq A] [DecidableEq T]

/-! ### The listener of a poll -/

section Listener

variable {m : PoolMemory A T U} {a b : A} {as : List A} {l : Party T}
  {q : MessageQueue (Body A T U) (Party T)}

theorem touch_setListener (hq : m.object a = .alive q) (hl : q.listener = none) :
    m.touch (.setListener a l) =
      (if q.queue = [] then m else m.notify (some l) q.id (some a) Flag.data).write a
        { q with listener := some l } := by
  have h : ∃ r, Memory.Effect m (.setListener a l) r (m.touch (.setListener a l)) := by
    rcases Memory.touch_cases (.setListener a l) m with ⟨hn, -⟩ | h
    · exact absurd hq (Memory.setListener_run_eq_none hn q)
    · exact h
  obtain ⟨r, e⟩ := h
  generalize m.touch (.setListener a l) = m' at e
  cases e with
  | alreadyExist hp hne =>
    obtain rfl := Object.alive.inj (hp.symm.trans hq)
    exact absurd hl hne
  | setListener hp =>
    obtain rfl := Object.alive.inj (hp.symm.trans hq)
    rfl

theorem touch_clearListener (hq : m.object a = .alive q) :
    m.touch (.clearListener a) = m.write a { q with listener := none } := by
  have h : ∃ r, Memory.Effect m (.clearListener a) r (m.touch (.clearListener a)) := by
    rcases Memory.touch_cases (.clearListener a) m with ⟨hn, -⟩ | h
    · exact absurd hq (Memory.clearListener_run_eq_none hn q)
    · exact h
  obtain ⟨r, e⟩ := h
  generalize m.touch (.clearListener a) = m' at e
  cases e with
  | clearListener hp =>
    obtain rfl := Object.alive.inj (hp.symm.trans hq)
    rfl

/-- The constructor of `set_listener_for_each_queue`. -/
def attachAll (l : Party T) (as : List A) (m : PoolMemory A T U) : PoolMemory A T U :=
  as.foldl (fun m a => m.touch (.setListener a l)) m

def detachAll (as : List A) (m : PoolMemory A T U) : PoolMemory A T U :=
  as.foldl (fun m a => m.touch (.clearListener a)) m

/-- The queues are alive, and nobody listens to them. -/
def NoListener (m : PoolMemory A T U) (as : List A) : Prop :=
  ∀ a ∈ as, ∃ q, m.object a = .alive q ∧ q.listener = none

theorem NoListener.touch (h : NoListener m (a :: as)) (ha : a ∉ as) :
    NoListener (m.touch (.setListener a l)) as := by
  obtain ⟨q, hq, hl⟩ := h a List.mem_cons_self
  intro c hc
  obtain ⟨p, hp, hpl⟩ := h c (List.mem_cons_of_mem a hc)
  refine ⟨p, ?_, hpl⟩
  have hne : c ≠ a := fun e => ha (e ▸ hc)
  rw [touch_setListener hq hl, Memory.object_write_of_ne _ _ hne, Memory.object_notify_unless, hp]

theorem attachAll_of_not_mem (hn : as.Nodup) (h : NoListener m as) {c : A} (hc : c ∉ as) :
    (attachAll l as m).object c = m.object c := by
  induction as generalizing m with
  | nil => rfl
  | cons a as ih =>
    obtain ⟨ha, hrest⟩ := List.nodup_cons.mp hn
    obtain ⟨hne, hc⟩ := not_or.mp (List.mem_cons.not.mp hc)
    obtain ⟨q, hq, hl⟩ := h a List.mem_cons_self
    show (attachAll l as (m.touch (.setListener a l))).object c = _
    rw [ih hrest (h.touch ha) hc, touch_setListener hq hl, Memory.object_write_of_ne _ _ hne,
      Memory.object_notify_unless]

theorem attachAll_of_mem (hn : as.Nodup) (h : NoListener m as) (ha : a ∈ as)
    (hq : m.object a = .alive q) :
    (attachAll l as m).object a = .alive { q with listener := some l } := by
  induction as generalizing m with
  | nil => cases ha
  | cons b as ih =>
    obtain ⟨hb, hrest⟩ := List.nodup_cons.mp hn
    show (attachAll l as (m.touch (.setListener b l))).object a = _
    obtain ⟨p, hp, hl⟩ := h b List.mem_cons_self
    by_cases hab : a = b
    · subst hab
      obtain rfl := Object.alive.inj (hp.symm.trans hq)
      rw [attachAll_of_not_mem hrest (h.touch hb) hb, touch_setListener hp hl,
        Memory.object_write_self]
    · refine ih hrest (h.touch hb) ((List.mem_cons.mp ha).resolve_left hab) ?_
      rw [touch_setListener hp hl, Memory.object_write_of_ne _ _ hab,
        Memory.object_notify_unless, hq]

theorem attachAll_notifications (hn : as.Nodup) (h : NoListener m as)
    (he : ∀ a ∈ as, m.messages a = []) :
    (attachAll l as m).notifications = m.notifications := by
  induction as generalizing m with
  | nil => rfl
  | cons a as ih =>
    obtain ⟨ha, hrest⟩ := List.nodup_cons.mp hn
    obtain ⟨q, hq, hl⟩ := h a List.mem_cons_self
    have hqueue : q.queue = [] := by
      rw [← Memory.messages_of_alive hq]
      exact he a List.mem_cons_self
    have e : m.touch (.setListener a l) = m.write a { q with listener := some l } := by
      rw [touch_setListener hq hl, if_pos hqueue]
    show (attachAll l as (m.touch (.setListener a l))).notifications = _
    rw [ih hrest (h.touch ha) ?_, e, Memory.notifications_write]
    intro c hc
    have hne : c ≠ a := fun e => ha (e ▸ hc)
    rw [e, Memory.messages_write, if_neg hne]
    exact he c (List.mem_cons_of_mem a hc)

theorem attachAll_tells (hn : as.Nodup) (h : NoListener m as) (hb : b ∈ as)
    (hq : m.object b = .alive q) (hne : q.queue ≠ [])
    (he : ∀ a ∈ as, a ≠ b → m.messages a = []) :
    (attachAll l as m).notifications =
      (m.notify (some l) q.id (some b) Flag.data).notifications := by
  induction as generalizing m with
  | nil => cases hb
  | cons a as ih =>
    obtain ⟨ha, hrest⟩ := List.nodup_cons.mp hn
    show (attachAll l as (m.touch (.setListener a l))).notifications = _
    obtain ⟨p, hp, hl⟩ := h a List.mem_cons_self
    by_cases hab : a = b
    · subst hab
      obtain rfl := Object.alive.inj (hp.symm.trans hq)
      have e : m.touch (.setListener a l) = (m.notify (some l) p.id (some a) Flag.data).write a
          { p with listener := some l } := by
        rw [touch_setListener hp hl, if_neg hne]
      rw [attachAll_notifications hrest (h.touch ha), e, Memory.notifications_write]
      intro c hc
      have hca : c ≠ a := fun e => ha (e ▸ hc)
      rw [e, Memory.messages_write, if_neg hca]
      exact he c (List.mem_cons_of_mem a hc) hca
    · have hqueue : p.queue = [] := by
        rw [← Memory.messages_of_alive hp]
        exact he a List.mem_cons_self hab
      have e : m.touch (.setListener a l) = m.write a { p with listener := some l } := by
        rw [touch_setListener hp hl, if_pos hqueue]
      have hb : b ∈ as := (List.mem_cons.mp hb).resolve_left fun e => hab e.symm
      rw [ih hrest (h.touch ha) hb]
      · rw [e]; rfl
      · rw [e, Memory.object_write_of_ne _ _ fun e => hab e.symm, hq]
      · intro c hc hcb
        have hca : c ≠ a := fun e => ha (e ▸ hc)
        rw [e, Memory.messages_write, if_neg hca]
        exact he c (List.mem_cons_of_mem a hc) hcb

theorem detachAll_of_not_mem (hc : b ∉ as) : (detachAll as m).object b = m.object b := by
  induction as generalizing m with
  | nil => rfl
  | cons a as ih =>
    obtain ⟨hne, hc⟩ := not_or.mp (List.mem_cons.not.mp hc)
    show (detachAll as (m.touch (.clearListener a))).object b = _
    rw [ih hc]
    rcases Memory.touch_cases (.clearListener a) m with ⟨-, e⟩ | ⟨r, e⟩
    · rw [e]
    · exact e.object_of_not_concerns hne

theorem detachAll_of_mem (hn : as.Nodup) (ha : a ∈ as) (hq : m.object a = .alive q) :
    (detachAll as m).object a = .alive { q with listener := none } := by
  induction as generalizing m with
  | nil => cases ha
  | cons b as ih =>
    obtain ⟨hb, hrest⟩ := List.nodup_cons.mp hn
    show (detachAll as (m.touch (.clearListener b))).object a = _
    by_cases hab : a = b
    · subst hab
      rw [detachAll_of_not_mem hb, touch_clearListener hq, Memory.object_write_self]
    · refine ih hrest ((List.mem_cons.mp ha).resolve_left hab) ?_
      rcases Memory.touch_cases (.clearListener b) m with ⟨-, e⟩ | ⟨r, e⟩
      · rw [e, hq]
      · rw [e.object_of_not_concerns hab, hq]

variable (as) in
theorem detachAll_notifications : (detachAll as m).notifications = m.notifications := by
  induction as generalizing m with
  | nil => rfl
  | cons a as ih =>
    show (detachAll as (m.touch (.clearListener a))).notifications = _
    rw [ih]
    rcases Memory.touch_cases (.clearListener a) m with ⟨-, e⟩ | ⟨r, e⟩
    · rw [e]
    · generalize m.touch (.clearListener a) = m' at e
      cases e
      rfl

theorem detachAll_attachAll (hn : as.Nodup) (h : NoListener m as) (hb : b ∈ as)
    (hq : m.object b = .alive q) (hne : q.queue ≠ [])
    (he : ∀ a ∈ as, a ≠ b → m.messages a = []) :
    detachAll as (attachAll l as m) = m.notify (some l) q.id (some b) Flag.data := by
  have hobject : (detachAll as (attachAll l as m)).object = m.object := by
    funext c
    by_cases hc : c ∈ as
    · obtain ⟨p, hp, hl⟩ := h c hc
      rw [detachAll_of_mem hn hc (attachAll_of_mem hn h hc hp), hp, ← hl]
    · rw [detachAll_of_not_mem hc, attachAll_of_not_mem hn h hc]
  have hnotifications := attachAll_tells (l := l) hn h hb hq hne he
  rw [← detachAll_notifications as] at hnotifications
  rw [← Memory.object_notify m (some l) q.id (some b) Flag.data] at hobject
  generalize detachAll as (attachAll l as m) = m₁ at *
  generalize m.notify (some l) q.id (some b) Flag.data = m₂ at *
  cases m₁
  cases m₂
  cases hobject
  cases hnotifications
  rfl

end Listener

/-! ### The round -/

section Round

variable [Semaphore σ] {mqControl : A} {capacity : ℕ}

theorem run_attach (as set : List A) (s : State A T H U σ)
    (hs : s.worker = .poll (.attach set as)) :
    Run (system mqControl capacity) s (List.replicate as.length (.poll .worker))
      { s with
        memory := attachAll .worker as s.memory, worker := .poll (.attach (set ++ as) []) } := by
  induction as generalizing set s with
  | nil =>
    rw [List.append_nil, ← hs]
    exact .nil s
  | cons a as ih =>
    have h := ih (set ++ [a]) { s with
      memory := s.memory.touch (.setListener a .worker),
      worker := .poll (.attach (set ++ [a]) as) } rfl
    rw [List.append_assoc] at h
    exact .cons (.poll hs .attach) h

theorem run_detach (as : List A) (result : List (NotificationRec A)) (s : State A T H U σ)
    (hs : s.worker = .poll (.detach as result)) :
    Run (system mqControl capacity) s (List.replicate as.length (.poll .worker))
      { s with memory := detachAll as s.memory, worker := .poll (.detach [] result) } := by
  induction as generalizing s with
  | nil =>
    rw [← hs]
    exact .nil s
  | cons a as ih =>
    exact .cons (.poll hs .detach) (ih { s with
      memory := s.memory.touch (.clearListener a), worker := .poll (.detach as result) } rfl)

/-- **A round where one queue has messages comes to its first message.** -/
theorem run_taking {s t : State A T H U σ} {b : A} {id n : ℕ} {msg : Message (Body A T U)}
    {rest : List (Message (Body A T U))} {ls : List (Label A T H U)} (hw : s.worker = .start)
    (hlength : s.mqs.length = n) (hn : s.mqs.Nodup) (hb : b ∈ s.mqs)
    (hq : s.memory.object b = .alive ⟨id, msg :: rest, none⟩) (hid : id ≠ undefinedQid)
    (hslot : ∃ slot, s.handler[id]? = some slot)
    (hothers : ∀ a ∈ s.mqs.erase b, ∃ i, s.memory.object a = .alive ⟨i, [], none⟩)
    (hrun : Run (system mqControl capacity)
      { s with
        memory := ((reset .worker s.memory).notify (some .worker) id (some b) Flag.data).write b
          ⟨id, rest, none⟩
        worker := .call ⟨id, some b, Flag.data⟩ msg [] } ls t) :
    Run (system mqControl capacity) s (taking n ⟨id, some b, Flag.data⟩ ++ ls) t := by
  subst hlength
  have h : NoListener s.memory s.mqs := by
    intro a ha
    by_cases hab : a = b
    · exact ⟨_, hab ▸ hq, rfl⟩
    · obtain ⟨i, hi⟩ := hothers a (hn.mem_erase_iff.mpr ⟨hab, ha⟩)
      exact ⟨_, hi, rfl⟩
  have he : ∀ a ∈ s.mqs, a ≠ b → s.memory.messages a = [] := by
    intro a ha hab
    obtain ⟨i, hi⟩ := hothers a (hn.mem_erase_iff.mpr ⟨hab, ha⟩)
    rw [Memory.messages_of_alive hi]
  have hdetach := detachAll_attachAll (m := reset .worker s.memory) (l := .worker) hn h hb hq
    (List.cons_ne_nil _ _) he
  have htold : (attachAll .worker s.mqs (reset .worker s.memory)).notifications .worker =
      [⟨id, some b, Flag.data⟩] := by
    rw [attachAll_tells (m := reset .worker s.memory) hn h hb hq (List.cons_ne_nil _ _) he,
      Memory.notifications_notify, if_pos rfl]
    simp [reset, notify]
  have hpop : ((reset .worker s.memory).notify (some .worker) id (some b) Flag.data).pop b =
      some (some msg, ((reset .worker s.memory).notify (some .worker) id (some b)
        Flag.data).write b ⟨id, rest, none⟩) := by
    have hq' : ((reset .worker s.memory).notify (some .worker) id (some b) Flag.data).object b =
        .alive ⟨id, msg :: rest, none⟩ := by
      rw [Memory.object_notify]
      exact hq
    simp [Memory.pop, MessageQueue.pop, hq', Object.queue?, hid]
  have hexamine : examine s.handler ⟨id, some b, Flag.data⟩ [] =
      (.handle ⟨id, some b, Flag.data⟩ [] : WorkerPc A T U) := by
    have h1 : Flags.has Flag.data (Flag.closed ||| Flag.detached) = false := by decide
    have h2 : Flags.has Flag.data Flag.data = true := by decide
    obtain ⟨slot, hslot⟩ := hslot
    simp [examine, h1, h2, (List.getElem?_eq_some_iff.mp hslot).1]
  have htaking : taking s.mqs.length ⟨id, some b, Flag.data⟩ ++ ls =
      .begin .worker :: (List.replicate s.mqs.length (.poll .worker) ++ (.poll .worker ::
        .poll .worker :: (List.replicate s.mqs.length (.poll .worker) ++
          (.take :: .examine ⟨id, some b, Flag.data⟩ :: .pop ⟨id, some b, Flag.data⟩ :: ls)))) := by
    simp [taking, List.replicate_add]
  rw [htaking]
  refine .cons (.begin hw) ((run_attach s.mqs [] _ rfl).append (.cons (.poll rfl .ready)
    (.cons (.poll rfl (.wake rfl ?_)) ((run_detach s.mqs _ _ rfl).append (.cons (.take rfl) ?_)))))
  · show (attachAll .worker s.mqs (reset .worker s.memory)).notifications .worker ≠ []
    rw [htold]
    exact List.cons_ne_nil _ _
  · rw [htold, hdetach]
    refine .cons (.examine rfl) (.cons (.pop ?_ rfl hpop) hrun)
    exact hexamine

theorem Step.handle_call {s : State A T H U σ} {rec : NotificationRec A}
    {msg : Message (Body A T U)} {mqlist : List (NotificationRec A)} {k : ℕ} {h : H}
    (hw : s.worker = .call rec msg mqlist) (hk : rec.qid = k)
    (hh : s.handler[k]? = some (some (.client h))) :
    Step mqControl s (.handle k h msg) { s with worker := .inHandler rec mqlist } := by
  subst hk
  exact .handle hw hh

end Round

/-! ### One thread with its queues -/

/-- One thread, and a table with slots for its queues. -/
abbrev pool (capacity : ℕ) : State ℕ Unit Unit Unit ℕ := .initial 0 capacity

/-- `allocate_queue` of queue `mq`, which the worker adds to the `n` it has. -/
def allocating (mq n : ℕ) : List (Label ℕ Unit Unit Unit) :=
  .allocate () () mq mq :: .add () mq :: (taking n ⟨0, some 0, Flag.data⟩ ++
    [.control ⟨0, addQueueMessageId, .add mq ()⟩ (some .success), .pop ⟨0, some 0, Flag.data⟩,
      .again, .allocated () mq])

/-- `mq_deleter` of queue `mq`, which the worker takes out of the `n` it has. -/
def deleting (mq n : ℕ) : List (Label ℕ Unit Unit Unit) :=
  .delete () mq :: .check () mq true :: .remove () mq :: (taking n ⟨0, some 0, Flag.data⟩ ++
    [.control ⟨0, removeQueueMessageId, .remove mq ()⟩ (some .restartNeeded), .removed () mq,
      .free () mq])

/-- `is_poll_idle`, up to its poll, where the worker has `n` queues. -/
def pausing (n : ℕ) : List (Label ℕ Unit Unit Unit) :=
  .isPollIdle () :: (taking n ⟨0, some 0, Flag.data⟩ ++
    [.control ⟨0, pollPauseMessageId, .base⟩ (some .pauseRequested), .pause, .paused ()])

def oneAdded (n : ℕ) : { s // Run (system 0 (n + 1)) (pool (n + 1)) (allocating 1 1) s } :=
  ⟨_, .cons (.allocate rfl (by simp [State.initial, firstFree]) rfl)
    (.cons (.add rfl rfl)
    (run_taking rfl rfl (List.nodup_range (n := 1)) List.mem_cons_self rfl (by decide) ⟨_, rfl⟩
      (by rintro _ ⟨⟩)
    (.cons (.control rfl rfl rfl)
    (.cons (.popNothing rfl (by rintro _ ⟨⟩ _ _ ⟨⟩))
    (.cons (.again rfl)
    (.single (.allocated rfl rfl)))))))⟩

def oneDeleted (n : ℕ) : { s // Run (system 0 (n + 1)) (oneAdded n).1 (deleting 1 2) s } :=
  ⟨_, .cons (.delete rfl rfl)
    (.cons (.check rfl)
    (.cons (.remove rfl rfl)
    (run_taking rfl rfl (List.nodup_range (n := 2)) List.mem_cons_self rfl (by decide) ⟨_, rfl⟩
      (by exact List.forall_mem_singleton.mpr ⟨_, rfl⟩)
    (.cons (.control rfl rfl rfl)
    (.cons (.removed rfl rfl)
    (.single (.free rfl)))))))⟩

def twoAdded : { s // Run (system 0 2) (oneAdded 1).1 (allocating 2 2) s } :=
  ⟨_, .cons (.allocate rfl (by decide) rfl)
    (.cons (.add rfl rfl)
    (run_taking rfl rfl (List.nodup_range (n := 2)) List.mem_cons_self rfl (by decide) ⟨_, rfl⟩
      (by exact List.forall_mem_singleton.mpr ⟨_, rfl⟩)
    (.cons (.control rfl rfl rfl)
    (.cons (.popNothing rfl (by rintro _ ⟨⟩ _ _ ⟨⟩))
    (.cons (.again rfl)
    (.single (.allocated rfl rfl)))))))⟩

def twoDeleted : { s // Run (system 0 2) twoAdded.1 (deleting 1 3) s } :=
  ⟨_, .cons (.delete rfl rfl)
    (.cons (.check rfl)
    (.cons (.remove rfl rfl)
    (run_taking rfl rfl (List.nodup_range (n := 3)) List.mem_cons_self rfl (by decide) ⟨_, rfl⟩
      (by exact List.forall_mem_cons.mpr ⟨⟨_, rfl⟩, List.forall_mem_singleton.mpr ⟨_, rfl⟩⟩)
    (.cons (.control rfl rfl rfl)
    (.cons (.removed rfl rfl)
    (.single (.free rfl)))))))⟩

def onePaused (n : ℕ) : { s // Run (system 0 n) (pool n) (pausing 1) s } :=
  ⟨_, .cons (.isPollIdle rfl rfl)
    (run_taking rfl rfl (List.nodup_range (n := 1)) List.mem_cons_self rfl (by decide) ⟨_, rfl⟩
      (by rintro _ ⟨⟩)
    (.cons (.control rfl rfl rfl)
    (.cons (.pause rfl)
    (.single (.paused rfl rfl)))))⟩

end Mqmx.Pool

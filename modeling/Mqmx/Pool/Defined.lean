import Mqmx.Pool.Answers
import Mqmx.Pool.Filled
import Mqmx.Pool.Pause

/-!
# The pool does nothing without a meaning

The program has no meaning where an assertion fails, a handler that is not there is called, or
a queue that is not alive is touched, and the model goes on from such a place somehow.  Among
clients that push, and allocate and delete queues, it never gets there: `defined_run`.
-/

namespace Mqmx.Pool

open Transition (System Run)

variable {A T H U σ : Type} [DecidableEq A] [DecidableEq T] [Semaphore σ]

/-- Every call that is made next has a meaning. -/
structure Defined (mqControl : A) (s : State A T H U σ) : Prop where
  /-- No assertion of the worker has failed, -/
  running : s.worker ≠ .aborted
  /-- nor does one of the handler of the control queue; the handler of a client is there; -/
  next : ∀ x t, Step mqControl s x t → (∀ msg, x ≠ .control msg none) ∧ ∀ slot, x ≠ .badCall slot
  pop : ∀ rec mqlist, s.worker = .handle rec mqlist → ∃ a ∈ s.mqs, rec.mq = some a ∧
    ∃ r m, s.memory.pop a = some (r, m)
  /-- it is called with a message that is its own; -/
  own : ∀ rec msg mqlist, s.worker = .call rec msg mqlist → msg.qid = rec.qid
  /-- `set_listener` does not meet `AlreadyExist`, `clear_listener` meets the listener; -/
  attach : ∀ l set a rest, s.poll? l = some (.attach set (a :: rest)) →
    ∃ m, s.memory.setListener a l = some (.success, m)
  detach : ∀ l a rest result, s.poll? l = some (.detach (a :: rest) result) →
    Listens s.memory a l ∧ ∃ m, s.memory.clearListener a = some m
  /-- requests are accepted, and the queue that is deleted is there. -/
  enqueue : ∀ mid body, ∃ m, s.memory.enqueue mqControl mid body = some (.success, m)
  free : ∀ u a, s.client u = .freeing a → ∃ m, s.memory.destroy a = some m

variable {mqControl : A} {capacity : ℕ} {s t : State A T H U σ} {x : Label A T H U}

/-! ### Records and handlers -/

theorem Listening.slot (h : Listening mqControl capacity s) {rec : NotificationRec A}
    (hr : rec ∈ s.worker.records) : ∃ c, s.handler[rec.qid]? = some (some c) := by
  obtain ⟨a, q, -, -, -, -, ⟨-, hk⟩ | ⟨-, -, c, hk⟩⟩ := h.source hr
  · exact ⟨_, hk ▸ h.slots.control⟩
  · exact ⟨_, hk⟩

/-- **The worker goes to the queue of every record it has.** -/
theorem Listening.examine (h : Listening mqControl capacity s) {rec : NotificationRec A}
    (hr : rec ∈ s.worker.records) (mqlist : List (NotificationRec A)) :
    (examine s.handler rec mqlist : WorkerPc A T U) = .handle rec mqlist := by
  have hg := h.records rec hr
  obtain ⟨a, -, ha, -⟩ := hg.mq
  obtain ⟨c, hc⟩ := h.slot hr
  have hlt : rec.qid < s.handler.length := (List.getElem?_eq_some_iff.mp hc).1
  rw [Pool.examine, if_neg (by rw [hg.gone]; simp), if_pos hg.data, if_pos ⟨by rw [ha]; simp, hlt⟩]

/-! ### The invariant -/

structure Working (mqControl : A) (capacity : ℕ) (s : State A T H U σ) : Prop where
  commands : Commands mqControl capacity s
  filled : Filled mqControl capacity s
  running : s.worker ≠ .aborted
  own : ∀ rec msg mqlist, s.worker = .call rec msg mqlist → msg.qid = rec.qid

omit [DecidableEq A] in
theorem Working.listening (h : Working mqControl capacity s) : Listening mqControl capacity s :=
  h.filled.listening

theorem Working.next (h : Working mqControl capacity s) (hs : Step mqControl s x t) :
    (∀ msg, x ≠ .control msg none) ∧ ∀ slot, x ≠ .badCall slot := by
  cases hs with
  | @controlAborts rec msg mqlist hw hk hnone =>
    have hslot := h.listening.slots.control_iff.mp hk
    obtain ⟨r, hr⟩ := h.commands.controlQueueHandler hw hslot
    rw [hr] at hnone
    cases hnone
  | @badCall rec msg mqlist hw hk =>
    have hmem : rec ∈ s.worker.records := by
      rw [hw]
      exact List.mem_cons_self
    obtain ⟨c, hc⟩ := h.listening.slot hmem
    rw [hc] at hk
    cases hk
  | _ => exact ⟨fun msg => by simp, fun slot => by simp⟩

theorem Working.running_step (h : Working mqControl capacity s) (hs : Step mqControl s x t) :
    t.worker ≠ .aborted := by
  cases hs with
  | controlAborts hw hk hn => exact absurd rfl ((h.next (.controlAborts hw hk hn)).1 _)
  | @examine rec mqlist hw =>
    show Pool.examine s.handler rec mqlist ≠ .aborted
    rw [h.listening.examine (by rw [hw]; exact List.mem_cons_self)]
    simp
  | @control rec msg mqlist status =>
    show afterControl rec mqlist status ≠ .aborted
    cases status <;> simp [afterControl]
  | @returned rec mqlist o =>
    show afterHandler rec mqlist o ≠ .aborted
    rcases afterHandler_cases (A := A) (T := T) (U := U) rec mqlist o with e | e <;> simp [e]
  | begin | poll | take | again | pop | popNothing | handle | badCall | pause | resume => simp
  | _ => exact h.running

theorem Working.step (h : Working mqControl capacity s) (hp : x.Pushes mqControl s)
    (hs : Step mqControl s x t) : Working mqControl capacity t where
  commands := h.commands.step hp hs
  filled := h.filled.step hp hs
  running := h.running_step hs
  own := by
    intro rec msg mqlist hw
    rcases hs.call hw with hw' | ⟨a, hr, hra, hmsg⟩
    · exact h.own rec msg mqlist hw'
    · obtain ⟨b, hb, hrb, hid⟩ := (h.listening.records rec hr).mq
      obtain rfl : a = b := Option.some.inj (hra.symm.trans hrb)
      obtain ⟨q, hq⟩ := h.listening.alive hb
      rw [Memory.messages_of_alive hq] at hmsg
      rw [Memory.qid_of_alive hq] at hid
      rw [h.filled.stamped.stamped a q hq msg hmsg, hid]

theorem working_run {ls : List (Label A T H U)}
    (hr : Run (pushing mqControl capacity) (.initial mqControl capacity) ls s) :
    Working mqControl capacity s := by
  refine hr.invariant (S := pushing mqControl capacity) (P := Working mqControl capacity)
    (fun _ _ _ h hs => h.step hs.1 hs.2) ⟨commands_initial mqControl capacity,
      filled_initial mqControl capacity, by simp [State.initial], ?_⟩
  intro rec msg mqlist hw
  cases hw

/-! ### Every call -/

omit [Semaphore σ] in
theorem pop_of_alive {m : PoolMemory A T U} {a : A} (h : ∃ q, m.object a = .alive q) :
    ∃ r m', m.pop a = some (r, m') := by
  obtain ⟨q, hq⟩ := h
  rw [Memory.pop, MessageQueue.pop, Memory.notifies_object, hq]
  exact ⟨_, _, rfl⟩

theorem Working.defined (h : Working mqControl capacity s) : Defined mqControl s := by
  have hlis := h.listening
  refine ⟨h.running, fun x t hs => h.next hs, ?_, h.own,
    fun l set a rest hp => setListener_of_unheard (hlis.unheard hp) l, ?_, ?_, ?_⟩
  · intro rec mqlist hw
    obtain ⟨a, ha, hra, -⟩ := (hlis.records rec (by rw [hw]; exact List.mem_cons_self)).mq
    exact ⟨a, ha, hra, pop_of_alive (hlis.alive ha)⟩
  · intro l a rest result hp
    have hl := hlis.attached.on l _ hp a (by simp [PollPc.attached])
    refine ⟨hl, ?_⟩
    obtain ⟨q, hq, -⟩ := hl
    rw [Memory.clearListener, MessageQueue.clearListener, Memory.notifies_object, hq]
    exact ⟨_, rfl⟩
  · exact enqueue_control hlis.slots.registry
  · intro u a hu
    obtain ⟨q, hq⟩ := hlis.slots.registry.alive a
      (.inr ⟨u, by simp [State.ledger, hu, ClientPc.queue?]⟩)
    rw [Memory.destroy, MessageQueue.destroy, Memory.notifies_object, hq]
    exact ⟨_, rfl⟩

/-- **The pool does nothing without a meaning**, whatever its clients push, and whichever
queues they allocate and delete. -/
theorem defined_run {ls : List (Label A T H U)}
    (hr : Run (pushing mqControl capacity) (.initial mqControl capacity) ls s) :
    Defined mqControl s :=
  (working_run hr).defined

/-- The worker has the request of a caller in its hands. -/
theorem defined_run_one : ∃ s : State ℕ Unit Unit Unit ℕ,
    Run (pushing 0 1) one (.isPollIdle () :: (taking 1 ⟨0, some 0, Flag.data⟩ ++ [])) s ∧
      s.worker = .call ⟨0, some 0, Flag.data⟩ ⟨0, pollPauseMessageId, .base⟩ [] ∧
      Defined 0 s := by
  have hcall : Run (system 0 1) (pool 1)
      (.isPollIdle () :: (taking 1 ⟨0, some 0, Flag.data⟩ ++ [])) _ :=
    .cons (.isPollIdle rfl rfl)
      (run_taking rfl rfl (List.nodup_range (n := 1)) List.mem_cons_self rfl (by decide) ⟨_, rfl⟩
        (by rintro _ ⟨⟩) (.nil _))
  have hrun : Run (pushing 0 1) one _ _ :=
    hcall.of_labels (by simp [taking, Label.Pushes])
  exact ⟨_, hrun, rfl, defined_run hrun⟩

end Mqmx.Pool

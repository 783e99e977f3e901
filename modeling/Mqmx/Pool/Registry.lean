import Mqmx.Pool.Ledger
import Mqmx.Pool.Taking

/-!
# Who is in `_mqs`

The pool keeps to the protocol of its ledger (`Step.ledger`) as long as `remove_queue` finds
every queue it is called for: then `_mqs` is the control queue and queues that are alive
(`mqs_alive`).

But `remove_queue` looks for the queue under its current id, and a queue that a client has
moved from has none.  It is not found, and `mq_deleter` deletes it while its pointer is in
`_mqs` (`movedFrom_in_mqs`).
-/

namespace Mqmx.Pool

open Transition (System Run Reachable)

variable {A T H U σ : Type}

/-! ### The handler of the control queue -/

section Control

variable {m : PoolMemory A T U} {mqs mqs' : List A} {mq : A}

theorem insertQueue_perm (h : insertQueue m mqs mq = some mqs') : mqs'.Perm (mq :: mqs) := by
  unfold insertQueue at h
  split at h
  · cases h
  · rename_i control rest
    simp only at h
    split at h
    · cases h
      have hrest : rest = rest.takeWhile (fun a => m.qid a < m.qid mq) ++
          rest.dropWhile (fun a => m.qid a < m.qid mq) := List.takeWhile_append_dropWhile.symm
      have hmid : ∀ u v : List A, (control :: u ++ mq :: v).Perm (mq :: (control :: u ++ v)) :=
        fun u v => List.perm_middle
      refine (hmid _ _).trans (List.Perm.cons mq ?_)
      rw [List.cons_append, ← hrest]
    · cases h

theorem insertQueue_head (h : insertQueue m mqs mq = some mqs') : mqs'.head? = mqs.head? := by
  unfold insertQueue at h
  split at h
  · cases h
  · simp only at h
    split at h
    · cases h
      rfl
    · cases h

/-- **What the handler of the control queue does**: nothing to the list, or it takes a queue
in, or out. -/
theorem controlQueueHandler_cases [DecidableEq A] {msg : Message (Body A T U)}
    {status : ExitStatus} {sem : Option T}
    (h : controlQueueHandler m mqs msg = some (status, mqs', sem)) :
    (mqs' = mqs ∧ sem = none ∧ status ≠ .restartNeeded) ∨
    (∃ a t, msg.body = .add a t ∧ insertQueue m mqs a = some mqs' ∧ sem = some t ∧
      status = .success) ∨
    (∃ a t, msg.body = .remove a t ∧ mqs' = mqs.erase a ∧ sem = some t ∧
      status = .restartNeeded) := by
  unfold controlQueueHandler at h
  split at h
  · cases h
    exact .inl ⟨rfl, rfl, by simp⟩
  split at h
  · cases h
    exact .inl ⟨rfl, rfl, by simp⟩
  split at h
  · split at h
    · rename_i mq sem' hb
      obtain ⟨v, hv, e⟩ := Option.map_eq_some_iff.mp h
      cases e
      exact .inr (.inl ⟨mq, sem', hb, hv, rfl, rfl⟩)
    · cases h
  split at h
  · split at h
    · rename_i mq sem' hb
      cases h
      exact .inr (.inr ⟨mq, sem', hb, rfl, rfl, rfl⟩)
    · cases h
  · cases h
    exact .inl ⟨rfl, rfl, by simp⟩

end Control

variable [DecidableEq A] [DecidableEq T] [Semaphore σ]

/-! ### What the clients keep to -/

/-- Clients push messages of their own, pop, make queues of their own and delete those, and
move the content of queues about. -/
def Offered (s : State A T H U σ) : Op A (Body A T U) (Party T) → Prop
  | .destroy a => s.pooled a = false
  | .push _ msg => ∀ x, msg = some x → request? x = none
  | .setListener _ _ => False
  | .clearListener _ => False
  | _ => True

/-- They have no access to the control queue. -/
def Label.Public (mqControl : A) (s : State A T H U σ) : Label A T H U → Prop
  | .op o _ => ¬ Memory.Concerns mqControl o ∧ Offered s o
  | _ => True

/-- What the registry needs of them: they leave the control queue alone, delete queues of the
pool through `mq_deleter` only, and cannot make up requests. -/
def Label.Guarded (mqControl : A) (s : State A T H U σ) : Label A T H U → Prop
  | .op o _ => ¬ Memory.Concerns mqControl o ∧ (∀ a, o = .destroy a → s.pooled a = false) ∧
      ∀ a msg, o = .push a (some msg) → request? msg = none
  | _ => True

omit [DecidableEq A] [DecidableEq T] [Semaphore σ] in
theorem Label.Public.guarded {mqControl : A} {s : State A T H U σ} {x : Label A T H U}
    (h : x.Public mqControl s) : x.Guarded mqControl s := by
  cases x with
  | op o r =>
    obtain ⟨hcontrol, hoffered⟩ := h
    refine ⟨hcontrol, ?_, ?_⟩
    · rintro a rfl
      exact hoffered
    · rintro a msg rfl
      exact hoffered msg rfl
  | _ => trivial

/-- `remove_queue` finds the queue in the table. -/
def Label.Found (_ : State A T H U σ) : Label A T H U → Prop
  | .check _ _ found => found = true
  | _ => True

/-- What becomes of a queue of the pool in a step. -/
def Label.change : Label A T H U → Change A
  | .allocate _ _ mq _ => .made mq
  | .free _ mq => .deleted mq
  | _ => .none

/-! ### The invariant -/

def State.ledger (mqControl : A) (s : State A T H U σ) : Ledger A T where
  mqs := s.mqs
  held := s.held
  pooled := s.pooled
  client := s.client
  value t := Semaphore.value (s.sem t)
  requests := s.requests mqControl

structure Registry (mqControl : A) (s : State A T H U σ) : Prop where
  ledger : (s.ledger mqControl).Valid mqControl
  control : ∃ q, s.memory.object mqControl = .alive q ∧ q.id = controlMessageQueueId
  /-- Only the control queue has requests. -/
  plain : ∀ a, a ≠ mqControl → ∀ msg ∈ s.memory.messages a, request? msg = none
  alive : ∀ a, (s.ledger mqControl).Owns a → ∃ q, s.memory.object a = .alive q

section Step

variable {mqControl : A} {s t : State A T H U σ} {x : Label A T H U}

omit [DecidableEq A] [DecidableEq T] [Semaphore σ] in
theorem requests_sublist (hm : t.memory.messages mqControl = s.memory.messages mqControl)
    (hw : t.worker.hand = [] ∨ t.worker.hand = s.worker.hand) :
    (t.requests mqControl).Sublist (s.requests mqControl) := by
  unfold State.requests
  rw [hm]
  apply List.Sublist.filterMap _
  rcases hw with e | e
  · rw [e]
    exact List.sublist_append_right _ _
  · rw [e]

theorem not_leaves_control (h : Registry mqControl s) (hp : x.Guarded mqControl s)
    (hs : Step mqControl s x t) {o : Op A (Body A T U) (Party T)} (hc : Calls mqControl x o) :
    ¬ Memory.Leaves mqControl o := by
  cases hc with
  | destroy u mq =>
    cases hs with
    | free hpc =>
      have hpc' : ((s.ledger mqControl).client u).queue? = some mq := by
        show (s.client u).queue? = some mq
        rw [hpc]; rfl
      exact fun e => h.ledger.ne_control hpc' e.symm
  | op o r =>
    intro hl
    cases o with
    | moveConstruct a o => exact hp.1 (.inr hl)
    | moveAssign a o => exact hp.1 hl.2
    | destroy a => exact hp.1 hl
    | _ => exact hl
  | _ => exact id

omit [DecidableEq A] [DecidableEq T] [Semaphore σ] in
theorem not_destroy (hp : x.Guarded mqControl s) {o : Op A (Body A T U) (Party T)}
    (hc : Calls mqControl x o) {a : A} (ha : a = mqControl ∨ s.pooled a = true)
    (hx : x.change ≠ .deleted a) : o ≠ .destroy a := by
  rintro rfl
  cases hc with
  | destroy u => exact hx rfl
  | op _ r =>
    rcases ha with rfl | ha
    · exact hp.1 rfl
    · rw [hp.2.1 a rfl] at ha
      cases ha

theorem plain_step (h : Registry mqControl s) (hp : x.Guarded mqControl s)
    (hs : Step mqControl s x t) :
    ∀ a, a ≠ mqControl → ∀ msg ∈ t.memory.messages a, request? msg = none := by
  intro a ha msg hmsg
  rcases hs.memory with e | ⟨l, -, e⟩ | ⟨o, r, hc, e⟩
  · rw [e] at hmsg
    exact h.plain a ha msg hmsg
  · rw [e] at hmsg
    exact h.plain a ha msg hmsg
  · rcases e.mem_messages hmsg with rfl | ⟨c, hmem, rfl | ⟨h1, h2⟩⟩
    · cases hc with
      | op => exact hp.2.2 a msg rfl
      | _ => exact absurd rfl ha
    · exact h.plain c ha msg hmem
    · refine h.plain c ?_ msg hmem
      rintro rfl
      -- an operation on two queues is a client's
      cases hc with
      | op o r => exact hp.1 h1
      | _ => exact ha (h2.trans h1.symm)

omit [DecidableEq A] in
theorem value_update (sem : T → σ) (u : T) (v : σ) :
    (fun t => Semaphore.value (Function.update sem u v t)) =
      Function.update (fun t => Semaphore.value (sem t)) u (Semaphore.value v) := by
  funext t
  simp only [Function.update_apply]
  split <;> rfl

omit [Semaphore σ] in
theorem requests_enqueue {m : PoolMemory A T U} {mid : ℕ} {body : Body A T U} {st : ExitStatus}
    (hm : s.memory.enqueue mqControl mid body = some (st, m)) :
    (m.messages mqControl).filterMap request? =
      (s.memory.messages mqControl).filterMap request? ++
        (if st = .success then [⟨s.memory.qid mqControl, mid, body⟩].filterMap request?
          else []) := by
  obtain ⟨left, e⟩ := Memory.enqueue_effect hm
  rcases e.messages_push with ⟨hst, e⟩ | ⟨hst, e⟩
  · rw [e, if_neg hst, List.append_nil]
  · rw [e, if_pos hst, List.filterMap_append]

theorem enqueue_control (h : Registry mqControl s) (mid : ℕ) (body : Body A T U) :
    ∃ m, s.memory.enqueue mqControl mid body = some (.success, m) := by
  obtain ⟨q, hq, hid⟩ := h.control
  refine Memory.enqueue_accepted hq ?_ mid body
  rw [hid]
  decide

theorem enqueue_success (h : Registry mqControl s) {m : PoolMemory A T U} {mid : ℕ}
    {body : Body A T U} {st : ExitStatus}
    (hm : s.memory.enqueue mqControl mid body = some (st, m)) : st = .success := by
  obtain ⟨m', hm'⟩ := enqueue_control h mid body
  rw [hm] at hm'
  cases hm'
  rfl

theorem Ledger.Step.of_quiet {c : A} (hmqs : t.mqs = s.mqs) (hheld : t.held = s.held)
    (hpooled : t.pooled = s.pooled) (hsem : t.sem = s.sem)
    (hclient : ∀ u, t.client u = s.client u ∨
      ((s.client u).queue? = none ∧ (t.client u).queue? = none))
    (hreq : (t.requests c).Sublist (s.requests c)) :
    Ledger.Step (s.ledger c) .none (t.ledger c) :=
  .quiet hmqs hheld hpooled (by simp only [State.ledger, hsem]) hclient hreq

omit [DecidableEq A] [Semaphore σ] in
theorem goto_quiet {u : T} {pc : ClientPc A} (hu : (s.client u).queue? = none)
    (hpc : pc.queue? = none) (v : T) :
    (s.goto u pc).client v = s.client v ∨
      ((s.client v).queue? = none ∧ ((s.goto u pc).client v).queue? = none) := by
  simp only [State.goto, Function.update_apply]
  split
  · rename_i e
    subst e
    exact .inr ⟨hu, hpc⟩
  · exact .inl rfl

/-- **The pool keeps to the protocol**, where `remove_queue` finds what it looks for. -/
theorem Step.ledger (h : Registry mqControl s) (hp : x.Guarded mqControl s) (hf : x.Found s)
    (hs : Step mqControl s x t) :
    Ledger.Step (s.ledger mqControl) x.change (t.ledger mqControl) := by
  have here : ∀ u, s.client u = s.client u ∨
      ((s.client u).queue? = none ∧ (s.client u).queue? = none) := fun u => .inl rfl
  cases hs with
  | begin | take | again | popNothing | controlAborts | handle | badCall | pause | resume =>
    exact .of_quiet rfl rfl rfl rfl here (requests_sublist rfl (.inl rfl))
  | examine hw => exact .of_quiet rfl rfl rfl rfl here (requests_sublist rfl (.inl (by simp)))
  | returned o hw => exact .of_quiet rfl rfl rfl rfl here (requests_sublist rfl (.inl (by simp)))
  | poll hw hpoll =>
    exact .of_quiet rfl rfl rfl rfl here (requests_sublist (hpoll.messages _) (.inl rfl))
  | @pop rec mqlist a msg m hw ha hm =>
    have e := pop_effect hm
    refine .of_quiet rfl rfl rfl rfl here ?_
    simp only [State.requests, hw, WorkerPc.hand, List.nil_append, List.singleton_append]
    by_cases hc : a = mqControl
    · rw [← hc, e.messages_pop]
    · -- what a client's queue has is no request
      have hmsg : request? msg = none :=
        h.plain a hc msg (by rw [e.messages_pop]; exact List.mem_cons_self)
      rw [List.filterMap_cons_none hmsg,
        Memory.messages_congr (e.object_of_not_concerns (fun e => hc e.symm))]
  | @control rec msg mqlist status mqs sem hw _ hc =>
    have hreq : (s.ledger mqControl).requests =
        ([msg].filterMap request?) ++ (s.memory.messages mqControl).filterMap request? := by
      show s.requests mqControl = _
      rw [State.requests, hw, WorkerPc.hand, List.filterMap_append]
    rcases controlQueueHandler_cases hc with ⟨rfl, rfl, -⟩ | ⟨a, u, hb, hins, rfl, rfl⟩ |
      ⟨a, u, hb, rfl, rfl, rfl⟩
    · exact .of_quiet rfl rfl rfl rfl here (requests_sublist rfl (.inl (by simp)))
    · have hr : request? msg = some (.add a u) := by simp [request?, hb]
      have hmove := @Ledger.Step.takeIn A T _ _ (s.ledger mqControl) u a
        ((s.memory.messages mqControl).filterMap request?) mqs (by simpa [hr] using hreq)
        (insertQueue_perm hins) (insertQueue_head hins)
      simpa [State.ledger, post, value_update, State.requests, Label.change] using hmove
    · have hr : request? msg = some (.remove a u) := by simp [request?, hb]
      have hmove := @Ledger.Step.takeOut A T _ _ (s.ledger mqControl) u a
        ((s.memory.messages mqControl).filterMap request?) (by simpa [hr] using hreq)
      simpa [State.ledger, post, value_update, State.requests, Label.change] using hmove
  | refuse => exact .of_quiet rfl rfl rfl rfl here (List.Sublist.refl _)
  | @allocate u hd mq m hu hlt hm =>
    have e := construct_effect hm
    have hunborn := (Memory.construct_cases hm).1
    have hnot : ¬ (s.ledger mqControl).Owns mq := by
      intro ho
      obtain ⟨q, hq⟩ := h.alive mq ho
      rw [hq] at hunborn
      cases hunborn
    have hfresh : (s.ledger mqControl).Fresh mq := by
      refine ⟨fun hmem => hnot (.inl hmem), ?_, fun v hv => hnot (.inr ⟨v, hv⟩)⟩
      rw [← Bool.not_eq_true]
      exact fun hh => hnot (.inl (h.ledger.held mq hh).1)
    have hne : mqControl ≠ mq := by
      rintro rfl
      exact hnot (.inl h.ledger.mem_control)
    have hmsg := Memory.messages_congr (e.object_of_not_concerns hne)
    have hmove := Ledger.Step.allocate (l := s.ledger mqControl) (t := u)
      (by show (s.client u).queue? = none; rw [hu]; rfl) hfresh
    simpa [State.ledger, State.goto, Ledger.goto, State.requests, Label.change, hmsg] using hmove
  | overflow hu =>
    exact .of_quiet rfl rfl rfl rfl (goto_quiet (by rw [hu]; rfl) rfl) (List.Sublist.refl _)
  | @add u mq st m hu hm =>
    have hreq := requests_enqueue hm
    obtain rfl := enqueue_success h hm
    have hmove := Ledger.Step.add (l := s.ledger mqControl) (t := u) (a := mq) hu
    simpa [State.ledger, State.goto, Ledger.goto, State.requests, Label.change, hreq,
      value_update, request?] using hmove
  | @allocated u mq v hu hv =>
    have hval := Semaphore.value_wait _ _ hv
    have hmove := Ledger.Step.allocated (l := s.ledger mqControl) (t := u) (a := mq) hu
      (by show Semaphore.value (s.sem u) ≠ 0; omega)
    simpa [State.ledger, State.goto, Ledger.goto, State.requests, Label.change,
      value_update, hval] using hmove
  | @delete u mq hu hh =>
    exact .delete (by show (s.client u).queue? = none; rw [hu]; rfl) hh
  | @check u mq hu =>
    have hfound : registered s.handler (s.memory.qid mq) = true := hf
    have hmove := Ledger.Step.found (l := s.ledger mqControl) (t := u) (a := mq) hu
    simpa [State.ledger, State.goto, Ledger.goto, State.requests, Label.change, hfound]
      using hmove
  | @remove u mq st m hu hm =>
    have hreq := requests_enqueue hm
    obtain rfl := enqueue_success h hm
    have hmove := Ledger.Step.remove (l := s.ledger mqControl) (t := u) (a := mq) hu
    simpa [State.ledger, State.goto, Ledger.goto, State.requests, Label.change, hreq,
      value_update, request?] using hmove
  | @removed u mq v hu hv =>
    have hval := Semaphore.value_wait _ _ hv
    have hmove := Ledger.Step.removed (l := s.ledger mqControl) (t := u) (a := mq) hu
      (by show Semaphore.value (s.sem u) ≠ 0; omega)
    simpa [State.ledger, State.goto, Ledger.goto, State.requests, Label.change,
      value_update, hval] using hmove
  | @free u mq hu =>
    have hmsg : (Memory.touch (.destroy mq) s.memory).messages mqControl =
        s.memory.messages mqControl := by
      rcases Memory.touch_cases (.destroy mq) s.memory with ⟨-, e⟩ | ⟨r, e⟩
      · rw [e]
      · refine Memory.messages_congr (e.object_of_not_concerns fun hc => ?_)
        have hpc : ((s.ledger mqControl).client u).queue? = some mq := by
          show (s.client u).queue? = some mq
          rw [hu]; rfl
        exact h.ledger.ne_control hpc hc.symm
    have hmove := Ledger.Step.free (l := s.ledger mqControl) (t := u) (a := mq) hu
    simpa [State.ledger, State.goto, Ledger.goto, State.requests, Label.change, hmsg] using hmove
  | isPollIdle hu hm =>
    have hreq : _ = _ := requests_enqueue hm
    refine .of_quiet rfl rfl rfl rfl (goto_quiet (by rw [hu]; rfl) rfl) ?_
    simp [State.requests, State.goto, hreq, request?]
  | paused hu | polled hu | answer hu =>
    exact .of_quiet rfl rfl rfl rfl (goto_quiet (by rw [hu]; rfl) rfl) (List.Sublist.refl _)
  | beginClient hu =>
    exact .of_quiet rfl rfl rfl rfl (goto_quiet (by rw [hu]; rfl) rfl) (List.Sublist.refl _)
  | pollClient hu hpoll =>
    refine .of_quiet rfl rfl rfl rfl (goto_quiet (by rw [hu]; rfl) rfl) ?_
    exact requests_sublist (hpoll.messages _) (.inr rfl)
  | terminate hm =>
    have hreq : _ = _ := requests_enqueue hm
    refine .of_quiet rfl rfl rfl rfl here ?_
    simp [State.requests, hreq, request?]
  | op o hm =>
    refine .of_quiet rfl rfl rfl rfl here (requests_sublist ?_ (.inr rfl))
    exact Memory.messages_congr ((Memory.run_effect hm).object_of_not_concerns hp.1)

theorem Registry.step (h : Registry mqControl s) (hp : x.Guarded mqControl s) (hf : x.Found s)
    (hs : Step mqControl s x t) : Registry mqControl t where
  ledger := h.ledger.step (hs.ledger h hp hf)
  control := by
    obtain ⟨q, hq, hid⟩ := h.control
    rcases hs.memory with e | ⟨l, -, e⟩ | ⟨o, r, hc, e⟩
    · exact ⟨q, by rw [e, hq], hid⟩
    · exact ⟨q, by rw [e]; exact hq, hid⟩
    · obtain ⟨p, hp', hpid⟩ := e.id hq (not_leaves_control h hp hs hc)
      exact ⟨p, hp', hpid.trans hid⟩
  plain := plain_step h hp hs
  alive := by
    intro a ha
    rcases h.ledger.owns (hs.ledger h hp hf) ha with hmade | ⟨ho, hdel⟩
    · cases hs with
      | allocate _ _ hm =>
        cases hmade
        obtain ⟨-, rfl⟩ := Memory.construct_cases hm
        exact ⟨_, Memory.object_write_self ..⟩
      | _ => cases hmade
    · have halive := h.alive a ho
      rcases hs.memory with e | ⟨l, -, e⟩ | ⟨o, r, hc, e⟩
      · rw [e]
        exact halive
      · rw [e]
        exact halive
      · refine e.alive halive (not_destroy hp hc ?_ hdel)
        by_cases hac : a = mqControl
        · exact .inl hac
        · refine .inr (h.ledger.pooled a ?_)
          rcases ho with ho | ho
          · exact .inl ⟨ho, hac⟩
          · exact .inr (.inr ho)

omit [DecidableEq T] in
theorem registry_initial (mqControl : A) (capacity : ℕ) :
    Registry mqControl (.initial mqControl capacity : State A T H U σ) where
  ledger := by
    refine ⟨⟨rfl, List.nodup_singleton _, ?_, ?_, ?_, rfl⟩, ?_, ?_, ?_, ?_⟩
    · intro a ha
      cases ha
    · intro t u a ht
      cases ht
    · rintro a (⟨ha, hne⟩ | ha | ⟨t, ht⟩)
      · exact absurd (List.mem_singleton.mp ha) hne
      · cases ha
      · cases ht
    all_goals simp [State.ledger, State.requests, State.initial, WorkerPc.hand,
      Memory.messages, Ledger.Placed]
  control := ⟨_, if_pos rfl, rfl⟩
  plain := by
    intro a ha msg hmsg
    simp [Memory.messages, State.initial, ha] at hmsg
  alive := by
    rintro a (ha | ⟨t, ht⟩)
    · exact ⟨_, if_pos (List.mem_singleton.mp ha)⟩
    · cases ht

theorem Step.dead (hs : Step mqControl s x t) {a : A} (ha : s.memory.object a = .dead) :
    t.memory.object a = .dead := by
  rcases hs.memory with e | ⟨l, -, e⟩ | ⟨o, r, -, e⟩
  · rw [e, ha]
  · rw [e]
    exact ha
  · exact e.dead ha

theorem Step.born (hs : Step mqControl s x t) {a : A} (hb : s.memory.object a ≠ .unborn) :
    t.memory.object a ≠ .unborn := by
  rcases hs.memory with e | ⟨l, -, e⟩ | ⟨o, r, -, e⟩
  · rw [e]
    exact hb
  · rw [e]
    exact hb
  · exact e.born hb

theorem dead_of_free (h : Registry mqControl s) (hs : Step mqControl s x t) {u : T} {a : A}
    (ha : s.memory.object a = .dead ∨ x = .free u a) : t.memory.object a = .dead := by
  rcases ha with ha | rfl
  · exact hs.dead ha
  · cases hs with
    | free hu =>
      obtain ⟨q, hq⟩ := h.alive a (.inr ⟨u, by show (s.client u).queue? = _; rw [hu]; rfl⟩)
      rcases Memory.touch_cases (.destroy a) s.memory with ⟨hn, -⟩ | ⟨r, e⟩
      · simp [Op.run, Op.exec, MessageQueue.destroy, hq, Object.queue?] at hn
      · show (Memory.touch (.destroy a) s.memory).object a = .dead
        generalize Memory.touch (.destroy a) s.memory = m at e
        cases e with
        | destroy => exact Memory.object_free_self ..

end Step

/-! ### Runs -/

/-- The pool among clients that keep to its interface. -/
def publicly (mqControl : A) (capacity : ℕ) : System (State A T H U σ) (Label A T H U) :=
  (system mqControl capacity).restrict (Label.Public mqControl)

/-- `_mqs` is the control queue and queues that are alive, none of them deleted. -/
structure MqsAlive (mqControl : A) (ls : List (Label A T H U)) (s : State A T H U σ) : Prop where
  control : ∃ rest, s.mqs = mqControl :: rest
  alive : ∀ a ∈ s.mqs, ∃ q, s.memory.object a = .alive q
  deleted : ∀ t a, Label.free t a ∈ ls → a ∉ s.mqs

theorem registry_run {mqControl : A} {capacity : ℕ} {ls : List (Label A T H U)}
    {s : State A T H U σ}
    (hr : Run ((publicly mqControl capacity).restrict Label.Found)
      (.initial mqControl capacity) ls s) :
    Registry mqControl s ∧ ∀ t a, Label.free t a ∈ ls → s.memory.object a = .dead := by
  refine hr.history_invariant (P := fun ls s => Registry mqControl s ∧
    ∀ t a, Label.free t a ∈ ls → s.memory.object a = .dead) (fun ls s x t h hx => ?_)
    ⟨registry_initial mqControl capacity, by simp⟩
  obtain ⟨hf, hp, hs⟩ := hx
  refine ⟨h.1.step hp.guarded hf hs, fun u a hu => dead_of_free (u := u) h.1 hs ?_⟩
  rcases List.mem_append.mp hu with hu | hu
  · exact .inl (h.2 u a hu)
  · exact .inr (List.mem_singleton.mp hu).symm

/-- **Where `remove_queue` finds every queue it is called for, `_mqs` has no dead queue.**
And where it does not find one, the queue that `mq_deleter` goes on to delete is in
`_mqs`. -/
theorem mqs_alive (mqControl : A) (capacity : ℕ) {ls : List (Label A T H U)}
    {s : State A T H U σ}
    (hr : Run ((publicly mqControl capacity).restrict Label.Found)
      (.initial mqControl capacity) ls s) :
    MqsAlive mqControl ls s ∧
      ∀ t a s', (publicly mqControl capacity).step s (.check t a false) s' →
        a ∈ s'.mqs ∧ s'.client t = .freeing a := by
  obtain ⟨h, hdead⟩ := registry_run hr
  refine ⟨⟨?_, fun a ha => h.alive a (.inl ha), fun t a hta ha => ?_⟩, ?_⟩
  · obtain ⟨rest, hrest⟩ := List.head?_eq_some_iff.mp h.ledger.head
    exact ⟨rest, hrest⟩
  · obtain ⟨q, hq⟩ := h.alive a (.inl ha)
    rw [hdead t a hta] at hq
    cases hq
  · intro t a s' hs
    obtain ⟨-, hs⟩ := hs
    generalize hx : (Label.check t a false : Label A T H U) = x at hs
    cases hs with
    | check hpc =>
      injection hx with e₁ e₂ e₃
      subst e₁ e₂
      have hpl := h.ledger.placed t
      simp only [State.ledger, hpc] at hpl
      exact ⟨hpl, by simp [State.goto, ← e₃]⟩
    | _ => cases hx

/-- A table with one slot. -/
abbrev one : State ℕ Unit Unit Unit ℕ := pool 1

/-- The content of the queue is moved out and back before it is deleted. -/
theorem mqs_alive_one : ∃ s,
    Run ((publicly 0 1).restrict Label.Found) one
      (allocating 1 1 ++ (.op (.moveConstruct 2 1) .done :: .op (.moveAssign 1 2) .done ::
        deleting 1 2)) s ∧
      MqsAlive 0 (allocating 1 1 ++ (.op (.moveConstruct 2 1) .done ::
        .op (.moveAssign 1 2) .done :: deleting 1 2)) s ∧ s.mqs = [0] := by
  have hdelete : Run (system 0 1) (oneAdded 0).1
      (.op (.moveConstruct 2 1) .done :: .op (.moveAssign 1 2) .done :: deleting 1 2) _ :=
    .cons (.op _ rfl)
      (.cons (.op _ rfl)
      (.cons (.delete rfl rfl)
      (.cons (.check rfl)
      (.cons (.remove rfl rfl)
      (run_taking rfl rfl (List.nodup_range (n := 2)) List.mem_cons_self rfl (by decide) ⟨_, rfl⟩
        (by exact List.forall_mem_singleton.mpr ⟨_, rfl⟩)
      (.cons (.control rfl rfl rfl)
      (.cons (.removed rfl rfl)
      (.single (.free rfl)))))))))
  have hpublic : Run (publicly 0 1) one _ _ := ((oneAdded 0).2.append hdelete).of_labels
    (by simp [allocating, deleting, taking, Label.Public, Offered, Memory.Concerns])
  have hrun : Run ((publicly 0 1).restrict Label.Found) one _ _ :=
    hpublic.of_labels (by simp [allocating, deleting, taking, Label.Found])
  exact ⟨_, hrun, (mqs_alive 0 1 hrun).1, rfl⟩

/-- **A queue that a client has moved from is not found**, and is deleted while its pointer
is in `_mqs`. -/
theorem movedFrom_in_mqs : ¬ ∀ ls s, Run (publicly 0 1) one ls s → MqsAlive 0 ls s := by
  intro h
  have hdelete : Run (system 0 1) (oneAdded 0).1
      [.op (.moveConstruct 2 1) .done, .delete () 1, .check () 1 false, .free () 1] _ :=
    .cons (.op _ rfl)
      (.cons (.delete rfl rfl)
      (.cons (.check rfl)
      (.single (.free rfl))))
  have hrun : Run (publicly 0 1) one _ _ := ((oneAdded 0).2.append hdelete).of_labels
    (by simp [allocating, taking, Label.Public, Offered, Memory.Concerns])
  exact (h _ _ hrun).deleted () 1 (by simp) (by decide)

end Mqmx.Pool

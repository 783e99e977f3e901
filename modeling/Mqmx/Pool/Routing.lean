import Mqmx.Pool.Listening
import Mqmx.Queue.Conservation

/-!
# Which handler a message goes to

The worker takes the handler from the id in a record and the message from the queue that the
record points to.  Clients may move the content of a queue of the pool into another one.

* `Routing.step`: while the worker polls it is told of every move.  The records it has taken
  are told nothing more, and what is left of them is `Aims`.
* `routed_run`: as long as nothing is assigned into a queue that such a record points to, the
  handler of a slot gets messages of that id only.
* `move_misroutes`: it gets others where something is.
-/

namespace Mqmx.Pool

open Transition (System Run)

variable {A T H U σ : Type}

/-- The record that the worker is at. -/
def WorkerPc.rec? : WorkerPc A T U → Option (NotificationRec A)
  | .handle rec _ => some rec
  | .call rec _ _ => some rec
  | .inHandler rec _ => some rec
  | _ => none

/-- What the clients do: they push, and move queues of the pool over each other. -/
def Label.PushesOrMoves (mqControl : A) (s : State A T H U σ) : Label A T H U → Prop
  | .op (.moveAssign a o) _ => s.pooled a = true ∧ s.pooled o = true
  | x => x.Pushes mqControl s

/-- A queue that a record of the worker points to, and that the record does not call gone,
gets no content but that of its id, or of a queue that was moved from. -/
def Label.Clear (s : State A T H U σ) : Label A T H U → Prop
  | .op (.moveAssign a o) _ => a ≠ o → ∀ rec ∈ s.worker.records, rec.mq = some a →
      rec.gone = false → s.memory.qid o = rec.qid ∨ s.memory.qid o = undefinedQid
  | _ => True

/-- Every handler is called with messages of its id. -/
structure Routed (ls : List (Label A T H U)) : Prop where
  client : ∀ k h msg, Label.handle k h msg ∈ ls → msg.qid = k
  control : ∀ msg st, Label.control msg st ∈ ls → msg.qid = controlMessageQueueId

/-! ### The record at hand -/

section Record

variable {rec r : NotificationRec A} {mqlist : List (NotificationRec A)}

/-- The worker goes on with a record only where it does not say that the queue is gone. -/
theorem examine_rec? {handler : List (Option (Handler H))}
    (h : (examine handler rec mqlist : WorkerPc A T U).rec? = some r) : r.gone = false := by
  rcases examine_cases handler rec mqlist with e | ⟨hgone, e⟩ | e
  · rw [e] at h
    cases h
  · rw [e] at h
    cases h
    exact hgone
  · rw [e] at h
    cases h

theorem afterControl_rec? {st : ExitStatus}
    (h : (afterControl rec mqlist st : WorkerPc A T U).rec? = some r) : rec = r := by
  cases st <;> first | exact Option.some.inj h | cases h

theorem afterHandler_rec? {o : Outcome}
    (h : (afterHandler rec mqlist o : WorkerPc A T U).rec? = some r) : rec = r := by
  rcases afterHandler_cases rec mqlist o with e | e
  · rw [e] at h
    exact Option.some.inj h
  · rw [e] at h
    cases h

end Record

variable [DecidableEq A] [DecidableEq T] [Semaphore σ] {mqControl : A} {capacity : ℕ}
  {s t : State A T H U σ} {x : Label A T H U}

/-- The pool among these clients. -/
def moving (mqControl : A) (capacity : ℕ) : System (State A T H U σ) (Label A T H U) :=
  (system mqControl capacity).restrict (Label.PushesOrMoves mqControl)

theorem Step.rec? (hs : Step mqControl s x t) {r : NotificationRec A}
    (hr : t.worker.rec? = some r) : r.gone = false ∨ s.worker.rec? = some r := by
  cases hs with
  | begin | take | again | popNothing | controlAborts | badCall | pause | resume => cases hr
  | poll hw hpoll => cases hr
  | examine hw => exact .inl (examine_rec? hr)
  | pop hw | handle hw => exact .inr (by rw [hw]; exact hr)
  | control hw =>
    refine .inr ?_
    rw [hw, ← afterControl_rec? hr]
    rfl
  | returned o hw =>
    refine .inr ?_
    rw [hw, ← afterHandler_rec? hr]
    rfl
  | _ => exact .inr hr

theorem Step.control_slot (hs : Step mqControl s x t)
    (h : ∀ k, s.handler[k]? = some (some .control) → k = controlMessageQueueId) :
    ∀ k, t.handler[k]? = some (some .control) → k = controlMessageQueueId := by
  cases hs with
  | allocate =>
    intro k hk
    rw [List.getElem?_set] at hk
    split at hk
    · simp at hk
    · exact h k hk
  | _ => exact h

/-! ### The invariant -/

structure Routing (s : State A T H U σ) : Prop where
  token : ∃ k, Token s k
  ordered : s.memory.Ordered
  stamped : s.memory.Stamped
  slot : ∀ k, s.handler[k]? = some (some .control) → k = controlMessageQueueId
  told : ∀ p, s.poll? .worker = some p → p.Open →
    ∀ r ∈ s.memory.notifications .worker, r.gone = true ∨ Watched s.memory .worker r
  aims : ∀ r ∈ s.worker.records, r.gone = true ∨ Aims s.memory r
  fresh : ∀ r, s.worker.rec? = some r → r.gone = false
  hand : ∀ rec msg mqlist, s.worker = .call rec msg mqlist → msg.qid = rec.qid

theorem Routing.pop (h : Routing s) {rec : NotificationRec A} {mqlist : List (NotificationRec A)}
    {a : A} {msg : Message (Body A T U)} {m : PoolMemory A T U}
    (hw : s.worker = .handle rec mqlist) (ha : rec.mq = some a)
    (hm : s.memory.pop a = some (some msg, m)) : msg.qid = rec.qid := by
  have hfresh := h.fresh rec (by rw [hw]; rfl)
  obtain hgone | ⟨b, hb, -, hid⟩ := h.aims rec (by rw [hw]; exact List.mem_cons_self)
  · rw [hfresh] at hgone
    cases hgone
  obtain rfl : a = b := Option.some.inj (ha.symm.trans hb)
  obtain ⟨q, hq, ⟨hnone, -⟩ | ⟨y, rest, hy, hqueue, hne, -⟩⟩ := Memory.pop_cases hm
  · cases hnone
  · obtain rfl := Option.some.inj hy
    rw [h.stamped.stamped a q hq msg (by rw [hqueue]; exact List.mem_cons_self)]
    exact (hid q hq).resolve_right hne

/-- **No listener is taken off while the worker waits in its poll.** -/
theorem Routing.poll_open (h : Routing s) (hp : x.PushesOrMoves mqControl s)
    (hs : Step mqControl s x t) {p : PollPc A} (ht : t.poll? .worker = some p) (ho : p.Open) :
    t.memory.notifications .worker = [] ∨
      ((∃ p', s.poll? .worker = some p' ∧ p'.Open) ∧
        (t.memory = s.memory ∨
          ∃ o r, Memory.Effect s.memory o r t.memory ∧ ∀ a, o ≠ .clearListener a)) := by
  obtain ⟨k, hk⟩ := h.token
  have htouch : ∀ {o : Op A (Body A T U) (Party T)}, (∀ a, o ≠ .clearListener a) →
      Memory.touch o s.memory = s.memory ∨ ∃ o' r,
        Memory.Effect s.memory o' r (Memory.touch o s.memory) ∧ ∀ a, o' ≠ .clearListener a := by
    intro o hne
    rcases Memory.touch_cases o s.memory with ⟨-, e⟩ | ⟨r, e⟩
    · exact .inl e
    · exact .inr ⟨o, r, e, hne⟩
  cases hs with
  | begin => exact .inl (by simp [reset])
  | poll hw hpoll =>
    have ht := poll?_worker.mp ht
    cases hpoll with
    | attach =>
      exact .inr ⟨⟨_, poll?_worker.mpr hw, by trivial⟩, htouch (by simp)⟩
    | ready => exact .inr ⟨⟨_, poll?_worker.mpr hw, by trivial⟩, .inl rfl⟩
    | wake | look | detach =>
      obtain rfl := WorkerPc.poll.inj ht
      exact ho.elim
  | take | again | pop | popNothing | controlAborts | handle | badCall | pause | resume =>
    cases poll?_worker.mp ht
  | examine =>
    have ht : (examine _ _ _ : WorkerPc A T U).poll? = some p := ht
    simp at ht
  | control =>
    have ht : (afterControl _ _ _ : WorkerPc A T U).poll? = some p := ht
    simp at ht
  | returned o =>
    have ht : (afterHandler _ _ o : WorkerPc A T U).poll? = some p := ht
    simp at ht
  | @beginClient u hu =>
    have hu' := (hk.of_poll (l := .worker) ht).symm.trans
      (hk.of_inSection (u := u) (by rw [hu]; trivial))
    cases hu'
  | @pollClient u _ _ _ hu =>
    have hu' := hk.poll_unique (l := .worker) ht (poll?_client.mpr hu)
    cases hu'
  | allocate _ _ hm =>
    exact .inr ⟨⟨p, ht, ho⟩, .inr ⟨_, _, construct_effect hm, by simp⟩⟩
  | add _ hm | remove _ hm | isPollIdle _ hm | terminate hm =>
    obtain ⟨left, e⟩ := Memory.enqueue_effect hm
    exact .inr ⟨⟨p, ht, ho⟩, .inr ⟨_, _, e, by simp⟩⟩
  | free => exact .inr ⟨⟨p, ht, ho⟩, htouch (by simp)⟩
  | op o hm =>
    refine .inr ⟨⟨p, ht, ho⟩, .inr ⟨_, _, Memory.run_effect hm, ?_⟩⟩
    rintro a rfl
    obtain ⟨b, msg, e, -⟩ := hp
    cases e
  | _ => exact .inr ⟨⟨p, ht, ho⟩, .inl rfl⟩

theorem Routing.aims_step (h : Routing s) (hc : x.Clear s) (hs : Step mqControl s x t)
    {r : NotificationRec A} (hr : r ∈ t.worker.records) : r.gone = true ∨ Aims t.memory r := by
  rcases (hs.records hr).1 with hr | ⟨⟨p, hp, ho⟩, hr, hm⟩
  · by_cases hgone : r.gone = true
    · exact .inl hgone
    have haims := (h.aims r hr).resolve_left hgone
    rcases hs.memory with e | ⟨l, -, e⟩ | ⟨o, reply, hcall, e⟩
    · rw [e]
      exact .inr haims
    · rw [e]
      exact .inr haims
    · refine .inr (haims.effect e fun a o' ho' hne hmq => ?_)
      subst ho'
      cases hcall with
      | op => exact hc hne r hr hmq (by simpa using hgone)
  · rw [hm]
    exact (h.told p hp ho r hr).imp id Watched.aims

theorem Routing.step (h : Routing s) (hp : x.PushesOrMoves mqControl s) (hc : x.Clear s)
    (hs : Step mqControl s x t) : Routing t where
  token := by
    obtain ⟨k, hk⟩ := h.token
    exact hk.step hs
  ordered := by
    rcases hs.memory with e | ⟨l, -, e⟩ | ⟨o, r, -, e⟩
    · rw [e]
      exact h.ordered
    · rw [e]
      exact ordered_reset h.ordered l
    · exact e.ordered h.ordered
  stamped := by
    rcases hs.memory with e | ⟨l, -, e⟩ | ⟨o, r, -, e⟩
    · rw [e]
      exact h.stamped
    · rw [e]
      exact h.stamped.congr rfl
    · exact e.stamped h.stamped
  slot := hs.control_slot h.slot
  told := by
    intro p ht ho r hr
    rcases h.poll_open hp hs ht ho with hnil | ⟨⟨p', hp', ho'⟩, hm | ⟨o, reply, e, hne⟩⟩
    · rw [hnil] at hr
      cases hr
    · rw [hm] at hr ⊢
      exact h.told p' hp' ho' r hr
    · exact e.watched h.ordered hne (h.told p' hp' ho') r hr
  aims r hr := h.aims_step hc hs hr
  fresh r hr := (hs.rec? hr).elim id (h.fresh r)
  hand := by
    intro rec msg mqlist hw
    generalize htw : t.worker = pc at hw
    subst hw
    cases hs with
    | pop hw ha hm =>
      cases htw
      exact h.pop hw ha hm
    | begin | poll | take | again | popNothing | controlAborts | handle | badCall => cases htw
    | pause | resume => cases htw
    | examine =>
      have hhand : (examine _ _ _ : WorkerPc A T U).hand = [msg] := congrArg WorkerPc.hand htw
      simp at hhand
    | control =>
      have hhand : (afterControl _ _ _ : WorkerPc A T U).hand = [msg] := congrArg WorkerPc.hand htw
      simp at hhand
    | returned o =>
      have hhand : (afterHandler _ _ o : WorkerPc A T U).hand = [msg] := congrArg WorkerPc.hand htw
      simp at hhand
    | _ => exact h.hand rec msg mqlist htw

theorem routing_initial (mqControl : A) (capacity : ℕ) :
    Routing (.initial mqControl capacity : State A T H U σ) where
  token := ⟨_, token_initial mqControl capacity⟩
  ordered := fun l => ascending_nil
  stamped := by
    refine ⟨fun a q hq => ?_, fun a q hq => ?_⟩
    all_goals
      simp only [State.initial] at hq
      split at hq
      · cases hq
        simp
      · cases hq
  slot := by
    intro k hk
    cases k with
    | zero => rfl
    | succ k => simp [State.initial, List.getElem?_replicate] at hk
  told := by
    intro p hp
    cases poll?_worker.mp hp
  aims := by
    intro r hr
    cases hr
  fresh := by
    intro r hr
    cases hr
  hand := by
    intro rec msg mqlist hw
    cases hw

theorem Routing.routed (h : Routing s) (hs : Step mqControl s x t) : Routed [x] where
  client := by
    intro k hd msg hx
    obtain rfl := (List.mem_singleton.mp hx).symm
    generalize hk : (Label.handle k hd msg : Label A T H U) = x at hs
    cases hs with
    | handle hw =>
      injection hk with e₁ _ e₃
      subst e₁ e₃
      exact h.hand _ _ _ hw
    | _ => cases hk
  control := by
    intro msg st hx
    obtain rfl := (List.mem_singleton.mp hx).symm
    generalize hk : (Label.control msg st : Label A T H U) = x at hs
    cases hs with
    | control hw hslot | controlAborts hw hslot =>
      injection hk with e₁ _
      subst e₁
      rw [h.hand _ _ _ hw, h.slot _ hslot]
    | _ => cases hk

omit [DecidableEq A] [DecidableEq T] [Semaphore σ] in
theorem Routed.append {ls ls' : List (Label A T H U)} (h : Routed ls) (h' : Routed ls') :
    Routed (ls ++ ls') where
  client k hd msg hx := (List.mem_append.mp hx).elim (h.client k hd msg) (h'.client k hd msg)
  control msg st hx := (List.mem_append.mp hx).elim (h.control msg st) (h'.control msg st)

/-- **A handler is called with messages of its id**, as long as no queue gets the content of
another one while the worker has a record that points to it. -/
theorem routed_run {ls : List (Label A T H U)}
    (hr : Run ((moving mqControl capacity).restrict Label.Clear)
      (.initial mqControl capacity) ls s) : Routed ls := by
  refine (hr.history_invariant (S := (moving mqControl capacity).restrict Label.Clear)
    (P := fun ls s => Routed ls ∧ Routing s) (fun ls s x t h hs => ?_)
    ⟨⟨by simp, by simp⟩, routing_initial mqControl capacity⟩).1
  exact ⟨h.1.append (h.2.routed hs.2.2), h.2.step hs.2.1 hs.1 hs.2.2⟩

/-- A table with two slots. -/
abbrev two : State ℕ Unit Unit Unit ℕ := pool 2

/-- While the worker has the first message in its hands, the second one is moved out of its
queue and back. -/
theorem routed_two : ∃ ls s, Run ((moving 0 2).restrict Label.Clear) two ls s ∧
    .op (.moveAssign 1 2) .done ∈ ls ∧ .handle 1 () ⟨1, 8, .user ()⟩ ∈ ls ∧ Routed ls := by
  have hcall : Run (system 0 2) twoAdded.1
      (.op (.push 1 (some ⟨1, 7, .user ()⟩)) (.pushed .success none) ::
        .op (.push 1 (some ⟨1, 8, .user ()⟩)) (.pushed .success none) ::
        (taking 3 ⟨1, some 1, Flag.data⟩ ++ [])) _ :=
    .cons (.op _ rfl)
      (.cons (.op _ rfl)
      (run_taking rfl rfl (List.nodup_range (n := 3)) (by decide) rfl (by decide) ⟨_, rfl⟩
        (by exact List.forall_mem_cons.mpr ⟨⟨_, rfl⟩, List.forall_mem_singleton.mpr ⟨_, rfl⟩⟩)
      (.nil _)))
  have hmoving : Run (moving 0 2) two _ _ :=
    ((oneAdded 1).2.append (twoAdded.2.append hcall)).of_labels
      (by simp [allocating, taking, Label.PushesOrMoves, Label.Pushes, request?])
  have hclear : Run ((moving 0 2).restrict Label.Clear) two _ _ :=
    hmoving.of_labels (by simp [allocating, taking, Label.Clear])
  have hrun : Run ((moving 0 2).restrict Label.Clear) two (_ ++
      [.op (.moveAssign 2 1) .done, .op (.moveAssign 1 2) .done, .handle 1 () ⟨1, 7, .user ()⟩,
        .returned (.returned 0), .pop ⟨1, some 1, Flag.data⟩, .handle 1 () ⟨1, 8, .user ()⟩]) _ :=
    hclear.append
      (.cons ⟨by simp [Label.Clear, WorkerPc.records], ⟨rfl, rfl⟩, .op _ rfl⟩
      (.cons ⟨fun _ _ hrec _ _ => .inl (by rw [List.mem_singleton.mp hrec]; rfl), ⟨rfl, rfl⟩,
        .op _ rfl⟩
      (.cons ⟨trivial, trivial, .handle_call rfl rfl rfl⟩
      (.cons ⟨trivial, trivial, .returned _ rfl⟩
      (.cons ⟨trivial, trivial, .pop rfl rfl rfl⟩
      (.single ⟨trivial, trivial, .handle_call rfl rfl rfl⟩))))))
  exact ⟨_, _, hrun, by simp, by simp, routed_run hrun⟩

/-- **A move into a queue that the worker is about to pop from** brings the handler a message
of another queue. -/
theorem move_misroutes : ¬ ∀ ls s, Run (moving 0 2) two ls s → Routed ls := by
  intro h
  have hround : Run (system 0 2) twoAdded.1
      (.op (.push 1 (some ⟨1, 7, .user ()⟩)) (.pushed .success none) ::
        (taking 3 ⟨1, some 1, Flag.data⟩ ++ [.handle 1 () ⟨1, 7, .user ()⟩,
          .returned (.returned 0),
          .op (.push 2 (some ⟨2, 8, .user ()⟩)) (.pushed .success none)])) _ :=
    .cons (.op _ rfl)
      (run_taking rfl rfl (List.nodup_range (n := 3)) (by decide) rfl (by decide) ⟨_, rfl⟩
        (by exact List.forall_mem_cons.mpr ⟨⟨_, rfl⟩, List.forall_mem_singleton.mpr ⟨_, rfl⟩⟩)
      (.cons (.handle_call rfl rfl rfl)
      (.cons (.returned _ rfl)
      (.single (.op _ rfl)))))
  have hmoving : Run (moving 0 2) two _ _ :=
    ((oneAdded 1).2.append (twoAdded.2.append hround)).of_labels
      (by simp [allocating, taking, Label.PushesOrMoves, Label.Pushes, request?])
  have hrun : Run (moving 0 2) two (_ ++ [.op (.moveAssign 1 2) .done,
      .pop ⟨1, some 1, Flag.data⟩, .handle 1 () ⟨2, 8, .user ()⟩]) _ :=
    hmoving.append
      (.cons ⟨⟨rfl, rfl⟩, .op _ rfl⟩
      (.cons ⟨trivial, .pop rfl rfl rfl⟩
      (.single ⟨trivial, .handle_call rfl rfl rfl⟩)))
  have hmsg := (h _ _ hrun).client 1 () ⟨2, 8, .user ()⟩ (by simp)
  cases hmsg

end Mqmx.Pool

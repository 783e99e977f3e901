import Mqmx.Pool.Filled
import Mqmx.Pool.Routing

/-!
# The rounds of the worker

Between two polls the worker goes through one list of records, and the list is in the order of
the ids.  So within a round the handlers are called slot by slot, that of the control queue
first: `rounds_in_order`.  This holds for any use of the queues, moves included.

A request that makes the worker stop, pause or start again ends the round.
-/

namespace Mqmx.Pool

open Transition (Reachable Run)

variable {A T H U σ : Type}

/-- The slot whose handler the worker calls. -/
def Label.called? : Label A T H U → Option ℕ
  | .control _ _ => some controlMessageQueueId
  | .handle k _ _ => some k
  | .badCall k => some k
  | _ => none

structure InRound (recs : List (NotificationRec A)) (s : State A T H U σ) : Prop where
  polled : s.worker.poll? = none
  records : s.worker.records.Sublist recs

variable [DecidableEq A] [DecidableEq T] [Semaphore σ] {mqControl : A} {capacity : ℕ}
  {s t u : State A T H U σ} {x : Label A T H U} {recs : List (NotificationRec A)}

theorem InRound.step (h : InRound recs s) (hs : Step mqControl s x t) (hx : x ≠ .begin .worker) :
    InRound recs t where
  polled := by
    have hpolled := h.polled
    cases hs with
    | begin => exact absurd rfl hx
    | poll hw =>
      rw [hw] at hpolled
      cases hpolled
    | examine | control | returned => simp
    | take | again | pop | popNothing | controlAborts | handle | badCall | pause | resume => rfl
    | _ => exact hpolled
  records := by
    rcases hs.drops with hd | ⟨⟨range, hw⟩, -⟩
    · exact hd.records.trans h.records
    · have hpolled := h.polled
      rw [hw] at hpolled
      cases hpolled

theorem InRound.run {ls : List (Label A T H U)} (h : InRound recs s)
    (hr : Run (system mqControl capacity) s ls t) (hls : Label.begin .worker ∉ ls) :
    InRound recs t := by
  induction hr with
  | nil => exact h
  | cons hs _ ih =>
    rw [List.mem_cons, not_or] at hls
    exact ih (h.step hs fun e => hls.1 e.symm) hls.2

structure InSequence (s : State A T H U σ) : Prop where
  ordered : s.memory.Ordered
  ascending : Ascending s.worker.records
  control : s.handler[0]? = some (some .control)
  slot : ∀ k, s.handler[k]? = some (some .control) → k = controlMessageQueueId

theorem InSequence.step (h : InSequence s) (hs : Step mqControl s x t) : InSequence t where
  ordered := by
    rcases hs.memory with e | ⟨l, -, e⟩ | ⟨o, r, -, e⟩
    · rw [e]
      exact h.ordered
    · rw [e]
      intro k
      simp only [reset, Function.update_apply]
      split
      · exact ascending_nil
      · exact h.ordered k
    · exact e.ordered h.ordered
  ascending := by
    rcases hs.drops with hd | ⟨-, ⟨range, hw⟩, -, -⟩
    · exact h.ascending.sublist hd.records
    · rw [hw]
      exact h.ordered .worker
  control := by
    rcases hs.handler with ⟨e, -⟩ | ⟨v, hd, mq, -, -, -, e, -⟩
    · rw [e]
      exact h.control
    · rw [e, List.getElem?_set_ne (by unfold firstFree; omega)]
      exact h.control
  slot := hs.control_slot h.slot

theorem inSequence_reachable (hr : Reachable (system mqControl capacity) s) : InSequence s := by
  refine hr.invariant ?_ fun _ _ _ h hs => h.step hs
  rintro i rfl
  refine ⟨fun _ => ascending_nil, ascending_nil, rfl, ?_⟩
  intro k hk
  cases k with
  | zero => rfl
  | succ k =>
    simp [State.initial, List.getElem?_replicate] at hk

theorem InSequence.calls (h : InSequence s) (hs : Step mqControl s x t) {k : ℕ}
    (hk : x.called? = some k) : ∃ rec msg mqlist, s.worker = .call rec msg mqlist ∧ rec.qid = k ∧
      InRound (rec :: mqlist) t := by
  cases hs with
  | @control rec msg mqlist st mqs sem hw hc =>
    refine ⟨rec, msg, mqlist, hw, (h.slot _ hc).trans (Option.some.inj hk), by simp, ?_⟩
    cases st <;>
      first | exact List.Sublist.refl _ | exact List.sublist_cons_self _ _ |
        exact List.nil_sublist _
  | @controlAborts rec msg mqlist hw hc =>
    exact ⟨rec, msg, mqlist, hw, (h.slot _ hc).trans (Option.some.inj hk), rfl,
      List.nil_sublist _⟩
  | @handle rec msg mqlist _ hw =>
    exact ⟨rec, msg, mqlist, hw, Option.some.inj hk, rfl, List.Sublist.refl _⟩
  | @badCall rec msg mqlist hw =>
    exact ⟨rec, msg, mqlist, hw, Option.some.inj hk, rfl, List.sublist_cons_self _ _⟩
  | _ => cases hk

omit [DecidableEq T] in
theorem controlQueueHandler_status {m : PoolMemory A T U} {mqs mqs' : List A}
    {msg : Message (Body A T U)} {st : ExitStatus} {sem : Option T}
    (h : controlQueueHandler m mqs msg = some (st, mqs', sem)) (hne : st ≠ .success) :
    st = .haltRequested ∨ st = .pauseRequested ∨ st = .restartNeeded := by
  unfold controlQueueHandler at h
  split at h
  · cases h
    exact .inl rfl
  split at h
  · cases h
    exact .inr (.inl rfl)
  split at h
  · split at h
    · obtain ⟨_, -, e⟩ := Option.map_eq_some_iff.mp h
      cases e
      exact absurd rfl hne
    · cases h
  split at h
  · split at h
    · cases h
      exact .inr (.inr rfl)
    · cases h
  · cases h
    exact absurd rfl hne

theorem ends_round {msg : Message (Body A T U)} {st : ExitStatus}
    (hs : Step mqControl s (.control msg (some st)) t) (hne : st ≠ .success) :
    InRound ([] : List (NotificationRec A)) t := by
  cases hs with
  | control hw hc hst =>
    rcases controlQueueHandler_status hst hne with rfl | rfl | rfl
    · exact ⟨rfl, List.Sublist.refl _⟩
    · exact ⟨rfl, List.Sublist.refl _⟩
    · exact ⟨rfl, List.Sublist.refl _⟩

/-- **In a round the handlers are called in the order of their slots.**  No request is handled
after a client's message, and when a request has asked for a halt, a pause or another round,
nothing more is handled in this one. -/
theorem rounds_in_order {v : State A T H U σ} {y : Label A T H U} {ls : List (Label A T H U)}
    (hr : Reachable (system mqControl capacity) s) (hs : Step mqControl s x t)
    (hrun : Run (system mqControl capacity) t ls u) (hround : Label.begin .worker ∉ ls)
    (hs' : Step mqControl u y v) :
    (∀ k k', x.called? = some k → y.called? = some k' → k ≤ k') ∧
    (∀ k h msg msg' st, x = .handle k h msg → y ≠ .control msg' st) ∧
    (∀ msg st, x = .control msg (some st) → st ≠ .success → y.called? = none) := by
  have hord := inSequence_reachable hr
  have hord' : InSequence u :=
    hrun.invariant (P := InSequence) (fun _ _ _ h hs => h.step hs) (hord.step hs)
  have horder : ∀ k k', x.called? = some k → y.called? = some k' → k ≤ k' := by
    intro k k' hk hk'
    obtain ⟨rec, msg, mqlist, hw, rfl, hin⟩ := hord.calls hs hk
    obtain ⟨rec', msg', mqlist', hw', rfl, -⟩ := hord'.calls hs' hk'
    have hmem : rec' ∈ rec :: mqlist :=
      (hin.run hrun hround).records.subset (by rw [hw']; exact List.mem_cons_self)
    have hasc := hord.ascending
    rw [hw] at hasc
    rcases List.mem_cons.mp hmem with rfl | hmem
    · exact Nat.le_refl _
    · exact ((List.pairwise_cons.mp hasc).1 rec' hmem).le
  refine ⟨horder, ?_, ?_⟩
  · rintro k h msg msg' st rfl rfl
    -- the first slot has no client's handler
    obtain rfl : k = 0 := Nat.le_zero.mp (horder k _ rfl rfl)
    generalize hlabel : Label.handle 0 h msg = x at hs
    cases hs with
    | handle hw hh =>
      obtain ⟨hk, -, -⟩ := Label.handle.inj hlabel
      rw [← hk, hord.control] at hh
      cases hh
    | _ => cases hlabel
  · rintro msg st rfl hne
    by_contra hsome
    obtain ⟨k, hk⟩ := Option.ne_none_iff_exists'.mp hsome
    obtain ⟨rec, msg', mqlist, hw, -, -⟩ := hord'.calls hs' hk
    have hnil := ((ends_round hs hne).run hrun hround).records
    rw [hw] at hnil
    cases hnil

/-- A queue is taken in, and in the same round another one has a message. -/
theorem rounds_in_order_two : ∃ s t u v : State ℕ Unit Unit Unit ℕ,
    Reachable (system 0 2) s ∧
    Step 0 s (.control ⟨0, addQueueMessageId, .add 2 ()⟩ (some .success)) t ∧
    Run (system 0 2) t
      [.pop ⟨0, some 0, Flag.data⟩, .examine ⟨1, some 1, Flag.data⟩,
        .pop ⟨1, some 1, Flag.data⟩] u ∧
    Step 0 u (.handle 1 () ⟨1, 7, .user ()⟩) v ∧ controlMessageQueueId ≤ 1 := by
  have hround : Run (system 0 2) (oneAdded 1).1
      ([.allocate () () 2 2, .add () 2,
          .op (.push 1 (some ⟨1, 7, .user ()⟩)) (.pushed .success none), .begin .worker,
          .poll .worker, .poll .worker, .poll .worker, .poll .worker, .poll .worker,
          .poll .worker, .take, .examine ⟨0, some 0, Flag.data⟩, .pop ⟨0, some 0, Flag.data⟩] ++
        (.control ⟨0, addQueueMessageId, .add 2 ()⟩ (some .success) ::
          ([.pop ⟨0, some 0, Flag.data⟩, .examine ⟨1, some 1, Flag.data⟩,
            .pop ⟨1, some 1, Flag.data⟩] ++ [.handle 1 () ⟨1, 7, .user ()⟩]))) _ :=
    .cons (.allocate rfl (by decide) rfl)
      (.cons (.add rfl rfl)
      (.cons (.op _ rfl)
      (.cons (.begin rfl)
      (.cons (.poll rfl .attach)
      (.cons (.poll rfl .attach)
      (.cons (.poll rfl .ready)
      (.cons (.poll rfl (.wake rfl (List.cons_ne_nil _ _)))
      (.cons (.poll rfl .detach)
      (.cons (.poll rfl .detach)
      (.cons (.take rfl)
      (.cons (.examine rfl)
      (.cons (.pop rfl rfl rfl)
      (.cons (.control rfl rfl rfl)
      (.cons (.popNothing rfl (by rintro _ ⟨⟩ _ _ ⟨⟩))
      (.cons (.examine rfl)
      (.cons (.pop rfl rfl rfl)
      (.single (.handle_call rfl rfl rfl))))))))))))))))))
  obtain ⟨s, hs, hrest⟩ := Transition.Run.append_iff.mp hround
  obtain ⟨t, hx, hrest⟩ := Transition.Run.cons_iff.mp hrest
  obtain ⟨u, hu, hlast⟩ := Transition.Run.append_iff.mp hrest
  obtain ⟨v, hy, -⟩ := Transition.Run.cons_iff.mp hlast
  have hr : Reachable (system 0 2) s := ⟨_, _, rfl, (oneAdded 1).2.append hs⟩
  exact ⟨s, t, u, v, hr, hx, hu, hy, (rounds_in_order hr hx hu (by simp) hy).1 _ _ rfl rfl⟩

end Mqmx.Pool

import Mqmx.Testing.Completion

/-!
# The worker and one caller

`forwarding ω w σ T` is the work queue for tests while one caller is between the two
ends of `forward_time (T, true)` and nobody else does anything.

`owed_of_reachable`: in every reachable state the posts not yet taken and the forwarding
items not yet run are no more than the callers that wait.
-/

namespace Mqmx.Testing

open WorkQueue (Members Record Heap IsHeap Outcome Call)
open Transition (System)

variable {ω σ : Type} {w : ℕ} [Semaphore σ]

/-- What the caller of `forward_time (T, true)` still has to do once it has set the time. -/
inductive Caller (T : Int) : State ω w σ → Label ω w → State ω w σ → Prop
  | post (h : Heap (Work ω) w) (now : Int) {s : State ω w σ} {n : ℕ} :
      StdHeap.Algorithms.FrontStable h → s.worker ≠ .loop → s.posting = n + 1 →
      Caller T s (.postForwarding ((s.forwardingCall now T).run h s.queue).1)
        { s with
          queue := ((s.forwardingCall now T).run h s.queue).2
          posting := n
          waiting := waitingAfter s.waiting ((s.forwardingCall now T).run h s.queue).1 }
  | wait {s : State ω w σ} {c : σ} {n : ℕ} : s.waiting = n + 1 →
      Semaphore.wait s.timeForwardingCompleted = some c →
      Caller T s .completed { s with timeForwardingCompleted := c, waiting := n }

theorem Caller.step {T : Int} {s t : State ω w σ} {l : Label ω w} (h : Caller T s l t)
    (plus : Int → Int → Int) : Step StdHeap.Algorithms.FrontStable plus s l t := by
  cases h with
  | post h now hst hw hp => exact .postForwarding h now T hst hw hp
  | wait hn hc => exact .completed hn hc

/-- The worker and the caller alone, where time points are integers. -/
def forwarding (ω : Type) (w : ℕ) (σ : Type) [Semaphore σ] (T : Int) :
    System (State ω w σ) (Label ω w) where
  init := (workerOnly ω w σ (· + ·)).init
  step s l t := (workerOnly ω w σ (· + ·)).step s l t ∨ Caller T s l t

variable {lib : Heap (Work ω) w → Prop} {plus : Int → Int → Int}

/-! ### What is owed -/

theorem owed_worker {s t : State ω w σ} {l : Label ω w} (hi : Inv s) (hl : l.IsWorker)
    (hs : Step lib plus s l t) :
    owed t ≤ owed s ∧ t.posting = s.posting ∧ t.waiting = s.waiting := by
  rcases worker_cases hi hl hs with h | ⟨h, item, o, rest, u, -, he⟩ | ⟨-, rfl⟩
  · refine ⟨?_, h.posting, h.waiting⟩
    rw [owed, owed, h.items hi, h.completed]
  · obtain ⟨-, hposting, hwaiting, -⟩ := he.frame hi
    exact ⟨(he.balance hi (hi.step hs)).1, hposting, hwaiting⟩
  · exact ⟨by simp [owed, items], rfl, rfl⟩

/-! ### No more is owed than callers wait for -/

omit [Semaphore σ] in
theorem call_countP (h : Heap (Work ω) w) {q : Members (Work ω) w}
    (hh : IsHeap q.wqItemContainer) {c : Call (Work ω) w} (hc : Admits c) :
    (c.run h q).2.wqItemContainer.countP isForwarding ≤
      q.wqItemContainer.countP isForwarding := by
  have key : ∀ {reply : WorkQueue.Reply w} {v : List (Record (Work ω) w)},
      WorkQueue.Changes q c reply v →
        v.countP isForwarding ≤ q.wqItemContainer.countP isForwarding := by
    intro reply v hch
    cases hch with
    | removes hsub hp =>
      rw [hp.countP_eq]
      exact hsub.countP_le
    | @adds now st p cl id wk _ hp =>
      have hf : isForwarding (WorkQueue.scheduledItem now cl wk st p, id) = false :=
        isForwarding_of_user fun (hw : wk = _) => by rw [hw] at hc; exact hc
      rw [hp.countP_eq, List.countP_append, List.countP_singleton, hf]
      exact Nat.le_refl _
    | @replaces st p cl id wk old a b _ _ hv hp =>
      have hf : isForwarding ((⟨st, cl, wk, p⟩, id) : Record (Work ω) w) = false :=
        isForwarding_of_user fun (hw : wk = _) => by rw [hw] at hc; exact hc
      rw [hp.countP_eq, hv, List.countP_append, List.countP_append, List.countP_cons,
        List.countP_cons, hf]
      exact Nat.add_le_add_left (Nat.le_add_right _ _) _
    | stops => exact Nat.zero_le _
  exact key (WorkQueue.run_changes h hh c)

omit [Semaphore σ] in
/-- **The post of the item**, where the queue takes it and where not. -/
theorem forwardingCall_cases (h : Heap (Work ω) w) (now T : Int) (s : State ω w σ) :
    ((∀ id, ((s.forwardingCall now T).run h s.queue).1 ≠ .posted .success id) ∧
      ((s.forwardingCall now T).run h s.queue).2 = s.queue ∧
      (s.queue.workerStoppedFlag = false →
        s.timeForwardingClientId = WorkQueue.invalidClientId w)) ∨
    (s.queue.workerStoppedFlag = false ∧
      (∃ id, ((s.forwardingCall now T).run h s.queue).1 = .posted .success id) ∧
      ∃ item : Record (Work ω) w, isForwarding item = true ∧
        item.1.timePoint = (if isTimePointEmpty T then now else T) ∧
        ((s.forwardingCall now T).run h s.queue).2.wqItemContainer =
          h.pushHeap (s.queue.wqItemContainer ++ [item]) ∧
        ((s.forwardingCall now T).run h s.queue).2.workerStoppedFlag = false) := by
  simp only [State.forwardingCall, Call.run]
  rcases WorkQueue.scheduleWork_cases h s.queue now s.timeForwardingClientId
    (some Work.forwarding) T 0 with ⟨hb, e⟩ | ⟨-, hstop, e⟩ | ⟨-, hrun, e⟩
  · rw [e]
    refine .inl ⟨by simp, rfl, fun _ => hb.resolve_right (by simp)⟩
  · rw [e]
    exact .inl ⟨by simp, rfl, fun h0 => by rw [hstop] at h0; cases h0⟩
  · rw [e, WorkQueue.postWork_running h s.queue _ hrun]
    exact .inr ⟨hrun, ⟨_, rfl⟩, _, rfl, rfl, rfl, hrun⟩

theorem owed_post {s : State ω w σ} (hh : IsHeap s.queue.wqItemContainer) (h : Heap (Work ω) w)
    (now T : Int) (n m : ℕ) (hle : owed s ≤ s.waiting)
    (hm : m = waitingAfter s.waiting ((s.forwardingCall now T).run h s.queue).1) :
    owed { s with
      queue := ((s.forwardingCall now T).run h s.queue).2, posting := n, waiting := m } ≤ m := by
  rcases forwardingCall_cases h now T s with ⟨hno, hq, -⟩ | ⟨-, ⟨id, hid⟩, item, hf, -, hc, -⟩
  · have hwait : waitingAfter s.waiting ((s.forwardingCall now T).run h s.queue).1 = s.waiting := by
      unfold waitingAfter
      split
      · rename_i id' he
        exact absurd he (hno id')
      · rfl
    rw [hm, hwait, owed, items, hq]
    exact hle
  · rw [hm, hid, owed, items, hc, (h.pushHeap_perm hh).countP_eq, List.countP_append,
      List.countP_singleton, if_pos hf, ← Nat.add_assoc]
    exact Nat.add_le_add_right hle 1

/-- **No more is owed than callers wait for it**, in every reachable state. -/
theorem owed_of_reachable {s : State ω w σ}
    (hr : Transition.Reachable (system ω w σ lib plus) s) : owed s ≤ s.waiting := by
  have key : Inv s ∧ owed s ≤ s.waiting := by
    refine hr.invariant (P := fun s => Inv s ∧ owed s ≤ s.waiting) ?_ ?_
    · intro s hs
      refine ⟨inv_initial hs, ?_⟩
      obtain ⟨now, sync, rfl⟩ := hs
      simp [owed, items, State.initial, Members.initial, WorkQueue.getClientId]
    · rintro s l t ⟨hi, hle⟩ hs
      refine ⟨hi.step hs, ?_⟩
      by_cases hl : l.IsWorker
      · obtain ⟨howed, -, hwait⟩ := owed_worker hi hl hs
        omega
      cases hs with
      | call h c _ _ hc => exact Nat.le_trans (Nat.add_le_add_left (call_countP h hi.heap hc) _) hle
      | forwardTime tp _ => exact hle
      | setTime tp _ => exact hle
      | postForwarding h now tp => exact owed_post hi.heap h now tp _ _ hle rfl
      | completed hn hc =>
        have := Semaphore.value_wait _ _ hc
        simp only [owed, items] at hle ⊢
        omega
      | startWorker => exact hle
      | _ => exact absurd trivial hl
  exact key.2

end Mqmx.Testing

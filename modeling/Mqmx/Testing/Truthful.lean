import Mqmx.Testing.Caller

/-!
# What the return of `forward_time` says

`forward_time (tp, true)` returns when the semaphore has been posted, and that is done where
nothing is due.  But the semaphore does not say for whom it was posted.

`forward_time_truthful`: when nobody waited for it at the start of the call, there was an
instant during the call at which nothing was due, whatever the clients and other callers did
meanwhile.  A record at the epoch looks like no record there.
-/

namespace Mqmx.Testing

open WorkQueue (Record Heap Members)
open Transition (Run Reachable)

variable {ω σ : Type} {w : ℕ}

/-- Nothing is due, neither in the container nor in the hands of the worker. -/
def NothingDue (s : State ω w σ) : Prop :=
  ∀ r ∈ pending s, s.currentTimePoint < r.1.timePoint

def AtEpoch (s : State ω w σ) : Prop :=
  ∃ r ∈ s.queue.wqItemContainer, isTimePointEmpty r.1.timePoint

def Label.SetsTime : Label ω w → Prop
  | .setTime _ | .forwardTime _ => True
  | _ => False

variable [Semaphore σ] {lib : Heap (Work ω) w → Prop} {plus : Int → Int → Int}
  {s t : State ω w σ} {l : Label ω w}

theorem Executes.post {h : Heap (Work ω) w} {item : Record (Work ω) w} {o : WorkQueue.Outcome}
    {rest u : List (Record (Work ω) w)} (he : Executes s l t plus h item o rest u) (hi : Inv s)
    (hc : t.queue.wqItemContainer = u) (hin : inHand t.worker = [])
    (hnear : isTimePointEmpty (WorkQueue.getNearestTimePoint (s.setContainer u).queue) ∨
      s.currentTimePoint < WorkQueue.getNearestTimePoint (s.setContainer u).queue) :
    NothingDue t ∨ AtEpoch t := by
  have hnow := (he.frame hi).1
  have hpend : Testing.pending t = u := by rw [Testing.pending, hin, List.append_nil, hc]
  have hheap := he.heap
  cases u with
  | nil =>
    left
    intro r hr
    rw [hpend] at hr
    cases hr
  | cons front u =>
    rcases hnear with hempty | hlt
    · exact .inr ⟨front, hc ▸ List.mem_cons_self, hempty⟩
    · left
      intro r hr
      rw [hpend] at hr
      rw [hnow]
      exact Int.lt_of_lt_of_le hlt (WorkQueue.front_le hheap r hr)

/-- A semaphore at zero is posted only where nothing is due. -/
theorem Inv.posted (hi : Inv s) (hs : Step lib plus s l t)
    (h0 : Semaphore.value s.timeForwardingCompleted = 0) :
    Semaphore.value t.timeForwardingCompleted = 0 ∨ NothingDue t ∨ AtEpoch t := by
  by_cases hl : l.IsWorker
  · rcases worker_cases hi hl hs with h | ⟨h, item, o, rest, u, -, he⟩ | ⟨-, rfl⟩
    · exact .inl (by rw [h.completed, h0])
    · rcases he.cases hi with ⟨-, e, -⟩ | ⟨-, -, hc, hin, hnear⟩ | ⟨-, e, -⟩
      · exact .inl (by rw [e, h0])
      · exact .inr (he.post hi hc hin hnear)
      · exact .inl (by rw [e, h0])
    · exact .inl h0
  · cases hs with
    | completed _ hc =>
      have := Semaphore.value_wait _ _ hc
      omega
    | call | forwardTime | setTime | postForwarding | startWorker => exact .inl h0
    | _ => exact absurd trivial hl

theorem currentTimePoint_step (hi : Inv s) (hs : Step lib plus s l t) (hl : ¬ l.SetsTime) :
    t.currentTimePoint = s.currentTimePoint := by
  by_cases hw : l.IsWorker
  · rcases worker_cases hi hw hs with h | ⟨h, item, o, rest, u, -, he⟩ | ⟨-, rfl⟩
    · exact h.time
    · exact (he.frame hi).1
    · rfl
  · cases hs with
    | call | postForwarding | completed | startWorker => rfl
    | forwardTime | setTime => exact absurd trivial hl
    | _ => exact absurd trivial hw

/-- In the run there was an instant at which nothing was due, at the time `tp` if the clock was
not set until then. -/
def Seen (lib : Heap (Work ω) w → Prop) (plus : Int → Int → Int) (tp : Int) (s : State ω w σ)
    (ls : List (Label ω w)) (t : State ω w σ) : Prop :=
  ∃ ls₁ ls₂ u, ls = ls₁ ++ ls₂ ∧ Run (system ω w σ lib plus) s ls₁ u ∧
    Run (system ω w σ lib plus) u ls₂ t ∧ (NothingDue u ∨ AtEpoch u) ∧
    ((∀ x ∈ ls₁, ¬ x.SetsTime) → u.currentTimePoint = tp)

theorem Seen.snoc {tp : Int} {u : State ω w σ} {ls : List (Label ω w)}
    (h : Seen lib plus tp s ls t) (hs : Step lib plus t l u) :
    Seen lib plus tp s (ls ++ [l]) u := by
  obtain ⟨ls₁, ls₂, v, rfl, h₁, h₂, hv⟩ := h
  exact ⟨ls₁, ls₂ ++ [l], v, List.append_assoc .., h₁, h₂.snoc hs, hv⟩

/-- What holds during the call. -/
structure During (lib : Heap (Work ω) w → Prop) (plus : Int → Int → Int) (tp : Int)
    (s : State ω w σ) (ls : List (Label ω w)) (t : State ω w σ) : Prop where
  run : Run (system ω w σ lib plus) s ls t
  inv : Inv t
  time : (∀ x ∈ ls, ¬ x.SetsTime) → t.currentTimePoint = tp
  seen : Semaphore.value t.timeForwardingCompleted = 0 ∨ Seen lib plus tp s ls t

theorem During.step {tp : Int} {u : State ω w σ} {ls : List (Label ω w)}
    (h : During lib plus tp s ls t) (hs : Step lib plus t l u) :
    During lib plus tp s (ls ++ [l]) u := by
  have htime : (∀ x ∈ ls ++ [l], ¬ x.SetsTime) → u.currentTimePoint = tp := by
    intro hno
    rw [List.forall_mem_append, List.forall_mem_singleton] at hno
    rw [currentTimePoint_step h.inv hs hno.2]
    exact h.time hno.1
  refine ⟨h.run.snoc hs, h.inv.step hs, htime, ?_⟩
  rcases h.seen with h0 | hseen
  · rcases h.inv.posted hs h0 with h0' | hnow
    · exact .inl h0'
    · exact .inr ⟨ls ++ [l], [], u, (List.append_nil _).symm, h.run.snoc hs, .nil u, hnow, htime⟩
  · exact .inr (hseen.snoc hs)

/-- **A call of `forward_time` that returns tells the truth**, when nobody waited at its start:
there was an instant during the call at which nothing was due. -/
theorem forward_time_truthful {tp : Int} {u v : State ω w σ} {ls : List (Label ω w)}
    (hr : Reachable (system ω w σ lib plus) s) (halone : s.waiting = 0)
    (hs : Step lib plus s (.setTime tp) t) (hrun : Run (system ω w σ lib plus) t ls u)
    (hs' : Step lib plus u .completed v) : Seen lib plus tp t ls u := by
  have hi := inv_of_reachable hr
  have howed := owed_of_reachable hr
  -- no post is left over from an earlier call
  have h0 : Semaphore.value s.timeForwardingCompleted = 0 := by
    unfold owed at howed
    omega
  have ht : t.currentTimePoint = tp ∧ t.timeForwardingCompleted = s.timeForwardingCompleted := by
    cases hs with
    | setTime => exact ⟨rfl, rfl⟩
  have hduring : During lib plus tp t ls u :=
    hrun.history_invariant (P := During lib plus tp t) (fun _ _ _ _ h hx => h.step hx)
      ⟨.nil t, hi.step hs, fun _ => ht.1, .inl (by rw [ht.2, h0])⟩
  refine hduring.seen.resolve_left fun hzero => ?_
  cases hs' with
  | completed _ hc =>
    have := Semaphore.value_wait _ _ hc
    omega

/-- A work for every tick from `5` on runs three times, and the item of the one caller twice. -/
theorem forward_time_truthful_upToSeven : ∃ ls u,
    Seen StdHeap.Algorithms.FrontStable (· + ·) 7
      { withWork 5 1 (startedAt 5) with currentTimePoint := 7, posting := 1 } ls u := by
  have hlib := StdHeap.Algorithms.sift_frontStable
    (WorkQueue.recordCompare_strictWeak (ω := Work Unit) (w := 64))
  have hrun : Run (system Unit 64 ℕ StdHeap.Algorithms.FrontStable (· + ·))
      { withWork 5 1 (startedAt 5) with currentTimePoint := 7, posting := 1 }
      [.postForwarding (.posted .success 1), .lock,
        .execute (⟨5, 1, some (.user ()), 1⟩, 0) (.returned true),
        .execute (⟨6, 1, some (.user ()), 1⟩, 0) (.returned true),
        .execute (⟨7, 0, some .forwarding, 0⟩, 1) (.returned false),
        .execute (⟨7, 1, some (.user ()), 1⟩, 0) (.returned true),
        .execute (⟨7, 0, some .forwarding, 0⟩, 1) (.returned false)] _ :=
    .cons (.postForwarding (WorkQueue.siftHeap (Work Unit) 64) 7 7 hlib (by decide) rfl)
      (.cons (.lock rfl)
      (.cons (.execute (WorkQueue.siftHeap (Work Unit) 64) (.returned true) hlib rfl rfl
        (Option.some_ne_none _) (by decide) rfl)
      (.cons (.execute (WorkQueue.siftHeap (Work Unit) 64) (.returned true) hlib rfl rfl
        (Option.some_ne_none _) (by decide) rfl)
      (.cons (.execute (WorkQueue.siftHeap (Work Unit) 64) (.returned false) hlib rfl rfl
        (Option.some_ne_none _) (by decide) rfl)
      (.cons (.execute (WorkQueue.siftHeap (Work Unit) 64) (.returned true) hlib rfl rfl
        (Option.some_ne_none _) (by decide) rfl)
      (.single (.execute (WorkQueue.siftHeap (Work Unit) 64) (.returned false) hlib rfl rfl
        (Option.some_ne_none _) (by decide) rfl)))))))
  exact ⟨_, _, forward_time_truthful
    (withWork_reachable (startedAt_reachable (· + ·) 5) (by decide) 5 1) rfl
    (.setTime 7 (by decide)) hrun (.completed (n := 0) (c := 0) rfl rfl)⟩

end Mqmx.Testing

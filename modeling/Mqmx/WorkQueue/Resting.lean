import Mqmx.WorkQueue.System

/-!
# The worker at rest

Between two calls the worker of a running queue goes to sleep: `resting n now v` is
the state in which it has looked at the container `v` and waits, with nothing
signalled.  The runs below lead from rest to rest, and each shows its observer one
event, or none:

* `resting_call`: a client's call, after which the worker looks again.
* `resting_execute`: the front is run and put back, in one step.
* `resting_tick` and `resting_start`.

Since the heap algorithms may be any, `resting_execute` can end in whatever heap of
the right records one asks for.
-/

namespace Mqmx.WorkQueue

open Transition (Run trace)

variable {ω : Type} {w : ℕ}

/-- What a client sees of a run. -/
inductive Event (ω : Type) (w : ℕ)
  | call (c : Call ω w) (reply : Reply w)
  | executed (item : Record ω w) (outcome : Outcome)
  deriving DecidableEq

def event : Label ω w → Option (Event ω w)
  | .call c reply => some (.call c reply)
  | .execute item outcome => some (.executed item outcome)
  | _ => none

/-- The five calls a client makes about works. -/
def Call.IsClient : Call ω w → Prop
  | .scheduleWork .. | .updateWork .. | .cancelWork _ | .cancelClientWorks _ | .isIdle => True
  | _ => False

/-- The worker has gone to sleep on the container `v`. -/
def resting (n : BitVec w) (now : Int) (v : List (Record ω w)) : State ω w where
  queue := { (Members.initial : Members ω w) with
    nextWorkId := n, wqItemContainer := v, workerStoppedFlag := false }
  worker := match v with
    | [] => .waitForSomeWork
    | front :: _ => .waitForTimePoint front.1.timePoint
  now := now

theorem resting_ne_loop (n : BitVec w) (now : Int) (v : List (Record ω w)) :
    (resting n now v).worker ≠ .loop := by
  cases v <;> simp [resting]

/-! ### Calls -/

/-- **What a client's call does at most**: it changes the container and the id counter,
signals that, and does not leave an empty container where it found one. -/
theorem run_client {h : Heap ω w} {q : Members ω w} {c : Call ω w} (hc : c.IsClient) :
    (c.run h q).2 = q ∨
      (q.workerStoppedFlag = false ∧ ∃ n v,
        (c.run h q).2 = signalContainerChange { q with nextWorkId := n, wqItemContainer := v } ∧
          (q.wqItemContainer = [] → IsHeap q.wqItemContainer → v ≠ [])) := by
  cases c with
  | scheduleWork now cl wk st p =>
    rcases scheduleWork_cases h q now cl wk st p with ⟨-, e⟩ | ⟨-, -, e⟩ | ⟨-, hs, e⟩
    · exact .inl (by simp [Call.run, e])
    · exact .inl (by simp [Call.run, e])
    · refine .inr ⟨hs, _, _, by simp only [Call.run, e, postWork_running h q _ hs]; rfl, ?_⟩
      intro _ hh hnil
      have hperm := h.pushHeap_perm
        (x := (scheduledItem now cl wk st p, nextId (invalidWorkId w) q.nextWorkId)) hh
      rw [hnil] at hperm
      simpa using hperm.length_eq
  | updateWork id cl wk st p =>
    rcases updateWork_cases h q id cl wk st p with
      ⟨-, e⟩ | ⟨-, -, e⟩ | ⟨-, -, -, e⟩ | ⟨-, hs, a, old, b, hv, e⟩
    · exact .inl (by simp [Call.run, e])
    · exact .inl (by simp [Call.run, e])
    · exact .inl (by simp [Call.run, e])
    · exact .inr ⟨hs, _, _, by simp only [Call.run, e]; rfl,
        fun hnil _ => by simp [hnil] at hv⟩
  | cancelWork id =>
    rcases cancelWork_cases h q id with ⟨-, e⟩ | ⟨-, -, e⟩ | ⟨hs, a, old, b, v, hv, -, e⟩
    · exact .inl (by simp [Call.run, e])
    · exact .inl (by simp [Call.run, e])
    · exact .inr ⟨hs, _, _, by simp only [Call.run, e]; rfl,
        fun hnil _ => by simp [hnil] at hv⟩
  | cancelClientWorks cl =>
    rcases cancelClientWorks_cases h q cl with ⟨-, e⟩ | ⟨-, -, e⟩ | ⟨hs, ⟨r, hr, -⟩, e⟩
    · exact .inl (by simp [Call.run, e])
    · exact .inl (by simp [Call.run, e])
    · exact .inr ⟨hs, _, _, by simp only [Call.run, e]; rfl,
        fun hnil _ => by simp [hnil] at hr⟩
  | isIdle => exact .inl rfl
  | getNearestTimePoint => exact absurd hc id
  | getClientId => exact absurd hc id
  | signalWorkerToStop => exact absurd hc id

/-- A client's call reads and changes nothing but the container, the id counter and the
stopped flag. -/
theorem run_congr {h : Heap ω w} {q p : Members ω w} {c : Call ω w} (hc : c.IsClient)
    (hn : p.nextWorkId = q.nextWorkId) (hv : p.wqItemContainer = q.wqItemContainer)
    (hs : p.workerStoppedFlag = q.workerStoppedFlag) :
    (c.run h p).1 = (c.run h q).1 ∧ (c.run h p).2.nextWorkId = (c.run h q).2.nextWorkId ∧
      (c.run h p).2.wqItemContainer = (c.run h q).2.wqItemContainer := by
  cases q
  cases p
  subst hn hv hs
  cases c with
  | scheduleWork now cl wk st d =>
    simp only [Call.run, scheduleWork, postWork, signalContainerChange]
    split_ifs <;> exact ⟨rfl, rfl, rfl⟩
  | updateWork id cl wk st d =>
    simp only [Call.run, updateWork, makeHeapAndNotifyWorker, signalContainerChange]
    split_ifs
    · exact ⟨rfl, rfl, rfl⟩
    · exact ⟨rfl, rfl, rfl⟩
    · split <;> exact ⟨rfl, rfl, rfl⟩
  | cancelWork id =>
    simp only [Call.run, cancelWork, makeHeapAndNotifyWorker, signalContainerChange]
    split_ifs
    · exact ⟨rfl, rfl, rfl⟩
    · split <;> exact ⟨rfl, rfl, rfl⟩
  | cancelClientWorks cl =>
    simp only [Call.run, cancelClientWorks, makeHeapAndNotifyWorker, signalContainerChange]
    split_ifs
    · exact ⟨rfl, rfl, rfl⟩
    · split <;> exact ⟨rfl, rfl, rfl⟩
  | isIdle => exact ⟨rfl, rfl, rfl⟩
  | getNearestTimePoint => exact absurd hc id
  | getClientId => exact absurd hc id
  | signalWorkerToStop => exact absurd hc id

theorem run_mem {h : Heap ω w} {q : Members ω w} {c : Call ω w} {r : Record ω w}
    (hc : c.IsClient) (hh : IsHeap q.wqItemContainer)
    (hr : r ∈ (c.run h q).2.wqItemContainer) :
    r ∈ q.wqItemContainer ∨
      (∃ now cl wk st p, c = .scheduleWork now cl wk st p ∧
        (c.run h q).1 = .posted .success r.2 ∧ r.1.work = wk) ∨
      (∃ cl wk st p, c = .updateWork r.2 cl wk st p ∧ r.2 ∈ ids q.wqItemContainer ∧
        r.1.work = wk) := by
  have key : ∀ {reply : Reply w} {v : List (Record ω w)}, Changes q c reply v → r ∈ v →
      r ∈ q.wqItemContainer ∨
        (∃ now cl wk st p, c = .scheduleWork now cl wk st p ∧
          reply = .posted .success r.2 ∧ r.1.work = wk) ∨
        (∃ cl wk st p, c = .updateWork r.2 cl wk st p ∧ r.2 ∈ ids q.wqItemContainer ∧
          r.1.work = wk) := by
    intro reply v hch hrv
    cases hch with
    | removes hsub hp => exact .inl (hsub.subset (hp.mem_iff.mp hrv))
    | adds hp =>
      rcases List.mem_append.mp (hp.mem_iff.mp hrv) with hm | hm
      · exact .inl hm
      · rw [List.mem_singleton.mp hm]
        exact .inr (.inl ⟨_, _, _, _, _, rfl, rfl, rfl⟩)
    | replaces _ hv hp =>
      rcases List.mem_append.mp (hp.mem_iff.mp hrv) with hm | hm
      · exact .inl (hv ▸ List.mem_append_left _ hm)
      rcases List.mem_cons.mp hm with rfl | hm
      · exact .inr (.inr ⟨_, _, _, _, rfl, by simp [hv], rfl⟩)
      · exact .inl (hv ▸ List.mem_append_right _ (List.mem_cons_of_mem _ hm))
    | stops => exact absurd hc id
  exact key (run_changes h hh c) hr

/-! ### From rest to rest -/

variable (plus : Int → Int → Int)

theorem settle (n : BitVec w) (now : Int) (v : List (Record ω w)) (pending : Bool)
    (hworks : ∀ r ∈ v, r.1.work ≠ none) :
    ∃ m, Run (system ω w plus)
      { resting n now v with
        queue := { (resting n now v).queue with wakeUpPending := pending }, worker := .loop }
      m (resting n now v) ∧ trace event m = [] := by
  cases v with
  | nil => exact ⟨[.waitForWork], .single (Step.waitForWork rfl rfl), rfl⟩
  | cons front rest =>
    exact ⟨[.waitForTime], .single (Step.waitForTime rfl (rfl : _ = front :: rest)
      (hworks front List.mem_cons_self) rfl), rfl⟩

theorem settle_signalled (n n' : BitVec w) (now : Int) (u v : List (Record ω w))
    (hne : u = [] → v ≠ []) (hworks : ∀ r ∈ v, r.1.work ≠ none) :
    ∃ m, Run (system ω w plus)
      { resting n now u with queue := signalContainerChange (resting n' now v).queue }
      m (resting n' now v) ∧ trace event m = [] := by
  obtain ⟨m, hm, em⟩ := settle plus n' now v true hworks
  cases u with
  | nil =>
    obtain ⟨front, rest, rfl⟩ := List.exists_cons_of_ne_nil (hne rfl)
    refine ⟨.wake :: .restart :: m, .cons (Step.wake rfl) (.cons (Step.restart rfl
      (rfl : _ = front :: rest) (hworks front List.mem_cons_self) rfl) hm), ?_⟩
    simpa [trace, event] using em
  | cons front rest =>
    refine ⟨.changed :: m, .cons (Step.changed (d := front.1.timePoint) rfl rfl) hm, ?_⟩
    simpa [trace, event] using em

theorem resting_call {h : Heap ω w} {n : BitVec w} {now : Int} {v : List (Record ω w)}
    {c : Call ω w} (hc : c.IsClient) (hread : c.ReadBefore now) (hh : IsHeap v)
    (hworks : ∀ r ∈ v, r.1.work ≠ none) :
    ∃ m, Run (system ω w plus) (resting n now v) m
      (resting (c.run h (resting n now v).queue).2.nextWorkId now
        (c.run h (resting n now v).queue).2.wqItemContainer) ∧
      trace event m = [.call c (c.run h (resting n now v).queue).1] := by
  have hstep : Step plus _ _ _ :=
    Step.call (s := resting n now v) h c (resting_ne_loop n now v) hread
  have hworks' := (run_edit h (resting n now v).queue c).works hh (fun _ => hworks)
  rcases run_client (h := h) (q := (resting n now v).queue) hc with e | ⟨-, n', v', e, hne⟩
  · rw [e] at hstep ⊢
    exact ⟨_, .single hstep, rfl⟩
  · rw [e] at hstep hworks' ⊢
    obtain ⟨m, hm, em⟩ := settle_signalled plus n n' now v v' (fun h0 => hne h0 hh)
      (hworks' rfl)
    refine ⟨_ :: m, .cons hstep hm, ?_⟩
    rw [Transition.trace_cons, em]
    rfl

theorem resting_tick (n : BitVec w) {now now' : Int} (v : List (Record ω w)) (h : now ≤ now') :
    Run (system ω w plus) (resting n now v) [.tick] (resting n now' v) :=
  .single (Step.tick (s := resting n now v) now' h)

theorem popRecord_of_popHeap {h : Heap ω w} {q : Members ω w} {front : Record ω w}
    {u : List (Record ω w)} (e : h.popHeap q.wqItemContainer = u ++ [front]) :
    popRecord h q = some (front, { q with wqItemContainer := u }) := by
  simp [popRecord, e]

/-- The heap algorithms can be such that a front is run and leaves the heap `B`. -/
theorem exists_iteration {q : Members ω w} {front : Record ω w} {rest B : List (Record ω w)}
    {tp : Int} (hc : q.wqItemContainer = front :: rest) (hB : IsHeap B)
    (hperm : B.Perm (rest ++ if isTimePointEmpty tp then []
      else [({ front.1 with timePoint := tp }, front.2)])) :
    ∃ (h : Heap ω w) (q' : Members ω w), popRecord h q = some (front, q') ∧
      reschedule h front tp q' = { q with wqItemContainer := B } := by
  by_cases htp : isTimePointEmpty tp
  · rw [if_pos htp, List.append_nil] at hperm
    obtain ⟨h, -, hpop, -⟩ := StdHeap.exists_algorithms (siftHeap ω w) (a := []) (x := front)
      (y := front) (c := []) (List.Perm.refl _) (StdHeap.isHeap_singleton front) hperm hB
      (List.Perm.refl []) StdHeap.isHeap_nil
    exact ⟨h, _, popRecord_of_popHeap (hc ▸ hpop), if_pos htp⟩
  · rw [if_neg htp] at hperm
    have hu := (siftHeap ω w).makeHeap_perm rest
    obtain ⟨h, hpush, hpop, -⟩ := StdHeap.exists_algorithms (siftHeap ω w) (y := front) (c := [])
      (hperm.trans (hu.symm.append_right _)) hB hu ((siftHeap ω w).makeHeap_isHeap rest)
      (List.Perm.refl []) StdHeap.isHeap_nil
    refine ⟨h, _, popRecord_of_popHeap (hc ▸ hpop), ?_⟩
    rw [reschedule, if_neg htp, hpush]

/-- **An execution, from rest to rest**, and into any heap of the records left. -/
theorem resting_execute {n : BitVec w} {now : Int} {front : Record ω w}
    {rest B : List (Record ω w)} {o : Outcome} (hworks : ∀ r ∈ front :: rest, r.1.work ≠ none)
    (hdue : front.1.timePoint ≤ now) (hB : IsHeap B)
    (hperm : B.Perm (rest ++ if isTimePointEmpty (executeWork plus front o) then []
      else [({ front.1 with timePoint := executeWork plus front o }, front.2)])) :
    ∃ m, Run (system ω w plus) (resting n now (front :: rest)) m (resting n now B) ∧
      trace event m = [.executed front o] := by
  obtain ⟨h, q', hpop, hq'⟩ :=
    exists_iteration (q := (resting n now (front :: rest)).queue) rfl hB hperm
  have hfront : front.1.work ≠ none := hworks front List.mem_cons_self
  have hstep : Step plus _ _ _ :=
    Step.execute (s := resting n now (front :: rest)) h o rfl rfl hdue (List.cons_ne_nil _ _) hpop
      fun h0 => absurd h0 hfront
  have hworksB : ∀ r ∈ B, r.1.work ≠ none := by
    intro r hr
    rcases List.mem_append.mp (hperm.mem_iff.mp hr) with hm | hm
    · exact hworks r (List.mem_cons_of_mem _ hm)
    · split at hm
      · simp at hm
      · rw [List.mem_singleton.mp hm]; exact hfront
  obtain ⟨m, hm, em⟩ := settle plus n now B false hworksB
  rw [hq'] at hstep
  refine ⟨_ :: m, .cons hstep hm, ?_⟩
  rw [Transition.trace_cons, em]
  rfl

theorem resting_start (now : Int) :
    ∃ m, Run (system ω w plus) ⟨Members.initial, .notStarted, now⟩ m
      (resting (invalidWorkId w) now []) ∧ trace event m = [] := by
  obtain ⟨m, hm, em⟩ := settle plus (ω := ω) (invalidWorkId w) now [] false (by simp)
  refine ⟨.startWorker :: .lock :: m, .cons (Step.startWorker (.inl rfl) rfl)
    (.cons (Step.lock rfl) hm), ?_⟩
  simpa [trace, event] using em

end Mqmx.WorkQueue

import Mqmx.Testing.Forwarding
import Mqmx.WorkQueue.Stopping

/-!
# Stopping the work queue for tests

A stop can come while the worker has let the mutex go for the synchronization callback.  The
container has the terminator then, and the worker puts the record in its hands beside it.  As
long as time points are after the epoch, which is the terminator's, the terminator is the
front: `Stopping.syncReturn`.

`stopped_cleanly` is about both queues.
-/

namespace Mqmx.Testing

open WorkQueue (Members Record Call Reply Heap IsHeap Outcome WqItem)
open Transition (Run)

variable {ω σ : Type} {w : ℕ}

/-! ### Records come from calls -/

def State.Without (P : Record (Work ω) w → Prop) (s : State ω w σ) : Prop :=
  ∀ r ∈ pending s, r.1.work ≠ none → ¬ P r

def Keeps (plus : Int → Int → Int) (P : Record (Work ω) w → Prop) : Prop :=
  ∀ item now tp, NextTime plus item now tp → ¬ P item → ∀ r ∈ again item tp, ¬ P r

theorem keeps_of_timeless {P : Record (Work ω) w → Prop} (hP : WorkQueue.Timeless P)
    (plus : Int → Int → Int) : Keeps plus P := by
  intro item now tp _ hno r hr hp
  rw [(mem_again hr).2] at hp
  exact hno (hP item tp hp)

section Without

variable {P : Record (Work ω) w → Prop} {s t : State ω w σ}

theorem State.Without.container (h : s.Without P) : s.queue.Without P :=
  fun r hr => h r (List.mem_append_left _ hr)

theorem State.Without.append (hc : s.queue.Without P)
    (hh : ∀ r ∈ inHand s.worker, r.1.work ≠ none → ¬ P r) : s.Without P :=
  fun r hr => (List.mem_append.mp hr).elim (hc r) (hh r)

variable [Semaphore σ] {lib : Heap (Work ω) w → Prop} {plus : Int → Int → Int}
  {l : Label ω w}

/-- **A step puts in no record but that of a call.** -/
theorem State.Without.step (hP : Keeps plus P) (hi : Inv s) (hq : s.Without P)
    (hs : Step lib plus s l t) : t.Without P ∨
      ∃ c reply, WorkQueue.Puts P s.queue c reply ∧ (l = .call c reply ∨
        (l = .postForwarding reply ∧ ∃ now tp, c = s.forwardingCall now tp)) := by
  have hand : ∀ r ∈ inHand s.worker, r.1.work ≠ none → ¬ P r :=
    fun r hr => hq r (List.mem_append_right _ hr)
  cases hs with
  | call h c =>
    rcases hq.container.call h hi.heap c with hc | hput
    · exact .inl (.append hc hand)
    · exact .inr ⟨c, _, hput, .inl rfl⟩
  | postForwarding h now tp =>
    rcases hq.container.call h hi.heap (s.forwardingCall now tp) with hc | hput
    · exact .inl (.append hc hand)
    · exact .inr ⟨_, _, hput, .inr ⟨rfl, now, tp, rfl⟩⟩
  | forwardTime | setTime | completed | restart | spurious => exact .inl (.append hq.container hand)
  | startWorker | lock | waitForWork | waitForTime | wake | changed =>
    exact .inl (.append hq.container fun r hr => by cases hr)
  | exit => exact .inl (.append (fun r hr => by cases hr) fun r hr => by cases hr)
  | @execute h o _ front item rest q _ hw hc hwork _ hp =>
    obtain ⟨rest', u, hc', rfl, hperm, hheap⟩ :=
      WorkQueue.popRecord_eq_some hi.heap (by simp [hc]) hp
    obtain ⟨rfl, rfl⟩ := List.cons.inj (hc.symm.trans hc')
    have hfront : ¬ P front := hq.container front (by rw [hc]; exact List.mem_cons_self) hwork
    obtain ⟨tp, hnext, hpend⟩ :=
      executeWork_pending h plus front o (s := s.setContainer u) hi.flag hheap
    refine .inl fun r hr hr' => ?_
    rcases List.mem_append.mp (hpend.mem_iff.mp hr) with hr | hr
    · refine hq.container r ?_ hr'
      rw [hc]
      exact List.mem_cons_of_mem _ (hperm.mem_iff.mp hr)
    · exact hP front _ tp hnext hfront r hr
  | @syncReturn h _ item tp _ hw =>
    refine .inl fun r hr => hq r ?_
    have hperm := (finish_pending h item tp hi.heap).2
    rw [pending, hw]
    exact hperm.mem_iff.mp hr

end Without

/-! ### Time points after the epoch -/

/-- The time point of the record that the call posts or changes is after the epoch. -/
def Label.AfterEpoch : Label ω w → Prop
  | .call (.scheduleWork now c wk st p) _ => 0 < (WorkQueue.scheduledItem now c wk st p).timePoint
  | .call (.updateWork _ _ _ st _) _ => 0 < st
  | _ => True

def Early (r : Record (Work ω) w) : Prop := r.1.work ≠ some .forwarding ∧ r.1.timePoint ≤ 0

def afterEpoch (ω : Type) (w : ℕ) (σ : Type) [Semaphore σ] (lib : Heap (Work ω) w → Prop)
    (plus : Int → Int → Int) : Transition.System (State ω w σ) (Label ω w) :=
  (system ω w σ lib plus).restrict fun _ l => l.AfterEpoch

section Epoch

variable {plus : Int → Int → Int}

theorem keeps_early (hplus : ∀ a b, 0 < a → 0 < b → 0 < plus a b) :
    Keeps plus (Early : Record (Work ω) w → Prop) := by
  rintro item now tp hnext hno r hr ⟨hwork, hle⟩
  obtain ⟨htp, rfl⟩ := mem_again hr
  have hwork : item.1.work ≠ some .forwarding := hwork
  have hpos : 0 < item.1.timePoint := by
    by_contra hle'
    exact hno ⟨hwork, by omega⟩
  have hle : tp ≤ 0 := hle
  rcases hnext with ⟨-, o, rfl⟩ | ⟨hf, -⟩
  · -- only a work with a period is put back
    cases o with
    | threw => exact htp rfl
    | returned b =>
      cases b with
      | false => exact htp rfl
      | true =>
        rw [WorkQueue.executeWork] at hle htp
        split at hle
        · rename_i hper
          have := hplus _ _ hpos hper
          omega
        · rename_i hper
          rw [if_neg hper] at htp
          exact htp rfl
  · exact hwork hf

variable [Semaphore σ] {lib : Heap (Work ω) w → Prop} {s : State ω w σ}

/-- **No pending record of a user is early.** -/
theorem without_early (hplus : ∀ a b, 0 < a → 0 < b → 0 < plus a b)
    (hr : Transition.Reachable (afterEpoch ω w σ lib plus) s) : Inv s ∧ s.Without Early := by
  refine hr.invariant (P := fun s => Inv s ∧ s.Without Early) (fun i hi => ?_)
    (fun s l t hs hl => ?_)
  · have hinit : (system ω w σ lib plus).init i := hi
    refine ⟨inv_initial hinit, ?_⟩
    obtain ⟨now, sync, rfl⟩ := hi
    exact .append (fun r hr => by cases hr) fun r hr => by cases hr
  · obtain ⟨hepoch, hstep⟩ := hl
    refine ⟨hs.1.step hstep, ?_⟩
    rcases hs.2.step (keeps_early hplus) hs.1 hstep with
      h | ⟨c, reply, hput, rfl | ⟨rfl, now, tp, rfl⟩⟩
    · exact h
    · cases hput with
      | schedule hearly | update _ _ hearly => exact absurd hearly.2 (Int.not_le.mpr hepoch)
    · cases hput with
      | schedule hearly => exact absurd rfl hearly.1

end Epoch

/-! ### From a stop on -/

/-- A stop was accepted, and no worker has been started since.  The terminator is in front, and
only the worker that has come back from a callback finds another record behind it. -/
structure Stopping (s : State ω w σ) : Prop where
  stopped : s.queue.workerStoppedFlag = true
  phase : (s.queue.wqItemContainer = [] ∧ s.worker = .exited) ∨
    (s.worker ≠ .exited ∧ s.worker ≠ .notStarted ∧
      ∃ id rest, s.queue.wqItemContainer = (WqItem.empty, id) :: rest ∧
        (s.worker ≠ .loop → rest = []))
  hand : ∀ r ∈ inHand s.worker, 0 < r.1.timePoint
  woken : s.worker = .waitForSomeWork → s.queue.wakeUpPending = true
  changed : s.worker = .waitForTimePoint → s.queue.containerChangeFlag = true

section Stop

variable [Semaphore σ]

/-- What the worker does with the terminator in front of it, and how it gets there. -/
structure Exits (lib : Heap (Work ω) w → Prop) (plus : Int → Int → Int) (s : State ω w σ) :
    Prop where
  /-- Its next pass through `wait_for_some_work` is its last. -/
  pass : s.worker = .loop →
    (∃ id rest, s.queue.wqItemContainer = (WqItem.empty, id) :: rest) ∧
      ∀ l t, l.IsWorker → Step lib plus s l t →
        l = .exit ∧ t.queue.wqItemContainer = [] ∧ t.worker = .exited
  /-- It does not sleep on. -/
  awake : s.worker = .waitForSomeWork → s.queue.wakeUpPending = true
  /-- Its next step leads there. -/
  next : ∀ l t, l.IsWorker → Step lib plus s l t → s.worker ≠ .loop → t.worker = .loop
  exists_next : (∃ h, lib h) → s.worker ≠ .exited → ∃ l t, l.IsWorker ∧ Step lib plus s l t

/-- **What follows a stop**, until a worker is started again. -/
structure Stops (lib : Heap (Work ω) w → Prop) (plus : Int → Int → Int) (t : State ω w σ) :
    Prop where
  silent : ∀ ls u, Run (system ω w σ lib plus) t ls u → Label.startWorker ∉ ls →
    ∀ item outcome, Label.execute item outcome ∉ ls
  closed : ∀ ls u, Run (system ω w σ lib plus) t ls u → Label.startWorker ∉ ls → u.queue.Closed
  exits : ∀ ls u, Run (system ω w σ lib plus) t ls u → Label.startWorker ∉ ls → Exits lib plus u

/-- `schedule_work` has returned the id, to a client or within `forward_time`. -/
def Label.Issues (id : BitVec w) : Label ω w → Prop
  | .call (.scheduleWork _ _ _ _ _) (.posted .success id') => id' = id
  | .postForwarding (.posted .success id') => id' = id
  | _ => False

/-- **What follows a start**: the worker runs nothing but what was posted since. -/
def Restarts (lib : Heap (Work ω) w → Prop) (plus : Int → Int → Int) (t : State ω w σ) : Prop :=
  ∀ ls u, Run (system ω w σ lib plus) t ls u → ∀ item outcome v,
    Step lib plus u (.execute item outcome) v → ∃ x ∈ ls, x.Issues item.2

variable {lib : Heap (Work ω) w → Prop} {plus : Int → Int → Int} {s t u : State ω w σ}
  {l : Label ω w}

omit [Semaphore σ] in
theorem Stopping.loop (h : Stopping s) (hw : s.worker = .loop) :
    ∃ id rest, s.queue.wqItemContainer = (WqItem.empty, id) :: rest := by
  rcases h.phase with ⟨-, he⟩ | ⟨-, -, id, rest, hc, -⟩
  · rw [hw] at he
    cases he
  · exact ⟨id, rest, hc⟩

omit [Semaphore σ] in
theorem Stopping.front (h : Stopping s) (hw : s.worker = .loop) {front : Record (Work ω) w}
    {rest : List (Record (Work ω) w)} (hc : s.queue.wqItemContainer = front :: rest) :
    front.1.work = none := by
  obtain ⟨id, rest', hid⟩ := h.loop hw
  rw [hc] at hid
  obtain ⟨rfl, -⟩ := List.cons.inj hid
  rfl

omit [Semaphore σ] in
/-- A worker that was elsewhere comes to the loop, with the container as it was. -/
theorem Stopping.enter (h : Stopping s) {pc : WorkerPc ω w} (hw : s.worker = pc)
    (hpc : pc ≠ .exited) (hs : t.queue.workerStoppedFlag = true)
    (hc : t.queue.wqItemContainer = s.queue.wqItemContainer) (ht : t.worker = .loop) :
    Stopping t := by
  rcases h.phase with ⟨-, he⟩ | ⟨-, -, id, rest, hid, -⟩
  · exact absurd (hw.symm.trans he) hpc
  · exact ⟨hs, .inr ⟨by simp [ht], by simp [ht], id, rest, hc.trans hid, fun hne => absurd ht hne⟩,
      fun r hr => (by rw [ht] at hr; cases hr), by simp [ht], by simp [ht]⟩

omit [Semaphore σ] in
theorem Stopping.syncReturn (h : Stopping s) (hh : IsHeap s.queue.wqItemContainer)
    (hp : Heap (Work ω) w) {item : Record (Work ω) w} {tp : Int}
    (hw : s.worker = .syncing item tp) : Stopping (finish hp item tp s) := by
  rcases h.phase with ⟨-, he⟩ | ⟨-, -, id, rest, hc, hrest⟩
  · rw [hw] at he
    cases he
  obtain rfl := hrest (by simp [hw])
  obtain ⟨hheap, hperm⟩ := finish_pending hp item tp hh
  have hpend : pending (finish hp item tp s) = (finish hp item tp s).queue.wqItemContainer := by
    simp [pending, finish]
  rw [hpend, hc] at hperm
  -- the terminator is earlier than the record
  obtain ⟨id', rest', hc'⟩ : ∃ id' rest',
      (finish hp item tp s).queue.wqItemContainer = (WqItem.empty, id') :: rest' := by
    cases hv : (finish hp item tp s).queue.wqItemContainer with
    | nil =>
      rw [hv] at hperm
      cases hperm.nil_eq
    | cons x v =>
      rw [hv] at hperm hheap
      rcases List.mem_append.mp (hperm.mem_iff.mp List.mem_cons_self) with hx | hx
      · rw [List.mem_singleton.mp hx]
        exact ⟨id, v, rfl⟩
      · have hpos := h.hand x (by rw [hw]; exact hx)
        have hle := WorkQueue.front_le hheap (WqItem.empty, id) (hperm.mem_iff.mpr (by simp))
        have hle : x.1.timePoint ≤ 0 := hle
        omega
  exact ⟨(finish_stopped hp item tp s).trans h.stopped,
    .inr ⟨by simp [finish], by simp [finish], id', rest', hc', fun hne => absurd rfl hne⟩,
    fun r hr => (by cases hr), by simp [finish], by simp [finish]⟩

theorem Stopping.step (h : Stopping s) (hi : Inv s) (hs : Step lib plus s l t)
    (hl : l ≠ .startWorker) : Stopping t ∧ ∀ item outcome, l ≠ .execute item outcome := by
  cases hs with
  | call hp c =>
    obtain ⟨n, e⟩ := WorkQueue.run_of_stopped hp h.stopped c
    rw [e]
    exact ⟨⟨h.stopped, h.phase, h.hand, h.woken, h.changed⟩, by simp⟩
  | postForwarding hp now tp =>
    obtain ⟨n, e⟩ := WorkQueue.run_of_stopped hp h.stopped (s.forwardingCall now tp)
    rw [e]
    exact ⟨⟨h.stopped, h.phase, h.hand, h.woken, h.changed⟩, by simp⟩
  | forwardTime =>
    exact ⟨⟨h.stopped, h.phase, h.hand, fun _ => rfl, fun _ => rfl⟩, by simp⟩
  | setTime | completed => exact ⟨⟨h.stopped, h.phase, h.hand, h.woken, h.changed⟩, by simp⟩
  | startWorker => exact absurd rfl hl
  | lock hw | wake hw | changed hw => exact ⟨h.enter hw (by simp) h.stopped rfl rfl, by simp⟩
  | waitForWork hw hc =>
    obtain ⟨id, rest, hid⟩ := h.loop hw
    rw [hc] at hid
    cases hid
  | exit =>
    exact ⟨⟨h.stopped, .inl ⟨rfl, rfl⟩, fun r hr => (by cases hr), by simp, by simp⟩, by simp⟩
  | restart hw hc hwork | waitForTime hw hc hwork => exact absurd (h.front hw hc) hwork
  | execute _ _ _ hw hc hwork => exact absurd (h.front hw hc) hwork
  | spurious hw hf =>
    rw [h.changed hw] at hf
    cases hf
  | syncReturn hp _ hw => exact ⟨h.syncReturn hi.heap hp hw, by simp⟩

theorem Stopping.exits (h : Stopping s) : Exits lib plus s := by
  refine ⟨fun hw => ⟨h.loop hw, fun l t hl hs => ?_⟩, h.woken, ?_, ?_⟩
  · cases hs with
    | call | forwardTime | setTime | postForwarding | completed | startWorker => exact hl.elim
    | waitForWork _ hc =>
      obtain ⟨id, rest, hid⟩ := h.loop hw
      rw [hc] at hid
      cases hid
    | exit => exact ⟨rfl, rfl, rfl⟩
    | restart _ hc hwork | waitForTime _ hc hwork => exact absurd (h.front hw hc) hwork
    | execute _ _ _ _ hc hwork => exact absurd (h.front hw hc) hwork
    | lock hw' | wake hw' | changed hw' | spurious hw' | syncReturn _ _ hw' =>
      rw [hw] at hw'
      cases hw'
  · intro l t hl hs hw
    cases hs with
    | call | forwardTime | setTime | postForwarding | completed | startWorker => exact hl.elim
    | lock | wake | changed | syncReturn => rfl
    | waitForWork hw' | exit hw' | restart hw' | waitForTime hw' => exact absurd hw' hw
    | execute _ _ _ hw' => exact absurd hw' hw
    | spurious hw' hf => exact absurd hf (by simp [h.changed hw'])
  · intro hlib hne
    rcases h.phase with ⟨-, he⟩ | ⟨-, hns, id, rest, hc, -⟩
    · exact absurd he hne
    cases hw : s.worker with
    | notStarted => exact absurd hw hns
    | exited => exact absurd hw hne
    | starting => exact ⟨.lock, _, trivial, .lock hw⟩
    | loop => exact ⟨.exit, _, trivial, .exit hw hc rfl⟩
    | waitForSomeWork => exact ⟨.wake, _, trivial, .wake hw⟩
    | waitForTimePoint => exact ⟨.changed, _, trivial, .changed hw (h.changed hw)⟩
    | syncing item tp =>
      obtain ⟨hp, hin⟩ := hlib
      exact ⟨.syncReturn, _, trivial, .syncReturn hp hin hw⟩

theorem Stopping.run {ls : List (Label ω w)} (hr : Run (system ω w σ lib plus) s ls t)
    (h : Stopping s) (hi : Inv s) (hno : Label.startWorker ∉ ls) :
    Stopping t ∧ ∀ item outcome, Label.execute item outcome ∉ ls := by
  induction hr with
  | nil => exact ⟨h, by simp⟩
  | @cons s u t x ls hs _ ih =>
    obtain ⟨hx, hls⟩ := not_or.mp (List.mem_cons.not.mp hno)
    obtain ⟨hu, hexec⟩ := h.step hi hs (Ne.symm hx)
    obtain ⟨ht, hexecs⟩ := ih hu (hi.step hs) hls
    refine ⟨ht, ?_⟩
    intro item o hmem
    rcases List.mem_cons.mp hmem with e | hmem
    · exact hexec item o e.symm
    · exact hexecs item o hmem

theorem Stopping.stops (h : Stopping s) (hi : Inv s) : Stops lib plus s where
  silent _ _ hr hno := (h.run hr hi hno).2
  closed _ _ hr hno := Members.closed (h.run hr hi hno).1.stopped
  exits _ _ hr hno := (h.run hr hi hno).1.exits

theorem stopping_of_stop (hi : Inv s) (hq : s.Without Early)
    (hs : Step lib plus s (.call .signalWorkerToStop (.stopped true)) t) : Stopping t := by
  generalize hx : (Label.call .signalWorkerToStop (.stopped true) : Label ω w) = x at hs
  cases hs with
  | call h c hlib hw =>
    injection hx with hc hr
    subst hc
    injection hr with hr
    obtain ⟨hrun, hstop, hflag, hwake, id, hc⟩ := WorkQueue.signalWorkerToStop_true hr.symm
    -- where there is no worker the queue is stopped
    have halive : ¬ (s.worker = .notStarted ∨ s.worker = .exited) := fun hp => by
      rw [(hi.parked hp).2] at hrun
      cases hrun
    obtain ⟨hns, hne⟩ := not_or.mp halive
    refine ⟨hstop, .inr ⟨hne, hns, id, [], hc, fun _ => rfl⟩, ?_, fun _ => hwake, fun _ => hflag⟩
    intro r hr
    have hr : r ∈ inHand s.worker := hr
    cases hsw : s.worker with
    | syncing item tp =>
      rw [hsw] at hr
      obtain ⟨hnone, hnf⟩ := hi.hand item tp hsw
      have he := (mem_again hr).2
      have hmem : r ∈ pending s := List.mem_append_right _ (by rw [hsw]; exact hr)
      by_contra hle
      exact hq r hmem (by rw [he]; exact hnone) ⟨by rw [he]; exact hnf, Int.not_lt.mp hle⟩
    | _ =>
      rw [hsw] at hr
      cases hr
  | _ => cases hx

theorem restarts (hi : Inv s) (hs : Step lib plus s .startWorker t) : Restarts lib plus t := by
  intro ls u hls item o v hx
  have hit := hi.step hs
  have hq : t.Without fun r => r.2 = item.2 := by
    cases hs with
    | startWorker hw =>
      refine .append (fun r hr => ?_) fun r hr => by cases hr
      have hr : r ∈ s.queue.wqItemContainer := hr
      rw [(hi.parked hw).1] at hr
      cases hr
  by_contra hno
  push Not at hno
  -- as long as the id is not issued no record has it
  have hend : Inv u ∧ u.Without fun r => r.2 = item.2 := by
    clear hx hs
    induction hls with
    | nil => exact ⟨hit, hq⟩
    | @cons s t u x ls hstep _ ih =>
      refine ih (hit.step hstep) ?_ fun y hy => hno y (List.mem_cons_of_mem _ hy)
      rcases hq.step (keeps_of_timeless (fun _ _ h => h) plus) hit hstep with
        h | ⟨c, reply, hput, hx⟩
      · exact h
      · refine absurd ?_ (hno x List.mem_cons_self)
        cases hput with
        | schedule hid =>
          rcases hx with rfl | ⟨rfl, -⟩
          · exact hid
          · exact hid
        | update hmem hrun hid =>
          have hnew := hq.container _ hmem (hit.works hrun _ hmem)
          exact absurd hid hnew
  generalize hy : (Label.execute item o : Label ω w) = y at hx
  cases hx with
  | execute _ _ _ _ hc hwork _ hp =>
    injection hy with e _
    subst e
    obtain ⟨rest', u', hc', -⟩ := WorkQueue.popRecord_eq_some hend.1.heap (by simp [hc]) hp
    obtain ⟨rfl, -⟩ := List.cons.inj (hc.symm.trans hc')
    exact hend.2.container _ (by rw [hc]; exact List.mem_cons_self) hwork rfl
  | _ => cases hy

/-- **Stopping is clean**, in the work queue and in that for tests, for the latter as long as
time points are after the epoch.  Once a stop was accepted no work is run, every call is
refused, and the worker's next pass finds the terminator and is its last; and a worker that
is started later runs nothing that was posted before. -/
theorem stopped_cleanly (plus : Int → Int → Int) (lib : Heap (Work ω) w → Prop) :
    (∀ s t : WorkQueue.State ω w, Transition.Reachable (WorkQueue.system ω w plus) s →
      (WorkQueue.Step plus s (.call .signalWorkerToStop (.stopped true)) t →
        WorkQueue.Stops plus t) ∧
      (WorkQueue.Step plus s .startWorker t → WorkQueue.Restarts plus t)) ∧
    ((∀ a b, 0 < a → 0 < b → 0 < plus a b) →
      ∀ s t : State ω w σ, Transition.Reachable (afterEpoch ω w σ lib plus) s →
        (Step lib plus s (.call .signalWorkerToStop (.stopped true)) t → Stops lib plus t) ∧
        (Step lib plus s .startWorker t → Restarts lib plus t)) := by
  refine ⟨fun s t hr => ⟨fun hs => ?_, fun hs => WorkQueue.restarts hr hs⟩, ?_⟩
  · exact (WorkQueue.stopping_of_stop (WorkQueue.inv_of_reachable hr) hs).stops
  · intro hplus s t hr
    obtain ⟨hi, hq⟩ := without_early hplus hr
    exact ⟨fun hs => (stopping_of_stop hi hq hs).stops (hi.step hs), fun hs => restarts hi hs⟩

/-- A work at tick `5` that is to be run again every tick. -/
def tickFive : Record (Work Unit) 64 := (⟨5, 0, some (.user ()), 1⟩, 0)

/-- It is out in its callback when the stop comes. -/
theorem stopped_cleanly_inCallback : ∃ s t : State Unit 64 ℕ,
    s.worker = .syncing tickFive 6 ∧
      Stops (fun _ => True) (· + ·) t ∧
      Step (fun _ => True) (· + ·) s (.call .signalWorkerToStop (.stopped true)) t := by
  have hrun : Run (afterEpoch Unit 64 ℕ (fun _ => True) (· + ·)) (State.initial 5 true)
      [.startWorker, .call (.scheduleWork 5 0 (some (.user ())) 5 1) (.posted .success 0), .lock,
        .execute tickFive (.returned true)] _ :=
    .cons ⟨trivial, .startWorker (.inl rfl) rfl⟩
      (.cons ⟨(by decide : (0 : Int) < 5), .call (WorkQueue.siftHeap (Work Unit) 64)
          (.scheduleWork 5 0 (some (.user ())) 5 1) trivial (by simp) trivial⟩
      (.cons ⟨trivial, .lock rfl⟩
      (.single ⟨trivial, .execute (WorkQueue.siftHeap (Work Unit) 64) (.returned true) trivial rfl
        (by decide : _ = [tickFive]) (by decide) (Int.le_refl 5) rfl⟩)))
  have hclean : ∀ {s : State Unit 64 ℕ},
      Run (afterEpoch Unit 64 ℕ (fun _ => True) (· + ·)) (State.initial 5 true)
        [.startWorker, .call (.scheduleWork 5 0 (some (.user ())) 5 1) (.posted .success 0), .lock,
          .execute tickFive (.returned true)] s →
      s.worker = .syncing tickFive 6 → s.queue.workerStoppedFlag = false →
      ∃ t, Stops (fun _ => True) (· + ·) t ∧
        Step (fun _ => True) (· + ·) s (.call .signalWorkerToStop (.stopped true)) t := by
    intro s hrun hw hs
    have hcall : Step (fun _ => True) (· + ·) s _ _ :=
      .call (WorkQueue.siftHeap (Work Unit) 64) .signalWorkerToStop trivial (by simp [hw]) trivial
    have hreply : (Call.run (WorkQueue.siftHeap (Work Unit) 64) s.queue
        .signalWorkerToStop).1 = .stopped true := by
      rcases WorkQueue.signalWorkerToStop_cases (WorkQueue.siftHeap (Work Unit) 64) s.queue with
        ⟨hs', -⟩ | ⟨-, e⟩
      · rw [hs] at hs'
        cases hs'
      · simp only [Call.run, e]
    rw [hreply] at hcall
    exact ⟨_, ((stopped_cleanly (ω := Unit) (w := 64) (σ := ℕ) (· + ·) fun _ => True).2
      (fun a b ha hb => Int.add_pos ha hb) _ _ ⟨_, _, ⟨5, true, rfl⟩, hrun⟩).1 hcall, hcall⟩
  obtain ⟨t, ht⟩ := hclean hrun rfl rfl
  exact ⟨_, t, rfl, ht⟩

end Stop

end Mqmx.Testing

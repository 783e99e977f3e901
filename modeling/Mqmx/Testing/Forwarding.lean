import Mqmx.Testing.Invariant

/-!
# Forwarding the time

A forwarding item that finds something else due has itself run again at the current
time, and only one that finds nothing due posts the semaphore.  `Blocked n s` is the
state in which `n` callers wait for that, and `Completes plus n s` says that the worker
alone then serves them all, whatever the works return.

* `worker_cases`: what a step of the worker is, an execution or a silent step;
  `step_of_due`, `step_away`: which one it is in the loop, with something due, and elsewhere.
* `Executes.cases`: the three kinds of execution, and `Executes.balance`, what they do to
  the forwarding items.
* `exists_step`: the worker always has a next step.
-/

namespace Mqmx.Testing

open WorkQueue (Members Record Heap IsHeap Outcome)
open Transition (System Endless)

variable {ω σ : Type} {w : ℕ}

/-- The record is a caller's forwarding item. -/
def isForwarding (r : Record (Work ω) w) : Bool :=
  match r.1.work with
  | some .forwarding => true
  | _ => false

theorem isForwarding_iff {r : Record (Work ω) w} :
    isForwarding r = true ↔ r.1.work = some .forwarding := by
  unfold isForwarding
  split
  · simp_all
  · rename_i h
    constructor
    · intro h'; cases h'
    · intro h'; exact absurd h' h

/-- The steps of the worker, as against those of the clients and owners. -/
def Label.IsWorker : Label ω w → Prop
  | .call .. | .forwardTime _ | .setTime _ | .postForwarding _ | .completed | .startWorker => False
  | _ => True

/-- The clock's addition is exact for every due instance of every user record. -/
def ExactWhileDue (plus : Int → Int → Int) (s : State ω w σ) : Prop :=
  ∀ r ∈ pending s, isForwarding r = false → 0 < r.1.period →
    ∀ k : ℕ, r.1.timePoint + k * r.1.period ≤ s.currentTimePoint →
      plus (r.1.timePoint + k * r.1.period) r.1.period =
        r.1.timePoint + k * r.1.period + r.1.period

theorem exactWhileDue_add (s : State ω w σ) : ExactWhileDue (· + ·) s := fun _ _ _ _ _ _ => rfl

/-- `n` callers wait for their forwarding items, which are all due, and no caller of
`forward_time` is under way to post one. -/
structure Blocked (n : ℕ) (s : State ω w σ) : Prop where
  running : s.queue.workerStoppedFlag = false
  afterEpoch : 0 < s.currentTimePoint
  items : s.queue.wqItemContainer.countP isForwarding = n
  due : ∀ r ∈ s.queue.wqItemContainer, isForwarding r = true →
    r.1.timePoint ≤ s.currentTimePoint
  posted : s.posting = 0

/-! ### Items in the container -/

@[simp] theorem isForwarding_moved (r : Record (Work ω) w) (tp : Int) :
    isForwarding ({ r.1 with timePoint := tp }, r.2) = isForwarding r := rfl

theorem Inv.inHand_user {s : State ω w σ} (hi : Inv s) :
    ∀ r ∈ inHand s.worker, isForwarding r = false := by
  intro r hr
  cases hsw : s.worker with
  | syncing item tp =>
    rw [hsw] at hr
    rw [(mem_again hr).2, isForwarding_moved, ← Bool.not_eq_true, isForwarding_iff]
    exact (hi.hand item tp hsw).2
  | _ => simp [hsw, inHand] at hr

theorem Inv.inHand_countP {s : State ω w σ} (hi : Inv s) :
    (inHand s.worker).countP isForwarding = 0 :=
  List.countP_eq_zero.mpr fun r hr => by simp [hi.inHand_user r hr]

theorem isForwarding_of_user {item : Record (Work ω) w} (h : item.1.work ≠ some .forwarding) :
    isForwarding item = false := by
  rw [← Bool.not_eq_true, isForwarding_iff]; exact h

theorem again_user {item : Record (Work ω) w} (hf : isForwarding item = false) (tp : Int) :
    ∀ r ∈ again item tp, isForwarding r = false := by
  intro r hr
  rw [(mem_again hr).2, isForwarding_moved, hf]

theorem again_countP {item : Record (Work ω) w} (hf : isForwarding item = false) (tp : Int) :
    (again item tp).countP isForwarding = 0 :=
  List.countP_eq_zero.mpr fun r hr => by simp [again_user hf tp r hr]

/-- No worker that has a due item in its container sleeps on. -/
theorem Blocked.awake {n : ℕ} {s : State ω w σ} (hw : 0 < w) (hn : 1 ≤ n) (hb : Blocked n s)
    (hi : Inv s) : s.worker = .waitForTimePoint → s.queue.containerChangeFlag = true := by
  intro hpc
  obtain ⟨r, hr, hf⟩ : ∃ r ∈ s.queue.wqItemContainer, isForwarding r = true := by
    rw [← List.countP_pos_iff, hb.items]; omega
  by_contra hflag
  have := hi.awake hw hpc (by simpa using hflag) hb.running hb.posted r hr
  have := hb.due r hr hf
  omega

/-! ### The worker alone -/

variable [Semaphore σ]

/-- The worker alone, with a library whose `push_heap` passes no equals. -/
def workerOnly (ω : Type) (w : ℕ) (σ : Type) [Semaphore σ] (plus : Int → Int → Int) :
    System (State ω w σ) (Label ω w) :=
  (system ω w σ StdHeap.Algorithms.FrontStable plus).restrict fun _ l => l.IsWorker

/-- Nothing is due, no forwarding item is left, and `n` posts were made since `s`. -/
def Completed (n : ℕ) (s t : State ω w σ) : Prop :=
  t.worker = .loop ∧ (∀ r ∈ t.queue.wqItemContainer, t.currentTimePoint < r.1.timePoint) ∧
    (∀ r ∈ t.queue.wqItemContainer, isForwarding r = false) ∧
    Semaphore.value t.timeForwardingCompleted = Semaphore.value s.timeForwardingCompleted + n

/-- However the works return, the worker alone gets there. -/
def Completes (plus : Int → Int → Int) (n : ℕ) (s : State ω w σ) : Prop :=
  ∀ ρ, ρ 0 = s → Endless (workerOnly ω w σ plus) ρ → ∃ k, Completed n s (ρ k)

/-! ### The steps of the worker -/

def changeFlag (s : State ω w σ) : ℕ := if s.queue.containerChangeFlag then 1 else 0

def inLoop : WorkerPc ω w → ℕ
  | .loop => 1
  | _ => 0

def restless (s : State ω w σ) : ℕ := changeFlag s + inLoop s.worker

omit [Semaphore σ] in
theorem restless_le (s : State ω w σ) : restless s ≤ 2 := by
  have h1 : changeFlag s ≤ 1 := by
    unfold changeFlag
    split <;> omega
  have h2 : inLoop s.worker ≤ 1 := by
    unfold inLoop
    split <;> omega
  exact Nat.add_le_add h1 h2

structure Silent (s : State ω w σ) (l : Label ω w) (t : State ω w σ) : Prop where
  pending : (pending t).Perm (pending s)
  inHand : inHand t.worker = []
  time : t.currentTimePoint = s.currentTimePoint
  completed : t.timeForwardingCompleted = s.timeForwardingCompleted
  running : t.queue.workerStoppedFlag = s.queue.workerStoppedFlag
  posting : t.posting = s.posting
  waiting : t.waiting = s.waiting
  label : ∀ item o, l ≠ .execute item o
  container : Testing.inHand s.worker = [] → t.queue.wqItemContainer = s.queue.wqItemContainer
  idle : s.worker = .loop → ∀ r ∈ s.queue.wqItemContainer, s.currentTimePoint < r.1.timePoint
  restless : s.worker = .loop → restless t < restless s
  enters : s.worker ≠ .loop → t.worker = .loop ∨
    s.worker = .waitForTimePoint ∧ s.queue.containerChangeFlag = false

/-- A step of the worker in which it runs the front of the container. -/
structure Executes (s : State ω w σ) (l : Label ω w) (t : State ω w σ)
    (plus : Int → Int → Int) (h : Heap (Work ω) w) (item : Record (Work ω) w) (o : Outcome)
    (rest u : List (Record (Work ω) w)) : Prop where
  loop : s.worker = .loop
  container : s.queue.wqItemContainer = item :: rest
  perm : u.Perm rest
  heap : IsHeap u
  due : item.1.timePoint ≤ s.currentTimePoint
  label : l = .execute item (callWork item o s).1
  result : t = executeWork h plus item o (s.setContainer u)

/-- **A step of the worker** is silent, or runs the front, or is the last one. -/
theorem worker_cases {lib : Heap (Work ω) w → Prop} {plus : Int → Int → Int}
    {s t : State ω w σ} {l : Label ω w} (hi : Inv s) (hl : l.IsWorker)
    (hs : Step lib plus s l t) :
    Silent s l t ∨ (∃ h item o rest u, lib h ∧ Executes s l t plus h item o rest u) ∨
      (s.queue.workerStoppedFlag = true ∧
        t = { s with queue := { s.queue with wqItemContainer := [] }, worker := .exited }) := by
  cases hs with
  | call => exact absurd hl id
  | forwardTime => exact absurd hl id
  | setTime => exact absurd hl id
  | postForwarding => exact absurd hl id
  | completed => exact absurd hl id
  | startWorker => exact absurd hl id
  | lock h =>
    have hne : s.worker ≠ .loop := by simp [h]
    exact .inl ⟨by simp [pending, h, inHand], rfl, rfl, rfl, rfl, rfl, rfl, by simp, fun _ => rfl,
      (absurd · hne), (absurd · hne), fun _ => .inl rfl⟩
  | waitForWork h hc =>
    exact .inl ⟨by simp [pending, h, inHand], rfl, rfl, rfl, rfl, rfl, rfl, by simp, fun _ => rfl,
      fun _ => by simp [hc], fun _ => by simp [restless, h, inLoop, changeFlag], absurd h⟩
  | exit h hc hnull =>
    refine .inr (.inr ⟨?_, rfl⟩)
    by_contra hns
    exact hi.works (by simpa using hns) _ (by rw [hc]; exact List.mem_cons_self) hnull
  | restart h hc _ hlt hf =>
    exact .inl ⟨.refl _, by simp [h], rfl, rfl, rfl, rfl, rfl, by simp, fun _ => rfl,
      fun _ => hi.not_due hc hlt, fun _ => by simp [restless, h, changeFlag, hf], absurd h⟩
  | waitForTime h hc _ hlt hf =>
    exact .inl ⟨by simp [pending, h, inHand], rfl, rfl, rfl, rfl, rfl, rfl, by simp, fun _ => rfl,
      fun _ => hi.not_due hc hlt, fun _ => by simp [restless, h, inLoop, changeFlag, hf], absurd h⟩
  | wake h =>
    have hne : s.worker ≠ .loop := by simp [h]
    exact .inl ⟨by simp [pending, h, inHand], rfl, rfl, rfl, rfl, rfl, rfl, by simp, fun _ => rfl,
      (absurd · hne), (absurd · hne), fun _ => .inl rfl⟩
  | changed h _ =>
    have hne : s.worker ≠ .loop := by simp [h]
    exact .inl ⟨by simp [pending, h, inHand], rfl, rfl, rfl, rfl, rfl, rfl, by simp, fun _ => rfl,
      (absurd · hne), (absurd · hne), fun _ => .inl rfl⟩
  | spurious h hf =>
    have hne : s.worker ≠ .loop := by simp [h]
    exact .inl ⟨.refl _, by simp [h, inHand], rfl, rfl, rfl, rfl, rfl, by simp, fun _ => rfl,
      (absurd · hne), (absurd · hne), fun _ => .inr ⟨h, hf⟩⟩
  | @execute h o _ front item rest q hst hw hc _ hd hp =>
    obtain ⟨rest', u, hc', rfl, hperm, hheap⟩ :=
      WorkQueue.popRecord_eq_some hi.heap (by simp [hc]) hp
    obtain ⟨rfl, rfl⟩ := List.cons.inj (hc.symm.trans hc')
    exact .inr (.inl ⟨h, front, o, rest, u, hst, hw, hc, hperm, hheap, hd, rfl, rfl⟩)
  | @syncReturn h _ item tp _ hw =>
    have hne : s.worker ≠ .loop := by simp [hw]
    refine .inl ⟨?_, rfl, rfl, rfl, finish_stopped h item tp s, rfl, rfl, by simp, ?_,
      (absurd · hne), (absurd · hne), fun _ => .inl rfl⟩
    · have := (finish_pending h item tp hi.heap).2
      simpa [pending, hw, inHand] using this
    · intro hin
      rw [hw] at hin
      simp only [inHand, again] at hin
      split at hin
      · rename_i htp
        simp [finish, WorkQueue.reschedule, htp]
      · cases hin

/-! ### What a step does to the forwarding items -/

def items (s : State ω w σ) : ℕ := s.queue.wqItemContainer.countP isForwarding

/-- The posts not yet taken, and those still to come from the items. -/
def owed (s : State ω w σ) : ℕ := Semaphore.value s.timeForwardingCompleted + items s

omit [Semaphore σ] in
theorem Silent.items {s t : State ω w σ} {l : Label ω w} (h : Silent s l t) (hi : Inv s) :
    items t = items s := by
  have hp := h.pending.countP_eq isForwarding
  rw [Testing.pending, Testing.pending, List.countP_append, List.countP_append, h.inHand,
    hi.inHand_countP] at hp
  exact hp

variable {plus : Int → Int → Int}

theorem Executes.front_le {s t : State ω w σ} {l : Label ω w} {h : Heap (Work ω) w}
    {item : Record (Work ω) w} {o : Outcome}
    {rest u : List (Record (Work ω) w)} (he : Executes s l t plus h item o rest u) (hi : Inv s) :
    ∀ r ∈ rest, item.1.timePoint ≤ r.1.timePoint := by
  intro r hr
  apply hi.front_le he.container r
  rw [he.container]
  exact List.mem_cons_of_mem _ hr

theorem Executes.pending {s t : State ω w σ} {l : Label ω w} {h : Heap (Work ω) w}
    {item : Record (Work ω) w} {o : Outcome}
    {rest u : List (Record (Work ω) w)} (he : Executes s l t plus h item o rest u) :
    pending s = item :: rest := by
  rw [Testing.pending, he.loop, he.container]
  exact List.append_nil _

theorem Executes.frame {s t : State ω w σ} {l : Label ω w} {h : Heap (Work ω) w}
    {item : Record (Work ω) w} {o : Outcome} {rest u : List (Record (Work ω) w)}
    (he : Executes s l t plus h item o rest u) (hi : Inv s) :
    t.currentTimePoint = s.currentTimePoint ∧ t.posting = s.posting ∧ t.waiting = s.waiting ∧
      t.queue.workerStoppedFlag = s.queue.workerStoppedFlag := by
  rw [he.result]
  rcases executeWork_cases h plus item o (s.setContainer u) hi.flag with
    ⟨-, -, e⟩ | ⟨-, -, e⟩ | ⟨-, -, e⟩ | ⟨-, -, e⟩
  · rw [e]; exact ⟨rfl, rfl, rfl, finish_stopped ..⟩
  · rw [e]; exact ⟨rfl, rfl, rfl, rfl⟩
  · rw [e]; exact ⟨rfl, rfl, rfl, rfl⟩
  · rw [e]; exact ⟨rfl, rfl, rfl, finish_stopped ..⟩

theorem Executes.worker {s t : State ω w σ} {l : Label ω w} {h : Heap (Work ω) w}
    {item : Record (Work ω) w} {o : Outcome} {rest u : List (Record (Work ω) w)}
    (he : Executes s l t plus h item o rest u) (hi : Inv s) :
    t.worker = .loop ∨
      isForwarding item = false ∧ ∃ item tp, t.worker = .syncing item tp := by
  rw [he.result]
  rcases executeWork_cases h plus item o (s.setContainer u) hi.flag with
    ⟨-, -, e⟩ | ⟨hnf, -, e⟩ | ⟨-, -, e⟩ | ⟨-, -, e⟩
  · rw [e]; exact .inl rfl
  · rw [e]; exact .inr ⟨isForwarding_of_user hnf, _, _, rfl⟩
  · rw [e]; exact .inl rfl
  · rw [e]; exact .inl rfl

/-- **The three kinds of execution.**  A user's work is run and its record put back as it
asks; a forwarding item with nothing due behind it posts; and one with something due is
put back at the current time. -/
theorem Executes.cases {s t : State ω w σ} {l : Label ω w} {h : Heap (Work ω) w}
    {item : Record (Work ω) w} {o : Outcome} {rest u : List (Record (Work ω) w)}
    (he : Executes s l t plus h item o rest u) (hi : Inv s) :
    (isForwarding item = false ∧ t.timeForwardingCompleted = s.timeForwardingCompleted ∧
      (Testing.pending t).Perm
        (u ++ again item (WorkQueue.executeWork plus item (callWork item o s).1))) ∨
    (isForwarding item = true ∧
      t.timeForwardingCompleted = Semaphore.post s.timeForwardingCompleted ∧
      t.queue.wqItemContainer = u ∧ inHand t.worker = [] ∧
      (isTimePointEmpty (WorkQueue.getNearestTimePoint (s.setContainer u).queue) ∨
        s.currentTimePoint < WorkQueue.getNearestTimePoint (s.setContainer u).queue)) ∨
    (isForwarding item = true ∧ t.timeForwardingCompleted = s.timeForwardingCompleted ∧
      (Testing.pending t).Perm (u ++ again item s.currentTimePoint) ∧ inHand t.worker = []) := by
  rw [he.result]
  rcases executeWork_cases h plus item o (s.setContainer u) hi.flag with
    ⟨hnf, -, e⟩ | ⟨hnf, -, e⟩ | ⟨hf, hnear, e⟩ | ⟨hf, -, e⟩
  · rw [e, callWork_setContainer]
    exact .inl ⟨isForwarding_of_user hnf, rfl, (finish_pending _ _ _ he.heap).2⟩
  · rw [e, callWork_setContainer]
    exact .inl ⟨isForwarding_of_user hnf, rfl, .refl _⟩
  · rw [e]
    exact .inr (.inl ⟨isForwarding_iff.mpr hf, rfl, rfl, rfl, hnear⟩)
  · rw [e]
    exact .inr (.inr ⟨isForwarding_iff.mpr hf, rfl, (finish_pending _ _ _ he.heap).2, rfl⟩)

theorem Executes.items {s t : State ω w σ} {l : Label ω w} {h : Heap (Work ω) w}
    {item : Record (Work ω) w} {o : Outcome} {rest u : List (Record (Work ω) w)}
    (he : Executes s l t plus h item o rest u) :
    items s = u.countP isForwarding + if isForwarding item then 1 else 0 := by
  rw [Testing.items, he.container, List.countP_cons, ← he.perm.countP_eq]

omit [Semaphore σ] in
theorem Inv.items {s : State ω w σ} (hi : Inv s) : items s = (pending s).countP isForwarding := by
  rw [Testing.items, pending, List.countP_append, hi.inHand_countP, Nat.add_zero]

omit [Semaphore σ] in
theorem Inv.mem_container {s : State ω w σ} (hi : Inv s) {r : Record (Work ω) w}
    (hr : r ∈ pending s) (hf : isForwarding r = true) : r ∈ s.queue.wqItemContainer := by
  rcases List.mem_append.mp hr with hm | hm
  · exact hm
  · rw [hi.inHand_user r hm] at hf
    cases hf

/-- **What the worker does to the items.**  It takes one out for a post, and otherwise puts
back what it takes out, unless the current time is the epoch. -/
theorem Executes.balance {s t : State ω w σ} {l : Label ω w} {h : Heap (Work ω) w}
    {item : Record (Work ω) w} {o : Outcome} {rest u : List (Record (Work ω) w)}
    (he : Executes s l t plus h item o rest u) (hi : Inv s) (hit : Inv t) :
    owed t ≤ owed s ∧ (¬ isTimePointEmpty s.currentTimePoint → owed t = owed s) := by
  have hs := he.items
  have ht := hit.items
  unfold owed
  rcases he.cases hi with ⟨hf, hc, hp⟩ | ⟨hf, hc, hp, -⟩ | ⟨hf, hc, hp, -⟩
  · rw [hp.countP_eq, List.countP_append, again_countP hf] at ht
    rw [hf] at hs
    rw [hc, ht, hs]
    exact ⟨Nat.le_refl _, fun _ => rfl⟩
  · rw [hf] at hs
    have hu : Testing.items t = u.countP isForwarding := by rw [Testing.items, hp]
    rw [hc, Semaphore.value_post, hs, hu, if_pos rfl]
    exact ⟨by omega, fun _ => by omega⟩
  · rw [hp.countP_eq, List.countP_append, again] at ht
    rw [hf] at hs
    rw [hc, ht, hs]
    split
    · rename_i hempty
      exact ⟨by simp, fun hne => absurd hempty hne⟩
    · rw [List.countP_singleton, isForwarding_moved, hf]
      exact ⟨Nat.le_refl _, fun _ => rfl⟩

/-! ### What the worker can do while a front is due -/

/-- A due front is run, and nothing else happens in the loop. -/
theorem step_of_due {plus : Int → Int → Int} {s t : State ω w σ} {l : Label ω w} (hi : Inv s)
    (hrun : s.queue.workerStoppedFlag = false) (hw : s.worker = .loop)
    {r : Record (Work ω) w} (hr : r ∈ s.queue.wqItemContainer)
    (hdue : r.1.timePoint ≤ s.currentTimePoint) (hl : l.IsWorker)
    (hs : Step StdHeap.Algorithms.FrontStable plus s l t) :
    ∃ h item o rest u, h.FrontStable ∧ Executes s l t plus h item o rest u := by
  rcases worker_cases hi hl hs with h | h | ⟨hstop, -⟩
  · have := h.idle hw r hr
    omega
  · exact h
  · rw [hrun] at hstop
    cases hstop

/-- Away from the loop the worker's next step brings it there, with the same records
pending. -/
theorem step_away {plus : Int → Int → Int} {s t : State ω w σ} {l : Label ω w} (hi : Inv s)
    (hrun : s.queue.workerStoppedFlag = false) (hw : s.worker ≠ .loop)
    (hawake : s.worker = .waitForTimePoint → s.queue.containerChangeFlag = true)
    (hl : l.IsWorker) (hs : Step StdHeap.Algorithms.FrontStable plus s l t) :
    t.worker = .loop ∧ Silent s l t := by
  rcases worker_cases hi hl hs with h | ⟨h, item, o, rest, u, -, he⟩ | ⟨hstop, -⟩
  · rcases h.enters hw with hloop | ⟨hwait, hf⟩
    · exact ⟨hloop, h⟩
    · rw [hawake hwait] at hf
      cases hf
  · exact absurd he.loop hw
  · rw [hrun] at hstop
    cases hstop

/-- While the queue runs, the worker alone can always take a step, unless it sleeps. -/
theorem exists_step {plus : Int → Int → Int} {s : State ω w σ} (hi : Inv s)
    (hrun : s.queue.workerStoppedFlag = false)
    (hawake : s.worker = .waitForTimePoint → s.queue.containerChangeFlag = true)
    (hdue : s.worker = .loop → ∃ r ∈ s.queue.wqItemContainer, r.1.timePoint ≤ s.currentTimePoint) :
    ∃ l t, (workerOnly ω w σ plus).step s l t := by
  have hlib := StdHeap.Algorithms.sift_frontStable
    (WorkQueue.recordCompare_strictWeak (ω := Work ω) (w := w))
  cases hw : s.worker with
  | notStarted => exact absurd (hi.parked (.inl hw)).2 (by simp [hrun])
  | exited => exact absurd (hi.parked (.inr hw)).2 (by simp [hrun])
  | starting => exact ⟨.lock, _, trivial, .lock hw⟩
  | waitForSomeWork => exact ⟨.wake, _, trivial, .wake hw⟩
  | waitForTimePoint => exact ⟨.changed, _, trivial, .changed hw (hawake hw)⟩
  | syncing item tp => exact ⟨.syncReturn, _, trivial, .syncReturn _ hlib hw⟩
  | loop =>
    obtain ⟨r, hr, hd⟩ := hdue hw
    obtain ⟨front, rest, hc⟩ := List.exists_cons_of_ne_nil (List.ne_nil_of_mem hr)
    obtain ⟨u, hp, -⟩ := WorkQueue.popRecord_spec
      (StdHeap.Algorithms.sift WorkQueue.recordCompare_strictWeak) hc hi.heap
    have := hi.front_le hc r hr
    exact ⟨.execute front _, _, trivial, .execute _ (.returned false) hlib hw hc
      (hi.works hrun front (by rw [hc]; exact List.mem_cons_self)) (by omega) hp⟩

end Mqmx.Testing

import Mathlib.Algebra.Ring.Nat
import Mqmx.WorkQueue.Rescheduling
import Mqmx.WorkQueue.Stopping

/-!
# Every work is called, and the worker exits

* `every_work_runs`: once no more calls are made, every pending work is called in the end, if
  the clock goes on and the worker is not kept from running.
* `worker_joins`: after a stop the worker exits, whatever calls are made.

No periodic work can hold the worker for ever, since each of its calls brings it one period
further, and the worker takes the earliest work first.  The measure is how far the pending
works lie behind the time of the one that is waited for (`behind`), and where the worker is
(`State.rank`).
-/

namespace Mqmx.WorkQueue

open Transition (Reachable Endless Fair)

variable {ω : Type} {w : ℕ}

/-! ### The runs -/

def Label.NoCall : Label ω w → Prop
  | .call _ _ => False
  | _ => True

/-- The work queue from where no more calls are made. -/
def uncalled (ω : Type) (w : ℕ) (plus : Int → Int → Int) :
    Transition.System (State ω w) (Label ω w) :=
  (system ω w plus).restrict fun _ l => l.NoCall

/-- The worker's own step.  It is not said to wake up for no reason. -/
structure WorkerStep (plus : Int → Int → Int) (s : State ω w) (l : Label ω w)
    (t : State ω w) : Prop where
  worker : l.IsWorker
  awake : l ≠ .spurious
  woken : l = .wake → s.queue.wakeUpPending = true
  step : Step plus s l t

/-- A work of a positive period that is due by `tp` can be put back until then. -/
def Regular (tp : Int) (r : Record ω w) : Prop :=
  r.1.timePoint ≤ tp → 0 < r.1.period →
    Ticks.InRange r.1.timePoint ∧ Ticks.InRange (tp + r.1.period)

/-! ### The measure -/

/-- How far the records lie behind the time. -/
def behind (tp : Int) (v : List (Record ω w)) : ℕ :=
  (v.map fun r => (tp + 1 - r.1.timePoint).toNat).sum

/-- How far the worker is from its next execution. -/
def State.rank (s : State ω w) : ℕ :=
  match s.worker with
  | .waitForTimePoint _ => if s.queue.containerChangeFlag then 2 else 0
  | .loop => if s.queue.containerChangeFlag then 2 else 1
  | _ => 3

def State.ahead (tp : Int) (s : State ω w) : ℕ :=
  4 * behind tp s.queue.wqItemContainer + s.rank

section Measure

variable {tp : Int} {u v : List (Record ω w)} {s : State ω w}

theorem behind_perm (h : u.Perm v) : behind tp u = behind tp v := (h.map _).sum_nat

@[simp] theorem behind_nil : behind tp ([] : List (Record ω w)) = 0 := rfl

@[simp] theorem behind_cons (r : Record ω w) :
    behind tp (r :: v) = (tp + 1 - r.1.timePoint).toNat + behind tp v := by
  simp [behind]

@[simp] theorem behind_append : behind tp (u ++ v) = behind tp u + behind tp v := by
  simp [behind]

theorem State.rank_le (s : State ω w) : s.rank ≤ 3 := by
  unfold State.rank
  split <;> (try split) <;> omega

end Measure

/-! ### What keeps -/

/-- The record is pending, and no other one overflows before it. -/
structure Pends (rec : Record ω w) (s : State ω w) : Prop where
  inv : Inv s
  pending : rec ∈ s.queue.wqItemContainer
  work : rec.1.work ≠ none
  regular : ∀ r ∈ s.queue.wqItemContainer, Regular rec.1.timePoint r

section Pends

variable {plus : Int → Int → Int} {s t : State ω w} {l : Label ω w} {rec : Record ω w}

theorem Pends.running (h : Pends rec s) : s.queue.workerStoppedFlag = false := by
  by_contra hstop
  have hmem := h.pending
  rcases h.inv.valid.stopped (by simpa using hstop) with hnil | ⟨id, hone⟩
  · rw [hnil] at hmem
    cases hmem
  · rw [hone, List.mem_singleton] at hmem
    exact h.work (congrArg (fun r : Record ω w => r.1.work) hmem)

theorem Pends.works (h : Pends rec s) :
    ∀ r ∈ s.queue.wqItemContainer, r.1.work ≠ none := h.inv.valid.works h.running

theorem Pends.front (h : Pends rec s) : ∃ front rest, s.queue.wqItemContainer = front :: rest ∧
    front.1.work ≠ none ∧ front.1.timePoint ≤ rec.1.timePoint := by
  have hmem := h.pending
  have hheap := h.inv.valid.heap
  have hworks := h.works
  cases hc : s.queue.wqItemContainer with
  | nil =>
    rw [hc] at hmem
    cases hmem
  | cons front rest =>
    rw [hc] at hmem hheap hworks
    exact ⟨front, rest, rfl, hworks front List.mem_cons_self, front_le hheap rec hmem⟩

/-- **A work that is put back is due later than it was.** -/
theorem Regular.later {tp : Int} {r : Record ω w} (hplus : Ticks.Adds plus) (h : Regular tp r)
    (hle : r.1.timePoint ≤ tp) {o : Outcome} (hne : ¬ isTimePointEmpty (executeWork plus r o)) :
    r.1.timePoint < executeWork plus r o ∧
      Regular tp ({ r.1 with timePoint := executeWork plus r o }, r.2) := by
  have hagain : RunsAgain r o := by
    by_contra hno
    exact hne (executeWork_of_not_runsAgain plus hno)
  have hpos := hagain.2
  obtain ⟨⟨hmin, -⟩, hrange⟩ := h hle hpos
  have hsum : Ticks.InRange (r.1.timePoint + r.1.period) := by
    refine ⟨?_, ?_⟩
    · omega
    · have := hrange.2
      omega
  rw [executeWork_of_runsAgain plus hagain, hplus.exact hsum]
  exact ⟨by omega, fun _ _ => ⟨hsum, hrange⟩⟩

/-- **An execution of another record** brings the works closer. -/
theorem Pends.execute (hplus : Ticks.Adds plus) (h : Pends rec s) {r : Record ω w} {o : Outcome}
    (hs : Step plus s (.execute r o) t) :
    r = rec ∨ (Pends rec t ∧ t.ahead rec.1.timePoint < s.ahead rec.1.timePoint) := by
  have hi' := h.inv.step hs
  have hr := t.rank_le
  cases hs with
  | execute hp _ hw hf hd hne hpop hnull =>
    obtain ⟨rest, u, hc, rfl, hperm, hheap⟩ := popRecord_eq_some h.inv.valid.heap hne hpop
    obtain ⟨front, rest', hc', -, hle⟩ := h.front
    obtain ⟨rfl, rfl⟩ := List.cons.inj (hc.symm.trans hc')
    have hput := (reschedule_container (q := { s.queue with wqItemContainer := u }) hp r
      (executeWork plus r o) hheap).2
    have hreg : Regular rec.1.timePoint r := h.regular r (hc ▸ List.mem_cons_self)
    refine or_iff_not_imp_left.mpr fun hother => ⟨⟨hi', ?_, h.work, ?_⟩, ?_⟩
    · refine hput.mem_iff.mpr (List.mem_append_left _ (hperm.mem_iff.mpr ?_))
      have hmem := h.pending
      rw [hc, List.mem_cons] at hmem
      exact hmem.resolve_left fun he => hother he.symm
    · intro x hx
      rcases mem_reschedule hheap hx with hx | ⟨hne, rfl⟩
      · exact h.regular x (hc ▸ List.mem_cons_of_mem _ (hperm.mem_iff.mp hx))
      · exact (hreg.later hplus hle hne).2
    · have hbehind : behind rec.1.timePoint _ = _ := behind_perm hput
      rw [behind_append, behind_perm hperm] at hbehind
      simp only [State.ahead, hbehind, hc, behind_cons]
      split
      · rw [behind_nil]
        omega
      · rename_i hne
        have := (hreg.later hplus hle hne).1
        rw [behind_cons, behind_nil]
        dsimp only
        omega

theorem Pends.step (hplus : Ticks.Adds plus) (h : Pends rec s) (hs : Step plus s l t)
    (hl : l.NoCall) : (∃ o, l = .execute rec o) ∨ (Pends rec t ∧
      (t.ahead rec.1.timePoint < s.ahead rec.1.timePoint ∨
        (l = .tick ∨ l = .spurious) ∧ t.ahead rec.1.timePoint = s.ahead rec.1.timePoint)) := by
  have hi' := h.inv.step hs
  obtain ⟨front, rest, hc, hwork, -⟩ := h.front
  -- the container stays, and the worker comes closer
  have moves : t.queue.wqItemContainer = s.queue.wqItemContainer → t.rank < s.rank →
      Pends rec t ∧ t.ahead rec.1.timePoint < s.ahead rec.1.timePoint := by
    intro hv hrank
    refine ⟨⟨hi', hv ▸ h.pending, h.work, hv ▸ h.regular⟩, ?_⟩
    rw [State.ahead, State.ahead, hv]
    omega
  have idles : t.queue.wqItemContainer = s.queue.wqItemContainer → t.rank = s.rank →
      Pends rec t ∧ t.ahead rec.1.timePoint = s.ahead rec.1.timePoint := by
    intro hv hrank
    refine ⟨⟨hi', hv ▸ h.pending, h.work, hv ▸ h.regular⟩, ?_⟩
    rw [State.ahead, State.ahead, hv, hrank]
  have never : s.queue.wqItemContainer = [] → False := fun hnil => by
    rw [hc] at hnil
    cases hnil
  refine or_iff_not_imp_left.mpr fun hother => ?_
  cases hs with
  | call => exact hl.elim
  | startWorker hw => exact (never (h.inv.parked hw).1).elim
  | tick =>
    obtain ⟨hp, he⟩ := idles rfl rfl
    exact ⟨hp, .inr ⟨.inl rfl, he⟩⟩
  | spurious hw hf =>
    obtain ⟨hp, he⟩ := idles rfl rfl
    exact ⟨hp, .inr ⟨.inr rfl, he⟩⟩
  | lock hw =>
    refine (moves rfl ?_).imp_right .inl
    simp only [State.rank, hw]
    split <;> omega
  | waitForWork _ hnil => exact (never hnil).elim
  | exit _ hc' hnull =>
    obtain ⟨rfl, -⟩ := List.cons.inj (hc'.symm.trans hc)
    exact absurd hnull hwork
  | restart hw _ _ hf =>
    refine (moves rfl ?_).imp_right .inl
    simp [State.rank, hw, hf]
  | waitForTime hw _ _ hf =>
    refine (moves rfl ?_).imp_right .inl
    simp [State.rank, hw, hf]
  | wake hw =>
    refine (moves rfl ?_).imp_right .inl
    simp only [State.rank, hw]
    split <;> omega
  | changed hw hf =>
    refine (moves rfl ?_).imp_right .inl
    simp [State.rank, hw, hf]
  | drained _ _ _ hnil => exact (never hnil).elim
  | execute hp o hw hf hd hne hpop hnull =>
    rcases h.execute hplus (.execute hp o hw hf hd hne hpop hnull) with rfl | ⟨hp, hlt⟩
    · exact absurd ⟨_, rfl⟩ hother
    · exact ⟨hp, .inl hlt⟩

theorem Pends.exists_step (h : Pends rec s) (hdue : rec.1.timePoint ≤ s.now) :
    ∃ l t, WorkerStep plus s l t := by
  obtain ⟨front, rest, hc, hwork, hle⟩ := h.front
  have never : s.queue.wqItemContainer = [] → False := fun hnil => by
    rw [hc] at hnil
    cases hnil
  cases hw : s.worker with
  | notStarted => exact (never (h.inv.parked (.inl hw)).1).elim
  | exited => exact (never (h.inv.parked (.inr hw)).1).elim
  | starting => exact ⟨.lock, _, trivial, by simp, by simp, .lock hw⟩
  | loop =>
    cases hf : s.queue.containerChangeFlag with
    | true => exact ⟨.restart, _, trivial, by simp, by simp, .restart hw hc hwork hf⟩
    | false => exact ⟨.waitForTime, _, trivial, by simp, by simp, .waitForTime hw hc hwork hf⟩
  | waitForSomeWork =>
    have hpending : s.queue.wakeUpPending = true := by
      by_contra hno
      exact never (h.inv.asleep hw (by simpa using hno))
    exact ⟨.wake, _, trivial, by simp, fun _ => hpending, .wake hw⟩
  | waitForTimePoint d =>
    cases hf : s.queue.containerChangeFlag with
    | true => exact ⟨.changed, _, trivial, by simp, by simp, .changed hw hf⟩
    | false =>
      obtain ⟨-, front', rest', hc', rfl⟩ := h.inv.deadline d hw hf
      obtain ⟨rfl, rfl⟩ := List.cons.inj (hc'.symm.trans hc)
      obtain ⟨u, hpop, -, -⟩ := popRecord_spec (siftHeap ω w) hc h.inv.valid.heap
      exact ⟨.execute _ .threw, _, trivial, by simp, by simp, .execute (siftHeap ω w) .threw hw hf
        (hle.trans hdue) (fun hnil => never hnil) hpop fun _ => rfl⟩

end Pends

/-! ### The run -/

theorem now_mono {plus : Int → Int → Int} {s t : State ω w} {l : Label ω w}
    (hs : Step plus s l t) : s.now ≤ t.now := by
  cases hs with
  | tick t h => exact h
  | _ => exact Int.le_refl _

/-- **Every pending work is called.**  From where no more calls are made, with a clock that goes
on and a worker that is scheduled, each record of the queue is run, however many others come
before it and come back. -/
theorem every_work_runs {plus : Int → Int → Int} (hplus : Ticks.Adds plus)
    {ρ : ℕ → State ω w} (hr : Reachable (system ω w plus) (ρ 0))
    (hρ : Endless (uncalled ω w plus) ρ) (hfair : Fair (WorkerStep plus) ρ)
    (htime : ∀ tp, ∃ k, tp ≤ (ρ k).now) {k : ℕ} {rec : Record ω w}
    (hmem : rec ∈ (ρ k).queue.wqItemContainer) (hwork : rec.1.work ≠ none)
    (hreg : ∀ r ∈ (ρ k).queue.wqItemContainer, Regular rec.1.timePoint r) :
    ∃ j, k ≤ j ∧ ∃ o, Step plus (ρ j) (.execute rec o) (ρ (j + 1)) := by
  have keeps : ∀ s l t, Inv s → (uncalled ω w plus).step s l t → Inv t :=
    fun s l t h hs => h.step hs.2
  have hi := hρ.invariant keeps (inv_of_reachable hr) k
  have hnow : ∀ i j, i ≤ j → (ρ i).now ≤ (ρ j).now := by
    intro i j hij
    induction j, hij using Nat.le_induction with
    | base => exact Int.le_refl _
    | succ j _ ih =>
      rcases hρ j with ⟨l, -, hs⟩ | ⟨-, he⟩
      · exact ih.trans (now_mono hs)
      · rw [he]
        exact ih
  have hgo := hfair.descends hρ (P := Pends rec)
    (Q := fun s t => ∃ o, Step plus s (.execute rec o) t) (State.ahead rec.1.timePoint) (k := k)
    ?_ ?_ ?_ ⟨hi, hmem, hwork, hreg⟩
  · obtain ⟨j, hj, -, hdone⟩ := hgo
    exact ⟨j, hj, hdone⟩
  · rintro s l t hs ⟨hl, hstep⟩
    rcases hs.step hplus hstep hl with ⟨o, rfl⟩ | ⟨ht, hlt | ⟨-, he⟩⟩
    · exact .inl ⟨o, hstep⟩
    · exact .inr ⟨ht, hlt.le⟩
    · exact .inr ⟨ht, he.le⟩
  · rintro s l t hs hw
    have hno : l.NoCall := by cases l <;> first | exact trivial | exact hw.worker.elim
    rcases hs.step hplus hw.step hno with ⟨o, rfl⟩ | ⟨-, hlt | ⟨rfl | rfl, -⟩⟩
    · exact .inl ⟨o, hw.step⟩
    · exact .inr hlt
    · exact hw.worker.elim
    · exact absurd rfl hw.awake
  · intro hall m
    obtain ⟨i, hi⟩ := htime rec.1.timePoint
    refine ⟨max (max k m) i, by omega, (hall _ (by omega)).exists_step (hi.trans (hnow _ _ ?_))⟩
    omega

/-- The periodic work is called before the other one, and once more after it, and then the clock
goes on. -/
def twoRun : ℕ → State Unit 64
  | 0 => ⟨twoPosted [everyFour 3, onceLater], .waitForTimePoint 3, 1⟩
  | 1 => ⟨twoPosted [everyFour 3, onceLater], .waitForTimePoint 3, 3⟩
  | 2 => ⟨twoPosted [onceLater, everyFour 7], .loop, 3⟩
  | 3 => ⟨twoPosted [onceLater, everyFour 7], .waitForTimePoint 5, 3⟩
  | 4 => ⟨twoPosted [onceLater, everyFour 7], .waitForTimePoint 5, 7⟩
  | 5 => ⟨twoPosted [everyFour 7], .loop, 7⟩
  | 6 => ⟨twoPosted [everyFour 7], .waitForTimePoint 7, 7⟩
  | 7 => ⟨twoPosted [], .loop, 7⟩
  | k + 8 => ⟨twoPosted [], .waitForSomeWork, 7 + k⟩

theorem twoRun_step (k : ℕ) :
    ∃ l, (uncalled Unit 64 Ticks.wrap).step (twoRun k) l (twoRun (k + 1)) := by
  have run : ∀ {s t : State Unit 64} {d : Int} {item : Record Unit 64} {q : Members Unit 64}
      (o : Outcome), s.worker = .waitForTimePoint d → s.queue.containerChangeFlag = false →
      d ≤ s.now → s.queue.wqItemContainer ≠ [] →
      popRecord (siftHeap Unit 64) s.queue = some (item, q) → item.1.work ≠ none →
      { s with
        queue := reschedule (siftHeap Unit 64) item (executeWork Ticks.wrap item o) q
        worker := .loop } = t →
      ∃ l, (uncalled Unit 64 Ticks.wrap).step s l t := by
    rintro s t d item q o hw hf hd hne hp hwork rfl
    exact ⟨.execute item o, trivial,
      .execute (siftHeap Unit 64) o hw hf hd hne hp fun h => absurd h hwork⟩
  match k with
  | 0 => exact ⟨.tick, trivial, .tick 3 (by decide)⟩
  | 1 =>
    exact run (.returned true) rfl rfl (Int.le_refl 3) (List.cons_ne_nil _ _) rfl
      (Option.some_ne_none _) (by decide)
  | 2 =>
    exact ⟨.waitForTime, trivial, .waitForTime (s := twoRun 2) rfl rfl (Option.some_ne_none _) rfl⟩
  | 3 => exact ⟨.tick, trivial, .tick 7 (by decide)⟩
  | 4 =>
    exact run (.returned false) rfl rfl (by decide) (List.cons_ne_nil _ _) rfl
      (Option.some_ne_none _) (by decide)
  | 5 =>
    exact ⟨.waitForTime, trivial, .waitForTime (s := twoRun 5) rfl rfl (Option.some_ne_none _) rfl⟩
  | 6 =>
    exact run (.returned false) rfl rfl (Int.le_refl 7) (List.cons_ne_nil _ _) rfl
      (Option.some_ne_none _) (by decide)
  | 7 => exact ⟨.waitForWork, trivial, .waitForWork (s := twoRun 7) rfl rfl⟩
  | k + 8 => exact ⟨.tick, trivial, .tick (s := twoRun (k + 8)) (7 + ↑(k + 1)) (by
      show (7 + k : Int) ≤ 7 + ↑(k + 1)
      omega)⟩

theorem every_work_runs_twoRun :
    ∃ j o, Step Ticks.wrap (twoRun j) (.execute onceLater o) (twoRun (j + 1)) := by
  have hfair : Fair (WorkerStep Ticks.wrap) twoRun := by
    intro hoften
    obtain ⟨j, hj, l, t, hl, -, hwoken, hs⟩ := hoften 8
    obtain ⟨k, rfl⟩ : ∃ k, j = k + 8 := ⟨j - 8, by omega⟩
    -- nothing is left to do
    have hw : (twoRun (k + 8)).worker = .waitForSomeWork := rfl
    cases hs with
    | wake => cases hwoken rfl
    | call | startWorker | tick => exact hl.elim
    | spurious h | lock h | waitForWork h | exit h | restart h | waitForTime h | changed h
    | drained h | execute _ _ h =>
      rw [hw] at h
      cases h
  have htime : ∀ tp, ∃ k, tp ≤ (twoRun k).now := by
    intro tp
    refine ⟨tp.toNat + 8, ?_⟩
    show tp ≤ 7 + (tp.toNat : Int)
    omega
  obtain ⟨j, -, o, h⟩ := every_work_runs Ticks.wrap_adds (twoPosted_reachable Ticks.wrap)
    (fun k => .inl (twoRun_step k)) hfair htime (k := 0)
    (show onceLater ∈ (twoRun 0).queue.wqItemContainer by decide)
    (Option.some_ne_none _) (by unfold Regular; decide)
  exact ⟨j, o, h⟩

/-! ### Stopping -/

section Stopping

variable {plus : Int → Int → Int} {s t : State ω w} {l : Label ω w}

/-- How far the worker is from the terminator. -/
def State.toExit (s : State ω w) : ℕ := if s.worker = .loop then 0 else 1

theorem Stopping.exists_step (h : Stopping s) (hw : s.worker ≠ .exited) :
    ∃ l t, WorkerStep plus s l t := by
  obtain ⟨l, t, hl, hs⟩ := (h.exits : Exits plus s).exists_next hw
  refine ⟨l, t, hl, ?_, ?_, hs⟩
  · rintro rfl
    cases hs with
    | spurious hw hf =>
      rw [h.changed _ hw] at hf
      cases hf
  · rintro rfl
    cases hs with
    | wake hw => exact h.woken hw

theorem worker_of_not_isWorker (hs : Step plus s l t) (hl : ¬ l.IsWorker)
    (hne : l ≠ .startWorker) : t.worker = s.worker := by
  cases hs with
  | call | tick => rfl
  | startWorker => exact absurd rfl hne
  | _ => exact absurd trivial hl

/-- **A worker that is to stop comes closer to its exit**, and no other step keeps it away. -/
theorem Stopping.closer (h : Stopping s) (hw : s.worker ≠ .exited) (hs : Step plus s l t) :
    (t.worker = .exited ∧ t.queue.wqItemContainer = []) ∨
      ((Stopping t ∧ t.worker ≠ .exited) ∧ t.toExit ≤ s.toExit ∧
        (l.IsWorker → t.toExit < s.toExit)) := by
  have hne : l ≠ .startWorker := by
    rintro rfl
    cases hs with
    | startWorker hor =>
      obtain ⟨-, he⟩ | ⟨-, hn, -⟩ := h.phase
      · exact hw he
      · exact hor.elim hn hw
  have ht := (h.step hs hne).1
  have hx : Exits plus s := h.exits
  by_cases hl : l.IsWorker
  · by_cases hloop : s.worker = .loop
    · obtain ⟨-, hnil, he⟩ := (hx.pass hloop).2 l t hl hs
      exact .inl ⟨he, hnil⟩
    · have hloop' := hx.next l t hl hs hloop
      have hlt : t.toExit < s.toExit := by simp [State.toExit, hloop, hloop']
      exact .inr ⟨⟨ht, by rw [hloop']; simp⟩, hlt.le, fun _ => hlt⟩
  · have hsame := worker_of_not_isWorker hs hl hne
    refine .inr ⟨⟨ht, by rwa [hsame]⟩, ?_, fun h => absurd h hl⟩
    rw [State.toExit, State.toExit, hsame]

end Stopping

/-- **The worker exits after a stop**, so that `kill_worker` and the destructor return, whatever
the clients call in the meantime. -/
theorem worker_joins {plus : Int → Int → Int} {ρ : ℕ → State ω w} {s : State ω w}
    (hr : Reachable (system ω w plus) s)
    (hs : Step plus s (.call .signalWorkerToStop (.stopped true)) (ρ 0))
    (hρ : Endless (system ω w plus) ρ) (hfair : Fair (WorkerStep plus) ρ) :
    ∃ j, (ρ j).worker = .exited ∧ (ρ j).queue.wqItemContainer = [] := by
  have hstopping := stopping_of_stop (inv_of_reachable hr) hs
  by_cases hw : (ρ 0).worker = .exited
  · refine ⟨0, hw, ?_⟩
    obtain ⟨hnil, -⟩ | ⟨hne, -⟩ := hstopping.phase
    · exact hnil
    · exact absurd hw hne
  obtain ⟨j, -, -, hdone⟩ := hfair.descends hρ (P := fun s => Stopping s ∧ s.worker ≠ .exited)
    (Q := fun _ t => t.worker = .exited ∧ t.queue.wqItemContainer = []) State.toExit (k := 0)
    (fun u l t h hu => (h.1.closer h.2 hu).imp_right fun h => ⟨h.1, h.2.1⟩)
    (fun u l t h hu => (h.1.closer h.2 hu.step).imp_right fun h => h.2.2 hu.worker)
    (fun hall m =>
      ⟨m, Nat.le_refl m, (hall m (Nat.zero_le m)).1.exists_step (hall m (Nat.zero_le m)).2⟩)
    ⟨hstopping, hw⟩
  exact ⟨j + 1, hdone⟩

def stoppedQueue : Members Unit 64 :=
  (signalWorkerToStop (siftHeap Unit 64)
    { onePosted with containerChangeFlag := false, wakeUpPending := false }).2

/-- The worker of the one work is stopped while it waits. -/
def onceStopped : ℕ → State Unit 64
  | 0 => ⟨stoppedQueue, .waitForTimePoint 5, 1⟩
  | 1 => ⟨{ stoppedQueue with containerChangeFlag := false }, .loop, 1⟩
  | _ + 2 => ⟨{ stoppedQueue with wqItemContainer := [], containerChangeFlag := false }, .exited, 1⟩

theorem worker_joins_onceStopped :
    ∃ j, (onceStopped j).worker = .exited ∧ (onceStopped j).queue.wqItemContainer = [] := by
  have hρ : Endless (system Unit 64 (· + ·)) onceStopped := by
    intro k
    match k with
    | 0 => exact .inl ⟨.changed, .changed (s := onceStopped 0) rfl rfl⟩
    | 1 => exact .inl ⟨.exit, .exit (s := onceStopped 1) rfl rfl rfl⟩
    | k + 2 => exact .inl ⟨.tick, .tick (s := onceStopped (k + 2)) 1 (Int.le_refl 1)⟩
  have hfair : Fair (WorkerStep (· + ·)) onceStopped := by
    intro hoften
    obtain ⟨j, hj, l, t, hl, -, -, hs⟩ := hoften 2
    obtain ⟨k, rfl⟩ : ∃ k, j = k + 2 := ⟨j - 2, by omega⟩
    have hw : (onceStopped (k + 2)).worker = .exited := rfl
    cases hs with
    | call | startWorker | tick => exact hl.elim
    | spurious h | lock h | waitForWork h | exit h | restart h | waitForTime h | wake h | changed h
    | drained h | execute _ _ h =>
      rw [hw] at h
      cases h
  exact worker_joins (onePosted_reachable (· + ·)) (.call (siftHeap Unit 64) .signalWorkerToStop
    (by simp) trivial) hρ hfair

end Mqmx.WorkQueue

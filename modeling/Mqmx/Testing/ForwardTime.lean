import Mqmx.Testing.Completion

/-!
# `forward_time` without a time

The call reads the time point of the earliest record, and the current time where there is
none, and then sets the clock to what it has read: each in a critical section of its own,
`CallerPc`.  Nobody else sets the clock meanwhile, but clients call and the worker works.

It is documented to set the time of the earliest work waiting for execution, and that may be
behind the clock as long as the worker has not taken the work: `forward_time_back_iff`.
-/

namespace Mqmx.Testing

open WorkQueue (Members Record Heap Outcome Call)
open Transition (System Run)

variable {ω σ : Type} {w : ℕ}

/-! ### The call -/

inductive CallerPc
  | start
  /-- With what `get_nearest_time_point ()` has returned. -/
  | choosing (nearest : Int)
  /-- Before the critical section that sets the clock. -/
  | setting (tp : Int)
  /-- In `wait_for_time_forwarding_completion (tp)`, before its item is posted. -/
  | posting (tp : Int)
  | waiting
  | returned (answer : Bool)
  deriving DecidableEq

/-- What the caller does, and what others do. -/
inductive CallerLabel (ω : Type) (w : ℕ)
  | read (nearest : Int)
  | choose (tp : Int)
  | own (l : Label ω w)
  | others (l : Label ω w)
  deriving DecidableEq

def Label.SetsClock : Label ω w → Prop
  | .forwardTime _ => True
  | .setTime _ => True
  | _ => False

/-- It waits only where its item was taken. -/
def afterPosting : WorkQueue.Reply w → CallerPc
  | .posted .success _ => .waiting
  | _ => .returned false

variable [Semaphore σ]

/-- One step of the caller, or of somebody else who does not set the clock. -/
inductive Calling (lib : Heap (Work ω) w → Prop) (plus : Int → Int → Int)
    (waitForCompletion : Bool) :
    State ω w σ × CallerPc → CallerLabel ω w → State ω w σ × CallerPc → Prop
  | read {s : State ω w σ} : s.worker ≠ .loop →
      Calling lib plus waitForCompletion (s, .start)
        (.read (WorkQueue.getNearestTimePoint s.queue))
        (s, .choosing (WorkQueue.getNearestTimePoint s.queue))
  | nearest {s : State ω w σ} {nearest : Int} : ¬ isTimePointEmpty nearest →
      Calling lib plus waitForCompletion (s, .choosing nearest) (.choose nearest)
        (s, .setting nearest)
  | current {s : State ω w σ} {nearest : Int} : isTimePointEmpty nearest → s.worker ≠ .loop →
      Calling lib plus waitForCompletion (s, .choosing nearest) (.choose s.currentTimePoint)
        (s, .setting s.currentTimePoint)
  | forwardTime {s t : State ω w σ} {tp : Int} : waitForCompletion = false →
      Step lib plus s (.forwardTime tp) t →
      Calling lib plus waitForCompletion (s, .setting tp) (.own (.forwardTime tp))
        (t, .returned true)
  | setTime {s t : State ω w σ} {tp : Int} : waitForCompletion = true →
      Step lib plus s (.setTime tp) t →
      Calling lib plus waitForCompletion (s, .setting tp) (.own (.setTime tp)) (t, .posting tp)
  | post (h : Heap (Work ω) w) (now : Int) {s : State ω w σ} {tp : Int} {n : ℕ} : lib h →
      s.worker ≠ .loop → s.posting = n + 1 →
      Calling lib plus waitForCompletion (s, .posting tp)
        (.own (.postForwarding ((s.forwardingCall now tp).run h s.queue).1))
        ({ s with
            queue := ((s.forwardingCall now tp).run h s.queue).2
            posting := n
            waiting := waitingAfter s.waiting ((s.forwardingCall now tp).run h s.queue).1 },
          afterPosting ((s.forwardingCall now tp).run h s.queue).1)
  | completed {s t : State ω w σ} : Step lib plus s .completed t →
      Calling lib plus waitForCompletion (s, .waiting) (.own .completed) (t, .returned true)
  | others {s t : State ω w σ} {l : Label ω w} {pc : CallerPc} : ¬ l.SetsClock →
      Step lib plus s l t →
      Calling lib plus waitForCompletion (s, pc) (.others l) (t, pc)

/-- One call of `forward_time (wait_for_completion)`, from any state of the queue. -/
def calling (ω : Type) (w : ℕ) (σ : Type) [Semaphore σ] (lib : Heap (Work ω) w → Prop)
    (plus : Int → Int → Int) (waitForCompletion : Bool) :
    System (State ω w σ × CallerPc) (CallerLabel ω w) where
  init s := Transition.Reachable (system ω w σ lib plus) s.1 ∧ s.2 = .start
  step := Calling lib plus waitForCompletion

variable {lib : Heap (Work ω) w → Prop} {plus : Int → Int → Int} {waitForCompletion : Bool}

/-! ### The clock -/

theorem executeWork_time (h : Heap (Work ω) w) (item : Record (Work ω) w) (outcome : Outcome)
    (s : State ω w σ) : (executeWork h plus item outcome s).currentTimePoint =
      s.currentTimePoint := by
  have hcall : (callWork item outcome s).2.currentTimePoint = s.currentTimePoint := by
    unfold callWork
    split <;> rfl
  unfold executeWork
  dsimp only
  split
  · split
    · exact hcall
    · exact hcall
  · split
    · exact hcall
    · exact hcall

/-- **Only `forward_time` sets the clock.** -/
theorem Step.time {s t : State ω w σ} {l : Label ω w} (hs : Step lib plus s l t)
    (hl : ¬ l.SetsClock) : t.currentTimePoint = s.currentTimePoint := by
  cases hs with
  | forwardTime | setTime => exact absurd trivial hl
  | execute h o _ _ _ _ _ hp =>
    obtain ⟨r, -, e⟩ := Option.map_eq_some_iff.mp hp
    cases e
    exact executeWork_time h _ o _
  | _ => rfl

theorem Calling.step {s t : State ω w σ × CallerPc} {l : CallerLabel ω w}
    (h : Calling lib plus waitForCompletion s l t) :
    t.1 = s.1 ∨ ∃ k, Step lib plus s.1 k t.1 := by
  cases h with
  | read | nearest | current => exact .inl rfl
  | forwardTime _ hs | setTime _ hs | completed hs | others _ hs => exact .inr ⟨_, hs⟩
  | post h now hlib hw hn => exact .inr ⟨_, .postForwarding h now _ hlib hw hn⟩

theorem reachable_of_calling {s₀ t : State ω w σ} {pc pc' : CallerPc}
    {ls : List (CallerLabel ω w)} (hr₀ : Transition.Reachable (system ω w σ lib plus) s₀)
    (hr : Run (calling ω w σ lib plus waitForCompletion) (s₀, pc) ls (t, pc')) :
    Transition.Reachable (system ω w σ lib plus) t := by
  refine hr.invariant (S := calling ω w σ lib plus waitForCompletion)
    (P := fun s => Transition.Reachable (system ω w σ lib plus) s.1) (fun s l t h hs => ?_) hr₀
  rcases hs.step with e | ⟨k, hk⟩
  · rw [e]
    exact h
  · exact h.step hk

/-! ### What the call has read -/

/-- The state in which the call has read the nearest time point. -/
def Reads (S : System (State ω w σ × CallerPc) (CallerLabel ω w)) (s₀ : State ω w σ)
    (ls : List (CallerLabel ω w)) (s : State ω w σ) : Prop :=
  ∃ ls₁ ls₂, ls = ls₁ ++ .read (WorkQueue.getNearestTimePoint s.queue) :: ls₂ ∧
    Run S (s₀, .start) ls₁ (s, .start)

/-- What the clock is set to. -/
def destination (now nearest : Int) : Int := if isTimePointEmpty nearest then now else nearest

section Progress

variable {S : System (State ω w σ × CallerPc) (CallerLabel ω w)} {s₀ s : State ω w σ}
  {ls : List (CallerLabel ω w)}

omit [Semaphore σ] in
theorem Reads.snoc (h : Reads S s₀ ls s) (l : CallerLabel ω w) : Reads S s₀ (ls ++ [l]) s := by
  obtain ⟨ls₁, ls₂, rfl, hr⟩ := h
  exact ⟨ls₁, ls₂ ++ [l], by simp, hr⟩

/-- How far the call has come: the clock is as it was, and then as it was read. -/
def Progress (S : System (State ω w σ × CallerPc) (CallerLabel ω w)) (s₀ : State ω w σ)
    (ls : List (CallerLabel ω w)) (t : State ω w σ) : CallerPc → Prop
  | .start => t.currentTimePoint = s₀.currentTimePoint
  | .choosing nearest => t.currentTimePoint = s₀.currentTimePoint ∧
      ∃ s, Reads S s₀ ls s ∧ nearest = WorkQueue.getNearestTimePoint s.queue
  | .setting tp => t.currentTimePoint = s₀.currentTimePoint ∧
      ∃ s, Reads S s₀ ls s ∧
        tp = destination s₀.currentTimePoint (WorkQueue.getNearestTimePoint s.queue)
  | _ => ∃ s, Reads S s₀ ls s ∧
      t.currentTimePoint =
        destination s₀.currentTimePoint (WorkQueue.getNearestTimePoint s.queue)

omit [Semaphore σ] in
theorem Progress.others {t u : State ω w σ} {pc : CallerPc} (h : Progress S s₀ ls t pc)
    (hu : u.currentTimePoint = t.currentTimePoint) (l : CallerLabel ω w) :
    Progress S s₀ (ls ++ [l]) u pc := by
  cases pc with
  | start => exact hu.trans h
  | choosing | setting =>
    obtain ⟨ht, s, hs, e⟩ := h
    exact ⟨hu.trans ht, s, hs.snoc l, e⟩
  | posting | waiting | returned =>
    obtain ⟨s, hs, e⟩ := h
    exact ⟨s, hs.snoc l, hu.trans e⟩

end Progress

theorem progress_run {s₀ t : State ω w σ} {pc : CallerPc} {ls : List (CallerLabel ω w)}
    (hr : Run (calling ω w σ lib plus waitForCompletion) (s₀, .start) ls (t, pc)) :
    Progress (calling ω w σ lib plus waitForCompletion) s₀ ls t pc := by
  refine (hr.history_invariant (P := fun ls s =>
    Run (calling ω w σ lib plus waitForCompletion) (s₀, .start) ls s ∧
      Progress (calling ω w σ lib plus waitForCompletion) s₀ ls s.1 s.2)
    (fun ls s l t h hs => ⟨h.1.snoc hs, ?_⟩) ⟨.nil _, rfl⟩).2
  obtain ⟨hrun, h⟩ := h
  cases hs with
  | read => exact ⟨h, _, ⟨ls, [], rfl, hrun⟩, rfl⟩
  | nearest hne =>
    obtain ⟨ht, s, hs, rfl⟩ := h
    exact ⟨ht, s, hs.snoc _, (if_neg hne).symm⟩
  | current he =>
    obtain ⟨ht, s, hs, rfl⟩ := h
    exact ⟨ht, s, hs.snoc _, ht.trans (if_pos he).symm⟩
  | forwardTime _ hs | setTime _ hs =>
    obtain ⟨-, s, hread, rfl⟩ := h
    cases hs
    exact ⟨s, hread.snoc _, rfl⟩
  | @post h' now s tp n =>
    obtain ⟨r, hread, e⟩ := h
    unfold afterPosting
    split
    · exact ⟨r, hread.snoc _, e⟩
    · exact ⟨r, hread.snoc _, e⟩
  | completed hs =>
    obtain ⟨s, hread, e⟩ := h
    exact ⟨s, hread.snoc _, (hs.time id).trans e⟩
  | others hl hs => exact h.others (hs.time hl) _

/-! ### Forward or back -/

/-- **`forward_time ()` leaves the clock at the earliest work that waits**, and so it turns the
clock back exactly where a work that waits is overdue when the call looks. -/
theorem forward_time_back_iff {s₀ t : State ω w σ} {ls : List (CallerLabel ω w)} {answer : Bool}
    (hr₀ : Transition.Reachable (system ω w σ lib plus) s₀)
    (hr : Run (calling ω w σ lib plus waitForCompletion) (s₀, .start) ls (t, .returned answer)) :
    ∃ s, Reads (calling ω w σ lib plus waitForCompletion) s₀ ls s ∧
      t.currentTimePoint =
        destination s₀.currentTimePoint (WorkQueue.getNearestTimePoint s.queue) ∧
      (s₀.currentTimePoint ≤ t.currentTimePoint ↔
        isTimePointEmpty (WorkQueue.getNearestTimePoint s.queue) ∨
          ∀ r ∈ s.queue.wqItemContainer, s₀.currentTimePoint ≤ r.1.timePoint) := by
  obtain ⟨s, hread, e⟩ := progress_run hr
  refine ⟨s, hread, e, ?_⟩
  obtain ⟨ls₁, -, -, hr₁⟩ := hread
  have hearliest : s.queue.Earliest :=
    WorkQueue.Members.earliest (inv_of_reachable (reachable_of_calling hr₀ hr₁)).heap
  rw [e, destination]
  split
  · rename_i hempty
    exact ⟨fun _ => .inl hempty, fun _ => Int.le_refl _⟩
  · rename_i hne
    constructor
    · intro hle
      exact .inr fun r hr => Int.le_trans hle (hearliest.least r hr)
    · rintro (hempty | hall)
      · exact absurd hempty hne
      · -- the nearest time point is that of a record
        have hc : s.queue.wqItemContainer ≠ [] := by
          intro hnil
          apply hne
          rw [WorkQueue.getNearestTimePoint, hnil]
          rfl
        obtain ⟨r, hr, hrt⟩ := hearliest.attained hc
        rw [← hrt]
        exact hall r hr

def postedFor (tp : Int) : State Unit 64 ℕ :=
  { startedAt 5 with
    queue := ((WorkQueue.Call.scheduleWork 5 1 (some (.user ())) tp 0).run
      (WorkQueue.siftHeap (Work Unit) 64) (startedAt 5).queue).2 }

theorem postedFor_reachable (plus : Int → Int → Int) (tp : Int) :
    Transition.Reachable (system Unit 64 ℕ StdHeap.Algorithms.FrontStable plus) (postedFor tp) :=
  withWork_reachable (startedAt_reachable plus 5) (by decide) tp 0

/-- With a work for tick `7` the clock is set to what the call has read. -/
theorem forward_time_back_iff_seven : ∃ s t : State Unit 64 ℕ,
    Run (calling Unit 64 ℕ StdHeap.Algorithms.FrontStable (· + ·) false) (postedFor 7, .start)
      [.read 7, .choose 7, .own (.forwardTime 7)] (t, .returned true) ∧
    Reads (calling Unit 64 ℕ StdHeap.Algorithms.FrontStable (· + ·) false) (postedFor 7)
      [.read 7, .choose 7, .own (.forwardTime 7)] s ∧
    t.currentTimePoint = destination 5 (WorkQueue.getNearestTimePoint s.queue) := by
  have hrun : Run (calling Unit 64 ℕ StdHeap.Algorithms.FrontStable (· + ·) false)
      (postedFor 7, .start) [.read 7, .choose 7, .own (.forwardTime 7)] (_, .returned true) :=
    .cons (.read (by decide)) (.cons (.nearest (by decide))
      (.single (.forwardTime rfl (.forwardTime 7 (by decide)))))
  obtain ⟨s, hread, htime, -⟩ := forward_time_back_iff (postedFor_reachable _ 7) hrun
  exact ⟨s, _, hrun, hread, htime⟩

/-- **A work for tick `3` turns the clock back**, from tick `5`. -/
theorem forward_time_turns_back : ¬ ∀ (s₀ t : State Unit 64 ℕ) ls answer,
    Transition.Reachable (system Unit 64 ℕ StdHeap.Algorithms.FrontStable (· + ·)) s₀ →
    Run (calling Unit 64 ℕ StdHeap.Algorithms.FrontStable (· + ·) true) (s₀, .start) ls
      (t, .returned answer) → s₀.currentTimePoint ≤ t.currentTimePoint := by
  intro h
  have hstable : (WorkQueue.siftHeap (Work Unit) 64).FrontStable :=
    StdHeap.Algorithms.sift_frontStable WorkQueue.recordCompare_strictWeak
  have hrun : Run (calling Unit 64 ℕ StdHeap.Algorithms.FrontStable (· + ·) true)
      (postedFor 3, .start)
      [.read 3, .choose 3, .own (.setTime 3), .own (.postForwarding (.posted .success 1)),
        .others .lock, .others (.execute (⟨3, 1, some (.user ()), 0⟩, 0) (.returned false)),
        .others (.execute (⟨3, 0, some .forwarding, 0⟩, 1) (.returned false)), .own .completed]
      (_, .returned true) :=
    .cons (.read (by decide)) (.cons (.nearest (by decide))
      (.cons (.setTime rfl (.setTime 3 (by decide)))
      (.cons (.post (WorkQueue.siftHeap (Work Unit) 64) 3 hstable (by decide) rfl)
      (.cons (.others id (.lock rfl))
      (.cons (.others id (.execute (WorkQueue.siftHeap (Work Unit) 64) (.returned false) hstable
        rfl rfl (by decide) (by decide) rfl))
      (.cons (.others id (.execute (WorkQueue.siftHeap (Work Unit) 64) (.returned false) hstable
        rfl rfl (by decide) (by decide) rfl))
      (.single (.completed (.completed rfl rfl)))))))))
  have := h _ _ _ _ (postedFor_reachable _ 3) hrun
  exact absurd this (by decide)

end Mqmx.Testing

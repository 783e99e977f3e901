import Mqmx.Base.Ticks
import Mqmx.Base.Transition
import Mqmx.Queue.Listener

/-!
# Timeouts

`wait_time_provider.h`, and `wait_for_notifications` of `message_queue_poll.h`.  A timeout is
none, infinite, a duration or a time point; the three members say which, and the empty time
point means that there is nothing to wait for.

The wait goes on while notifications arrive and the clock runs: `Waiting.Step`.  It is the
wait of the condition variable with the predicate that the list is not empty, so it ends with
a notification, or, where it is a timed one, at the deadline.

* `Waiting.timed_wait_lasts`: a timed wait that ends without a notification has lasted until
  its deadline.
* `relative_timeout_iff`: a duration is waited for in full exactly when the sum of the clock's
  reading and the duration is a value of the tick type.
-/

namespace Mqmx

open Transition (System Run)

variable {A : Type}

structure WaitTimeProvider where
  relTime : Int
  absTime : Int
  waitInfinitely : Bool
  deriving DecidableEq

namespace WaitTimeProvider

/-- `wait_time_provider ()`. -/
def noWait : WaitTimeProvider := ⟨0, 0, false⟩

def ofDuration (relTime : Int) : WaitTimeProvider := ⟨relTime, 0, false⟩

def ofTimePoint (absTime : Int) : WaitTimeProvider := ⟨0, absTime, false⟩

/-- `get_time_point (rcp)`, where `now` is what the reference clock reads. -/
def getTimePoint (plus : Int → Int → Int) (now : Int) (wtp : WaitTimeProvider) : Int :=
  if isTimePointEmpty wtp.absTime ∧ wtp.relTime = 0 then 0
  else if isTimePointEmpty wtp.absTime then plus now wtp.relTime
  else wtp.absTime

@[simp] theorem getTimePoint_noWait (plus : Int → Int → Int) (now : Int) :
    noWait.getTimePoint plus now = 0 := rfl

theorem getTimePoint_ofDuration (plus : Int → Int → Int) (now : Int) {d : Int} (hd : d ≠ 0) :
    (ofDuration d).getTimePoint plus now = plus now d := by
  have hempty : isTimePointEmpty (ofDuration d).absTime := rfl
  rw [getTimePoint, if_neg fun h => hd h.2, if_pos hempty]
  rfl

/-- **A time point is its own deadline.** -/
@[simp] theorem getTimePoint_ofTimePoint (plus : Int → Int → Int) (now tp : Int) :
    (ofTimePoint tp).getTimePoint plus now = tp := by
  unfold getTimePoint
  by_cases h : isTimePointEmpty (ofTimePoint tp).absTime
  · rw [if_pos ⟨h, rfl⟩]
    exact h.symm
  · rw [if_neg fun hn => h hn.1, if_neg h]
    rfl

end WaitTimeProvider

/-- What `wait_for_notifications` goes on to do. -/
inductive Wait
  | returns
  | forever
  | timed (absTime : Int)
  deriving DecidableEq

/-- `wait_for_notifications`, up to its wait. -/
def waitForNotifications (plus : Int → Int → Int) (wtp : WaitTimeProvider) (now : Int)
    (notifications : List (NotificationRec A)) : Wait :=
  if notifications ≠ [] then .returns
  else if wtp.waitInfinitely then .forever
  else
    let absTime := wtp.getTimePoint plus now
    if isTimePointEmpty absTime then .returns else .timed absTime

theorem waitForNotifications_nil (plus : Int → Int → Int) {wtp : WaitTimeProvider} (now : Int)
    (hfinite : wtp.waitInfinitely = false) :
    waitForNotifications plus wtp now ([] : List (NotificationRec A)) =
      if isTimePointEmpty (wtp.getTimePoint plus now) then .returns
      else .timed (wtp.getTimePoint plus now) := by
  simp [waitForNotifications, hfinite]

/-! ### The wait -/

namespace Waiting

inductive Pc (A : Type)
  | called
  | wait
  | waitUntil (absTime : Int)
  | returned (notifications : List (NotificationRec A))

structure State (A : Type) where
  notifications : List (NotificationRec A)
  now : Int
  pc : Pc A

inductive Label (A : Type)
  | notify (qid : ℕ) (mq : Option A) (flag : Flags)
  | tick
  | enter (reading : Int)
  | wake
  | timeout

/-- The thread that waits, the clock, and the queues that notify. -/
inductive Step (plus : Int → Int → Int) (wtp : WaitTimeProvider) :
    State A → Label A → State A → Prop
  | notify {s : State A} (qid : ℕ) (mq : Option A) (flag : Flags) :
      Step plus wtp s (.notify qid mq flag)
        { s with notifications := Mqmx.notify qid mq flag s.notifications }
  | tick {s : State A} (t : Int) : s.now ≤ t → Step plus wtp s .tick { s with now := t }
  /-- The list was not empty, or there is no timeout. -/
  | pass {s : State A} (reading : Int) : s.pc = .called →
      waitForNotifications plus wtp reading s.notifications = .returns →
      Step plus wtp s (.enter reading) { s with pc := .returned s.notifications }
  | enter {s : State A} (reading : Int) : s.pc = .called →
      waitForNotifications plus wtp reading s.notifications = .forever →
      Step plus wtp s (.enter reading) { s with pc := .wait }
  | enterTimed {s : State A} (reading : Int) {absTime : Int} : s.pc = .called →
      waitForNotifications plus wtp reading s.notifications = .timed absTime →
      Step plus wtp s (.enter reading) { s with pc := .waitUntil absTime }
  | wake {s : State A} : s.pc = .wait ∨ (∃ absTime, s.pc = .waitUntil absTime) →
      s.notifications ≠ [] → Step plus wtp s .wake { s with pc := .returned s.notifications }
  | timeout {s : State A} {absTime : Int} : s.pc = .waitUntil absTime → absTime ≤ s.now →
      Step plus wtp s .timeout { s with pc := .returned s.notifications }

/-- One call of `wait_for_notifications`. -/
def system (A : Type) (plus : Int → Int → Int) (wtp : WaitTimeProvider) :
    System (State A) (Label A) where
  init s := s.pc = .called
  step := Step plus wtp

/-- Where a wait for `absTime` is, and what it has returned. -/
def Until (absTime : Int) (s : State A) : Prop :=
  s.pc = .waitUntil absTime ∨ ∃ l, s.pc = .returned l ∧ (l = [] → absTime ≤ s.now)

theorem Until.step {plus : Int → Int → Int} {wtp : WaitTimeProvider} {absTime : Int}
    {s t : State A} {x : Label A} (h : Until absTime s) (hs : Step plus wtp s x t) :
    Until absTime t := by
  cases hs with
  | notify => exact h
  | tick t ht =>
    rcases h with h | ⟨l, h, hl⟩
    · exact .inl h
    · refine .inr ⟨l, h, fun he => ?_⟩
      have := hl he
      show absTime ≤ t
      omega
  | pass _ hpc _ | enter _ hpc _ | enterTimed _ hpc _ =>
    rcases h with h | ⟨l, h, -⟩
    · rw [hpc] at h; cases h
    · rw [hpc] at h; cases h
  | wake _ hne => exact .inr ⟨_, rfl, fun he => absurd he hne⟩
  | timeout hpc hd =>
    refine .inr ⟨_, rfl, fun _ => ?_⟩
    rcases h with h | ⟨l, h, -⟩
    · rw [hpc] at h
      cases h
      exact hd
    · rw [hpc] at h
      cases h

/-- **A timed wait lasts**: it ends without a notification at its deadline, and not before. -/
theorem timed_wait_lasts {plus : Int → Int → Int} {wtp : WaitTimeProvider} {absTime : Int}
    {s t : State A} {ls : List (Label A)} (hr : Run (system A plus wtp) s ls t)
    (hs : s.pc = .waitUntil absTime) (ht : t.pc = .returned []) : absTime ≤ t.now := by
  have hu : Until absTime t := hr.invariant (fun _ _ _ h hs => h.step hs) (.inl hs)
  rcases hu with h | ⟨l, h, hl⟩
  · rw [ht] at h
    cases h
  · rw [ht] at h
    cases h
    exact hl rfl

end Waiting

/-- **What a relative timeout owes**: the deadline is the sum, and the wait lasts until then. -/
structure WaitsFor (A : Type) (plus : Int → Int → Int) (c d : Int) : Prop where
  exact : (WaitTimeProvider.ofDuration d).getTimePoint plus c = c + d
  later : c < (WaitTimeProvider.ofDuration d).getTimePoint plus c
  nonempty : ¬ isTimePointEmpty ((WaitTimeProvider.ofDuration d).getTimePoint plus c)
  timed : waitForNotifications plus (.ofDuration d) c ([] : List (NotificationRec A)) =
    .timed (c + d)
  lasts : ∀ (s t u : Waiting.State A) ls,
    (Waiting.system A plus (.ofDuration d)).step s (.enter c) t → s.notifications = [] →
    Run (Waiting.system A plus (.ofDuration d)) t ls u → u.pc = .returned [] → c + d ≤ u.now

/-- What an absolute one owes. -/
structure WaitsUntil (A : Type) (plus : Int → Int → Int) (tp : Int) : Prop where
  exact : ∀ now, (WaitTimeProvider.ofTimePoint tp).getTimePoint plus now = tp
  timed : ∀ now, waitForNotifications plus (.ofTimePoint tp) now
    ([] : List (NotificationRec A)) = .timed tp

/-- **A duration is waited for in full exactly when the sum with the clock's reading is a value
of the tick type.**  A time point is waited for whatever the clock reads. -/
theorem relative_timeout_iff (A : Type) {plus : Int → Int → Int} (hplus : Ticks.Adds plus)
    {c d : Int} (hc : 0 ≤ c) (hd : 0 < d) :
    (WaitsFor A plus c d ↔ c + d ≤ Ticks.max) ∧
      ∀ tp, ¬ isTimePointEmpty tp → WaitsUntil A plus tp := by
  have hsum : (WaitTimeProvider.ofDuration d).getTimePoint plus c = plus c d :=
    WaitTimeProvider.getTimePoint_ofDuration plus c (by omega)
  refine ⟨⟨?_, ?_⟩, ?_⟩
  · intro h
    have hrange := hplus.eq_iff.mp (hsum.symm.trans h.exact)
    exact hrange.2
  · intro hmax
    have hmin : Ticks.min ≤ c + d := by
      unfold Ticks.min
      omega
    have hexact : (WaitTimeProvider.ofDuration d).getTimePoint plus c = c + d :=
      hsum.trans (hplus.exact ⟨hmin, hmax⟩)
    have hlater : c < (WaitTimeProvider.ofDuration d).getTimePoint plus c := by omega
    have hne : ¬ isTimePointEmpty ((WaitTimeProvider.ofDuration d).getTimePoint plus c) := by
      rw [hexact]
      exact fun h => absurd (show c + d = 0 from h) (by omega)
    have htimed : waitForNotifications plus (.ofDuration d) c ([] : List (NotificationRec A)) =
        .timed (c + d) := by
      rw [waitForNotifications_nil plus c rfl, if_neg hne, hexact]
    refine ⟨hexact, hlater, hne, htimed, ?_⟩
    intro s t u ls hs hnil hr hu
    cases hs with
    | pass _ _ h =>
      rw [hnil, htimed] at h
      cases h
    | enter _ _ h =>
      rw [hnil, htimed] at h
      cases h
    | enterTimed _ _ h =>
      rw [hnil, htimed] at h
      cases h
      exact Waiting.timed_wait_lasts hr rfl hu
  · intro tp htp
    have hexact : ∀ now, (WaitTimeProvider.ofTimePoint tp).getTimePoint plus now = tp :=
      fun now => WaitTimeProvider.getTimePoint_ofTimePoint plus now tp
    refine ⟨hexact, ?_⟩
    intro now
    rw [waitForNotifications_nil plus now rfl, hexact, if_neg htp]

/-- A microsecond at tick `1` of a clock of nanoseconds. -/
theorem relative_timeout_microsecond : WaitsFor Unit Ticks.wrap 1 1000 :=
  ((relative_timeout_iff Unit Ticks.wrap_adds (by decide) (by decide)).1).mpr (by decide)

/-- **The longest duration is cut short**: at tick `1` its deadline is before the epoch. -/
theorem longest_timeout_cut_short :
    (WaitTimeProvider.ofDuration Ticks.max).getTimePoint Ticks.wrap 1 = Ticks.min ∧
      ¬ WaitsFor Unit Ticks.wrap 1 Ticks.max := by
  have hmin : (WaitTimeProvider.ofDuration Ticks.max).getTimePoint Ticks.wrap 1 = Ticks.min := by
    decide
  refine ⟨hmin, ?_⟩
  intro h
  have := h.later
  rw [hmin] at this
  exact absurd this (by decide)

end Mqmx

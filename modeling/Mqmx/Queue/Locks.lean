import Mathlib.Data.Fintype.Order
import Mqmx.Base.Locks
import Mqmx.Poll.Timeout
import Mqmx.Queue.Notified

/-!
# The locks of a queue and of a listener

A function of a queue holds the mutex of the queue, or of both queues of an assignment, from its
first access to its last, and a listener takes its own mutex while it is told something.  The
constructor and the destructor of a queue take no mutex of it.  `wait_for_notifications` sleeps at
the condition variable of the listener, without its mutex, while nothing has been told.

What an operation tells depends on the memory it finds (`Op.told`); it is what it delivers
(`mem_told_iff`).  `no_deadlock` is about any memories: no call waits for a mutex for ever, and what
sleeps for ever is a wait without a time limit, on a listener that is told nothing or that others
wait on.  The listeners are those of polls, which call nobody when they are told something.
-/

namespace Mqmx

open Locks (Action locked Climbs)
open Transition (System Run)

variable {A β L : Type}

inductive Lock (A L : Type)
  | queue (a : A)
  | listener (l : L)
  deriving DecidableEq

/-- The mutex of a listener comes after those of the queues. -/
def Lock.rank : Lock A L → Fin 2
  | .queue _ => 0
  | .listener _ => 1

section Told

variable [DecidableEq A]

/-- The queues whose mutex it holds. -/
def Op.mutexes : Op A β L → List A
  | .moveConstruct _ o => [o]
  | .moveAssign a o => if a = o then [] else [a, o]
  | .push a (some _) => [a]
  | .pop a => [a]
  | .setListener a _ => [a]
  | .clearListener a => [a]
  | _ => []

/-- `notify` of a listener, with `notify_one`. -/
def notifyLocks (l : L) : List (Action (Lock A L)) := locked [.listener l] [.signal (.listener l)]

def Op.locks (m : Memory A β L) (o : Op A β L) : List (Action (Lock A L)) :=
  locked (o.mutexes.map .queue) ((o.told m).flatMap notifyLocks)

/-- A call of a queue or of a listener, with the memory it finds.  `wait` is what
`wait_for_notifications` does where it finds the list empty. -/
inductive MemberCall (A β L : Type)
  | op (o : Op A β L) (m : Memory A β L)
  | getNotifications (l : L)
  | waitForNotifications (l : L) (wait : Wait)

def Wait.actions (l : L) : Wait → List (Action (Lock A L))
  | .returns => []
  | .forever => [.wait (.listener l) false]
  | .timed _ => [.wait (.listener l) true]

def MemberCall.locks : MemberCall A β L → List (Action (Lock A L))
  | .op o m => o.locks m
  | .getNotifications l => locked [.listener l] []
  | .waitForNotifications l wait => locked [.listener l] (wait.actions l)

/-- What a thread that makes these calls does to the mutexes. -/
def callLocks (calls : List (MemberCall A β L)) : List (Action (Lock A L)) :=
  calls.flatMap MemberCall.locks

end Told

/-! ### The order of the mutexes -/

section Order

variable [DecidableEq A]

omit [DecidableEq A] in
theorem climbs_notifyLocks {H : Set (Lock A L)} (hH : ∀ h ∈ H, h.rank = 0) (l : L) :
    Climbs Lock.rank H (notifyLocks l) H := by
  refine Climbs.locked (List.nodup_singleton _) ?_ rfl
  intro h hh k hk
  rw [List.mem_singleton] at hk
  rw [hH h hh, hk]
  show (0 : Fin 2) < 1
  decide

omit [DecidableEq A] in
theorem Op.climbs_notifies {H : Set (Lock A L)} (hH : ∀ h ∈ H, h.rank = 0) (ls : List L) :
    Climbs Lock.rank H (ls.flatMap notifyLocks) H := by
  induction ls with
  | nil => rfl
  | cons l ls ih => exact (climbs_notifyLocks hH l).append ih

theorem Op.mutexes_nodup (o : Op A β L) : o.mutexes.Nodup := by
  cases o with
  | moveAssign a o =>
    by_cases h : a = o
    · simp [Op.mutexes, h]
    · simp [Op.mutexes, h]
  | push a msg =>
    cases msg with
    | none => exact List.nodup_nil
    | some x => exact List.nodup_singleton a
  | moveConstruct _ a | pop a | setListener a | clearListener a => exact List.nodup_singleton a
  | construct | destroy => exact List.nodup_nil

theorem Op.climbs (m : Memory A β L) (o : Op A β L) : Climbs Lock.rank ∅ (o.locks m) ∅ := by
  have hn : (o.mutexes.map (Lock.queue (L := L))).Nodup :=
    o.mutexes_nodup.map fun _ _ h => Lock.queue.inj h
  refine Climbs.locked hn (fun h hh => hh.elim) ?_
  apply climbs_notifies
  intro h hh
  -- all that is held are mutexes of queues
  rw [Set.empty_union] at hh
  obtain ⟨a, -, rfl⟩ := List.mem_map.mp hh
  rfl

omit [DecidableEq A] in
theorem Wait.climbs (l : L) (wait : Wait) :
    Climbs Lock.rank {Lock.listener (A := A) l} (wait.actions l) {.listener l} := by
  cases wait with
  | returns => rfl
  | forever | timed => exact ⟨rfl, rfl⟩

theorem MemberCall.climbs (c : MemberCall A β L) : Climbs Lock.rank ∅ c.locks ∅ := by
  cases c with
  | op o m => exact o.climbs m
  | getNotifications l =>
    exact Climbs.locked (List.nodup_singleton _) (fun h hh => hh.elim) rfl
  | waitForNotifications l wait =>
    refine Climbs.locked (List.nodup_singleton _) (fun h hh => hh.elim) ?_
    have hone : (∅ ∪ {k | k ∈ [.listener l]} : Set (Lock A L)) = {.listener l} := by
      ext k
      simp
    rw [hone]
    exact wait.climbs l

theorem climbs_calls (calls : List (MemberCall A β L)) :
    Climbs Lock.rank ∅ (callLocks calls) ∅ := by
  induction calls with
  | nil => rfl
  | cons c calls ih => exact c.climbs.append ih

/-! ### Who waits -/

omit [DecidableEq A] in
theorem Op.no_wait {k : Lock A L} {timed : Bool} (ls : List L) :
    Action.wait k timed ∉ ls.flatMap (notifyLocks (A := A)) := by
  intro h
  obtain ⟨l, -, h⟩ := List.mem_flatMap.mp h
  simp [notifyLocks, locked] at h

theorem MemberCall.wait_mem {c : MemberCall A β L} {k : Lock A L} {timed : Bool}
    (h : Action.wait k timed ∈ c.locks) :
    ∃ l wait, k = .listener l ∧ c = .waitForNotifications l wait ∧ wait ≠ .returns ∧
      (timed = false → wait = .forever) := by
  cases c with
  | op o m =>
    rcases List.mem_append.mp h with h | h
    · rcases List.mem_cons.mp h with h | h
      · cases h
      · exact absurd h (Op.no_wait _)
    · simp at h
  | getNotifications l => simp [MemberCall.locks, locked] at h
  | waitForNotifications l wait =>
    cases wait with
    | returns => simp [MemberCall.locks, locked, Wait.actions] at h
    | forever =>
      obtain ⟨rfl, rfl⟩ : k = .listener l ∧ timed = false := by
        simpa [MemberCall.locks, locked, Wait.actions] using h
      exact ⟨l, .forever, rfl, rfl, by simp, fun _ => rfl⟩
    | timed absTime =>
      obtain ⟨rfl, rfl⟩ : k = .listener l ∧ timed = true := by
        simpa [MemberCall.locks, locked, Wait.actions] using h
      exact ⟨l, .timed absTime, rfl, rfl, by simp, fun h => by cases h⟩

theorem wait_mem_callLocks {calls : List (MemberCall A β L)} {k : Lock A L} {timed : Bool}
    (h : Action.wait k timed ∈ callLocks calls) :
    ∃ l wait, k = .listener l ∧ .waitForNotifications l wait ∈ calls ∧ wait ≠ .returns ∧
      (timed = false → wait = .forever) := by
  obtain ⟨c, hc, h⟩ := List.mem_flatMap.mp h
  obtain ⟨l, wait, hk, rfl, hwait⟩ := MemberCall.wait_mem h
  exact ⟨l, wait, hk, hc, hwait⟩

end Order

section Threads

variable {ι : Type} [DecidableEq ι] [DecidableEq A] [DecidableEq L]

/-- Threads that make these calls. -/
def callers (calls : ι → List (MemberCall A β L)) :
    System (Locks.State ι (Lock A L)) (Locks.Label ι) :=
  Locks.system fun i => callLocks (calls i)

def beforeCalls (told : L → Bool) (calls : ι → List (MemberCall A β L)) :
    Locks.State ι (Lock A L) :=
  Locks.start
    (fun k => match k with
      | .queue _ => false
      | .listener l => told l)
    fun i => callLocks (calls i)

/-- The thread sleeps in `wait_for_notifications`, which has no time limit. -/
def SleepsOn (t : Locks.State ι (Lock A L)) (i : ι) (l : L) : Prop :=
  t.Sleeps i (.listener l) false

/-- All mutexes are free, and a thread that is not at its end sleeps: nothing has been told to its
listener, or another thread waits on it. -/
structure CallsAtRest (calls : ι → List (MemberCall A β L)) (t : Locks.State ι (Lock A L)) :
    Prop where
  free : ∀ k, t.owner k = none
  thread : ∀ i, t.Ended i ∨ ∃ l, SleepsOn t i l ∧ .waitForNotifications l .forever ∈ calls i ∧
    (t.ready (.listener l) = true →
      ∃ j ≠ i, ∃ wait, wait ≠ .returns ∧ .waitForNotifications l wait ∈ calls j)

/-- **No deadlock.**  However many threads call the functions of queues and listeners, in whatever
order, the spurious wake-ups apart they make a bounded number of steps, and where none is left all
mutexes are free, and each call has returned but for waits that nothing ends. -/
theorem no_deadlock [Fintype ι] {calls : ι → List (MemberCall A β L)} {told : L → Bool}
    {ls : List (Locks.Label ι)} {t : Locks.State ι (Lock A L)}
    (hr : Run (callers calls) (beforeCalls told calls) ls t) :
    ls.length ≤ (beforeCalls told calls).weight + 3 * Locks.stirs ls ∧
      ((∀ i u, ¬ (callers calls).step t (.own i) u) → CallsAtRest calls t) := by
  obtain ⟨hlen, hrest⟩ := Locks.ends_at_rest (fun i => climbs_calls (calls i)) hr
  refine ⟨hlen, fun hno => ⟨(hrest hno).free, fun i => ?_⟩⟩
  rcases (hrest hno).thread i with hend | ⟨k, hsleep, hmem, htold⟩
  · exact .inl hend
  · obtain ⟨l, wait, rfl, hcall, -, hwait⟩ := wait_mem_callLocks hmem
    obtain rfl := hwait rfl
    refine .inr ⟨l, hsleep, hcall, fun hready => ?_⟩
    obtain ⟨j, hj, timed, hmem'⟩ := htold hready
    obtain ⟨l', wait', e, hcall', hne, -⟩ := wait_mem_callLocks hmem'
    cases e
    exact ⟨j, hj, wait', hne, hcall'⟩

/-- The first and the third wait on a listener each, and the second pushes into a queue that has the
listener of the first. -/
def threeCallers : Fin 3 → List (MemberCall ℕ Unit Bool)
  | 0 => [.waitForNotifications false .forever]
  | 1 => [.op (.push 0 (some ⟨7, 1, ()⟩)) ⟨fun _ => .alive ⟨7, [], some false⟩, fun _ => []⟩]
  | 2 => [.waitForNotifications true .forever]

/-- The first wakes up in vain, and then is woken; nobody wakes up the third. -/
theorem no_deadlock_threeCallers : ∃ t,
    Run (callers threeCallers) (beforeCalls (fun _ => false) threeCallers)
      [.own 0, .own 0, .stir 0, .own 0, .own 0, .own 2, .own 2, .own 1, .own 1, .own 1, .own 1,
        .own 1, .own 0, .own 0, .own 0] t ∧
    t.ready (.listener false) = true ∧ SleepsOn t 2 true ∧ CallsAtRest threeCallers t := by
  have hone : ∀ {k : Lock ℕ Bool} {o : Lock ℕ Bool → Option (Fin 3)}, o k = none →
      ∀ k' ∈ [k], o k' = none := by
    intro k o h k' hk'
    rw [List.mem_singleton.mp hk']
    exact h
  have hrun : Run (callers threeCallers) (beforeCalls (fun _ => false) threeCallers)
      [.own 0, .own 0, .stir 0, .own 0, .own 0, .own 2, .own 2, .own 1, .own 1, .own 1, .own 1,
        .own 1, .own 0, .own 0, .own 0] _ :=
    .cons (.acquire rfl rfl (hone rfl)) (.cons (.sleep rfl rfl rfl) (.cons (.stir rfl)
      (.cons (.retake rfl rfl rfl) (.cons (.sleep rfl rfl rfl)
      (.cons (.acquire rfl rfl (hone rfl)) (.cons (.sleep rfl rfl rfl)
      (.cons (.acquire rfl rfl (hone rfl)) (.cons (.acquire rfl rfl (hone rfl))
      (.cons (.signal rfl rfl (.one (j := 0) ⟨rfl, _, rfl⟩)) (.cons (.release rfl rfl)
      (.cons (.release rfl rfl) (.cons (.retake rfl rfl rfl) (.cons (.pass rfl rfl rfl)
      (.single (.release rfl rfl)))))))))))))))
  refine ⟨_, hrun, rfl, ⟨rfl, _, rfl⟩, (no_deadlock hrun).2 fun i u hs => ?_⟩
  match i with
  | 0 => exact Locks.State.Ended.no_step ⟨rfl, rfl⟩ hs
  | 1 => exact Locks.State.Ended.no_step ⟨rfl, rfl⟩ hs
  | 2 => exact Locks.State.Sleeps.no_step (k := .listener true) ⟨rfl, _, rfl⟩ hs

end Threads

end Mqmx

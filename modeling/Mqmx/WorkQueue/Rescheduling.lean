import Mqmx.Base.Ticks
import Mqmx.WorkQueue.System

/-!
# Rescheduling

After an iteration of the worker the record it has run is due again one period later, where
its work asks for that, and is gone otherwise; no other record changes: `Rescheduled`.

`execute_work` says both with one value of the tick type, the sum of time point and period,
or the epoch for "not again".  So it comes out right exactly when the sum is a value of the
type other than the epoch (`rescheduled_iff`).
-/

namespace Mqmx.WorkQueue

open Transition (Reachable)

variable {ω : Type} {w : ℕ}

def recordsOf (id : BitVec w) (v : List (Record ω w)) : List (Record ω w) :=
  v.filter fun r => r.2 = id

def othersOf (id : BitVec w) (v : List (Record ω w)) : List (Record ω w) :=
  v.filter fun r => r.2 ≠ id

/-- The record is to be run again. -/
def RunsAgain (item : Record ω w) (outcome : Outcome) : Prop :=
  outcome = .returned true ∧ 0 < item.1.period

/-- What an iteration owes to the record it has run, and to the others. -/
structure Rescheduled (item : Record ω w) (outcome : Outcome) (v v' : List (Record ω w)) :
    Prop where
  again : RunsAgain item outcome → ∃ r, recordsOf item.2 v' = [r] ∧ r.2 = item.2 ∧
    r.1.clientId = item.1.clientId ∧ r.1.work = item.1.work ∧ r.1.period = item.1.period ∧
    r.1.timePoint = item.1.timePoint + item.1.period ∧ item.1.timePoint < r.1.timePoint
  gone : ¬ RunsAgain item outcome → recordsOf item.2 v' = []
  others : (othersOf item.2 v').Perm (othersOf item.2 v)

/-! ### The records of an id -/

@[simp] theorem recordsOf_append (id : BitVec w) (u v : List (Record ω w)) :
    recordsOf id (u ++ v) = recordsOf id u ++ recordsOf id v := List.filter_append ..

@[simp] theorem othersOf_append (id : BitVec w) (u v : List (Record ω w)) :
    othersOf id (u ++ v) = othersOf id u ++ othersOf id v := List.filter_append ..

theorem recordsOf_perm {id : BitVec w} {u v : List (Record ω w)} (h : u.Perm v) :
    (recordsOf id u).Perm (recordsOf id v) := h.filter _

theorem recordsOf_eq_nil {id : BitVec w} {v : List (Record ω w)} :
    recordsOf id v = [] ↔ id ∉ ids v := by
  rw [recordsOf, List.filter_eq_nil_iff, mem_ids, Prod.forall]
  simp only [decide_eq_true_eq, not_exists]
  constructor
  · exact fun h item hm => h item id hm rfl
  · rintro h item i hm rfl
    exact h item hm

@[simp] theorem recordsOf_single (item : WqItem ω w) (id : BitVec w) :
    recordsOf id [(item, id)] = [(item, id)] := by
  simp [recordsOf]

@[simp] theorem othersOf_single (item : WqItem ω w) (id : BitVec w) :
    othersOf id [(item, id)] = [] := by
  simp [othersOf]

/-! ### One iteration -/

theorem executeWork_of_not_runsAgain (plus : Int → Int → Int) {item : Record ω w}
    {outcome : Outcome} (h : ¬ RunsAgain item outcome) : executeWork plus item outcome = 0 := by
  cases outcome with
  | threw => rfl
  | returned again =>
    cases again with
    | false => rfl
    | true => exact if_neg fun hp => h ⟨rfl, hp⟩

theorem executeWork_of_runsAgain (plus : Int → Int → Int) {item : Record ω w}
    {outcome : Outcome} (h : RunsAgain item outcome) :
    executeWork plus item outcome = plus item.1.timePoint item.1.period := by
  obtain ⟨rfl, hp⟩ := h
  exact if_pos hp

/-- **What an iteration does to the container**, when the ids in it are distinct. -/
theorem execute_records {plus : Int → Int → Int} {s t : State ω w}
    (hr : Reachable (system ω w plus) s) (hn : (ids s.queue.wqItemContainer).Nodup)
    {item : Record ω w} {outcome : Outcome} (hs : Step plus s (.execute item outcome) t) :
    recordsOf item.2 t.queue.wqItemContainer =
      (if isTimePointEmpty (executeWork plus item outcome) then []
        else [({ item.1 with timePoint := executeWork plus item outcome }, item.2)]) ∧
    (othersOf item.2 t.queue.wqItemContainer).Perm (othersOf item.2 s.queue.wqItemContainer) := by
  have hi := inv_of_reachable hr
  cases hs with
  | execute h _ _ _ _ hne hp _ =>
    obtain ⟨rest, u, hc, rfl, hperm, hheap⟩ := popRecord_eq_some hi.valid.heap hne hp
    obtain ⟨-, hput⟩ := reschedule_container (q := { s.queue with wqItemContainer := u }) h
      item (executeWork plus item outcome) hheap
    -- the id was that of the front alone
    rw [hc, ids_cons, List.nodup_cons] at hn
    have hrest : item.2 ∉ ids u := fun hm => hn.1 ((ids_perm hperm).mem_iff.mp hm)
    have hput₁ := hput.filter (p := fun r => r.2 = item.2)
    have hput₂ := hput.filter (p := fun r => r.2 ≠ item.2)
    change (recordsOf _ _).Perm (recordsOf _ _) at hput₁
    change (othersOf _ _).Perm (othersOf _ _) at hput₂
    constructor
    · rw [recordsOf_append, recordsOf_eq_nil.mpr hrest, List.nil_append] at hput₁
      split at hput₁
      · rename_i hempty
        rw [if_pos hempty]
        exact List.perm_nil.mp hput₁
      · rename_i hempty
        rw [if_neg hempty]
        rw [recordsOf_single] at hput₁
        exact List.perm_singleton.mp hput₁
    · have hothers : (othersOf item.2 u).Perm (othersOf item.2 s.queue.wqItemContainer) := by
        have : othersOf item.2 (item :: rest) = othersOf item.2 rest := by simp [othersOf]
        rw [hc, this]
        exact hperm.filter _
      refine hput₂.trans ?_
      rw [othersOf_append]
      split
      · simpa [othersOf] using hothers
      · simpa using hothers

/-- **A work is rescheduled as it asks exactly when the sum of its time point and its period
can be represented and is not the epoch.**  A work that does not ask for that is gone, and
the other records are left alone, in any case. -/
theorem rescheduled_iff {plus : Int → Int → Int} (hplus : Ticks.Adds plus) {s t : State ω w}
    (hr : Reachable (system ω w plus) s) (hn : (ids s.queue.wqItemContainer).Nodup)
    {item : Record ω w} {outcome : Outcome} (hs : Step plus s (.execute item outcome) t) :
    Rescheduled item outcome s.queue.wqItemContainer t.queue.wqItemContainer ↔
      (RunsAgain item outcome → Ticks.InRange (item.1.timePoint + item.1.period) ∧
        ¬ isTimePointEmpty (item.1.timePoint + item.1.period)) := by
  obtain ⟨hrec, hothers⟩ := execute_records hr hn hs
  constructor
  · intro h hagain
    obtain ⟨r, hone, -, -, -, -, htime, -⟩ := h.again hagain
    rw [hone, executeWork_of_runsAgain plus hagain] at hrec
    split at hrec
    · cases hrec
    · rename_i hempty
      obtain rfl := (List.cons.inj hrec).1
      have hsum : plus item.1.timePoint item.1.period = item.1.timePoint + item.1.period := htime
      refine ⟨hplus.eq_iff.mp hsum, ?_⟩
      rw [← hsum]
      exact hempty
  · intro h
    refine ⟨?_, ?_, hothers⟩
    · intro hagain
      obtain ⟨hrange, hempty⟩ := h hagain
      have hpos := hagain.2
      rw [executeWork_of_runsAgain plus hagain, hplus.exact hrange, if_neg hempty] at hrec
      refine ⟨_, hrec, rfl, rfl, rfl, rfl, rfl, ?_⟩
      show item.1.timePoint < item.1.timePoint + item.1.period
      omega
    · intro hagain
      rw [hrec, executeWork_of_not_runsAgain plus hagain]
      exact if_pos rfl

/-! ### A work every five ticks -/

/-- A running queue with one work, which is to run every five ticks from `st` on. -/
def everyFiveQueue (st : Int) (changed wakeUp : Bool) : Members Unit 64 where
  nextWorkId := 0
  nextClientId := invalidClientId 64
  wqItemContainer := [(⟨st, 0, some (), 5⟩, 0)]
  containerChangeFlag := changed
  workerStoppedFlag := false
  wakeUpPending := wakeUp

def everyFive (st : Int) : State Unit 64 :=
  ⟨everyFiveQueue st false false, .waitForTimePoint st, 9⟩

def startEveryFive (st : Int) : List (Label Unit 64) :=
  [.startWorker, .call (.scheduleWork 9 0 (some ()) st 5) (.posted .success 0), .lock, .restart,
    .waitForTime]

theorem scheduleWork_everyFive {st : Int} (hst : ¬ isTimePointEmpty st) :
    scheduleWork (siftHeap Unit 64) 9 0 (some ()) st 5
      { Members.initial with workerStoppedFlag := false } =
      ((.success, 0), everyFiveQueue st true true) := by
  rw [scheduleWork, if_neg (by decide)]
  simp only [if_neg hst]
  rfl

theorem everyFive_run (plus : Int → Int → Int) (st : Int) (hst : ¬ isTimePointEmpty st) :
    Transition.Run (system Unit 64 plus) ⟨.initial, .notStarted, 9⟩ (startEveryFive st)
      (everyFive st) := by
  have hcall := @Step.call Unit 64 plus (siftHeap Unit 64) (.scheduleWork 9 0 (some ()) st 5)
    ⟨{ Members.initial with workerStoppedFlag := false }, .starting, 9⟩ (by simp) (Int.le_refl 9)
  simp only [Call.run, scheduleWork_everyFive hst] at hcall
  have hrestart : Step plus ⟨everyFiveQueue st true true, .loop, 9⟩ .restart
      ⟨everyFiveQueue st false true, .loop, 9⟩ :=
    .restart rfl rfl (Option.some_ne_none _) rfl
  have hwait : Step plus ⟨everyFiveQueue st false true, .loop, 9⟩ .waitForTime (everyFive st) :=
    .waitForTime (s := ⟨everyFiveQueue st false true, .loop, 9⟩) rfl rfl (Option.some_ne_none _) rfl
  exact .cons (.startWorker (.inl rfl) rfl)
    (.cons hcall (.cons (.lock rfl) (.cons hrestart (.single hwait))))

theorem everyFive_reachable (plus : Int → Int → Int) (st : Int) (hst : ¬ isTimePointEmpty st) :
    Reachable (system Unit 64 plus) (everyFive st) :=
  ⟨_, _, ⟨rfl, rfl⟩, everyFive_run plus st hst⟩

theorem everyFive_execute (plus : Int → Int → Int) (st : Int) (hdue : st ≤ 9) :
    ∃ t, Step plus (everyFive st) (.execute (⟨st, 0, some (), 5⟩, 0) (.returned true)) t ∧
      (isTimePointEmpty (plus st 5) → t.queue.wqItemContainer = []) := by
  refine ⟨_, Step.execute (siftHeap Unit 64) (.returned true) rfl rfl hdue
    (List.cons_ne_nil _ _) rfl (by simp), ?_⟩
  intro hempty
  have : executeWork plus ((⟨st, 0, some (), 5⟩, 0) : Record Unit 64) (.returned true) = 0 := hempty
  rw [this, reschedule_zero]
  rfl

/-- Run at tick `5`, it is due again at tick `10`. -/
theorem rescheduled_iff_everyFive :
    ∃ t : State Unit 64,
      Step Ticks.wrap (everyFive 5) (.execute (⟨5, 0, some (), 5⟩, 0) (.returned true)) t ∧
      Rescheduled (⟨5, 0, some (), 5⟩, 0) (.returned true)
        (everyFive 5).queue.wqItemContainer t.queue.wqItemContainer := by
  obtain ⟨t, hs, -⟩ := everyFive_execute Ticks.wrap 5 (by decide)
  refine ⟨t, hs, (rescheduled_iff Ticks.wrap_adds (everyFive_reachable _ _ (by decide)) (by decide)
    hs).mpr ?_⟩
  intro _
  exact ⟨by decide, by decide⟩

/-- **Run at tick `-5`, it is gone**, though it asked to be run again: the sum is the epoch. -/
theorem periodic_work_lost :
    ∃ t, Reachable (system Unit 64 Ticks.wrap) (everyFive (-5)) ∧
      (ids (everyFive (-5)).queue.wqItemContainer).Nodup ∧
      Step Ticks.wrap (everyFive (-5)) (.execute (⟨-5, 0, some (), 5⟩, 0) (.returned true)) t ∧
      t.queue.wqItemContainer = [] ∧
      ¬ Rescheduled (⟨-5, 0, some (), 5⟩, 0) (.returned true)
        (everyFive (-5)).queue.wqItemContainer t.queue.wqItemContainer := by
  obtain ⟨t, hs, hgone⟩ := everyFive_execute Ticks.wrap (-5) (by decide)
  have hnil : t.queue.wqItemContainer = [] := hgone (by decide)
  refine ⟨t, everyFive_reachable _ _ (by decide), by decide, hs, hnil, ?_⟩
  intro h
  obtain ⟨r, hr, -⟩ := h.again ⟨rfl, by decide⟩
  rw [hnil] at hr
  cases hr

end Mqmx.WorkQueue

import Mqmx.Testing.Caller
import Mqmx.Testing.Schedule

/-!
# Forwarding replays the schedule

One call of `forward_time (T, true)` with nobody else around: it returns true, and up to
its return the worker runs the records on their schedule up to `T`, `replays`.

The call goes through three stages: `Setting`, before the item is posted; `Awaiting`, with
the item in the container; and `Served`, with the post made and nothing due.  Each stage
has a lemma for the worker's step and one for the caller's.  `Playing` is what holds in
all of them: the history so far is that of the schedule.
-/

namespace Mqmx.Testing

open WorkQueue (Members Record Heap IsHeap Outcome)
open Transition (Endless Fair Run trace)

variable {ω σ : Type} {w : ℕ}

/-- The users' records among the pending ones. -/
def users (s : State ω w σ) : List (Record (Work ω) w) :=
  (pending s).filter fun r => !isForwarding r

def executed : Label ω w → Option (Record (Work ω) w × Outcome)
  | .execute item o => if isForwarding item then none else some (item, o)
  | _ => none

theorem users_eq {s : State ω w σ} (hin : inHand s.worker = []) (hitems : items s = 0) :
    users s = s.queue.wqItemContainer := by
  rw [users, pending, hin, List.append_nil]
  apply List.filter_eq_self.mpr
  intro r hr
  simpa using List.countP_eq_zero.mp hitems r hr

theorem users_perm {s : State ω w σ} {v : List (Record (Work ω) w)} (h : (pending s).Perm v) :
    (users s).Perm (v.filter fun r => !isForwarding r) := h.filter _

theorem again_filter {item : Record (Work ω) w} (hf : isForwarding item = false) (tp : Int) :
    (again item tp).filter (fun r => !isForwarding r) = again item tp :=
  List.filter_eq_self.mpr fun r hr => by rw [again_user hf tp r hr]; rfl

theorem again_filter_forwarding {item : Record (Work ω) w} (hf : isForwarding item = true)
    (tp : Int) : (again item tp).filter (fun r => !isForwarding r) = [] :=
  List.filter_eq_nil_iff.mpr fun r hr => by rw [(mem_again hr).2, isForwarding_moved, hf]; simp

/-- **What holds all along.**  The history `es` is that of the schedule, so far. -/
structure Playing (T : Int) (v₀ : List (Record (Work ω) w))
    (es : List (Record (Work ω) w × Outcome)) (s : State ω w σ) : Prop where
  inv : Inv s
  running : s.queue.workerStoppedFlag = false
  time : s.currentTimePoint = T
  afterEpoch : 0 < T
  positive : ∀ r ∈ pending s, 0 < r.1.timePoint
  played : ∃ plays, Played T v₀ es (users s) plays

variable [Semaphore σ] {T : Int} {v₀ : List (Record (Work ω) w)}
  {es : List (Record (Work ω) w × Outcome)}

omit [Semaphore σ] in
theorem Playing.notEmpty {s : State ω w σ} (hp : Playing T v₀ es s) :
    ¬ isTimePointEmpty s.currentTimePoint := by
  have := hp.afterEpoch
  rw [hp.time]
  unfold isTimePointEmpty
  omega

theorem Playing.cases {s t : State ω w σ} {l : Label ω w} (hp : Playing T v₀ es s)
    (hs : (workerOnly ω w σ (· + ·)).step s l t) :
    Silent s l t ∨ ∃ h item o rest u, Executes s l t (· + ·) h item o rest u := by
  rcases worker_cases hp.inv hs.1 hs.2 with h | ⟨h, item, o, rest, u, -, he⟩ | ⟨hstop, -⟩
  · exact .inl h
  · exact .inr ⟨h, item, o, rest, u, he⟩
  · rw [hp.running] at hstop
    cases hstop

omit [Semaphore σ] in
theorem Playing.silent {s t : State ω w σ} {l : Label ω w} (hp : Playing T v₀ es s)
    (hi : Inv t) (h : Silent s l t) : Playing T v₀ (es ++ trace executed [l]) t := by
  have hl : trace executed [l] = [] := by
    cases l with
    | execute item o => exact absurd rfl (h.label item o)
    | _ => rfl
  obtain ⟨plays, hplays⟩ := hp.played
  refine ⟨hi, h.running.trans hp.running, h.time.trans hp.time, hp.afterEpoch, ?_, ?_⟩
  · intro r hr
    exact hp.positive r (h.pending.mem_iff.mp hr)
  · rw [hl, List.append_nil]
    exact ⟨plays, hplays.perm (users_perm h.pending)⟩

theorem Playing.executes {s t : State ω w σ} {l : Label ω w} {h : Heap (Work ω) w}
    {item : Record (Work ω) w} {o : Outcome} {rest u : List (Record (Work ω) w)}
    (hp : Playing T v₀ es s) (hi : Inv t) (he : Executes s l t (· + ·) h item o rest u) :
    Playing T v₀ (es ++ trace executed [l]) t := by
  obtain ⟨htime, -, -, hrun⟩ := he.frame hp.inv
  obtain ⟨plays, hplays⟩ := hp.played
  have hps := he.pending
  have hpos : ∀ r ∈ u, 0 < r.1.timePoint := fun r hr =>
    hp.positive r (by rw [hps]; exact List.mem_cons_of_mem _ (he.perm.mem_iff.mp hr))
  have hitem : 0 < item.1.timePoint := hp.positive item (by rw [hps]; exact List.mem_cons_self)
  have hlabel := he.label
  -- a forwarding item leaves the users' records as they are
  have hkept : isForwarding item = true → (users t).Perm (u.filter fun r => !isForwarding r) →
      ∃ plays, Played T v₀ (es ++ trace executed [l]) (users t) plays := by
    intro hf hut
    have hl : trace executed [l] = [] := by simp [hlabel, trace, executed, hf]
    have hus : users s = rest.filter fun r => !isForwarding r := by
      rw [users, hps, List.filter_cons, hf]
      rfl
    rw [hl, List.append_nil]
    exact ⟨plays, hplays.perm (hus ▸ hut.trans (he.perm.filter _))⟩
  rcases he.cases hp.inv with ⟨hf, -, hperm⟩ | ⟨hf, -, hc, hin, -⟩ | ⟨hf, -, hperm, -⟩
  · refine ⟨hi, hrun.trans hp.running, htime.trans hp.time, hp.afterEpoch, ?_, ?_⟩
    · intro r hr
      rcases List.mem_append.mp (hperm.mem_iff.mp hr) with hm | hm
      · exact hpos r hm
      · obtain ⟨hper, rfl⟩ := executeWork_again (fun _ => rfl) hm
        exact Int.add_pos hitem hper
    · have hl : trace executed [l] = [(item, (callWork item o s).1)] := by
        simp [hlabel, trace, executed, hf]
      have hus : users s = item :: rest.filter fun r => !isForwarding r := by
        rw [users, hps, List.filter_cons, hf]
        rfl
      obtain ⟨plays', hplays'⟩ := hplays.execute (.of_eq hus)
        (fun r hr => he.front_le hp.inv r (List.mem_of_mem_filter hr)) (hp.time ▸ he.due) hitem
        (callWork item o s).1
      have hut := users_perm hperm
      rw [List.filter_append, again_filter hf] at hut
      rw [hl]
      exact ⟨plays', hplays'.perm (hut.trans ((he.perm.filter _).append_right _))⟩
  · have hpt : Testing.pending t = u := by rw [Testing.pending, hin, hc, List.append_nil]
    refine ⟨hi, hrun.trans hp.running, htime.trans hp.time, hp.afterEpoch,
      fun r hr => hpos r (hpt ▸ hr), hkept hf ?_⟩
    rw [users, hpt]
  · refine ⟨hi, hrun.trans hp.running, htime.trans hp.time, hp.afterEpoch, ?_, hkept hf ?_⟩
    · intro r hr
      rcases List.mem_append.mp (hperm.mem_iff.mp hr) with hm | hm
      · exact hpos r hm
      · rw [(mem_again hm).2]
        exact hp.time ▸ hp.afterEpoch
    · have hut := users_perm hperm
      rw [List.filter_append, again_filter_forwarding hf, List.append_nil] at hut
      exact hut

theorem Playing.worker {s t : State ω w σ} {l : Label ω w} (hp : Playing T v₀ es s)
    (hs : (workerOnly ω w σ (· + ·)).step s l t) :
    Playing T v₀ (es ++ trace executed [l]) t := by
  have hi := hp.inv.step hs.2
  rcases hp.cases hs with h | ⟨h, item, o, rest, u, he⟩
  · exact hp.silent hi h
  · exact hp.executes hi he

/-! ### Before the item is posted -/

/-- The caller has set the time, and nothing is under way. -/
structure Setting (s : State ω w σ) : Prop where
  posting : s.posting = 1
  waiting : s.waiting = 0
  owed : owed s = 0

/-- The item is in the container, and due. -/
structure Awaiting (s : State ω w σ) : Prop extends Blocked 1 s where
  waiting : s.waiting = 1
  value : Semaphore.value s.timeForwardingCompleted = 0

/-- The post is made, and nothing is due any more. -/
structure Served (s : State ω w σ) : Prop where
  posting : s.posting = 0
  waiting : s.waiting = 1
  owed : owed s = 1
  items : items s = 0
  inHand : inHand s.worker = []
  later : ∀ r ∈ s.queue.wqItemContainer, s.currentTimePoint < r.1.timePoint

theorem Playing.counts {s t : State ω w σ} {l : Label ω w} (hp : Playing T v₀ es s)
    (hs : (workerOnly ω w σ (· + ·)).step s l t) :
    t.posting = s.posting ∧ t.waiting = s.waiting ∧ owed t = owed s := by
  rcases hp.cases hs with h | ⟨h, item, o, rest, u, he⟩
  · refine ⟨h.posting, h.waiting, ?_⟩
    rw [owed, owed, h.items hp.inv, h.completed]
  · obtain ⟨-, hposting, hwaiting, -⟩ := he.frame hp.inv
    exact ⟨hposting, hwaiting, (he.balance hp.inv (hp.inv.step hs.2)).2 hp.notEmpty⟩

/-- How often the worker can go on in its loop while no item is there. -/
def settling (s : State ω w σ) : ℕ := 3 * load s.currentTimePoint (pending s) + restless s

theorem Setting.worker {s t : State ω w σ} {l : Label ω w} (hq : Setting s)
    (hp : Playing T v₀ es s) (hs : (workerOnly ω w σ (· + ·)).step s l t) :
    Setting t ∧ (s.worker = .loop → settling t < settling s) := by
  obtain ⟨hposting, hwaiting, howed⟩ := hp.counts hs
  refine ⟨⟨hposting.trans hq.posting, hwaiting.trans hq.waiting, howed.trans hq.owed⟩, ?_⟩
  intro hw
  unfold settling
  rcases hp.cases hs with h | ⟨h, item, o, rest, u, he⟩
  · have := h.restless hw
    rw [h.time, load_perm h.pending]
    omega
  · -- a user's work has been run, since there is no item
    have hf : isForwarding item = false := by
      have hitems := he.items
      have hnone := hq.owed
      unfold Testing.owed at hnone
      cases hf : isForwarding item with
      | false => rfl
      | true =>
        rw [hf, if_pos rfl] at hitems
        omega
    rcases he.cases hp.inv with ⟨-, -, hperm⟩ | ⟨hf', -⟩ | ⟨hf', -⟩
    · have hload := (execute_user (exactWhileDue_add s) hw he.container he.perm he.due hf
        (he.frame hp.inv).1 hperm).1
      have h1 := restless_le t
      omega
    · rw [hf] at hf'; cases hf'
    · rw [hf] at hf'; cases hf'

omit [Semaphore σ] in
/-- A forwarding item in the container changes nothing for the users' records. -/
theorem Playing.post {s t : State ω w σ} {item : Record (Work ω) w} (hp : Playing T v₀ es s)
    (hi : Inv t) (hrun : t.queue.workerStoppedFlag = false)
    (htime : t.currentTimePoint = s.currentTimePoint) (hw : t.worker = s.worker)
    (hf : isForwarding item = true) (htp : item.1.timePoint = T)
    (hc : t.queue.wqItemContainer.Perm (s.queue.wqItemContainer ++ [item])) :
    Playing T v₀ es t := by
  have hperm : (pending t).Perm (s.queue.wqItemContainer ++ [item] ++ inHand s.worker) := by
    rw [pending, hw]
    exact hc.append_right _
  refine ⟨hi, hrun, htime.trans hp.time, hp.afterEpoch, ?_, ?_⟩
  · intro r hr
    rcases List.mem_append.mp (hperm.mem_iff.mp hr) with hm | hm
    · rcases List.mem_append.mp hm with hm | hm
      · exact hp.positive r (List.mem_append_left _ hm)
      · rw [List.mem_singleton.mp hm, htp]
        exact hp.afterEpoch
    · exact hp.positive r (List.mem_append_right _ hm)
  · obtain ⟨plays, hplays⟩ := hp.played
    have hut := users_perm hperm
    have hnone : [item].filter (fun r => !isForwarding r) = [] := by simp [hf]
    rw [List.filter_append, List.filter_append, hnone, List.append_nil, ← List.filter_append] at hut
    exact ⟨plays, hplays.perm hut⟩

theorem Setting.caller (h0 : 0 < w) {s t : State ω w σ} {l : Label ω w} (hq : Setting s)
    (hp : Playing T v₀ es s) (hs : Caller T s l t) :
    Awaiting t ∧ Playing T v₀ es t ∧ ∃ id, l = .postForwarding (.posted .success id) := by
  have hi := hp.inv.step (hs.step (· + ·))
  cases hs with
  | wait hn _ => rw [hq.waiting] at hn; cases hn
  | @post h now _ n hst hw hn =>
    have hne : ¬ isTimePointEmpty T := hp.time ▸ hp.notEmpty
    have hnone := hq.owed
    unfold Testing.owed at hnone
    rcases forwardingCall_cases h now T s with
      ⟨-, -, hinv⟩ | ⟨-, ⟨id, hid⟩, item, hf, htp, hc, hrun⟩
    · exact absurd (hinv hp.running) (hp.inv.client h0)
    rw [if_neg hne] at htp
    have hperm := h.pushHeap_perm (x := item) hp.inv.heap
    rw [← hc] at hperm
    have hnofwd : ∀ r ∈ s.queue.wqItemContainer, isForwarding r ≠ true :=
      List.countP_eq_zero.mp (show items s = 0 by omega)
    refine ⟨⟨⟨hrun, hp.time ▸ hp.afterEpoch, ?_, ?_, ?_⟩, ?_, ?_⟩, ?_, id, ?_⟩
    · rw [hperm.countP_eq, List.countP_append, List.countP_eq_zero.mpr hnofwd,
        List.countP_singleton, if_pos hf]
    · intro r hr hfr
      rcases List.mem_append.mp (hperm.mem_iff.mp hr) with hm | hm
      · exact absurd hfr (hnofwd r hm)
      · rw [List.mem_singleton.mp hm, htp]
        exact Int.le_of_eq hp.time.symm
    · exact Nat.succ.inj (hn.symm.trans hq.posting)
    · rw [hid, hq.waiting]
      rfl
    · exact Nat.le_zero.mp (hnone ▸ Nat.le_add_right _ _)
    · exact hp.post hi hrun rfl rfl hf htp hperm
    · rw [hid]

/-! ### While the item is in the container -/

omit [Semaphore σ] in
/-- With no time point empty, the item that looks for something due finds it. -/
theorem nothing_due {s : State ω w σ} {u : List (Record (Work ω) w)} (hu : IsHeap u)
    (hpos : ∀ r ∈ u, 0 < r.1.timePoint)
    (hnear : isTimePointEmpty (WorkQueue.getNearestTimePoint (s.setContainer u).queue) ∨
      s.currentTimePoint < WorkQueue.getNearestTimePoint (s.setContainer u).queue) :
    ∀ r ∈ u, s.currentTimePoint < r.1.timePoint := by
  intro r hr
  obtain ⟨y, v, rfl⟩ := List.exists_cons_of_ne_nil (List.ne_nil_of_mem hr)
  have hle := WorkQueue.front_le hu r hr
  have hy := hpos y List.mem_cons_self
  simp only [WorkQueue.getNearestTimePoint, setContainer_container, isTimePointEmpty] at hnear
  omega

theorem Executes.served {s t : State ω w σ} {l : Label ω w} {h : Heap (Work ω) w}
    {item : Record (Work ω) w} {o : Outcome} {rest u : List (Record (Work ω) w)}
    (he : Executes s l t (· + ·) h item o rest u) (hp : Playing T v₀ es s)
    (hc : t.queue.wqItemContainer = u)
    (hnear : isTimePointEmpty (WorkQueue.getNearestTimePoint (s.setContainer u).queue) ∨
      s.currentTimePoint < WorkQueue.getNearestTimePoint (s.setContainer u).queue) :
    ∀ r ∈ t.queue.wqItemContainer, t.currentTimePoint < r.1.timePoint := by
  rw [(he.frame hp.inv).1, hc]
  refine nothing_due he.heap (fun r hr => hp.positive r ?_) hnear
  rw [he.pending]
  exact List.mem_cons_of_mem _ (he.perm.mem_iff.mp hr)

theorem Playing.due {s t : State ω w σ} {l : Label ω w} (hp : Playing T v₀ es s)
    (hs : (workerOnly ω w σ (· + ·)).step s l t)
    (hdue : ∀ r ∈ s.queue.wqItemContainer, isForwarding r = true → r.1.timePoint ≤ T) :
    ∀ r ∈ t.queue.wqItemContainer, isForwarding r = true → r.1.timePoint ≤ T := by
  intro r hr hfr
  have hrt : r ∈ pending t := List.mem_append_left _ hr
  rcases hp.cases hs with h | ⟨h, item, o, rest, u, he⟩
  · exact hdue r (hp.inv.mem_container (h.pending.mem_iff.mp hrt) hfr) hfr
  · have hu : r ∈ u → r.1.timePoint ≤ T := fun hm => hdue r (by
      rw [he.container]
      exact List.mem_cons_of_mem _ (he.perm.mem_iff.mp hm)) hfr
    rcases he.cases hp.inv with ⟨hf, -, hperm⟩ | ⟨-, -, hc, -, -⟩ | ⟨-, -, hperm, -⟩
    · rcases List.mem_append.mp (hperm.mem_iff.mp hrt) with hm | hm
      · exact hu hm
      · rw [again_user hf _ r hm] at hfr
        cases hfr
    · exact hu (hc ▸ hr)
    · rcases List.mem_append.mp (hperm.mem_iff.mp hrt) with hm | hm
      · exact hu hm
      · rw [(mem_again hm).2]
        exact Int.le_of_eq hp.time

theorem Awaiting.worker (h0 : 0 < w) {s t : State ω w σ} {l : Label ω w} (hq : Awaiting s)
    (hp : Playing T v₀ es s) (hs : (workerOnly ω w σ (· + ·)).step s l t) :
    (Awaiting t ∨ Served t) ∧ workLeft t < workLeft s := by
  obtain ⟨hposting, hwaiting, howed⟩ := hp.counts hs
  have hpt := hp.worker hs
  have hitems : items s = 1 := hq.items
  have hone : Servable (agenda s) :=
    .inl (by rw [(agenda_perm s).countP_eq, ← hp.inv.items, hitems])
  have hunder : Underway (· + ·) 1 s s :=
    ⟨⟨hp.inv, hp.running, hq.afterEpoch, hq.awake h0 (Nat.le_refl 1) hp.inv, exactWhileDue_add s,
      hq.due⟩, hone, by rw [owed, hitems], fun h => by omega⟩
  have hgoal : ¬ Completed 1 s s := fun hc => by
    have := hc.2.2.2
    omega
  refine ⟨?_, (hunder.step hgoal hs).2⟩
  have howed1 : owed t = 1 := by
    rw [howed, owed, hq.value, items, hq.items]
  by_cases hitems : items t = 1
  · refine .inl ⟨⟨hpt.running, hpt.time ▸ hpt.afterEpoch, hitems, ?_, hposting.trans hq.posted⟩,
      hwaiting.trans hq.waiting, ?_⟩
    · rw [hpt.time]
      exact hp.due hs (hp.time ▸ hq.due)
    · unfold owed at howed1
      omega
  · have hnone : items t = 0 := by
      unfold owed at howed1
      omega
    have hone : items s = 1 := hq.items
    have hend : inHand t.worker = [] ∧
        ∀ r ∈ t.queue.wqItemContainer, t.currentTimePoint < r.1.timePoint := by
      rcases hp.cases hs with h | ⟨h, item, o, rest, u, he⟩
      · exact absurd ((h.items hp.inv).trans hone) hitems
      · have hval := howed1
        unfold owed at hval
        rcases he.cases hp.inv with ⟨-, hc, -⟩ | ⟨-, -, hc, hin, hnear⟩ | ⟨-, hc, -, -⟩
        · rw [hc, hq.value] at hval
          omega
        · exact ⟨hin, he.served hp hc hnear⟩
        · rw [hc, hq.value] at hval
          omega
    exact .inr ⟨hposting.trans hq.posted, hwaiting.trans hq.waiting, howed1, hnone, hend.1, hend.2⟩

theorem Awaiting.exists_step (h0 : 0 < w) {s : State ω w σ} (hq : Awaiting s)
    (hp : Playing T v₀ es s) : ∃ l t, (workerOnly ω w σ (· + ·)).step s l t := by
  apply Testing.exists_step hp.inv hp.running (hq.awake h0 (Nat.le_refl 1) hp.inv)
  intro _
  obtain ⟨r, hr, hf⟩ : ∃ r ∈ s.queue.wqItemContainer, isForwarding r = true := by
    rw [← List.countP_pos_iff, hq.items]
    exact Nat.one_pos
  exact ⟨r, hr, hq.due r hr hf⟩

theorem Awaiting.caller {s t : State ω w σ} {l : Label ω w} (hq : Awaiting s) :
    ¬ Caller T s l t := by
  intro hs
  cases hs with
  | post h now _ _ hn => rw [hq.posted] at hn; cases hn
  | wait _ hc =>
    rw [(Semaphore.wait_eq_none _).mpr hq.value] at hc
    cases hc

/-! ### After the post -/

theorem Served.worker {s t : State ω w σ} {l : Label ω w} (hq : Served s)
    (hp : Playing T v₀ es s) (hs : (workerOnly ω w σ (· + ·)).step s l t) : Served t := by
  obtain ⟨hposting, hwaiting, howed⟩ := hp.counts hs
  rcases hp.cases hs with h | ⟨h, item, o, rest, u, he⟩
  · refine ⟨hposting.trans hq.posting, hwaiting.trans hq.waiting, howed.trans hq.owed,
      (h.items hp.inv).trans hq.items, h.inHand, ?_⟩
    intro r hr
    have hm := h.pending.mem_iff.mp (List.mem_append_left _ hr)
    rw [pending, hq.inHand, List.append_nil] at hm
    rw [h.time]
    exact hq.later r hm
  · have := hq.later item (by rw [he.container]; exact List.mem_cons_self)
    have := he.due
    omega

theorem Served.caller {s t : State ω w σ} {l : Label ω w} (hq : Served s)
    (hs : Caller T s l t) : l = .completed := by
  cases hs with
  | post h now _ _ hn => rw [hq.posting] at hn; cases hn
  | wait => rfl

theorem Served.exists_step (T : Int) {s : State ω w σ} (hq : Served s) :
    ∃ l t, Caller T s l t := by
  have hval := hq.owed
  have hitems := hq.items
  unfold Testing.owed at hval
  cases hc : Semaphore.wait s.timeForwardingCompleted with
  | none =>
    have := (Semaphore.wait_eq_none _).mp hc
    omega
  | some c => exact ⟨_, _, .wait hq.waiting hc⟩

/-! ### The whole call -/

/-- One of the three stages, with the history so far that of the schedule. -/
def Stage (T : Int) (v₀ : List (Record (Work ω) w)) (es : List (Record (Work ω) w × Outcome))
    (s : State ω w σ) : Prop :=
  (Setting s ∨ Awaiting s ∨ Served s) ∧ Playing T v₀ es s

theorem Stage.worker (h0 : 0 < w) {s t : State ω w σ} {l : Label ω w} (h : Stage T v₀ es s)
    (hs : (workerOnly ω w σ (· + ·)).step s l t) : Stage T v₀ (es ++ trace executed [l]) t := by
  obtain ⟨hq | hq | hq, hp⟩ := h
  · exact ⟨.inl (hq.worker hp hs).1, hp.worker hs⟩
  · exact ⟨.inr (hq.worker h0 hp hs).1, hp.worker hs⟩
  · exact ⟨.inr (.inr (hq.worker hp hs)), hp.worker hs⟩

theorem Stage.caller (h0 : 0 < w) {s t : State ω w σ} {l : Label ω w} (h : Stage T v₀ es s)
    (hs : Caller T s l t) :
    ((∃ id, l = .postForwarding (.posted .success id)) ∧ Stage T v₀ es t) ∨
      l = .completed ∧ Served s := by
  obtain ⟨hq | hq | hq, hp⟩ := h
  · obtain ⟨hqt, hpt, hl⟩ := hq.caller h0 hp hs
    exact .inl ⟨hl, .inr (.inl hqt), hpt⟩
  · exact absurd hs hq.caller
  · exact .inr ⟨hq.caller hs, hq⟩

/-- **What has been run when the call returns.** -/
theorem Stage.replay {s : State ω w σ} (h : Stage T v₀ es s) (hq : Served s) :
    ∃ plays, Replay T v₀ es s.queue.wqItemContainer plays := by
  obtain ⟨-, hp⟩ := h
  obtain ⟨plays, hplays⟩ := hp.played
  rw [users_eq hq.inHand hq.items] at hplays
  exact ⟨plays, hplays.replay fun r hr => hp.time ▸ hq.later r hr⟩

/-- **`forward_time (T, true)` returns true**, from the state it has set the time in.  The
item is never refused, and wherever the threads are scheduled so that the caller gets the
mutex, and gets past its semaphore, when it could again and again, it returns. -/
structure ReturnsTrue (T : Int) (t : State ω w σ) : Prop where
  posted : ∀ ls u reply, Run (forwarding ω w σ T) t ls u → .postForwarding reply ∈ ls →
    ∃ id, reply = .posted .success id
  scheduled : ∃ ρ, ρ 0 = t ∧ Endless (forwarding ω w σ T) ρ ∧ Fair (Caller T) ρ
  returns : ∀ ρ, ρ 0 = t → Endless (forwarding ω w σ T) ρ → Fair (Caller T) ρ →
    ∃ k, (forwarding ω w σ T).step (ρ k) .completed (ρ (k + 1))

theorem Playing.exists_step {s : State ω w σ} (hp : Playing T v₀ es s) (hw : s.worker = .loop) :
    ∃ l t, (workerOnly ω w σ (· + ·)).step s l t := by
  cases hc : s.queue.wqItemContainer with
  | nil => exact ⟨.waitForWork, _, trivial, .waitForWork hw hc⟩
  | cons front rest =>
    have hmem : front ∈ s.queue.wqItemContainer := by rw [hc]; exact List.mem_cons_self
    have hwork := hp.inv.works hp.running front hmem
    by_cases hdue : front.1.timePoint ≤ s.currentTimePoint
    · exact Testing.exists_step hp.inv hp.running (fun h => by rw [hw] at h; cases h)
        fun _ => ⟨front, hmem, hdue⟩
    · have hlt := Int.not_le.mp hdue
      cases hf : s.queue.containerChangeFlag with
      | true => exact ⟨.restart, _, trivial, .restart hw hc hwork hlt hf⟩
      | false => exact ⟨.waitForTime, _, trivial, .waitForTime hw hc hwork hlt hf⟩

theorem Setting.exists_step (T : Int) {s : State ω w σ} (hq : Setting s)
    (hw : s.worker ≠ .loop) : ∃ l t, Caller T s l t :=
  ⟨_, _, .post (WorkQueue.siftHeap (Work ω) w) 0
    (StdHeap.Algorithms.sift_frontStable WorkQueue.recordCompare_strictWeak) hw hq.posting⟩

section Returns

variable {ρ : ℕ → State ω w σ}

theorem Setting.posts (h0 : 0 < w) (hρ : Endless (forwarding ω w σ T) ρ)
    (hfair : Fair (Caller T) ρ) {k : ℕ} (hq : Setting (ρ k)) (hp : ∃ es, Playing T v₀ es (ρ k)) :
    ∃ j, Awaiting (ρ j) ∧ ∃ es, Playing T v₀ es (ρ j) := by
  refine (hfair.reaches hρ
    (P := fun s => Setting s ∧ ∃ es, Playing T v₀ es s)
    (Q := fun _ t => Awaiting t ∧ ∃ es, Playing T v₀ es t) settling ?_ ?_ ?_
    ⟨hq, hp⟩).elim fun j hj => ⟨j + 1, hj.2.2⟩
  · rintro s l t ⟨hq, es, hp⟩ hs
    obtain ⟨hqt, hpt, -⟩ := hq.caller h0 hp hs
    exact ⟨hqt, es, hpt⟩
  · rintro s ⟨hq, es, hp⟩
    by_cases hw : s.worker = .loop
    · obtain ⟨l, t, hs⟩ := hp.exists_step hw
      exact ⟨l, t, .inl hs⟩
    · obtain ⟨l, t, hs⟩ := hq.exists_step T hw
      exact ⟨l, t, .inr hs⟩
  · rintro s l t ⟨hq, es, hp⟩ (hs | hs)
    · obtain ⟨hqt, hless⟩ := hq.worker hp hs
      refine .inr ⟨⟨hqt, _, hp.worker hs⟩, ?_⟩
      by_cases hw : s.worker = .loop
      · exact .inr (hless hw)
      · exact .inl (hq.exists_step T hw)
    · obtain ⟨hqt, hpt, -⟩ := hq.caller h0 hp hs
      exact .inl ⟨hqt, es, hpt⟩

theorem Awaiting.serves (h0 : 0 < w) (hρ : Endless (forwarding ω w σ T) ρ)
    (hfair : Fair (Caller T) ρ) {k : ℕ} (hq : Awaiting (ρ k)) (hp : ∃ es, Playing T v₀ es (ρ k)) :
    ∃ j, Served (ρ j) ∧ ∃ es, Playing T v₀ es (ρ j) := by
  refine (hfair.reaches hρ
    (P := fun s => Awaiting s ∧ ∃ es, Playing T v₀ es s)
    (Q := fun _ t => Served t ∧ ∃ es, Playing T v₀ es t) workLeft ?_ ?_ ?_
    ⟨hq, hp⟩).elim fun j hj => ⟨j + 1, hj.2.2⟩
  · rintro s l t ⟨hq, -⟩ hs
    exact absurd hs hq.caller
  · rintro s ⟨hq, es, hp⟩
    obtain ⟨l, t, hs⟩ := hq.exists_step h0 hp
    exact ⟨l, t, .inl hs⟩
  · rintro s l t ⟨hq, es, hp⟩ (hs | hs)
    · obtain ⟨hqt | hqt, hless⟩ := hq.worker h0 hp hs
      · exact .inr ⟨⟨hqt, _, hp.worker hs⟩, .inr hless⟩
      · exact .inl ⟨hqt, _, hp.worker hs⟩
    · exact absurd hs hq.caller

theorem Served.returns (hρ : Endless (forwarding ω w σ T) ρ) (hfair : Fair (Caller T) ρ) {k : ℕ}
    (hq : Served (ρ k)) (hp : ∃ es, Playing T v₀ es (ρ k)) :
    ∃ j, (forwarding ω w σ T).step (ρ j) .completed (ρ (j + 1)) := by
  refine (hfair.reaches hρ
    (P := fun s => Served s ∧ ∃ es, Playing T v₀ es s)
    (Q := fun s t => (forwarding ω w σ T).step s .completed t) (fun _ => 0) ?_ ?_ ?_
    ⟨hq, hp⟩).elim fun j hj => ⟨j, hj.2.2⟩
  · rintro s l t ⟨hq, -⟩ hs
    exact .inr (hq.caller hs ▸ hs)
  · rintro s ⟨hq, -⟩
    obtain ⟨l, t, hs⟩ := hq.exists_step T
    exact ⟨l, t, .inr hs⟩
  · rintro s l t ⟨hq, es, hp⟩ (hs | hs)
    · exact .inr ⟨⟨hq.worker hp hs, _, hp.worker hs⟩, .inl (hq.exists_step T)⟩
    · exact .inl (.inr (hq.caller hs ▸ hs))

end Returns

/-- The steps of one call, with what has been run by then; after the return nothing is
known but that the caller is gone. -/
theorem Stage.run (h0 : 0 < w) {t u : State ω w σ} {ls : List (Label ω w)}
    (h : Stage T v₀ [] t) (hr : Run (forwarding ω w σ T) t ls u) :
    (∀ reply, .postForwarding reply ∈ ls → ∃ id, reply = .posted .success id) ∧ Inv u ∧
      (Stage T v₀ (trace executed ls) u ∨ u.posting = 0 ∧ u.waiting = 0) := by
  refine hr.history_invariant (P := fun ls u =>
    (∀ reply, .postForwarding reply ∈ ls → ∃ id, reply = .posted .success id) ∧ Inv u ∧
      (Stage T v₀ (trace executed ls) u ∨ u.posting = 0 ∧ u.waiting = 0)) ?_
    ⟨by simp, h.2.inv, .inl h⟩
  rintro ls s l u ⟨hpost, hi, hst⟩ (hs | hs)
  · refine ⟨?_, hi.step hs.2, ?_⟩
    · intro reply hm
      rcases List.mem_append.mp hm with hm | hm
      · exact hpost reply hm
      · rw [← List.mem_singleton.mp hm] at hs
        exact absurd hs.1 id
    · rw [Transition.trace_append]
      rcases hst with hst | ⟨hposting, hwaiting⟩
      · exact .inl (hst.worker h0 hs)
      · obtain ⟨-, h1, h2⟩ := owed_worker hi hs.1 hs.2
        exact .inr ⟨h1.trans hposting, h2.trans hwaiting⟩
  · have hi' := hi.step (hs.step (· + ·))
    rcases hst with hst | ⟨hposting, hwaiting⟩
    · rcases hst.caller h0 hs with ⟨⟨id, rfl⟩, hst'⟩ | ⟨rfl, hq⟩
      · refine ⟨?_, hi', .inl ?_⟩
        · intro reply hm
          rcases List.mem_append.mp hm with hm | hm
          · exact hpost reply hm
          · exact ⟨id, Label.postForwarding.inj (List.mem_singleton.mp hm)⟩
        · rw [Transition.trace_append]
          exact (List.append_nil _).symm ▸ hst'
      · refine ⟨?_, hi', .inr ?_⟩
        · intro reply hm
          rcases List.mem_append.mp hm with hm | hm
          · exact hpost reply hm
          · cases List.mem_singleton.mp hm
        · cases hs with
          | wait hn _ => exact ⟨hq.posting, Nat.succ.inj (hn.symm.trans hq.waiting)⟩
    · -- the caller is gone
      cases hs with
      | post h now _ _ hn => rw [hposting] at hn; cases hn
      | wait hn _ => rw [hwaiting] at hn; cases hn

theorem Stage.returnsTrue (h0 : 0 < w) {t : State ω w σ} (hq : Setting t)
    (hp : Playing T v₀ [] t) : ReturnsTrue T t where
  posted ls u reply hr hm := (Stage.run h0 ⟨.inl hq, hp⟩ hr).1 reply hm
  scheduled := Transition.exists_fair (forwarding ω w σ T) (fun _ _ _ hs => Or.inr hs) t
  returns ρ hρ0 hρ hfair := by
    subst hρ0
    obtain ⟨j, hqj, hpj⟩ := hq.posts h0 hρ hfair ⟨_, hp⟩
    obtain ⟨k, hqk, hpk⟩ := hqj.serves h0 hρ hfair hpj
    exact hqk.returns hρ hfair hpk

/-- **Virtual time replays the exact schedule.**  One call of `forward_time (T, true)` on a
running queue with nothing but the users' records, no callback in progress and no other
caller returns true; and at its return the works have been called on the schedule of the
records that were there when it set the time, up to `T` and in the order of time. -/
theorem replays (h0 : 0 < w) {s t : State ω w σ}
    (hr : Transition.Reachable (system ω w σ StdHeap.Algorithms.FrontStable (· + ·)) s)
    (hrun : s.queue.workerStoppedFlag = false) (hposting : s.posting = 0)
    (hwaiting : s.waiting = 0) (hfree : ∀ item tp, s.worker ≠ .syncing item tp) (hT : 0 < T)
    (hpos : ∀ r ∈ s.queue.wqItemContainer, 0 < r.1.timePoint)
    (hs : Step StdHeap.Algorithms.FrontStable (· + ·) s (.setTime T) t) :
    ReturnsTrue T t ∧ ∀ ls u v, Run (forwarding ω w σ T) t ls u →
      (forwarding ω w σ T).step u .completed v →
        ∃ plays, Replay T s.queue.wqItemContainer (trace executed ls) v.queue.wqItemContainer
          plays := by
  have hi := inv_of_reachable hr
  have howed := Nat.le_zero.mp (hwaiting ▸ owed_of_reachable hr)
  have hit := hi.step hs
  cases hs with
  | setTime _ _ =>
    have hin : inHand s.worker = [] := by
      cases hw : s.worker with
      | syncing item tp => exact absurd hw (hfree item tp)
      | _ => rfl
    have hps : pending s = s.queue.wqItemContainer := by rw [pending, hin, List.append_nil]
    have hplayed : Played T s.queue.wqItemContainer [] (users s)
        (s.queue.wqItemContainer.map fun r => (r, [])) := by
      rw [users_eq hin (Nat.add_eq_zero_iff.mp howed).2]
      exact played_nil T _
    have hq : Setting { s with currentTimePoint := T, posting := s.posting + 1 } :=
      ⟨congrArg (· + 1) hposting, hwaiting, howed⟩
    have hp : Playing T s.queue.wqItemContainer []
        { s with currentTimePoint := T, posting := s.posting + 1 } :=
      ⟨hit, hrun, rfl, hT, fun r hr => hpos r (hps ▸ hr), _, hplayed⟩
    refine ⟨Stage.returnsTrue h0 hq hp, ?_⟩
    intro ls u v hrun' hv
    obtain ⟨-, -, hst⟩ := Stage.run h0 ⟨.inl hq, hp⟩ hrun'
    rcases hv with hv | hv
    · exact absurd hv.1 id
    rcases hst with hst | ⟨-, hgone⟩
    · rcases hst.caller h0 hv with ⟨⟨id, h⟩, -⟩ | ⟨-, hserved⟩
      · cases h
      · cases hv with
        | wait => exact hst.replay hserved
    · cases hv with
      | wait hn _ => rw [hgone] at hn; cases hn

/-- The worker started at tick `5`, and a work for every tick from then on. -/
def scheduledAtFive : State Unit 64 ℕ :=
  { startedAt 5 with
    queue := ((WorkQueue.Call.scheduleWork 5 1 (some (.user ())) 5 1).run
      (WorkQueue.siftHeap (Work Unit) 64) (startedAt 5).queue).2 }

theorem scheduledAtFive_reachable (plus : Int → Int → Int) :
    Transition.Reachable (system Unit 64 ℕ StdHeap.Algorithms.FrontStable plus)
      scheduledAtFive :=
  withWork_reachable (startedAt_reachable plus 5) (by decide) 5 1

/-- That work is replayed up to tick `7`. -/
theorem replays_upToSeven :
    ReturnsTrue 7 { scheduledAtFive with currentTimePoint := 7, posting := 1 } ∧
      ∀ ls u v, Run (forwarding Unit 64 ℕ 7)
        { scheduledAtFive with currentTimePoint := 7, posting := 1 } ls u →
        (forwarding Unit 64 ℕ 7).step u .completed v →
          ∃ plays, Replay 7 [(⟨5, 1, some (.user ()), 1⟩, 0)] (trace executed ls)
            v.queue.wqItemContainer plays :=
  replays (by decide) (scheduledAtFive_reachable _) (by decide) rfl rfl (by
    intro item tp h
    cases h) (by decide) (by decide) (.setTime 7 (by decide))

end Mqmx.Testing

import Mqmx.WorkQueue.System

/-!
# Records come from calls

A record that was not there comes into the queue by `schedule_work` or by `update_work`, and
not by the worker, which puts back what it has taken: `Without.call` and `Without.step`.
Between the pop of a record and its return the worker holds the mutex, so a call finds a
periodic record in the container or not at all.

`cancelled_for_good`: what was cancelled is not run again unless it is posted again.
-/

namespace Mqmx.WorkQueue

open Transition (Run)

variable {ω : Type} {w : ℕ}

/-- It does not matter when the record is due. -/
def Timeless (P : Record ω w → Prop) : Prop :=
  ∀ (r : Record ω w) (tp : Int), P ({ r.1 with timePoint := tp }, r.2) → P r

/-- No record of the kind is there, the terminator aside. -/
def Members.Without (P : Record ω w → Prop) (q : Members ω w) : Prop :=
  ∀ r ∈ q.wqItemContainer, r.1.work ≠ none → ¬ P r

/-- The call, with that reply, has put such a record into the queue. -/
inductive Puts (P : Record ω w → Prop) (q : Members ω w) : Call ω w → Reply w → Prop
  | schedule {now st p : Int} {c id : BitVec w} {wk : Option ω} :
      P (scheduledItem now c wk st p, id) →
      Puts P q (.scheduleWork now c wk st p) (.posted .success id)
  | update {old : WqItem ω w} {st p : Int} {c id : BitVec w} {wk : Option ω} :
      (old, id) ∈ q.wqItemContainer → q.workerStoppedFlag = false → P (⟨st, c, wk, p⟩, id) →
      Puts P q (.updateWork id c wk st p) (.status .success)

variable {P : Record ω w → Prop} {q q' : Members ω w}

theorem Members.Without.subset (hq : q.Without P)
    (h : ∀ r ∈ q'.wqItemContainer, r ∈ q.wqItemContainer) : q'.Without P :=
  fun r hr => hq r (h r hr)

/-- **A call puts in no record but its own.** -/
theorem Members.Without.call (h : Heap ω w) (hh : IsHeap q.wqItemContainer) (hq : q.Without P)
    (c : Call ω w) : (c.run h q).2.Without P ∨ Puts P q c (c.run h q).1 := by
  have key : ∀ {reply : Reply w} {v : List (Record ω w)}, Changes q c reply v →
      (∀ r ∈ v, r.1.work ≠ none → ¬ P r) ∨ Puts P q c reply := by
    intro reply v hch
    cases hch with
    | removes hsub hp => exact .inl fun r hr => hq r (hsub.subset (hp.mem_iff.mp hr))
    | @adds now st p cl id wk _ hp =>
      by_cases hnew : P (scheduledItem now cl wk st p, id)
      · exact .inr (.schedule hnew)
      · refine .inl fun r hr hwork => ?_
        rcases List.mem_append.mp (hp.mem_iff.mp hr) with hr | hr
        · exact hq r hr hwork
        · rw [List.mem_singleton.mp hr]
          exact hnew
    | @replaces st p cl id wk old a b _ hs hv hp =>
      by_cases hnew : P (⟨st, cl, wk, p⟩, id)
      · have hold : (old, id) ∈ q.wqItemContainer := by
          rw [hv]
          simp
        exact .inr (.update hold hs hnew)
      · refine .inl fun r hr hwork => ?_
        rcases List.mem_append.mp (hp.mem_iff.mp hr) with hr | hr
        · exact hq r (hv ▸ List.mem_append_left _ hr) hwork
        · rcases List.mem_cons.mp hr with rfl | hr
          · exact hnew
          · exact hq r (hv ▸ List.mem_append_right _ (List.mem_cons_of_mem _ hr)) hwork
    | stops =>
      refine .inl fun r hr hwork => ?_
      rw [List.mem_singleton.mp hr] at hwork
      exact absurd rfl hwork
  exact key (run_changes h hh c)

variable {plus : Int → Int → Int} {s t u v : State ω w}

theorem Members.Without.step {l : Label ω w} (hP : Timeless P) (hi : Inv s)
    (hq : s.queue.Without P) (hs : Step plus s l t) :
    t.queue.Without P ∨ ∃ c reply, l = .call c reply ∧ Puts P s.queue c reply := by
  cases hs with
  | call h c => exact (hq.call h hi.valid.heap c).imp id fun hp => ⟨_, _, rfl, hp⟩
  | exit => exact .inl fun r hr => by cases hr
  | @execute h _ _ item _ o _ _ _ hne hp =>
    obtain ⟨rest, w', hc, rfl, hperm, hheap⟩ := popRecord_eq_some hi.valid.heap hne hp
    refine .inl fun r hr hwork => ?_
    rcases mem_reschedule hheap hr with hr | ⟨-, rfl⟩
    · exact hq r (hc ▸ List.mem_cons_of_mem _ (hperm.mem_iff.mp hr)) hwork
    · exact fun hr => hq item (hc ▸ List.mem_cons_self) hwork (hP item _ hr)
  | _ => exact .inl hq

theorem Members.Without.run {R : Label ω w → Prop} {ls : List (Label ω w)} (hP : Timeless P)
    (hR : ∀ (s : State ω w) c reply, Inv s → s.queue.Without P → Puts P s.queue c reply →
      R (.call c reply))
    (hr : Run (system ω w plus) s ls t) (hi : Inv s) (hq : s.queue.Without P)
    (hno : ∀ x ∈ ls, ¬ R x) : t.queue.Without P := by
  induction hr with
  | nil => exact hq
  | @cons s t u x ls hs _ ih =>
    have hq' : t.queue.Without P := by
      rcases hq.step hP hi hs with hq' | ⟨c, reply, rfl, hput⟩
      · exact hq'
      · exact absurd (hR s c reply hi hq hput) (hno _ List.mem_cons_self)
    exact ih (hi.step hs) hq' fun y hy => hno y (List.mem_cons_of_mem _ hy)

theorem Members.Without.not_execute (hi : Inv s) (hq : s.queue.Without P) {item : Record ω w}
    {o : Outcome} (hs : Step plus s (.execute item o) t) : ¬ P item := by
  cases hs with
  | execute h _ hw hf hd hne hp _ =>
    obtain ⟨hrun, -⟩ := hi.deadline _ hw hf
    obtain ⟨rest, u, hc, -⟩ := popRecord_eq_some hi.valid.heap hne hp
    have hmem : item ∈ s.queue.wqItemContainer := hc ▸ List.mem_cons_self
    exact hq item hmem (hi.valid.works hrun item hmem)

/-! ### Cancelling -/

/-- `schedule_work` has returned the id. -/
def Label.Issues (id : BitVec w) : Label ω w → Prop
  | .call (.scheduleWork _ _ _ _ _) (.posted .success id') => id' = id
  | _ => False

/-- A call has put a record of the client into the queue. -/
def Label.Brings (c : BitVec w) : Label ω w → Prop
  | .call (.scheduleWork _ c' _ _ _) (.posted .success _) => c' = c
  | .call (.updateWork _ c' _ _ _) (.status .success) => c' = c
  | _ => False

theorem Puts.issues {id : BitVec w} (hi : Inv s) (hq : s.queue.Without fun r => r.2 = id)
    {c : Call ω w} {reply : Reply w} (hp : Puts (fun r => r.2 = id) s.queue c reply) :
    Label.Issues id (.call c reply : Label ω w) := by
  cases hp with
  | schedule h => exact h
  | update hmem hs h =>
    have hno := hq _ hmem (hi.valid.works hs _ hmem)
    exact absurd h hno

theorem Puts.brings {c : BitVec w} {call : Call ω w} {reply : Reply w}
    (hp : Puts (fun r => r.1.clientId = c) q call reply) :
    Label.Brings c (.call call reply : Label ω w) := by
  cases hp with
  | schedule h => exact h
  | update _ _ h => exact h

/-- Where the pending ids are distinct, `cancel_work` leaves no record of the id. -/
theorem without_cancelWork (h : Heap ω w) {id : BitVec w} (hs : q.workerStoppedFlag = false)
    (hn : (ids q.wqItemContainer).Nodup) :
    (cancelWork h id q).2.Without fun r => r.2 = id := by
  rcases cancelWork_cases h q id with ⟨hs', -⟩ | ⟨-, hno, e⟩ | ⟨-, a, old, b, v, hv, hp, e⟩
  · rw [hs] at hs'
    cases hs'
  · rw [e]
    exact fun r hr _ => hno r hr
  · rw [e]
    intro r hr _ hid
    have hr := hp.mem_iff.mp ((h.makeHeap_perm v).mem_iff.mp hr)
    rw [hv, ids_append, ids_cons, List.perm_middle.nodup_iff, List.nodup_cons] at hn
    apply hn.1
    rw [← ids_append, mem_ids]
    exact ⟨r.1, hid ▸ hr⟩

theorem without_cancelClientWorks (h : Heap ω w) {c : BitVec w}
    (hs : q.workerStoppedFlag = false) :
    (cancelClientWorks h c q).2.Without fun r => r.1.clientId = c := by
  rcases cancelClientWorks_cases h q c with ⟨hs', -⟩ | ⟨-, hno, e⟩ | ⟨-, -, e⟩
  · rw [hs] at hs'
    cases hs'
  · rw [e]
    exact fun r hr _ => hno r hr
  · rw [e]
    intro r hr _
    have hr := (h.makeHeap_perm _).mem_iff.mp hr
    simpa using (List.mem_filter.mp hr).2

/-- **Cancelling is final.**  After `cancel_work` on a running queue with distinct ids no work
is run under the id until `schedule_work` returns it again, and after `cancel_client_works`
none of the client until a call brings one, whatever the calls have returned. -/
theorem cancelled_for_good (hr : Transition.Reachable (system ω w plus) s)
    (hrun : s.queue.workerStoppedFlag = false) :
    (∀ id reply t ls u, (ids s.queue.wqItemContainer).Nodup →
      Step plus s (.call (.cancelWork id) reply) t → Run (system ω w plus) t ls u →
      (∀ x ∈ ls, ¬ x.Issues id) →
      ∀ item outcome v, Step plus u (.execute item outcome) v → item.2 ≠ id) ∧
    (∀ c reply t ls u, Step plus s (.call (.cancelClientWorks c) reply) t →
      Run (system ω w plus) t ls u → (∀ x ∈ ls, ¬ x.Brings c) →
      ∀ item outcome v, Step plus u (.execute item outcome) v → item.1.clientId ≠ c) := by
  have hi := inv_of_reachable hr
  constructor
  · intro id reply t ls u hn hs hls hno item outcome v hx
    have hit := hi.step hs
    have hq : t.queue.Without fun r => r.2 = id := by
      cases hs with
      | call h => exact without_cancelWork h hrun hn
    exact (hq.run (R := Label.Issues id) (fun _ _ h => h)
      (fun _ _ _ hi hq hp => hp.issues hi hq) hls hit hno).not_execute
      (hls.invariant (fun _ _ _ => Inv.step) hit) hx
  · intro c reply t ls u hs hls hno item outcome v hx
    have hit := hi.step hs
    have hq : t.queue.Without fun r => r.1.clientId = c := by
      cases hs with
      | call h => exact without_cancelClientWorks h hrun
    exact (hq.run (R := Label.Brings c) (fun _ _ h => h) (fun _ _ _ _ _ hp => hp.brings) hls hit
      hno).not_execute (hls.invariant (fun _ _ _ => Inv.step) hit) hx

/-- The record the worker waits for is cancelled: then it waits for the other one, and runs
that. -/
theorem cancelled_for_good_twoPosted :
    (∃ v, Step (· + ·) ⟨twoPosted [onceLater], .waitForTimePoint 5, 5⟩
      (.execute onceLater (.returned false)) v) ∧
    ∀ item outcome v, Step (· + ·) ⟨twoPosted [onceLater], .waitForTimePoint 5, 5⟩
      (.execute item outcome) v → item.2 ≠ 0 := by
  have hcall : Step (· + ·) ⟨twoPosted [everyFour 3, onceLater], .waitForTimePoint 3, 1⟩
      (.call (.cancelWork 0) (.status .success))
      ⟨(cancelWork (siftHeap Unit 64) 0 (twoPosted [everyFour 3, onceLater])).2,
        .waitForTimePoint 3, 1⟩ :=
    .call (siftHeap Unit 64) (.cancelWork 0) (by simp) trivial
  have hrun : Run (system Unit 64 (· + ·))
      ⟨(cancelWork (siftHeap Unit 64) 0 (twoPosted [everyFour 3, onceLater])).2,
        .waitForTimePoint 3, 1⟩ [.changed, .waitForTime, .tick]
      ⟨twoPosted [onceLater], .waitForTimePoint 5, 5⟩ :=
    .cons (.changed rfl rfl)
      (.cons (.waitForTime rfl (by decide : _ = [onceLater]) (by decide) rfl)
      (.single (.tick 5 (by decide))))
  have hno : ∀ x ∈ [(.changed : Label Unit 64), .waitForTime, .tick], ¬ x.Issues 0 := by
    simp [Label.Issues]
  exact ⟨⟨_, .execute (siftHeap Unit 64) (.returned false) rfl rfl (Int.le_refl 5)
      (List.cons_ne_nil _ _) rfl (by decide)⟩,
    (cancelled_for_good (twoPosted_reachable (· + ·)) rfl).1 0 (.status .success) _ _ _
      (by decide) hcall hrun hno⟩

end Mqmx.WorkQueue

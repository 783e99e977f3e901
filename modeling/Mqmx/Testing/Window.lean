import Mqmx.Testing.Invariant
import Mqmx.WorkQueue.Beside
import Mqmx.WorkQueue.Resting

/-!
# Calls during the synchronization callback

The callback of a work runs with the mutex free.  Its record is then in the worker's
hands, and goes back into the container when the callback is over.  A client's call in
that window does not see it.

Where no such call concerns the record, the queue is for its clients like the base
class: `refines_base`.  The simulation runs backwards, since the base class, which puts
the record back at once, has to lay out its heap with the later calls in view.
-/

namespace Mqmx.Testing

open WorkQueue (Members Record Heap IsHeap Outcome Call Reply ids resting)
open Transition (System Run trace)

variable {ω σ : Type} {w : ℕ}

/-- What a client sees of a run, in the terms of the base class. -/
def event : Label ω w → Option (WorkQueue.Event (Work ω) w)
  | .call c reply => some (.call c reply)
  | .execute item outcome => some (.executed item outcome)
  | _ => none

/-- The clients make their five calls, and the clock is moved forward only. -/
def Label.Client (s : State ω w σ) : Label ω w → Prop
  | .call c _ => c.IsClient ∧ c.ReadBefore s.currentTimePoint
  | .forwardTime tp => s.currentTimePoint ≤ tp
  | .setTime _ | .postForwarding _ | .completed => False
  | _ => True

/-- A call has nothing to do with a record that the worker will put back. -/
def Label.Apart (s : State ω w σ) : Label ω w → Prop
  | .call c _ => ∀ x ∈ inHand s.worker, c.Apart s.queue.wqItemContainer x
  | _ => True

/-! ### The invariant of such runs -/

/-- Only users' works are pending, and the queue is never stopped once it is started. -/
structure ClientInv (s : State ω w σ) : Prop where
  inv : Inv s
  user : ∀ r ∈ s.queue.wqItemContainer, r.1.work ≠ some .forwarding
  stage : (s.worker = .notStarted ∧ s.queue.workerStoppedFlag = true ∧
      s.queue.nextWorkId = WorkQueue.invalidWorkId w) ∨
    (s.worker ≠ .notStarted ∧ s.worker ≠ .exited ∧ s.queue.workerStoppedFlag = false)

theorem mem_pending {s : State ω w σ} {r : Record (Work ω) w} :
    r ∈ pending s ↔ r ∈ s.queue.wqItemContainer ∨ r ∈ inHand s.worker := List.mem_append

theorem ClientInv.running {s : State ω w σ} (hi : ClientInv s) (h : s.worker ≠ .notStarted) :
    s.queue.workerStoppedFlag = false := by
  rcases hi.stage with ⟨h', -, -⟩ | ⟨-, -, h'⟩
  · exact absurd h' h
  · exact h'

theorem ClientInv.running_of_mem {s : State ω w σ} (hi : ClientInv s) {r : Record (Work ω) w}
    (hr : r ∈ s.queue.wqItemContainer) : s.queue.workerStoppedFlag = false := by
  apply hi.running
  intro hw
  rw [(hi.inv.parked (.inl hw)).1] at hr
  simp at hr

/-! ### The state that matches -/

/-- The state of the base class: at rest, with the same container; or, while a record is
in the worker's hands, with some heap of all pending records. -/
inductive Matches (s : State ω w σ) : WorkQueue.State (Work ω) w → Prop
  | notStarted : s.worker = .notStarted →
      Matches s ⟨Members.initial, .notStarted, s.currentTimePoint⟩
  | resting (B : List (Record (Work ω) w)) : s.worker ≠ .notStarted → IsHeap B →
      B.Perm (pending s) → (inHand s.worker = [] → B = s.queue.wqItemContainer) →
      Matches s (resting s.queue.nextWorkId s.currentTimePoint B)

theorem ClientInv.exists_matches {s : State ω w σ} (hi : ClientInv s) : ∃ t, Matches s t := by
  by_cases hw : s.worker = .notStarted
  · exact ⟨_, .notStarted hw⟩
  by_cases hin : inHand s.worker = []
  · exact ⟨_, .resting s.queue.wqItemContainer hw hi.inv.heap (by simp [pending, hin])
      fun _ => rfl⟩
  · have h := WorkQueue.siftHeap (Work ω) w
    exact ⟨_, .resting (h.makeHeap (pending s)) hw (h.makeHeap_isHeap _) (h.makeHeap_perm _)
      fun h' => absurd h' hin⟩

theorem Matches.silent {s s' : State ω w σ} {t : WorkQueue.State (Work ω) w}
    (hm : Matches s' t) (hw' : s'.worker ≠ .notStarted) (hw : s.worker ≠ .notStarted)
    (hin' : inHand s'.worker = []) (hin : inHand s.worker = [])
    (hid : s'.queue.nextWorkId = s.queue.nextWorkId)
    (htime : s'.currentTimePoint = s.currentTimePoint)
    (hc : s'.queue.wqItemContainer = s.queue.wqItemContainer) : Matches s t := by
  cases hm with
  | notStarted h => exact absurd h hw'
  | resting B _ hB hperm heq =>
    rw [hid, htime]
    refine .resting B hw hB ?_ fun _ => (heq hin').trans hc
    rw [pending, hin', hc] at hperm
    rw [pending, hin]
    exact hperm

theorem ClientInv.works {s : State ω w σ} (hi : ClientInv s) (hw : s.worker ≠ .notStarted) :
    ∀ r ∈ pending s, r.1.work ≠ none := by
  intro r hr
  rcases List.mem_append.mp hr with hm | hm
  · exact hi.inv.works (hi.running hw) r hm
  · cases hsw : s.worker with
    | syncing item tp =>
      rw [hsw] at hm
      rw [(mem_again hm).2]
      exact (hi.inv.hand item tp hsw).1
    | _ => simp [hsw, inHand] at hm

theorem inHand_cases (p : WorkerPc ω w) : inHand p = [] ∨ ∃ x, inHand p = [x] := by
  cases p with
  | syncing item tp =>
    simp only [inHand, again]
    split
    · exact .inl rfl
    · exact .inr ⟨_, rfl⟩
  | _ => exact .inl rfl

/-- **A client's call is matched**, also in the window. -/
theorem ClientInv.matches_call {plus : Int → Int → Int} {s : State ω w σ}
    {t' : WorkQueue.State (Work ω) w}
    {h : Heap (Work ω) w} {c : Call (Work ω) w} (hi : ClientInv s) (hc : c.IsClient)
    (hread : c.ReadBefore s.currentTimePoint)
    (ha : ∀ x ∈ inHand s.worker, c.Apart s.queue.wqItemContainer x)
    (hm : Matches { s with queue := (c.run h s.queue).2 } t') :
    ∃ t m, Matches s t ∧ Run (WorkQueue.system (Work ω) w plus) t m t' ∧
      trace WorkQueue.event m = [.call c (c.run h s.queue).1] := by
  cases hm with
  | notStarted hw =>
    rcases hi.stage with ⟨-, hstop, hid⟩ | ⟨hne, -, -⟩
    · obtain ⟨hc0, -⟩ := hi.inv.parked (.inl hw)
      have hrun := WorkQueue.run_congr (h := h) (q := s.queue) (p := Members.initial) hc
        hid.symm hc0.symm hstop.symm
      have hstep : WorkQueue.Step plus _ _ _ := WorkQueue.Step.call h c
        (s := ⟨Members.initial, .notStarted, s.currentTimePoint⟩) (by simp) hread
      rcases WorkQueue.run_client (h := h) (q := (Members.initial : Members (Work ω) w)) hc with
        e | ⟨h0, -⟩
      · rw [e] at hstep
        refine ⟨_, _, .notStarted hw, .single hstep, ?_⟩
        rw [← hrun.1]
        rfl
      · cases h0
    · exact absurd hw hne
  | resting B' hw hB' hperm heq =>
    have hrunning := hi.running hw
    rcases inHand_cases s.worker with hin | ⟨x, hin⟩
    · -- nothing in the worker's hands: the same call on the same container
      obtain ⟨m, hm, em⟩ := WorkQueue.resting_call plus (h := h)
        (n := s.queue.nextWorkId) (v := s.queue.wqItemContainer) hc hread hi.inv.heap
        (hi.inv.works hrunning)
      have hrun := WorkQueue.run_congr (h := h) (q := s.queue)
        (p := (resting s.queue.nextWorkId s.currentTimePoint s.queue.wqItemContainer).queue) hc
        rfl rfl hrunning.symm
      rw [hrun.1] at em
      rw [hrun.2.1, hrun.2.2, ← heq hin] at hm
      exact ⟨_, m, .resting _ hw hi.inv.heap (by simp [pending, hin]) (fun _ => rfl), hm, em⟩
    · -- a record in the worker's hands: the call on a container that has it, too
      have hperm' : B'.Perm ((c.run h s.queue).2.wqItemContainer ++ [x]) := by
        rw [pending, show inHand _ = [x] from hin] at hperm
        exact hperm
      obtain ⟨h', B, hB, hBp, e⟩ := WorkQueue.run_beside hc hrunning hi.inv.heap
        (ha x (by rw [hin]; exact List.mem_singleton_self x)) hB' hperm'
      have hBpend : B.Perm (pending s) := by rw [pending, hin]; exact hBp
      obtain ⟨m, hm, em⟩ := WorkQueue.resting_call plus (h := h')
        (n := s.queue.nextWorkId) (v := B) hc hread hB
        fun r hr => hi.works hw r (hBpend.mem_iff.mp hr)
      have hrun := WorkQueue.run_congr (h := h') (q := { s.queue with wqItemContainer := B })
        (p := (resting s.queue.nextWorkId s.currentTimePoint B).queue) hc rfl rfl hrunning.symm
      rw [hrun.1, e] at em
      rw [hrun.2.1, hrun.2.2, e] at hm
      exact ⟨_, m, .resting B hw hB hBpend (fun h0 => by rw [hin] at h0; cases h0), hm, em⟩

/-! ### What a call cancels -/

def Covers (s : State ω w σ) : Call (Work ω) w → BitVec w → Prop
  | .cancelWork id, i => i = id
  | .cancelClientWorks c, i => ∃ r ∈ pending s, r.1.clientId = c ∧ r.2 = i
  | _, _ => False

def Posts (i : BitVec w) : Label ω w → Prop
  | .call _ (.posted .success id) => id = i
  | _ => False

theorem ClientInv.cancelled {s : State ω w σ} {h : Heap (Work ω) w} {c : Call (Work ω) w}
    {i : BitVec w} (hi : ClientInv s)
    (ha : ∀ x ∈ inHand s.worker, c.Apart s.queue.wqItemContainer x)
    (hn : (ids (pending s)).Nodup) (hcov : Covers s c i) :
    i ∉ ids (pending { s with queue := (c.run h s.queue).2 }) := by
  intro hm
  obtain ⟨item, hm⟩ := WorkQueue.mem_ids.mp hm
  cases c with
  | cancelWork id =>
    obtain rfl : i = id := hcov
    rcases mem_pending.mp hm with hv | hx
    · rcases WorkQueue.cancelWork_cases h s.queue i with
        ⟨hstop, e⟩ | ⟨-, hno, e⟩ | ⟨-, a, old, b, v, hc, hp, e⟩
      · simp only [Call.run, e] at hv
        rw [hi.running_of_mem hv] at hstop; cases hstop
      · simp only [Call.run, e] at hv
        exact hno _ hv rfl
      · simp only [Call.run, e] at hv
        have hab := hp.mem_iff.mp ((h.makeHeap_perm v).mem_iff.mp hv)
        have hperm : (ids s.queue.wqItemContainer).Perm (i :: ids (a ++ b)) := by
          rw [hc]; exact List.perm_middle.map Prod.snd
        rw [pending, WorkQueue.ids_append] at hn
        exact (List.nodup_cons.mp (hperm.nodup_iff.mp (List.nodup_append.mp hn).1)).1
          (WorkQueue.mem_ids.mpr ⟨item, hab⟩)
    · exact (ha _ hx).1 rfl
  | cancelClientWorks cl =>
    obtain ⟨r, hr, hcl, rfl⟩ := hcov
    -- the record of that id is the client's, before the call as after it
    have hsame : (item, r.2) ∈ pending s → item.clientId = cl := by
      intro hm
      have h1 := (WorkQueue.toMap_eq_some hn).mpr hm
      rw [(WorkQueue.toMap_eq_some hn).mpr (show (r.1, r.2) ∈ pending s from hr)] at h1
      rw [← Option.some.inj h1]
      exact hcl
    rcases mem_pending.mp hm with hv | hx
    · rcases WorkQueue.cancelClientWorks_cases h s.queue cl with
        ⟨hstop, e⟩ | ⟨-, hno, e⟩ | ⟨-, -, e⟩
      · simp only [Call.run, e] at hv
        rw [hi.running_of_mem hv] at hstop; cases hstop
      · simp only [Call.run, e] at hv
        exact hno _ hv (hsame (List.mem_append_left _ hv))
      · simp only [Call.run, e] at hv
        obtain ⟨hmem, hne⟩ := List.mem_filter.mp ((h.makeHeap_perm _).mem_iff.mp hv)
        exact (of_decide_eq_true hne) (hsame (List.mem_append_left _ hmem))
    · exact ha _ hx (hsame (List.mem_append_right _ hx)).symm
  | _ => exact absurd hcov id

/-! ### The runs -/

variable [Semaphore σ] {lib : Heap (Work ω) w → Prop} {plus : Int → Int → Int}

/-- The runs in which the clients make their five calls. -/
def clientsOnly (ω : Type) (w : ℕ) (σ : Type) [Semaphore σ] (lib : Heap (Work ω) w → Prop)
    (plus : Int → Int → Int) : System (State ω w σ) (Label ω w) :=
  (system ω w σ lib plus).restrict fun s l => l.Client s

/-- **An execution of the front**: the record is back among the pending ones at its next
time, in the container or in the worker's hands. -/
theorem ClientInv.executed {s t : State ω w σ} {item : Record (Work ω) w} {o : Outcome}
    (hi : ClientInv s) (hs : Step lib plus s (.execute item o) t) :
    ∃ rest, s.worker = .loop ∧ s.queue.wqItemContainer = item :: rest ∧
      item.1.timePoint ≤ s.currentTimePoint ∧
      t.queue.nextWorkId = s.queue.nextWorkId ∧ t.currentTimePoint = s.currentTimePoint ∧
      t.queue.workerStoppedFlag = s.queue.workerStoppedFlag ∧
      (t.worker = .loop ∨ ∃ tp, t.worker = .syncing item tp) ∧
      (pending t).Perm (rest ++ again item (WorkQueue.executeWork plus item o)) := by
  cases hs with
  | @execute h o _ front _ rest q _ hw hc hwork hd hp =>
    obtain ⟨rest', u, hc', rfl, hperm, hheap⟩ :=
      WorkQueue.popRecord_eq_some hi.inv.heap (by simp [hc]) hp
    obtain ⟨rfl, rfl⟩ := List.cons.inj (hc.symm.trans hc')
    have huser := hi.user front (by rw [hc]; exact List.mem_cons_self)
    refine ⟨rest, hw, hc, hd, ?_⟩
    have hcall : (callWork front o
        { s with queue := { s.queue with wqItemContainer := u } }).1 = (callWork front o s).1 :=
      callWork_setContainer front o s u
    rcases executeWork_cases h plus front o
      { s with queue := { s.queue with wqItemContainer := u } } hi.inv.flag with
      ⟨-, -, e⟩ | ⟨-, -, e⟩ | ⟨hf, -, -⟩ | ⟨hf, -, -⟩
    · rw [hcall] at e
      rw [e]
      refine ⟨?_, rfl, finish_stopped .., .inl rfl, ?_⟩
      · rw [finish, WorkQueue.reschedule_eq]
      · exact (finish_pending _ _ _ hheap).2.trans (hperm.append_right _)
    · rw [hcall] at e
      rw [e]
      exact ⟨rfl, rfl, rfl, .inr ⟨_, rfl⟩, hperm.append_right _⟩
    · exact absurd hf huser
    · exact absurd hf huser

theorem ClientInv.step {s t : State ω w σ} {l : Label ω w} (hi : ClientInv s)
    (hs : (clientsOnly ω w σ lib plus).step s l t) : ClientInv t := by
  obtain ⟨hl, hs⟩ := hs
  have hit := hi.inv.step hs
  cases hs with
  | call h c hlib hw hadm =>
    refine ⟨hit, ?_, ?_⟩
    · intro r hr
      rcases WorkQueue.run_mem hl.1 hi.inv.heap hr with hm | ⟨now, cl, wk, st, p, rfl, -, hwk⟩ |
        ⟨cl, wk, st, p, rfl, -, hwk⟩
      · exact hi.user r hm
      · intro h'
        rw [h'] at hwk
        subst hwk
        exact hadm
      · intro h'
        rw [h'] at hwk
        subst hwk
        exact hadm
    · rcases WorkQueue.run_client (h := h) (q := s.queue) hl.1 with e | ⟨hrun, n, v, e, -⟩
      · rw [e]; exact hi.stage
      · rw [e]
        rcases hi.stage with ⟨-, hstop, -⟩ | hst
        · rw [hrun] at hstop; cases hstop
        · exact .inr hst
  | forwardTime tp _ => exact ⟨hit, hi.user, hi.stage⟩
  | setTime => exact absurd hl id
  | postForwarding => exact absurd hl id
  | completed => exact absurd hl id
  | startWorker hw _ => exact ⟨hit, hi.user, .inr ⟨by simp, by simp, rfl⟩⟩
  | lock hw => exact ⟨hit, hi.user, .inr ⟨by simp, by simp, hi.running (by simp [hw])⟩⟩
  | waitForWork hw _ => exact ⟨hit, hi.user, .inr ⟨by simp, by simp, hi.running (by simp [hw])⟩⟩
  | exit hw hc hnull =>
    exact absurd hnull (hi.inv.works (hi.running (by simp [hw])) _ (hc ▸ List.mem_cons_self))
  | restart hw _ _ _ _ =>
    exact ⟨hit, hi.user, .inr ⟨by simp [hw], by simp [hw], hi.running (by simp [hw])⟩⟩
  | waitForTime hw _ _ _ _ =>
    exact ⟨hit, hi.user, .inr ⟨by simp, by simp, hi.running (by simp [hw])⟩⟩
  | wake hw => exact ⟨hit, hi.user, .inr ⟨by simp, by simp, hi.running (by simp [hw])⟩⟩
  | changed hw _ => exact ⟨hit, hi.user, .inr ⟨by simp, by simp, hi.running (by simp [hw])⟩⟩
  | spurious hw _ =>
    exact ⟨hit, hi.user, .inr ⟨by simp [hw], by simp [hw], hi.running (by simp [hw])⟩⟩
  | @execute h o _ front item rest q hlib hw hc hwork hd hp =>
    obtain ⟨rest, -, hc, -, -, -, hrun, hw', hperm⟩ :=
      hi.executed (Step.execute h o hlib hw hc hwork hd hp)
    refine ⟨hit, ?_, .inr ⟨?_, ?_, hrun.trans (hi.running (by simp [hw]))⟩⟩
    · intro r hr
      rcases List.mem_append.mp (hperm.mem_iff.mp (List.mem_append_left _ hr)) with hm | hm
      · exact hi.user r (hc ▸ List.mem_cons_of_mem _ hm)
      · rw [(mem_again hm).2]
        exact hi.user item (hc ▸ List.mem_cons_self)
    · rcases hw' with e | ⟨tp, e⟩ <;> simp [e]
    · rcases hw' with e | ⟨tp, e⟩ <;> simp [e]
  | @syncReturn h _ item tp _ hw =>
    refine ⟨hit, ?_,
      .inr ⟨by simp [finish], by simp [finish],
        (finish_stopped ..).trans (hi.running (by simp [hw]))⟩⟩
    intro r hr
    have hperm := (finish_pending h item tp hi.inv.heap).2
    rcases List.mem_append.mp (hperm.mem_iff.mp (List.mem_append_left _ hr)) with hm | hm
    · exact hi.user r hm
    · rw [(mem_again hm).2]
      exact (hi.inv.hand item tp hw).2

theorem clientInv_initial {s : State ω w σ} (h : (system ω w σ lib plus).init s) :
    ClientInv s := by
  have hi := inv_initial h
  obtain ⟨now, sync, rfl⟩ := h
  exact ⟨hi, fun r hr => by simp [State.initial, Members.initial, WorkQueue.getClientId] at hr,
    .inl ⟨rfl, rfl, rfl⟩⟩

/-! ### The simulation -/

/-- The runs in which no call concerns a record that is to be put back. -/
def apart (ω : Type) (w : ℕ) (σ : Type) [Semaphore σ] (lib : Heap (Work ω) w → Prop)
    (plus : Int → Int → Int) : System (State ω w σ) (Label ω w) :=
  (clientsOnly ω w σ lib plus).restrict fun s l => l.Apart s

/-- The labels are, for a client, those of a run of the base class. -/
def RefinesBase (plus : Int → Int → Int) (l : List (Label ω w)) : Prop :=
  ∃ i m t, (WorkQueue.system (Work ω) w plus).init i ∧
    Run (WorkQueue.system (Work ω) w plus) i m t ∧ trace WorkQueue.event m = trace event l

/-- **Every step is matched from its end.** -/
theorem ClientInv.matches_step {s s' : State ω w σ} {l : Label ω w}
    {t' : WorkQueue.State (Work ω) w} (hi : ClientInv s)
    (hs : (apart ω w σ lib plus).step s l s') (hm : Matches s' t') :
    ∃ t m, Matches s t ∧ Run (WorkQueue.system (Work ω) w plus) t m t' ∧
      trace WorkQueue.event m = trace event [l] := by
  obtain ⟨ha, hl, hs⟩ := hs
  cases hs with
  | call h c _ _ _ => exact hi.matches_call hl.1 hl.2 ha hm
  | forwardTime tp hw =>
    cases hm with
    | notStarted hw =>
      exact ⟨_, _, .notStarted hw, .single (WorkQueue.Step.tick tp hl), rfl⟩
    | resting B hw hB hperm heq =>
      exact ⟨_, _, .resting B hw hB hperm heq, WorkQueue.resting_tick _ _ B hl, rfl⟩
  | setTime => exact absurd hl id
  | postForwarding => exact absurd hl id
  | completed => exact absurd hl id
  | startWorker hw _ =>
    rcases hi.stage with ⟨hw, -, hid⟩ | ⟨h1, h2, -⟩
    · cases hm with
      | notStarted h => cases h
      | resting B _ hB hperm heq =>
        obtain ⟨hc, -⟩ := hi.inv.parked (.inl hw)
        obtain ⟨m, hm, em⟩ :=
          WorkQueue.resting_start plus (ω := Work ω) (w := w) s.currentTimePoint
        rw [← hid, ← hc, ← heq rfl] at hm
        exact ⟨_, m, .notStarted hw, hm, em⟩
    · rcases hw with h | h
      · exact absurd h h1
      · exact absurd h h2
  | lock hw | waitForWork hw | waitForTime hw | wake hw | changed hw =>
    exact ⟨t', [], hm.silent (by simp) (by simp [hw]) rfl (by rw [hw]; rfl) rfl rfl rfl,
      .nil t', rfl⟩
  | restart hw | spurious hw =>
    exact ⟨t', [], hm.silent (by simp [hw]) (by simp [hw]) (by rw [hw]; rfl) (by rw [hw]; rfl)
      rfl rfl rfl, .nil t', rfl⟩
  | exit hw hc hnull =>
    exact absurd hnull (hi.inv.works (hi.running (by simp [hw])) _ (hc ▸ List.mem_cons_self))
  | @execute h o _ front item rest q hlib hw hc hwork hd hp =>
    have hw0 : s.worker ≠ .notStarted := by simp [hw]
    obtain ⟨rest, -, hc, hdue, hid, htime, -, hw', hpend⟩ :=
      hi.executed (Step.execute h o hlib hw hc hwork hd hp)
    have hpc : pending s = item :: rest := by simp [pending, hw, hc]
    cases hm with
    | notStarted hn => rcases hw' with e | ⟨tp, e⟩ <;> rw [e] at hn <;> cases hn
    | resting B _ hB hperm _ =>
      obtain ⟨m, hm, em⟩ := WorkQueue.resting_execute plus (n := s.queue.nextWorkId)
        (o := (callWork item o s).1) (hpc ▸ hi.works hw0) hdue hB (hperm.trans hpend)
      rw [hid, htime]
      refine ⟨_, m, .resting (item :: rest) hw0 (hc ▸ hi.inv.heap) (by rw [hpc]) (fun _ => hc.symm),
        hm, em⟩
  | @syncReturn h _ item tp hlib hw =>
    have hpend := (finish_pending h item tp hi.inv.heap).2
    cases hm with
    | notStarted h => cases h
    | resting B _ hB hperm heq =>
      have hid : (finish h item tp s).queue.nextWorkId = s.queue.nextWorkId := by
        rw [finish, WorkQueue.reschedule_eq]
      refine ⟨_, [], ?_, .nil _, rfl⟩
      rw [hid]
      refine .resting B (by simp [hw]) hB (hperm.trans ?_) fun hin => ?_
      · show (pending (finish h item tp s)).Perm (s.queue.wqItemContainer ++ inHand s.worker)
        rw [hw]
        exact hpend
      · have htp : isTimePointEmpty tp := by
          rw [hw] at hin
          by_contra hne
          simp [inHand, again, hne] at hin
        rw [heq rfl, finish, WorkQueue.reschedule, if_pos htp]

/-- **Where no call concerns a record in the worker's hands, the queue behaves like the
base class.** -/
theorem refines_base {i t : State ω w σ} {l : List (Label ω w)}
    (hi : (system ω w σ lib plus).init i) (hr : Run (apart ω w σ lib plus) i l t) :
    RefinesBase plus l := by
  have hstep : ∀ s a u, ClientInv s → (apart ω w σ lib plus).step s a u → ClientInv u :=
    fun _ _ _ h hs => h.step hs.2
  have hi0 := clientInv_initial hi
  obtain ⟨t', ht'⟩ := (hr.invariant hstep hi0).exists_matches
  obtain ⟨i', m, hi', hm, em⟩ := Transition.backward_simulation (R := Matches)
    (S := (apart ω w σ lib plus).restrict fun s _ => ClientInv s)
    (T := WorkQueue.system (Work ω) w plus) (fun s a s' t' hs hm => hs.1.matches_step hs.2 hm)
    (hr.strengthen hstep hi0) t' ht'
  obtain ⟨now, sync, rfl⟩ := hi
  cases hi' with
  | notStarted => exact ⟨_, m, t', ⟨rfl, rfl⟩, hm, em⟩
  | resting B hw => exact absurd rfl hw

/-! ### What is cancelled -/

/-- **After a cancelling call has returned**, none of its works is run again unless its
id is given to a new one. -/
def StaysCancelled (S : System (State ω w σ) (Label ω w)) (i : State ω w σ) : Prop :=
  ∀ l₁ s c reply s' l₂ u item outcome v, Run S i l₁ s → S.step s (.call c reply) s' →
    Run S s' l₂ u → S.step u (.execute item outcome) v → (ids (pending s)).Nodup →
    Covers s c item.2 → ∃ a ∈ l₂, Posts item.2 a

/-- The runs from `i` are for the clients runs of the base class, and what they cancel
stays cancelled. -/
def LikeBase (S : System (State ω w σ) (Label ω w)) (plus : Int → Int → Int)
    (i : State ω w σ) : Prop :=
  (∀ l t, Run S i l t → RefinesBase plus l) ∧ StaysCancelled S i

theorem ClientInv.stays_away {s t : State ω w σ} {l : Label ω w} {i : BitVec w}
    (hi : ClientInv s) (hs : (clientsOnly ω w σ lib plus).step s l t)
    (hno : i ∉ ids (pending s)) (hp : ¬ Posts i l) : i ∉ ids (pending t) := by
  obtain ⟨hl, hs⟩ := hs
  have same : pending t = pending s → i ∉ ids (pending t) := fun e => by rw [e]; exact hno
  cases hs with
  | call h c _ hw _ =>
    intro hm
    obtain ⟨item, hm⟩ := WorkQueue.mem_ids.mp hm
    rcases mem_pending.mp hm with hv | hx
    · rcases WorkQueue.run_mem hl.1 hi.inv.heap hv with hm | ⟨_, _, _, _, _, -, hr, -⟩ |
        ⟨_, _, _, _, -, hid, -⟩
      · exact hno (WorkQueue.mem_ids.mpr ⟨item, List.mem_append_left _ hm⟩)
      · rw [hr] at hp
        exact hp rfl
      · rw [pending, WorkQueue.ids_append] at hno
        exact hno (List.mem_append_left _ hid)
    · exact hno (WorkQueue.mem_ids.mpr ⟨item, List.mem_append_right _ hx⟩)
  | forwardTime => exact same rfl
  | setTime => exact absurd hl id
  | postForwarding => exact absurd hl id
  | completed => exact absurd hl id
  | startWorker hw _ => exact same (by rcases hw with hw | hw <;> simp [pending, hw, inHand])
  | lock hw => exact same (by simp [pending, hw, inHand])
  | waitForWork hw _ => exact same (by simp [pending, hw, inHand])
  | exit hw hc _ =>
    intro hm
    simp [pending, inHand, ids] at hm
  | restart hw _ _ _ _ => exact same (by simp [pending, hw])
  | waitForTime hw _ _ _ _ => exact same (by simp [pending, hw, inHand])
  | wake hw => exact same (by simp [pending, hw, inHand])
  | changed hw _ => exact same (by simp [pending, hw, inHand])
  | spurious hw _ => exact same (by simp [pending, hw])
  | @execute h o _ front item rest q hlib hw hc hwork hd hp' =>
    obtain ⟨rest, -, hc, -, -, -, -, -, hperm⟩ :=
      hi.executed (Step.execute h o hlib hw hc hwork hd hp')
    intro hm
    obtain ⟨x, hm⟩ := WorkQueue.mem_ids.mp hm
    rw [pending, hc, WorkQueue.ids_append, WorkQueue.ids_cons] at hno
    rcases List.mem_append.mp (hperm.mem_iff.mp hm) with hr | hr
    · exact hno (List.mem_append_left _
        (List.mem_cons_of_mem _ (WorkQueue.mem_ids.mpr ⟨x, hr⟩)))
    · rw [(Prod.mk.inj (mem_again hr).2).2] at hno
      exact hno (List.mem_append_left _ List.mem_cons_self)
  | @syncReturn h _ item tp hlib hw =>
    intro hm
    obtain ⟨x, hm⟩ := WorkQueue.mem_ids.mp hm
    rw [(finish_pending _ _ _ hi.inv.heap).2.mem_iff] at hm
    refine hno (WorkQueue.mem_ids.mpr ⟨x, ?_⟩)
    rw [pending, hw]
    exact hm

theorem apart_staysCancelled {i : State ω w σ} (hi : (system ω w σ lib plus).init i) :
    StaysCancelled (apart ω w σ lib plus) i := by
  intro l₁ s c reply s' l₂ u item o v hr hcall hr' hex hn hcov
  have hstep : ∀ s a u, ClientInv s → (apart ω w σ lib plus).step s a u → ClientInv u :=
    fun _ _ _ h hs => h.step hs.2
  have his := hr.invariant hstep (clientInv_initial hi)
  have haway : item.2 ∉ ids (pending s') := by
    obtain ⟨ha, -, hs⟩ := hcall
    cases hs with
    | call h _ _ _ _ => exact his.cancelled ha hn hcov
  -- along the rest of the run the id is posted, or it is not pending
  have hrest : ClientInv u ∧ ((∃ a ∈ l₂, Posts item.2 a) ∨ item.2 ∉ ids (pending u)) := by
    refine hr'.history_invariant
      (P := fun l u => ClientInv u ∧ ((∃ a ∈ l, Posts item.2 a) ∨ item.2 ∉ ids (pending u)))
      (fun l s a t hs ha => ⟨hstep _ _ _ hs.1 ha, ?_⟩) ⟨hstep _ _ _ his hcall, .inr haway⟩
    rcases hs.2 with ⟨b, hb, hpost⟩ | hno
    · exact .inl ⟨b, List.mem_append_left _ hb, hpost⟩
    by_cases hpost : Posts item.2 a
    · exact .inl ⟨a, by simp, hpost⟩
    · exact .inr (hs.1.stays_away ha.2 hno hpost)
  rcases hrest.2 with h | hno
  · exact h
  obtain ⟨rest, -, hc, -⟩ := hrest.1.executed hex.2.2
  exact absurd (WorkQueue.mem_ids.mpr ⟨item.1, by simp [pending, hc]⟩) hno

/-- **Apart from the records in the worker's hands** the work queue for tests is, for its
clients, like the base class. -/
theorem apart_likeBase {i : State ω w σ} (hi : (system ω w σ lib plus).init i) :
    LikeBase (apart ω w σ lib plus) plus i :=
  ⟨fun _ _ => refines_base hi, apart_staysCancelled hi⟩

theorem apart_likeBase_atFive :
    LikeBase (apart Unit 64 ℕ StdHeap.Algorithms.FrontStable (· + ·)) (· + ·)
      (State.initial 5 true) :=
  apart_likeBase ⟨5, true, rfl⟩

def periodic (now : Int) (v : List (Record (Work Unit) 64)) (flag : Bool)
    (pc : WorkerPc Unit 64) : State Unit 64 ℕ :=
  let s : State Unit 64 ℕ := State.initial now true
  { s with
    queue := { s.queue with
      nextWorkId := 0, wqItemContainer := v, containerChangeFlag := flag,
      workerStoppedFlag := false, wakeUpPending := true }
    worker := pc }

def everyTick (tp : Int) : Record (Work Unit) 64 := (⟨tp, 0, some (.user ()), 1⟩, 0)

theorem frontStable_siftHeap : (WorkQueue.siftHeap (Work Unit) 64).FrontStable :=
  StdHeap.Algorithms.sift_frontStable WorkQueue.recordCompare_strictWeak

/-- **A periodic work that is cancelled during its callback is run again.** -/
theorem clientsOnly_not_likeBase : ∃ i,
    (system Unit 64 ℕ StdHeap.Algorithms.FrontStable (· + ·)).init i ∧
      ¬ LikeBase (clientsOnly Unit 64 ℕ StdHeap.Algorithms.FrontStable (· + ·)) (· + ·) i := by
  refine ⟨State.initial 5 true, ⟨5, true, rfl⟩, ?_⟩
  intro hlike
  let S := clientsOnly Unit 64 ℕ StdHeap.Algorithms.FrontStable (· + ·)
  -- the work is posted and run once
  have h1 : Run S (State.initial 5 true)
      [.startWorker, .call (.scheduleWork 5 0 (some (.user ())) 5 1) (.posted .success 0), .lock,
        .execute (everyTick 5) (.returned true)]
      (periodic 5 [] true (.syncing (everyTick 5) 6)) :=
    .cons ⟨trivial, .startWorker (.inl rfl) rfl⟩
      (.cons ⟨⟨trivial, Int.le_refl 5⟩, .call (WorkQueue.siftHeap (Work Unit) 64)
          (.scheduleWork 5 0 (some (.user ())) 5 1) frontStable_siftHeap (by simp) trivial⟩
        (.cons ⟨trivial, .lock rfl⟩
          (.single ⟨trivial, .execute (WorkQueue.siftHeap (Work Unit) 64) (.returned true)
            frontStable_siftHeap rfl (by decide : _ = [everyTick 5]) (by decide)
            (Int.le_refl 5) rfl⟩)))
  -- it is cancelled, and put back
  have h2 : S.step (periodic 5 [] true (.syncing (everyTick 5) 6))
      (.call (.cancelWork 0) (.status .notFound))
      (periodic 5 [] true (.syncing (everyTick 5) 6)) :=
    ⟨⟨trivial, trivial⟩, .call (WorkQueue.siftHeap (Work Unit) 64) (.cancelWork 0)
      frontStable_siftHeap (by simp [periodic]) trivial⟩
  have h3 : Run S (periodic 5 [] true (.syncing (everyTick 5) 6))
      [.syncReturn, .restart, .waitForTime, .forwardTime 6, .changed]
      (periodic 6 [everyTick 6] false .loop) :=
    .cons ⟨trivial, .syncReturn (WorkQueue.siftHeap (Work Unit) 64) frontStable_siftHeap rfl⟩
      (.cons ⟨trivial, .restart rfl (by decide : _ = [everyTick 6]) (by decide) (by decide) rfl⟩
        (.cons ⟨trivial, .waitForTime rfl (by decide : _ = [everyTick 6]) (by decide)
            (by decide) rfl⟩
          (.cons ⟨(by decide : (5 : Int) ≤ 6), .forwardTime 6 (by simp)⟩
            (.single ⟨trivial, .changed rfl rfl⟩))))
  have h4 : ∃ v, S.step (periodic 6 [everyTick 6] false .loop)
      (.execute (everyTick 6) (.returned true)) v :=
    ⟨_, trivial, .execute (WorkQueue.siftHeap (Work Unit) 64) (.returned true)
      frontStable_siftHeap rfl (by decide : _ = [everyTick 6]) (by decide) (Int.le_refl 6) rfl⟩
  obtain ⟨v, h4⟩ := h4
  obtain ⟨a, ha, hpost⟩ := hlike.2 _ _ _ _ _ _ _ _ _ _ h1 h2 h3 h4 (by decide) rfl
  simp only [List.mem_cons, List.not_mem_nil, or_false] at ha
  rcases ha with rfl | rfl | rfl | rfl | rfl <;> exact hpost

end Mqmx.Testing

import Mqmx.Pool.Work

/-!
# The pool comes to rest

When no more calls are made, those under way return and the worker goes through what there is,
in however the steps alternate: `comes_to_rest`.  And after the destructor has sent its message
the worker exits, so that `join` returns: `worker_exits`.

Every step takes something off what is left to do, so it is enough to see where there is no
step.  Who waits then for a semaphore would wait in vain (`Answered`).
-/

namespace Mqmx.Pool

open Transition (System Run Settles)

variable {A T H U σ : Type} [DecidableEq A] [DecidableEq T] [Semaphore σ] {mqControl : A}
  {capacity : ℕ} {s t : State A T H U σ} {x : Label A T H U}

/-- No call begins any more. -/
def finishing (mqControl : A) (capacity : ℕ) : System (State A T H U σ) (Label A T H U) :=
  (system mqControl capacity).restrict fun _ x => x.Inner

/-! ### Where there is no step -/

def Stuck (mqControl : A) (s : State A T H U σ) : Prop :=
  ∀ x t, Step mqControl s x t → ¬ x.Inner

theorem Working.worker_stuck (h : Working mqControl capacity s) (hstuck : Stuck mqControl s) :
    s.worker = .exited ∨ s.worker = .parked ∨
      ∃ range, s.worker = .poll (.wait range) ∧ s.memory.notifications .worker = [] := by
  cases hw : s.worker with
  | start => exact (hstuck _ _ (.begin hw) trivial).elim
  | poll p =>
    cases p with
    | attach set rest =>
      cases rest with
      | nil => exact (hstuck _ _ (.poll hw .ready) trivial).elim
      | cons a rest => exact (hstuck _ _ (.poll hw .attach) trivial).elim
    | wait range =>
      by_cases hn : s.memory.notifications .worker = []
      · exact .inr (.inr ⟨range, rfl, hn⟩)
      · exact (hstuck _ _ (.poll hw (.wake rfl hn)) trivial).elim
    | detach rest result =>
      cases rest with
      | nil => exact (hstuck _ _ (.take hw) trivial).elim
      | cons a rest => exact (hstuck _ _ (.poll hw .detach) trivial).elim
  | notes mqlist =>
    cases mqlist with
    | nil => exact (hstuck _ _ (.again hw) trivial).elim
    | cons rec mqlist => exact (hstuck _ _ (.examine hw) trivial).elim
  | handle rec mqlist =>
    by_cases hpop : ∃ a msg m, rec.mq = some a ∧ s.memory.pop a = some (some msg, m)
    · obtain ⟨a, msg, m, ha, hm⟩ := hpop
      exact (hstuck _ _ (.pop hw ha hm) trivial).elim
    · exact (hstuck _ _ (.popNothing hw fun a ha msg m hm =>
        hpop ⟨a, msg, m, ha, hm⟩) trivial).elim
  | call rec msg mqlist =>
    have hmem : rec ∈ s.worker.records := by
      rw [hw]
      exact List.mem_cons_self
    obtain ⟨c, hc⟩ := h.listening.slot hmem
    cases c with
    | control =>
      obtain ⟨⟨status, mqs, sem⟩, hr⟩ :=
        h.commands.controlQueueHandler hw (h.listening.slots.control_iff.mp hc)
      exact (hstuck _ _ (.control hw hc hr) trivial).elim
    | client hd => exact (hstuck _ _ (.handle hw hc) trivial).elim
  | inHandler rec mqlist => exact (hstuck _ _ (.returned .threw hw) trivial).elim
  | pausing => exact (hstuck _ _ (.pause hw) trivial).elim
  | parked => exact .inr (.inl rfl)
  | exited => exact .inl rfl
  | aborted => exact absurd hw h.running

omit [DecidableEq A] [DecidableEq T] in
theorem wait_cases (v : σ) : Semaphore.value v = 0 ∨ ∃ v', Semaphore.wait v = some v' := by
  cases hv : Semaphore.wait v with
  | none => exact .inl ((Semaphore.wait_eq_none v).mp hv)
  | some v' => exact .inr ⟨v', rfl⟩

theorem Working.client_stuck (h : Working mqControl capacity s) (hstuck : Stuck mqControl s)
    (u : T) :
    (s.client u = .idle ∨ s.client u = .aborted) ∨
      ((s.client u).Waits ∧ Semaphore.value (s.sem u) = 0) ∨
      (s.client u = .pausing ∧ Semaphore.value s.semPause = 0) := by
  cases hu : s.client u with
  | idle => exact .inl (.inl rfl)
  | aborted => exact .inl (.inr rfl)
  | adding mq =>
    obtain ⟨m, hm⟩ := h.defined.enqueue addQueueMessageId (.add mq u)
    exact (hstuck _ _ (.add hu hm) trivial).elim
  | added mq =>
    rcases wait_cases (s.sem u) with hv | ⟨v, hv⟩
    · exact .inr (.inl ⟨trivial, hv⟩)
    · exact (hstuck _ _ (.allocated hu hv) trivial).elim
  | checking mq => exact (hstuck _ _ (.check hu) trivial).elim
  | removing mq =>
    obtain ⟨m, hm⟩ := h.defined.enqueue removeQueueMessageId (.remove mq u)
    exact (hstuck _ _ (.remove hu hm) trivial).elim
  | removed mq =>
    rcases wait_cases (s.sem u) with hv | ⟨v, hv⟩
    · exact .inr (.inl ⟨trivial, hv⟩)
    · exact (hstuck _ _ (.removed hu hv) trivial).elim
  | freeing mq => exact (hstuck _ _ (.free hu) trivial).elim
  | pausing =>
    rcases wait_cases s.semPause with hv | ⟨v, hv⟩
    · exact .inr (.inr ⟨rfl, hv⟩)
    · exact (hstuck _ _ (.paused hu hv) trivial).elim
  | start => exact (hstuck _ _ (.beginClient hu) trivial).elim
  | poll p =>
    have hne : Party.client u ≠ Party.worker := by simp
    cases p with
    | attach set rest =>
      cases rest with
      | nil => exact (hstuck _ _ (.pollClient hu .ready) trivial).elim
      | cons a rest => exact (hstuck _ _ (.pollClient hu .attach) trivial).elim
    | wait range => exact (hstuck _ _ (.pollClient hu (.look hne)) trivial).elim
    | detach rest result =>
      cases rest with
      | nil => exact (hstuck _ _ (.polled hu) trivial).elim
      | cons a rest => exact (hstuck _ _ (.pollClient hu .detach) trivial).elim
  | polled b => exact (hstuck _ _ (.answer hu) trivial).elim

/-- Nothing is left to do. -/
structure Resting (s : State A T H U σ) : Prop where
  worker : ∃ range, s.worker = .poll (.wait range)
  told : s.memory.notifications .worker = []
  empty : ∀ a ∈ s.mqs, s.memory.messages a = []
  idle : ∀ u, s.client u = .idle ∨ s.client u = .aborted

theorem Answered.not_parked {ls : List (Label A T H U)} (h : Answered mqControl capacity ls s)
    (hw : Working mqControl capacity s) (hstuck : Stuck mqControl s) : s.worker ≠ .parked := by
  intro hp
  obtain ⟨k, hk⟩ := hw.listening.token
  cases k with
  | worker => exact absurd rfl (hk.worker.mp hp)
  | pause =>
    have hsem := hk.pause
    obtain ⟨us, -, hus, hlen⟩ := h.callers
    rw [if_pos rfl] at hsem
    obtain ⟨u, hu⟩ : ∃ u, u ∈ us := List.exists_mem_of_length_pos (by omega)
    have hpc := (hus u).mp hu
    rcases hw.client_stuck hstuck u with (e | e) | ⟨hwait, -⟩ | ⟨-, hv⟩
    · rw [hpc] at e
      cases e
    · rw [hpc] at e
      cases e
    · rw [hpc] at hwait
      exact hwait
    · omega
  | client u =>
    have hu := (hk.client u).mpr rfl
    rcases hw.client_stuck hstuck u with (e | e) | ⟨hwait, -⟩ | ⟨e, -⟩
    · rw [e] at hu
      exact hu
    · rw [e] at hu
      exact hu
    · cases hpc : s.client u <;> rw [hpc] at hu hwait <;> first | exact hu | exact hwait
    · rw [e] at hu
      exact hu
  | resume =>
    have hsem := hk.resume
    rw [if_pos rfl] at hsem
    rcases wait_cases s.semResume with hv | ⟨v, hv⟩
    · omega
    · exact hstuck _ _ (.resume hp hv) trivial

/-- **Where there is no step the worker has exited, or nothing is left to do.** -/
theorem Answered.rests {ls : List (Label A T H U)} (h : Answered mqControl capacity ls s)
    (hw : Working mqControl capacity s) (hstuck : Stuck mqControl s) :
    s.worker = .exited ∨ Resting s := by
  rcases hw.worker_stuck hstuck with he | hp | ⟨range, hwait, hn⟩
  · exact .inl he
  · exact absurd hp (h.not_parked hw hstuck)
  have hempty := hw.listening.blocked hwait hn
  have hcommands : s.commands mqControl = [] := by
    rw [State.commands, hempty mqControl hw.listening.slots.registry.ledger.mem_control, hwait]
    rfl
  refine .inr ⟨⟨range, hwait⟩, hn, hempty, fun u => ?_⟩
  rcases hw.client_stuck hstuck u with hu | ⟨hu, hv⟩ | ⟨hu, hv⟩
  · exact hu
  · -- its request is not on its way, so its semaphore is up
    obtain ⟨r, rfl, hr⟩ : ∃ r : Request A T, r.sem = u ∧ s.client r.sem = r.pc := by
      cases hpc : s.client u with
      | added mq => exact ⟨.add mq u, rfl, hpc⟩
      | removed mq => exact ⟨.remove mq u, rfl, hpc⟩
      | _ => rw [hpc] at hu; exact hu.elim
    rcases h.waits r hr with hmem | hone
    · rw [h.commands.requests, hcommands] at hmem
      cases hmem
    · omega
  · obtain ⟨us, -, hus, hlen⟩ := h.callers
    have hpauses : s.pauses mqControl = 0 := by
      rw [State.pauses, hcommands, hwait]
      rfl
    have hnil : us = [] := List.length_eq_zero_iff.mp (by omega)
    have hmem := (hus u).mpr hu
    rw [hnil] at hmem
    cases hmem

/-! ### The message of the destructor -/

omit [DecidableEq A] [DecidableEq T] in
theorem afterControl_exited (rec : NotificationRec A) (mqlist : List (NotificationRec A))
    (st : ExitStatus) :
    (afterControl rec mqlist st : WorkerPc A T U) = .exited ↔ st = .haltRequested := by
  cases st <;> simp [afterControl]

theorem Step.exited (hs : Step mqControl s x t) :
    t.worker = .exited ↔ s.worker = .exited ∨ ∃ msg, x = .control msg (some .haltRequested) := by
  cases hs with
  | @examine rec mqlist hw =>
    rcases examine_cases (A := A) (T := T) (U := U) s.handler rec mqlist with e | ⟨-, e⟩ | e <;>
      simp [e, hw]
  | @returned rec mqlist o hw =>
    rcases afterHandler_cases (A := A) (T := T) (U := U) rec mqlist o with e | e <;> simp [e, hw]
  | control hw => simp [hw, afterControl_exited]
  | begin hw | poll hw | take hw | again hw | pop hw | popNothing hw => simp [hw]
  | controlAborts hw | handle hw | badCall hw | pause hw | resume hw => simp [hw]
  | _ => simp [State.goto]

omit [DecidableEq T] in
/-- The worker halts for the message of the destructor, and for no other. -/
theorem Command.halts {m : PoolMemory A T U} {mqs mqs' : List A} {msg : Message (Body A T U)}
    {status : ExitStatus} {sem : Option T} (h : Command msg)
    (hc : controlQueueHandler m mqs msg = some (status, mqs', sem)) :
    status = .haltRequested ↔ msg.mid = terminateMessageId := by
  cases h with
  | terminate | pause | remove => cases hc; simp [pollPauseMessageId, removeQueueMessageId,
      terminateMessageId]
  | add qid mq u =>
    have hc : (insertQueue m mqs mq).map (.success, ·, some u) = some (status, mqs', sem) := hc
    obtain ⟨v, -, e⟩ := Option.map_eq_some_iff.mp hc
    cases e
    simp [addQueueMessageId, terminateMessageId]

def Halting (mqControl : A) (s : State A T H U σ) : Prop :=
  s.worker = .exited ∨ ∃ msg ∈ s.commands mqControl, msg.mid = terminateMessageId

omit [DecidableEq A] [DecidableEq T] in
theorem command?_terminate {msg : Message (Body A T U)} (h : x.command? = some msg) :
    msg.mid = terminateMessageId ↔ x = .terminate := by
  cases x <;> cases h <;>
    simp [addQueueMessageId, removeQueueMessageId, pollPauseMessageId, terminateMessageId]

theorem Commands.halting_step (h : Commands mqControl capacity s) (hp : x.Pushes mqControl s)
    (hs : Step mqControl s x t) : Halting mqControl t ↔ Halting mqControl s ∨ x = .terminate := by
  simp only [Halting, hs.exited]
  cases h.traffic hp hs with
  | send hx e =>
    have hnot : ¬ ∃ msg, x = .control msg (some .haltRequested) := fun ⟨msg, e⟩ => hx _ _ e
    have hterm : (∃ msg, x.command? = some msg ∧ msg.mid = terminateMessageId) ↔
        x = .terminate := by
      constructor
      · rintro ⟨msg, hmsg, hmid⟩
        exact (command?_terminate hmsg).mp hmid
      · rintro rfl
        exact ⟨_, rfl, rfl⟩
    simp only [e, hnot, or_false, List.mem_append, Option.mem_toList, or_and_right, exists_or,
      hterm, or_assoc]
  | serve msg status hx e hserve =>
    subst hx
    have hcmd : Command msg := h.command msg (by rw [e]; exact List.mem_cons_self)
    have hhalt : status = .haltRequested ↔ msg.mid = terminateMessageId := by
      cases hs with
      | control _ _ hc => exact hcmd.halts hc
    simp only [e, List.mem_cons, exists_eq_or_imp, ← hhalt]
    simp [or_assoc]

theorem halting_run {ls : List (Label A T H U)}
    (hr : Run (pushing mqControl capacity) (.initial mqControl capacity) ls s) :
    Halting mqControl s ↔ Label.terminate ∈ ls := by
  refine (hr.history_invariant (S := pushing mqControl capacity)
    (P := fun ls s => Commands mqControl capacity s ∧
      (Halting mqControl s ↔ Label.terminate ∈ ls)) ?_ ⟨commands_initial mqControl capacity, ?_⟩).2
  · rintro ls s x t ⟨hc, h⟩ ⟨hp, hs⟩
    refine ⟨hc.step hp hs, ?_⟩
    rw [hc.halting_step hp hs, h, List.mem_append, List.mem_singleton, eq_comm]
  · simp [Halting, State.commands, State.initial, WorkerPc.handOf, Memory.messages]

/-! ### Runs -/

/-- What was done before the last calls began, and since. -/
structure Finishes (mqControl : A) (capacity : ℕ) (ls l : List (Label A T H U))
    (t : State A T H U σ) : Prop where
  run : Run (pushing mqControl capacity) (.initial mqControl capacity) (ls ++ l) t
  inner : ∀ x ∈ l, x.Inner

theorem Finishes.step {ls l : List (Label A T H U)} (h : Finishes mqControl capacity ls l s)
    (hs : (finishing mqControl capacity).step s x t) :
    Finishes mqControl capacity ls (l ++ [x]) t where
  run := by
    rw [← List.append_assoc]
    exact h.run.snoc ⟨hs.1.pushes, hs.2⟩
  inner := by
    simp only [List.forall_mem_append, List.forall_mem_singleton]
    exact ⟨h.inner, hs.1⟩

/-- **When no more calls are made every run ends**, with nothing left to do or with the worker
gone. -/
theorem settles_run {ls : List (Label A T H U)}
    (hr : Run (pushing mqControl capacity) (.initial mqControl capacity) ls s) :
    ∃ n, Settles (finishing mqControl capacity) s n fun l t =>
      Finishes mqControl capacity ls l t ∧ (t.worker = .exited ∨ Resting t) := by
  obtain ⟨as, ts, hsup⟩ := exists_supports hr
  refine ⟨s.work as ts, .of_measure
    (P := fun l t => Finishes mqControl capacity ls l t ∧ Supports mqControl as ts t)
    (State.work as ts) ?_ ?_ ⟨⟨by rwa [List.append_nil], by simp⟩, hsup⟩⟩
  · rintro l u x t ⟨hl, hu⟩ hx
    exact ⟨⟨hl.step hx, hu.inner hx.1.pushes hx.1 hx.2⟩,
      (working_run hl.run).work_lt hu hx.1 hx.2⟩
  · rintro l u ⟨hl, -⟩ hno
    exact ⟨hl, (answered_run hl.run).rests (working_run hl.run)
      fun x t hs hx => hno x t ⟨hx, hs⟩⟩

omit [DecidableEq T] [Semaphore σ] in
theorem pushed_inner (a : A) {ls l : List (Label A T H U)} (h : ∀ x ∈ l, x.Inner) :
    pushed a (ls ++ l) = pushed a ls := by
  have hnil : l.filterMap (Label.pushed? a) = [] := by
    rw [List.filterMap_eq_nil_iff]
    intro x hx
    cases x with
    | op => exact (h _ hx).elim
    | _ => rfl
  rw [pushed, List.filterMap_append, hnil, List.append_nil, pushed]

/-- The worker waits, all queues are empty, and all calls have returned.  What was pushed has
been handled. -/
structure AtRest (ls l : List (Label A T H U)) (t : State A T H U σ) : Prop extends
    Resting t where
  handled : ∀ u h a k, Label.allocate u h a k ∈ ls → a ∈ t.mqs →
    handled k (ls ++ l) = pushed a ls

/-- **The pool comes to rest** when no more calls are made, as long as nobody destroys it. -/
theorem comes_to_rest {ls : List (Label A T H U)}
    (hr : Run (pushing mqControl capacity) (.initial mqControl capacity) ls s)
    (hlive : Label.terminate ∉ ls) :
    ∃ n, Settles (finishing mqControl capacity) s n (AtRest ls) := by
  obtain ⟨n, hn⟩ := settles_run hr
  refine ⟨n, hn.bounded, fun l t hl hno => ?_⟩
  obtain ⟨hfin, hrest⟩ := hn.rests l t hl hno
  have hnot : Label.terminate ∉ ls ++ l := by
    rw [List.mem_append]
    exact fun hor => hor.elim hlive fun hmem => hfin.inner _ hmem
  have hrest := hrest.resolve_left fun he => hnot ((halting_run hfin.run).mp (.inl he))
  refine ⟨hrest, fun u h a k hmade ha => ?_⟩
  obtain ⟨range, hw⟩ := hrest.worker
  have hd := deliveries_run hfin.run
  have hmade' := hd.made u h a k (List.mem_append_left l hmade)
  -- nothing is in the queue, and nothing in the worker's hands
  rw [← pushed_inner a hfin.inner, hmade'.rest (hd.listening.alive ha),
    hd.listening.blocked hw hrest.told a ha, hw]
  simp [WorkerPc.handOf]

/-- **The worker exits** after the destructor has sent its message. -/
theorem worker_exits {ls : List (Label A T H U)}
    (hr : Run (pushing mqControl capacity) (.initial mqControl capacity) ls s)
    (hterm : Label.terminate ∈ ls) :
    ∃ n, Settles (finishing mqControl capacity) s n fun _ t => t.worker = .exited := by
  obtain ⟨n, hn⟩ := settles_run hr
  refine ⟨n, hn.bounded, fun l t hl hno => ?_⟩
  obtain ⟨hfin, he | hrest⟩ := hn.rests l t hl hno
  · exact he
  -- a worker that waits has no message to come
  have h := working_run hfin.run
  obtain ⟨range, hw⟩ := hrest.worker
  have hcommands : t.commands mqControl = [] := by
    rw [State.commands, hw,
      hrest.empty mqControl h.listening.slots.registry.ledger.mem_control]
    rfl
  rcases (halting_run hfin.run).mpr (List.mem_append_left l hterm) with he | ⟨msg, hmsg, -⟩
  · exact he
  · rw [hcommands] at hmsg
    cases hmsg

/-- A queue that is being taken in, with a message. -/
theorem comes_to_rest_one : ∃ (s : State ℕ Unit Unit Unit ℕ) (n : ℕ), Run (pushing 0 1) one
    [.allocate () () 1 1, .op (.push 1 (some ⟨1, 7, .user ()⟩)) (.pushed .success none)] s ∧
    Settles (finishing 0 1) s n
      (AtRest [.allocate () () 1 1,
        .op (.push 1 (some ⟨1, 7, .user ()⟩)) (.pushed .success none)]) := by
  have hrun : Run (pushing 0 1) one
      [.allocate () () 1 1, .op (.push 1 (some ⟨1, 7, .user ()⟩)) (.pushed .success none)] _ :=
    .cons ⟨trivial, .allocate rfl (by decide) rfl⟩
      (.single ⟨⟨1, some ⟨1, 7, .user ()⟩, rfl, by decide, by simp [request?]⟩, .op _ rfl⟩)
  obtain ⟨n, hn⟩ := comes_to_rest hrun (by simp)
  exact ⟨_, n, hrun, hn⟩

theorem worker_exits_one : ∃ (s : State ℕ Unit Unit Unit ℕ) (n : ℕ),
    Run (pushing 0 1) one [.isPollIdle (), .terminate] s ∧
      Settles (finishing 0 1) s n fun _ t => t.worker = .exited := by
  have hrun : Run (pushing 0 1) one [.isPollIdle (), .terminate] _ :=
    .cons ⟨trivial, .isPollIdle rfl rfl⟩ (.single ⟨trivial, .terminate rfl⟩)
  obtain ⟨n, hn⟩ := worker_exits hrun (by simp)
  exact ⟨_, n, hrun, hn⟩

end Mqmx.Pool
